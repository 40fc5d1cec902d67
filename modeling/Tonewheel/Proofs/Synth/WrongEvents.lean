import Mathlib.Logic.Function.Iterate
import Tonewheel.Proofs.Song.Moves
import Tonewheel.Proofs.Synth.FrameByFrame
import Tonewheel.Proofs.Synth.Sequencing

/-!
# Behind a wrong event (SPEC_FULL, section 4.5)

A step that finds a wrong event goes behind its first byte, as does a seek that comes to one
(`Player.IsBehind`), and the step after it reads on from there. It finds the same error where the
byte is a reserved one and comes again (`again_iff`), and sooner or later something else
(`exists_step_ne_error`). So an error is final in those songs only in which there is none
(`stays_ended_iff`). A synthesizer drops a song at the first error that it plays on to, but not for
one that a seek comes to.
-/

namespace Tonewheel

namespace Song

/-- Whether a byte is the reserved one that an error is about. -/
def Again (data : Array UInt8) (e : DecodeError) (i : Nat) : Prop :=
  ∃ lead, e = .reservedEvent lead ∧ data[i]? = some lead

theorem item_reserved {data : Array UInt8} {i : Nat} {lead : UInt8} (hbyte : data[i]? = some lead)
    (hhigh : 0x80 ≤ lead) (hlength : itemLength lead = 0) :
    item data i = .error (.reservedEvent lead) := by
  have hzero : lead ≠ 0 := by
    rintro rfl
    revert hhigh
    decide
  rw [item, hbyte]
  dsimp only
  rw [if_neg hzero, if_neg (UInt8.not_lt.mpr hhigh), event_reserved hhigh hlength]
  rfl

/-- A later byte is as wrong as one before it if it is the same reserved one. An event that data
cuts off is told by its place. -/
theorem item_again {data : Array UInt8} {i j : Nat} {e : DecodeError} (h : item data i = .error e)
    (hij : i < j) : item data j = .error e ↔ Again data e j := by
  have hfound := found_item data i
  rw [h] at hfound
  constructor
  · intro hj
    have hagain := found_item data j
    rw [hj] at hagain
    cases hagain with
    | reserved hbyte => exact ⟨_, rfl, hbyte⟩
    | truncated =>
      cases hfound with
      | truncated => exact absurd hij (Nat.lt_irrefl _)
  · rintro ⟨lead, rfl, hbyte⟩
    cases hfound with
    | reserved _ hhigh hlength => exact item_reserved hbyte hhigh hlength

end Song

namespace Player

/-! ### Behind a wrong event -/

/-- Whether a player stands behind the first byte of a wrong event. -/
structure IsBehind (p : Player) (e : DecodeError) : Prop where
  delay : p.delay = 0
  wrong : ∃ place, Song.item p.song.data place = .error e ∧ p.offset = place + 1

theorem isBehind_plain {p : Player} {e : DecodeError} (h : (p.step false).1 = .error e) :
    (p.step false).2.IsBehind e := by
  obtain ⟨hdelay, hitem⟩ := step_error_iff.mp h
  rw [step_wrong hdelay hitem]
  exact ⟨hdelay, _, hitem, rfl⟩

theorem isBehind_step {p : Player} {skip : Bool} {e : DecodeError}
    (h : (p.step skip).1 = .error e) : (p.step skip).2.IsBehind e := by
  obtain ⟨events, q, -, hyields, -, -⟩ := p.step_way skip
  rw [hyields] at h ⊢
  exact isBehind_plain h

theorem seek_of_error {p q : Player} {beats : Float} {left : Nat} {e : DecodeError}
    (hrounds : ComesTo seekRound (p.rewound, p.seekFrames beats) (q, left + 1))
    (herror : (q.step true).1 = .error e) : p.seek beats = (q.step true).2 := by
  rw [seek_eq, skipFrames_of_comesTo hrounds, skipFrames_eq, seekRound]
  generalize q.step true = result at herror
  obtain ⟨found, r⟩ := result
  obtain rfl : found = .error e := herror
  rfl

theorem isBehind_seek {p : Player} {beats : Float} {e : DecodeError} (h : p.SeekMeets beats e) :
    (p.seek beats).IsBehind e := by
  obtain ⟨q, left, hrounds, herror⟩ := h
  rw [seek_of_error hrounds herror]
  exact isBehind_step herror

theorem IsBehind.step_iff {p : Player} {e : DecodeError} (h : p.IsBehind e) :
    (p.step false).1 = .error e ↔ Song.Again p.song.data e p.offset := by
  obtain ⟨hdelay, place, hitem, hoffset⟩ := h
  rw [step_error_iff, and_iff_right hdelay, Song.item_again hitem (by omega)]

/-- The error comes again for as many steps as the reserved byte does. -/
theorem IsBehind.again_iff {p : Player} {e : DecodeError} (h : p.IsBehind e) (count : Nat) :
    (∀ k < count, (((fun q : Player => (q.step false).2)^[k] p).step false).1 = .error e)
      ↔ ∀ k < count, Song.Again p.song.data e (p.offset + k) := by
  induction count generalizing p with
  | zero => simp
  | succ count ih =>
    rw [Nat.forall_lt_succ_left, Nat.forall_lt_succ_left]
    simp only [Function.iterate_zero, id_eq, Function.iterate_succ_apply, Nat.add_zero]
    rw [h.step_iff]
    refine and_congr_right fun hagain => ?_
    -- A step that finds the error again leaves the player behind the next byte.
    have herror := h.step_iff.mpr hagain
    have hbehind := isBehind_plain herror
    obtain ⟨hdelay, hitem⟩ := step_error_iff.mp herror
    have hwrong := step_wrong hdelay hitem
    rw [ih hbehind, hwrong]
    simp only [Nat.add_assoc, Nat.add_comm 1]

/-! ### Steps after an error -/

/-- The players that steps and advances lead to, without a seek. -/
inductive PlaysOn (p : Player) : Player → Prop where
  | start : PlaysOn p p
  | step {q : Player} (hq : PlaysOn p q) (skip : Bool) : PlaysOn p (q.step skip).2
  | advance {q : Player} (hq : PlaysOn p q) (frames : Nat) : PlaysOn p (q.advance frames)

/-- Whether the errors of a song are final: no step after one finds anything else, nor does the step
after a seek that came to one. -/
structure StaysEnded (p : Player) : Prop where
  step : ∀ q skip e, p.Reaches q → (q.step skip).1 = .error e →
    ∀ r skip', (q.step skip).2.PlaysOn r → (r.step skip').1 = .error e
  seek : ∀ q beats e, p.Reaches q → q.SeekMeets beats e →
    ∀ skip, ((q.seek beats).step skip).1 = .error e

theorem exists_step_ne_error (p : Player) :
    ∃ q, p.PlaysOn q ∧ ∀ e, (q.step false).1 ≠ .error e := by
  suffices h : ∀ q, p.PlaysOn q → ∃ r, p.PlaysOn r ∧ ∀ e, (r.step false).1 ≠ .error e from
    h p .start
  intro q hq
  induction hleft : q.bytesLeft using Nat.strongRecOn generalizing q with
  | ind left ih =>
    by_cases herror : ∃ e, (q.step false).1 = .error e
    · obtain ⟨e, herror⟩ := herror
      have hfewer : (q.step false).2.bytesLeft < left := by
        obtain ⟨hdelay, hitem⟩ := step_error_iff.mp herror
        have hlt := Song.lt_size_of_error hitem
        rw [bytesLeft] at hleft
        rw [step_wrong hdelay hitem, bytesLeft]
        dsimp only
        omega
      exact ih _ hfewer _ (hq.step false) rfl
    · exact ⟨q, hq, fun e h => herror ⟨e, h⟩⟩

/-! ### Songs without errors -/

theorem Trail.reaches {p q r : Player} {steps : List SongStep} (h : Trail q steps r)
    (hq : p.Reaches q) : p.Reaches r :=
  h.invariant (fun _ hr => hr.step false) (fun _ frames hr => hr.advance frames) hq

/-- Where no step finds an error, the stream leads to its end, and steps lead there as well. -/
theorem ends_of_safe {p q : Player} (hsafe : ∀ r e, p.Reaches r → (r.step false).1 ≠ .error e)
    (hq : p.Reaches q) (hdelay : q.delay = 0) :
    (∃ items, Ends q.song.data q.offset items)
      ∧ ∃ r, p.Reaches r ∧ r.delay = 0 ∧ Song.item r.song.data r.offset = .ok none := by
  obtain ⟨items, last, hstream, hlast⟩ := Song.exists_stream q.song.data q.offset
  obtain ⟨r, htrail, hplace⟩ := trail_stream hdelay hstream
  have hr := htrail.reaches hq
  rcases hlast with hend | ⟨e, hwrong⟩
  · refine ⟨⟨items, last, hstream, hend⟩, r, hr, hplace.delay.trans hdelay, ?_⟩
    rw [hplace.song, hplace.offset]
    exact hend
  · have herror := step_wrong (p := { q with offset := last }) hdelay hwrong
    exact absurd ((step_same hplace).1.trans (congrArg Prod.fst herror)) (hsafe r e hr)

/-- A song is free of errors, wherever its moves lead, exactly when it can be read. -/
theorem readable_iff {rate : UInt32} {bytes : Bytes} {repeats : Bool}
    {resource : Option ResourceId} {p : Player}
    (hmake : make rate bytes repeats resource = .ok p) :
    p.Readable ↔ ∀ q skip e, p.Reaches q → (q.step skip).1 ≠ .error e := by
  obtain ⟨song, -, rfl⟩ := map_eq_ok.mp hmake
  constructor
  · intro hreadable q skip e hq
    have hreads : q.ReadsOn := hq.invariant (fun _ h => h.step) (fun _ frames h => h.advance frames)
      (fun _ h => h.readable.rewound) ⟨hreadable, hreadable.start⟩
    exact hreads.step_ne_error skip e
  · intro hsafe
    have hplain := fun q e => hsafe q false e
    obtain ⟨hstart, r, hr, hdelay, hend⟩ := ends_of_safe hplain .start rfl
    refine ⟨hstart, fun hrepeats => ?_⟩
    obtain ⟨hsong, hrepeats', -⟩ := hr.song
    have hloop : r.step false = (.ok (.delay ⟨1, by decide⟩), r.restart) :=
      step_end hdelay (hrepeats'.trans hrepeats) hend
    have hback := (hr.step false).advance 1
    rw [hloop] at hback
    obtain ⟨hbody, -⟩ := ends_of_safe hplain hback (advance_delay r.restart 1)
    rw [(advance_place r.restart 1).song, (advance_place r.restart 1).offset] at hbody
    dsimp only [restart] at hbody
    rw [hsong] at hbody
    exact hbody

theorem Readable.not_seekMeets {p : Player} (h : p.Readable) (beats : Float) (e : DecodeError) :
    ¬ p.SeekMeets beats e := by
  rintro ⟨q, left, hrounds, herror⟩
  have hreads : q.ReadsOn := comesTo_invariant (fun _ hr => hr.step)
    (fun _ frames hr => hr.advance frames) hrounds h.rewound
  exact hreads.step_ne_error true e herror

/-- No error of a song is final: the steps after one go on in the data, so all errors are final only
in a song that has none, wherever it is sought to. After an error a player is behind the first byte
of the wrong event, from where the error comes again for as long as that byte is a reserved one and
comes again. A synthesizer that plays on to an error drops the song. -/
theorem stays_ended_iff {rate : UInt32} {bytes : Bytes} {repeats : Bool}
    {resource : Option ResourceId} {p : Player}
    (hmake : make rate bytes repeats resource = .ok p) :
    (p.StaysEnded ↔ p.Readable)
      ∧ (∀ q, p.Reaches q →
        (∀ skip e, (q.step skip).1 = .error e → (q.step skip).2.IsBehind e)
          ∧ ∀ beats e, q.SeekMeets beats e → (q.seek beats).IsBehind e)
      ∧ (∀ q e, q.IsBehind e → ∀ count,
        (∀ k < count, (((fun q : Player => (q.step false).2)^[k] q).step false).1 = .error e)
          ↔ ∀ k < count, Song.Again q.song.data e (q.offset + k))
      ∧ ∀ (s : Synth) q e n, s.song = some q → (q.update false).1.outcome = .error e →
        (s.prepareStretch n).2.song = none := by
  refine ⟨⟨fun hstays => ?_, fun hreadable => ⟨?_, ?_⟩⟩, ?_, fun q e hq => hq.again_iff, ?_⟩
  · refine (readable_iff hmake).mpr fun q skip e hq herror => ?_
    obtain ⟨r, hr, hother⟩ := (q.step skip).2.exists_step_ne_error
    exact hother e (hstays.step q skip e hq herror r false hr)
  · intro q skip e hq herror
    exact absurd herror ((readable_iff hmake).mp hreadable q skip e hq)
  · intro q beats e hq hmeets
    exact absurd hmeets ((hreadable.congr hq.song.1 hq.song.2.1).not_seekMeets beats e)
  · exact fun q hq => ⟨fun skip e => isBehind_step, fun beats e => isBehind_seek⟩
  · intro s q e n hsong herror
    have hnext := Recording.runSong_ended (.inr ⟨e, herror⟩) s
    rw [Synth.prepareStretch_end hsong hnext]
    exact Synth.song_of_tracks (Synth.tracks_endSong _)

/-- All errors of this song are final, for it has none. -/
theorem stays_ended_iff_straddling :
    make 44100 straddlingBytes true none = .ok straddling
      ∧ straddling.Readable
      ∧ straddling.StaysEnded := by
  have hmake : make 44100 straddlingBytes true none = .ok straddling := rfl
  exact ⟨hmake, readable_straddling, (stays_ended_iff hmake).1.mpr readable_straddling⟩

/-- A song of a reserved byte and a delay. -/
def reservedBytes : Bytes :=
  Song.signature ++ bytesOfWord 500 ++ bytesOfWord 42 ++ bytesOfWord 42 ++ List.replicate 32 0
    ++ [0xb0, 5]

def reserved : Player := ofSong ⟨reservedBytes.toArray, 500, 42, 42, none⟩ 1000 false

/-- The delay is found after the error, and also after a seek that comes to the error. -/
theorem delay_behind_reserved :
    make 1000 reservedBytes false none = .ok reserved
      ∧ (reserved.step false).1 = .error (.reservedEvent 0xb0)
      ∧ ((reserved.step false).2.step false).1 = .ok (.delay ⟨5, by decide⟩)
      ∧ reserved.SeekMeets 0.5 (.reservedEvent 0xb0)
      ∧ ((reserved.seek 0.5).step false).1 = .ok (.delay ⟨5, by decide⟩)
      ∧ ¬ reserved.StaysEnded := by
  have hstep : reserved.step false
      = (.error (.reservedEvent 0xb0), { reserved with offset := 43 }) := step_wrong rfl rfl
  have hframes : reserved.delayFrames 5 = ⟨5, by decide⟩ := by decide +kernel
  have hnext : ((reserved.step false).2.step false).1 = .ok (.delay ⟨5, by decide⟩) := by
    rw [hstep, ← hframes]
    exact congrArg Prod.fst (step_item_delay rfl rfl)
  -- The frame at the start passes, and the seek is where the song begins.
  have hstart : SamePlace (reserved.rewound.advance 1) reserved :=
    (advance_place reserved.rewound 1).trans ⟨rfl, rfl, rfl, rfl, rfl⟩
  have hfirst : seekRound (reserved.rewound, reserved.seekFrames 0.5)
      = .inl (reserved.rewound.advance 1, 249) := by
    have htotal : reserved.seekFrames 0.5 = 249 + 1 := by decide +kernel
    have hpending : reserved.rewound.step false
        = (.ok (.delay ⟨1, by decide⟩), reserved.rewound) := step_pending (by decide)
    rw [htotal, seekRound, step_true_of_not_event (by simp [hpending]), hpending]
    rfl
  obtain ⟨hfound, hplace⟩ := step_true_same hstart
  rw [step_true_of_not_event (p := reserved) (by simp [hstep])] at hfound hplace
  have herror := hfound.trans (congrArg Prod.fst hstep)
  have hrounds : ComesTo seekRound (reserved.rewound, reserved.seekFrames 0.5)
      (reserved.rewound.advance 1, 249) := .single hfirst
  have hsought : SamePlace (reserved.seek 0.5) (reserved.step false).2 := by
    rw [seek_of_error hrounds herror]
    exact hplace
  refine ⟨rfl, congrArg Prod.fst hstep, hnext, ⟨_, _, hrounds, herror⟩,
    (step_same hsought).1.trans hnext, fun hstays => ?_⟩
  have hagain := hstays.step reserved false _ .start (congrArg Prod.fst hstep) _ false .start
  rw [hnext] at hagain
  cases hagain

end Player

end Tonewheel
