import Mathlib.Logic.Relation
import Tonewheel.Proofs.Song.Items
import Tonewheel.Proofs.Song.Repeating

/-!
# Moves of a player

A player can be asked for a step, to let frames pass, and to seek (`Player.Reaches`). A step that
passes over events goes the way of steps that yield them (`step_way`), and a seek is a loop of such
steps from the start of the song (`seekRound`). So what plain steps and time keep, and what holds at
the start, holds after all moves (`Reaches.invariant`). In a song that can be read from its start and
from its loop no move meets an error (`ReadsOn.step_ne_error`).
-/

namespace Tonewheel

/-! ### Loops -/

/-- Whether a loop ends with a result after some rounds. A round goes on from another state or ends
the loop. -/
inductive Stops {σ ρ : Type} (round : σ → σ ⊕ ρ) : σ → Nat → ρ → Prop where
  | last {s : σ} {result : ρ} (h : round s = .inr result) : Stops round s 1 result
  | next {s t : σ} {rounds : Nat} {result : ρ} (h : round s = .inl t)
      (hrest : Stops round t rounds result) : Stops round s (rounds + 1) result

/-- Whether the rounds of a loop lead from one state to another. -/
def ComesTo {σ ρ : Type} (round : σ → σ ⊕ ρ) : σ → σ → Prop :=
  Relation.ReflTransGen fun s t => round s = .inl t

namespace Song

/-- A song that was accepted starts and loops within its data. -/
theorem ofBytes_eq_ok {bytes : Bytes} {resource : Option ResourceId} {song : Song}
    (h : ofBytes bytes resource = .ok song) :
    song.start ≤ song.loopStart ∧ song.loopStart < song.data.size := by
  unfold ofBytes at h
  dsimp only at h
  split at h
  next => cases h
  next =>
    split at h
    next => cases h
    next =>
      split at h
      next => cases h
      next =>
        split at h
        next => cases h
        next =>
          split at h
          next => cases h
          next hloop =>
            cases h
            dsimp only
            omega

end Song

namespace Player

/-! ### Steps -/

def bytesLeft (p : Player) : Nat := p.song.data.size - p.offset

theorem bytesLeft_of_event {p q : Player} {skip : Bool} {e : Event}
    (h : p.step skip = (.ok (.event e), q)) : q.bytesLeft < p.bytesLeft := by
  obtain ⟨hsong, hoffset, hsize⟩ := lt_of_step h
  rw [bytesLeft, bytesLeft, hsong]
  omega

inductive Plain (p : Player) : Except DecodeError SongStep × Player → Prop where
  | pending (h : 0 < p.delay) : Plain p (.ok (.delay ⟨p.delay, h⟩), p)
  | wrong {e : DecodeError} (hdelay : p.delay = 0)
      (hitem : Song.item p.song.data p.offset = .error e) :
      Plain p (.error e, { p with offset := p.offset + 1 })
  | restart (hdelay : p.delay = 0) (hrepeats : p.repeats = true)
      (hitem : Song.item p.song.data p.offset = .ok none) :
      Plain p (.ok (.delay ⟨1, by decide⟩), p.restart)
  | finished (hdelay : p.delay = 0) (hrepeats : p.repeats = false)
      (hitem : Song.item p.song.data p.offset = .ok none) : Plain p (.ok .finished, p)
  | delay {ms : UInt8} {next : Nat} (hdelay : p.delay = 0)
      (hitem : Song.item p.song.data p.offset = .ok (some (.delay ms, next))) :
      Plain p (.ok (.delay (p.delayFrames ms)), p.setDelay ms next)
  | event {e : SongEvent} {next : Nat} (hdelay : p.delay = 0)
      (hitem : Song.item p.song.data p.offset = .ok (some (.event e, next))) :
      Plain p (.ok (.event (p.eventOf e)), { p with offset := next })

theorem plain_step (p : Player) : p.Plain (p.step false) := by
  rw [step_eq]
  split
  next h => exact .pending h
  next h =>
    have hdelay := Nat.eq_zero_of_not_pos h
    split
    next hitem => exact .wrong hdelay hitem
    next hitem =>
      split
      next hrepeats => exact .restart hdelay hrepeats hitem
      next hrepeats => exact .finished hdelay (Bool.eq_false_iff.mpr hrepeats) hitem
    next hitem => exact .delay hdelay hitem
    next hitem => exact .event hdelay hitem

section

variable {p : Player}

theorem step_wrong {e : DecodeError} (hdelay : p.delay = 0)
    (hitem : Song.item p.song.data p.offset = .error e) :
    p.step false = (.error e, { p with offset := p.offset + 1 }) := by
  rw [step_eq, dif_neg (by omega), hitem]

theorem step_error_iff {e : DecodeError} :
    (p.step false).1 = .error e
      ↔ p.delay = 0 ∧ Song.item p.song.data p.offset = .error e := by
  constructor
  · intro h
    have hplain := p.plain_step
    generalize p.step false = result at hplain h
    cases hplain with
    | wrong hdelay hitem =>
      cases h
      exact ⟨hdelay, hitem⟩
    | _ => cases h
  · rintro ⟨hdelay, hitem⟩
    rw [step_wrong hdelay hitem]

theorem step_finished (hdelay : p.delay = 0) (hrepeats : p.repeats = false)
    (hitem : Song.item p.song.data p.offset = .ok none) :
    p.step false = (.ok .finished, p) := by
  rw [step_eq, dif_neg (by omega), hitem]
  dsimp only
  rw [hrepeats]
  rfl

end

theorem step_true_eq (p : Player) :
    p.step true
      = match p.step false with
        | (.ok (.event _), q) => q.step true
        | other => other := by
  rw [step, step_eq]
  split
  next => rfl
  next =>
    split
    next hitem => simp only [hitem]
    next hitem =>
      simp only [hitem]
      split <;> rfl
    next hitem => simp only [hitem]
    next hitem => simp only [hitem, if_pos]

theorem step_true_of_event {p q : Player} {e : Event} (h : p.step false = (.ok (.event e), q)) :
    p.step true = q.step true := by
  rw [step_true_eq, h]

theorem step_true_of_not_event {p : Player} (h : ∀ e, (p.step false).1 ≠ .ok (.event e)) :
    p.step true = p.step false := by
  rw [step_true_eq]
  split
  next e q hstep => exact absurd (congrArg Prod.fst hstep) (h e)
  next => rfl

/-- A place has no event, or one behind which the place is nearer to the end. -/
@[elab_as_elim]
theorem event_induction {motive : Player → Prop}
    (event : ∀ {p q : Player} {e : Event}, p.step false = (.ok (.event e), q) → motive q → motive p)
    (other : ∀ {p : Player}, (∀ e, (p.step false).1 ≠ .ok (.event e)) → motive p) (p : Player) :
    motive p := by
  induction hleft : p.bytesLeft using Nat.strongRecOn generalizing p with
  | ind left ih =>
    by_cases hevent : ∃ e, (p.step false).1 = .ok (.event e)
    · obtain ⟨e, hevent⟩ := hevent
      have hstep : p.step false = (.ok (.event e), (p.step false).2) := Prod.ext hevent rfl
      have hfewer := bytesLeft_of_event hstep
      exact event hstep (ih _ (by omega) _ rfl)
    · exact other fun e h => hevent ⟨e, h⟩

theorem step_true_same {p q : Player} (h : SamePlace p q) :
    (p.step true).1 = (q.step true).1 ∧ SamePlace (p.step true).2 (q.step true).2 := by
  induction p using event_induction generalizing q with
  | event hstep ih =>
    obtain ⟨after, hstep', hafter⟩ := step_elsewhere h hstep
    rw [step_true_of_event hstep, step_true_of_event hstep']
    exact ih hafter
  | other hother =>
    have hother' : ∀ e, (q.step false).1 ≠ .ok (.event e) := by
      rw [← (step_same h).1]
      exact hother
    rw [step_true_of_not_event hother, step_true_of_not_event hother']
    exact step_same h

/-- A step comes to where a plain step yields what it yields, past the events on the way. -/
theorem step_way (p : Player) (skip : Bool) :
    ∃ (events : List Event) (q : Player), Trail p (events.map SongStep.event) q
      ∧ p.step skip = q.step false
      ∧ (skip = false → q = p) ∧ (skip = true → ∀ e, (q.step false).1 ≠ .ok (.event e)) := by
  cases skip with
  | false => exact ⟨[], p, .nil p, rfl, fun _ => rfl, fun h => nomatch h⟩
  | true =>
    induction p using event_induction with
    | event hstep ih =>
      obtain ⟨events, q, htrail, hyields, -, hstops⟩ := ih
      exact ⟨_ :: events, q, .event hstep htrail, (step_true_of_event hstep).trans hyields,
        fun h => (nomatch h), hstops⟩
    | @other p hstops =>
      exact ⟨[], p, .nil p, step_true_of_not_event hstops, fun h => (nomatch h), fun _ => hstops⟩

/-! ### Seeks -/

def rewound (p : Player) : Player :=
  { p with
    offset := p.song.start
    delay := 1
    clock := 1
    clockAfterDelay := some 1 }

def seekFrames (p : Player) (beats : Float) : Nat :=
  (beats * p.song.tempo.toUInt32.toFloat * Single.widen p.framesPerMs).toUInt64.toNat

theorem seek_eq (p : Player) (beats : Float) :
    p.seek beats = p.rewound.skipFrames (p.seekFrames beats) := rfl

def seekRound : Player × Nat → (Player × Nat) ⊕ Player
  | (p, 0) => .inr p
  | (p, left + 1) =>
    match p.step true with
    | (.ok (.delay frames), q) =>
      .inl (q.advance (min frames.val (left + 1)), left + 1 - min frames.val (left + 1))
    | (_, q) => .inr q

theorem skipFrames_eq (p : Player) (left : Nat) :
    p.skipFrames left
      = match seekRound (p, left) with
        | .inl (q, left) => q.skipFrames left
        | .inr q => q := by
  rw [skipFrames]
  cases left with
  | zero => rfl
  | succ left =>
    rw [dif_pos (Nat.succ_pos left), seekRound]
    obtain ⟨found, q⟩ := p.step true
    rcases found with e | ⟨e⟩ | ⟨frames, hframes⟩ | _
    · rfl
    · rfl
    · rfl
    · rfl

/-- Along the rounds of a seek its result stays the same. -/
theorem skipFrames_of_comesTo {p q : Player} {frames left : Nat}
    (h : ComesTo seekRound (p, frames) (q, left)) : p.skipFrames frames = q.skipFrames left := by
  generalize hstart : (p, frames) = start at h
  induction h using Relation.ReflTransGen.head_induction_on generalizing p frames with
  | refl =>
    cases hstart
    rfl
  | head hround _ ih =>
    cases hstart
    rw [skipFrames_eq, hround]
    exact ih rfl

/-- Whether a seek comes to wrong data on its way. -/
def SeekMeets (p : Player) (beats : Float) (e : DecodeError) : Prop :=
  ∃ q left, ComesTo seekRound (p.rewound, p.seekFrames beats) (q, left + 1)
    ∧ (q.step true).1 = .error e

/-! ### All moves -/

inductive Reaches (p : Player) : Player → Prop where
  | start : Reaches p p
  | step {q : Player} (hq : Reaches p q) (skip : Bool) : Reaches p (q.step skip).2
  | advance {q : Player} (hq : Reaches p q) (frames : Nat) : Reaches p (q.advance frames)
  | seek {q : Player} (hq : Reaches p q) (beats : Float) : Reaches p (q.seek beats)

section

variable {motive : Player → Prop} (step : ∀ p, motive p → motive (p.step false).2)
  (advance : ∀ p frames, motive p → motive (p.advance frames))

include step advance

theorem Trail.invariant {p q : Player} {steps : List SongStep} (h : Trail p steps q)
    (start : motive p) : motive q := by
  induction h with
  | nil => exact start
  | @event p _ _ _ _ hstep _ ih =>
    have hnext := step p start
    rw [hstep] at hnext
    exact ih hnext
  | @delay p q _ frames _ hstep _ ih =>
    have hnext := step p start
    rw [hstep] at hnext
    exact ih (advance q frames.val hnext)

theorem step_invariant {p : Player} (skip : Bool) (start : motive p) :
    motive (p.step skip).2 := by
  obtain ⟨events, q, htrail, hyields, -, -⟩ := p.step_way skip
  rw [hyields]
  exact step q (htrail.invariant step advance start)

theorem comesTo_invariant {p q : Player} {frames left : Nat}
    (h : ComesTo seekRound (p, frames) (q, left)) (start : motive p) : motive q := by
  generalize hend : (q, left) = last at h
  induction h generalizing q left with
  | refl =>
    cases hend
    exact start
  | @tail middle _ _ hround ih =>
    obtain ⟨r, rest⟩ := middle
    have hmiddle := ih rfl
    cases rest with
    | zero => cases hround
    | succ rest =>
      have hnext := step_invariant step advance true hmiddle
      rw [seekRound] at hround
      generalize r.step true = result at hround hnext
      obtain ⟨found, t⟩ := result
      rcases found with e | ⟨e⟩ | ⟨n, hn⟩ | _
      · cases hround
      · cases hround
      · cases hround
        cases hend
        exact advance t _ hnext
      · cases hround

theorem skipFrames_invariant {p : Player} (frames : Nat) (start : motive p) :
    motive (p.skipFrames frames) := by
  fun_induction skipFrames p frames with
  | case1 p frames hpos n hn q hstep ih =>
    have hnext := step_invariant step advance true start
    rw [hstep] at hnext
    exact ih (advance q _ hnext)
  | case2 p frames hpos found q hother hstep =>
    have hnext := step_invariant step advance true start
    rw [hstep] at hnext
    exact hnext
  | case3 => exact start

theorem Reaches.invariant (rewind : ∀ p, motive p → motive p.rewound) {p q : Player}
    (h : p.Reaches q) (start : motive p) : motive q := by
  induction h with
  | start => exact start
  | step _ skip ih => exact step_invariant step advance skip ih
  | advance _ frames ih => exact advance _ frames ih
  | seek _ beats ih => exact skipFrames_invariant step advance _ (rewind _ ih)

end

theorem Reaches.song {p q : Player} (h : p.Reaches q) :
    q.song = p.song ∧ q.repeats = p.repeats ∧ q.framesPerMs = p.framesPerMs := by
  refine Reaches.invariant (motive := fun q => q.song = p.song ∧ q.repeats = p.repeats
    ∧ q.framesPerMs = p.framesPerMs) ?_ ?_ (fun q hq => hq) h ⟨rfl, rfl, rfl⟩
  · rintro q ⟨hsong, hrepeats, hframes⟩
    obtain ⟨hsong', hrepeats', hframes'⟩ := q.step_song
    exact ⟨hsong'.trans hsong, hrepeats'.trans hrepeats, hframes'.trans hframes⟩
  · rintro q frames ⟨hsong, hrepeats, hframes⟩
    have hplace := advance_place q frames
    exact ⟨hplace.song.trans hsong, hplace.repeats.trans hrepeats,
      hplace.framesPerMs.trans hframes⟩

/-- Where a plain step leads within the data: onwards, or to the loop. -/
theorem step_offset {p : Player} (hloop : p.song.loopStart ≤ p.song.data.size)
    (hoffset : p.offset ≤ p.song.data.size) :
    (p.step false).2.offset ≤ p.song.data.size
      ∧ (p.offset ≤ (p.step false).2.offset ∨ (p.step false).2.offset = p.song.loopStart) := by
  have hplain := p.plain_step
  generalize p.step false = result at hplain
  cases hplain with
  | pending => exact ⟨hoffset, .inl (Nat.le_refl _)⟩
  | wrong _ hitem => exact ⟨Song.lt_size_of_error hitem, .inl (Nat.le_succ _)⟩
  | restart => exact ⟨hloop, .inr rfl⟩
  | finished => exact ⟨hoffset, .inl (Nat.le_refl _)⟩
  | delay _ hitem => exact ⟨Song.next_le_size hitem, .inl (Nat.le_of_lt (lt_of_item hitem).1)⟩
  | event _ hitem => exact ⟨Song.next_le_size hitem, .inl (Nat.le_of_lt (lt_of_item hitem).1)⟩

/-- A player of a song that was accepted stays within its data. -/
theorem Reaches.offset_le {rate : UInt32} {bytes : Bytes} {repeats : Bool}
    {resource : Option ResourceId} {p q : Player} (hmake : make rate bytes repeats resource = .ok p)
    (h : p.Reaches q) : q.offset ≤ q.song.data.size ∧ q.song.loopStart < q.song.data.size
      ∧ q.song.start < q.song.data.size := by
  obtain ⟨song, hsong, rfl⟩ := map_eq_ok.mp hmake
  obtain ⟨hstart, hloop⟩ := Song.ofBytes_eq_ok hsong
  have hstart' : song.start < song.data.size := Nat.lt_of_le_of_lt hstart hloop
  refine Reaches.invariant (motive := fun q => q.offset ≤ q.song.data.size
    ∧ q.song.loopStart < q.song.data.size ∧ q.song.start < q.song.data.size) ?_ ?_ ?_ h
    ⟨Nat.le_of_lt hstart', hloop, hstart'⟩
  · rintro q ⟨hoffset, hloop, hstart⟩
    rw [q.step_song.1]
    exact ⟨(step_offset (Nat.le_of_lt hloop) hoffset).1, hloop, hstart⟩
  · rintro q frames ⟨hoffset, hloop, hstart⟩
    rw [(advance_place q frames).song, (advance_place q frames).offset]
    exact ⟨hoffset, hloop, hstart⟩
  · rintro q ⟨-, hloop, hstart⟩
    exact ⟨Nat.le_of_lt hstart, hloop, hstart⟩

/-! ### Songs that can be read -/

/-- Whether a player's song can be read to an end, also from its loop if the player goes there. -/
structure Readable (p : Player) : Prop where
  start : ∃ items, Ends p.song.data p.song.start items
  loop : p.repeats = true → ∃ items, Ends p.song.data p.song.loopStart items

/-- Whether the song can be read, also from where the player is. -/
structure ReadsOn (p : Player) : Prop where
  readable : p.Readable
  here : ∃ items, Ends p.song.data p.offset items

theorem Readable.congr {p q : Player} (h : p.Readable) (hsong : q.song = p.song)
    (hrepeats : q.repeats = p.repeats) : q.Readable := by
  refine ⟨?_, ?_⟩
  · rw [hsong]
    exact h.start
  · rw [hsong, hrepeats]
    exact h.loop

theorem ReadsOn.next {p : Player} {x : SongItem} {next : Nat} (h : p.ReadsOn)
    (hitem : Song.item p.song.data p.offset = .ok (some (x, next))) :
    ∃ items, Ends p.song.data next items := by
  obtain ⟨items, last, hstream, hlast⟩ := h.here
  rcases hstream.head hlast with ⟨hnone, -⟩ | ⟨_, _, rest, hsome, -, hrest⟩
  · rw [hitem] at hnone
    cases hnone
  · rw [hitem] at hsome
    cases hsome
    exact ⟨rest, last, hrest, hlast⟩

theorem ReadsOn.item_ne_error {p : Player} (h : p.ReadsOn) (e : DecodeError) :
    Song.item p.song.data p.offset ≠ .error e := by
  intro hitem
  obtain ⟨items, last, hstream, hlast⟩ := h.here
  rcases hstream.head hlast with ⟨hnone, -⟩ | ⟨_, _, _, hsome, -, -⟩
  · rw [hitem] at hnone
    cases hnone
  · rw [hitem] at hsome
    cases hsome

theorem ReadsOn.step {p : Player} (h : p.ReadsOn) : (p.step false).2.ReadsOn := by
  refine ⟨h.readable.congr p.step_song.1 p.step_song.2.1, ?_⟩
  rw [p.step_song.1]
  have hplain := p.plain_step
  generalize p.step false = result at hplain
  cases hplain with
  | pending => exact h.here
  | finished => exact h.here
  | restart _ hrepeats => exact h.readable.loop hrepeats
  | delay _ hitem => exact h.next hitem
  | event _ hitem => exact h.next hitem
  | wrong _ hitem => exact absurd hitem (h.item_ne_error _)

theorem ReadsOn.advance {p : Player} (h : p.ReadsOn) (frames : Nat) :
    (p.advance frames).ReadsOn := by
  obtain ⟨hsong, hrepeats, -, hoffset, -⟩ := advance_place p frames
  refine ⟨h.readable.congr hsong hrepeats, ?_⟩
  rw [hsong, hoffset]
  exact h.here

theorem Readable.rewound {p : Player} (h : p.Readable) : p.rewound.ReadsOn :=
  ⟨h.congr rfl rfl, h.start⟩

theorem ReadsOn.step_ne_error {p : Player} (h : p.ReadsOn) (skip : Bool) (e : DecodeError) :
    (p.step skip).1 ≠ .error e := by
  obtain ⟨events, q, htrail, hyields, -, -⟩ := p.step_way skip
  have hq : q.ReadsOn :=
    htrail.invariant (fun _ hr => hr.step) (fun _ frames hr => hr.advance frames) h
  rw [hyields]
  exact fun h => hq.item_ne_error e (step_error_iff.mp h).2

/-- A song that is read in one way from its start and in another from its loop. -/
theorem readable_straddling : straddling.Readable :=
  ⟨⟨[.event (.note 0 0x3c 0 0)], 44, .cons rfl (.nil 44), rfl⟩,
    fun _ => ⟨[.delay 0x3c], 44, .cons rfl (.nil 44), rfl⟩⟩

end Player

end Tonewheel
