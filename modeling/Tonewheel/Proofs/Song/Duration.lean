import Mathlib.Algebra.Ring.Nat
import Tonewheel.Proofs.Song.Moves
import Tonewheel.Proofs.Song.RoundTrip

/-!
# How long a song lasts

The duration of a song is a sum over lead bytes by a table of lengths, and never reads an event. It
is the sum of the delays that steps take up, in whatever way the song is played to its end or to its
first wrong event (`Player.Metered`), and for a written song the sum of the waits it was written
with (`duration_counts_delays`).
-/

namespace Tonewheel

/-- The ms that an item takes. -/
def SongItem.ms : SongItem → Nat
  | .delay ms => ms.toNat
  | .event _ => 0

theorem SongItem.ms_readBack (x : SongItem) : x.readBack.ms = x.ms := by
  cases x with
  | delay ms => rfl
  | event e => rfl

namespace Song

/-- The sum of the delays from an offset to the end of the stream, which 32 bits may not hold. -/
def msFrom (data : Array UInt8) (i : Nat) : Nat :=
  if h : i < data.size then
    if itemLength data[i] = 0 then 0
    else (leadDelay data[i]).toNat + msFrom data (i + itemLength data[i])
  else 0
  termination_by data.size - i
  decreasing_by omega

theorem toNat_delaysFrom (data : Array UInt8) (i : Nat) :
    (delaysFrom data i).toNat = msFrom data i % 2 ^ 32 := by
  fun_induction delaysFrom data i with
  | case1 i hsize hlength => rw [msFrom, dif_pos hsize, if_pos hlength]; rfl
  | case2 i hsize hlength ih =>
    rw [msFrom, dif_pos hsize, if_neg hlength, UInt32.toNat_add, ih, UInt8.toNat_toUInt32,
      Nat.add_mod_mod]
  | case3 i hsize => rw [msFrom, dif_neg hsize]; rfl

section

variable {data : Array UInt8} {i : Nat}

theorem msFrom_byte {lead : UInt8} (h : data[i]? = some lead) :
    msFrom data i
      = if itemLength lead = 0 then 0
        else (leadDelay lead).toNat + msFrom data (i + itemLength lead) := by
  obtain ⟨hsize, rfl⟩ := Array.getElem?_eq_some_iff.mp h
  rw [msFrom, dif_pos hsize]

theorem msFrom_past (h : data.size ≤ i) : msFrom data i = 0 := by
  rw [msFrom, dif_neg (Nat.not_lt.mpr h)]

theorem leadDelay_of_high {lead : UInt8} (h : 0x80 ≤ lead) : leadDelay lead = 0 :=
  if_neg (UInt8.not_lt.mpr h)

theorem msFrom_end (h : item data i = .ok none) : msFrom data i = 0 := by
  have hfound := found_item data i
  rw [h] at hfound
  cases hfound with
  | ended hbyte =>
    cases hlead : data[i]? with
    | none => exact msFrom_past (Array.getElem?_eq_none_iff.mp hlead)
    | some lead =>
      rw [msFrom_byte hlead, hbyte lead hlead]
      rfl

/-- Behind a wrong event the sum goes no further. -/
theorem msFrom_error {e : DecodeError} (h : item data i = .error e) :
    msFrom data i = 0 := by
  have hfound := found_item data i
  rw [h] at hfound
  cases hfound with
  | reserved hbyte _ hlength => rw [msFrom_byte hbyte, if_pos hlength]
  | truncated hbyte hhigh hlength hcut =>
    rw [msFrom_byte hbyte, if_neg (by omega), leadDelay_of_high hhigh, msFrom_past (by omega)]
    rfl

theorem msFrom_item {x : SongItem} {next : Nat} (h : item data i = .ok (some (x, next))) :
    msFrom data i = x.ms + msFrom data next := by
  have hfound := found_item data i
  rw [h] at hfound
  cases hfound with
  | @delay ms hbyte hpos hlow =>
    rw [msFrom_byte hbyte, itemLength_of_low hpos hlow, if_neg Nat.one_ne_zero, leadDelay,
      if_pos hlow]
    rfl
  | event hbyte hhigh hlength _ =>
    rw [msFrom_byte hbyte, if_neg (by omega), leadDelay_of_high hhigh]
    rfl

theorem Stream.msFrom {items : List SongItem} {last : Nat} (h : Stream data i items last) :
    msFrom data i = (items.map SongItem.ms).sum + Song.msFrom data last := by
  induction h with
  | nil => exact (Nat.zero_add _).symm
  | cons hitem _ ih => rw [msFrom_item hitem, ih, List.map_cons, List.sum_cons, Nat.add_assoc]

theorem msFrom_le (data : Array UInt8) (i : Nat) :
    Song.msFrom data i ≤ 127 * (data.size - i) := by
  fun_induction Song.msFrom data i with
  | case1 => exact Nat.zero_le _
  | case2 i hsize hlength ih =>
    have hlead : (leadDelay data[i]).toNat ≤ 127 := by
      rw [leadDelay]
      split
      next hlow => exact Nat.le_of_lt_succ (UInt8.lt_iff_toNat_lt.mp hlow)
      next => exact Nat.zero_le _
    omega
  | case3 => exact Nat.zero_le _

end

end Song

namespace Player

/-! ### The delays that steps take up -/

/-- The ms of the delay byte that a step takes up: the last byte that it passes, if it finds a delay
where none is pending. -/
def msTaken (p : Player) (skip : Bool) : Nat :=
  match p.delay, p.step skip with
  | 0, (.ok (.delay _), q) => (Song.byteAt q.song.data (q.offset - 1)).toNat
  | _, _ => 0

/-- Steps up to the first wrong event, and advances of any length between them, with the sum of the
delay bytes that the steps take up. -/
inductive Metered : Player → Nat → Player → Prop where
  | nil (p : Player) : Metered p 0 p
  | step {p q : Player} {ms : Nat} (skip : Bool) (hgoes : ∀ e, (p.step skip).1 ≠ .error e)
      (hrest : Metered (p.step skip).2 ms q) : Metered p (p.msTaken skip + ms) q
  | advance {p q : Player} {ms : Nat} (frames : Nat) (hrest : Metered (p.advance frames) ms q) :
      Metered p ms q

theorem msTaken_of_event {p q : Player} {e : Event} (h : p.step false = (.ok (.event e), q)) :
    p.msTaken true = q.msTaken true := by
  have hplain := p.plain_step
  rw [h] at hplain
  cases hplain with
  | event => rw [msTaken, msTaken, step_true_of_event h]

theorem msTaken_of_not_event {p : Player} (h : ∀ e, (p.step false).1 ≠ .ok (.event e)) :
    p.msTaken true = p.msTaken false := by
  rw [msTaken, msTaken, step_true_of_not_event h]

theorem msFrom_event {p q : Player} {e : Event} (h : p.step false = (.ok (.event e), q)) :
    q.song = p.song ∧ q.repeats = p.repeats
      ∧ Song.msFrom p.song.data p.offset = Song.msFrom q.song.data q.offset := by
  have hplain := p.plain_step
  rw [h] at hplain
  cases hplain with
  | event _ hitem => exact ⟨rfl, rfl, (Song.msFrom_item hitem).trans (Nat.zero_add _)⟩

section

variable {p : Player} (hrepeats : p.repeats = false)

include hrepeats

/-- The ms that a plain step takes up are those that the stream has less from there on. -/
theorem msFrom_plain (hgoes : ∀ e, (p.step false).1 ≠ .error e) :
    Song.msFrom p.song.data p.offset
      = p.msTaken false + Song.msFrom p.song.data (p.step false).2.offset := by
  rw [msTaken]
  have hplain := p.plain_step
  generalize p.step false = result at hplain hgoes
  cases hplain with
  | pending h =>
    split
    next hzero _ => omega
    next => exact (Nat.zero_add _).symm
  | wrong => exact absurd rfl (hgoes _)
  | restart _ hrepeats' => rw [hrepeats] at hrepeats'; cases hrepeats'
  | finished hdelay =>
    rw [hdelay]
    exact (Nat.zero_add _).symm
  | @delay ms next hdelay hitem =>
    obtain ⟨rfl, hbyte⟩ := Song.next_of_delay hitem
    rw [hdelay, Song.msFrom_item hitem]
    show _ = (Song.byteAt p.song.data (p.offset + 1 - 1)).toNat + _
    rw [Nat.add_sub_cancel, Song.byteAt_eq hbyte]
    rfl
  | event hdelay hitem =>
    rw [hdelay, Song.msFrom_item hitem]
    rfl

theorem msFrom_step (skip : Bool) (hgoes : ∀ e, (p.step skip).1 ≠ .error e) :
    Song.msFrom p.song.data p.offset
      = p.msTaken skip + Song.msFrom p.song.data (p.step skip).2.offset := by
  cases skip with
  | false => exact msFrom_plain hrepeats hgoes
  | true =>
    induction p using event_induction with
    | event hstep ih =>
      obtain ⟨hsong, hrepeats', hsame⟩ := msFrom_event hstep
      rw [step_true_of_event hstep] at hgoes
      rw [hsame, msTaken_of_event hstep, step_true_of_event hstep, ← hsong]
      exact ih (hrepeats'.trans hrepeats) hgoes
    | other hother =>
      rw [step_true_of_not_event hother] at hgoes ⊢
      rw [msTaken_of_not_event hother]
      exact msFrom_plain hrepeats hgoes

theorem Metered.msFrom {q : Player} {ms : Nat} (h : Metered p ms q) :
    q.song = p.song
      ∧ Song.msFrom p.song.data p.offset = ms + Song.msFrom p.song.data q.offset := by
  induction h with
  | nil => exact ⟨rfl, (Nat.zero_add _).symm⟩
  | @step p _ _ skip hgoes _ ih =>
    obtain ⟨hsong, hrepeats', -⟩ := (Reaches.step .start skip : p.Reaches (p.step skip).2).song
    obtain ⟨hlast, hrest⟩ := ih (hrepeats'.trans hrepeats)
    rw [hsong] at hrest
    refine ⟨hlast.trans hsong, ?_⟩
    rw [msFrom_step hrepeats skip hgoes, hrest, Nat.add_assoc]
  | @advance p _ _ frames _ ih =>
    obtain ⟨hsong, hrepeats', -, hoffset, -⟩ := advance_place p frames
    obtain ⟨hlast, hrest⟩ := ih (hrepeats'.trans hrepeats)
    rw [hsong, hoffset] at hrest
    exact ⟨hlast.trans hsong, hrest⟩

end

theorem Trail.metered {p q : Player} {steps : List SongStep} (h : Trail p steps q) :
    ∃ ms, Metered p ms q := by
  induction h with
  | nil p => exact ⟨0, .nil p⟩
  | @event p q r _ _ hstep _ ih =>
    obtain ⟨ms, hrest⟩ := ih
    have hgoes : ∀ e, (p.step false).1 ≠ .error e := by
      rw [hstep]
      exact nofun
    have hnext : Metered (p.step false).2 ms r := by
      rw [hstep]
      exact hrest
    exact ⟨_, .step false hgoes hnext⟩
  | @delay p q r frames _ hstep _ ih =>
    obtain ⟨ms, hrest⟩ := ih
    have hgoes : ∀ e, (p.step false).1 ≠ .error e := by
      rw [hstep]
      exact nofun
    have hnext : Metered (p.step false).2 ms r := by
      rw [hstep]
      exact .advance frames.val hrest
    exact ⟨_, .step false hgoes hnext⟩

/-- A song that does not repeat can be played up to its end or to its first wrong event. -/
theorem exists_metered {p : Player} (hrepeats : p.repeats = false) (hdelay : p.delay = 0) :
    ∃ ms q, Metered p ms q ∧ q.HasEnded := by
  obtain ⟨items, last, hstream, hlast⟩ := Song.exists_stream p.song.data p.offset
  obtain ⟨q, htrail, hplace⟩ := trail_stream hdelay hstream
  obtain ⟨ms, hmetered⟩ := htrail.metered
  refine ⟨ms, q, hmetered, ?_⟩
  rw [HasEnded, (step_same hplace).1]
  rcases hlast with hend | ⟨e, hwrong⟩
  · rw [step_finished (p := { p with offset := last }) hdelay hrepeats hend]
    exact .inl rfl
  · rw [step_wrong (p := { p with offset := last }) hdelay hwrong]
    exact .inr ⟨e, rfl⟩

theorem msFrom_hasEnded {p : Player} (h : p.HasEnded) :
    Song.msFrom p.song.data p.offset = 0 := by
  rcases h with h | ⟨e, h⟩
  · have hplain := p.plain_step
    generalize p.step false = result at hplain h
    cases hplain with
    | finished _ _ hitem => exact Song.msFrom_end hitem
    | _ => cases h
  · exact Song.msFrom_error (step_error_iff.mp h).2

/-- At the end of a song, and before a wrong event, no delay is left. -/
theorem msFrom_ended {p : Player} (skip : Bool)
    (h : (p.step skip).1 = .ok .finished ∨ ∃ e, (p.step skip).1 = .error e) :
    Song.msFrom p.song.data p.offset = 0 := by
  cases skip with
  | false => exact msFrom_hasEnded h
  | true =>
    induction p using event_induction with
    | event hstep ih =>
      rw [step_true_of_event hstep] at h
      rw [(msFrom_event hstep).2.2]
      exact ih h
    | other hother =>
      rw [step_true_of_not_event hother] at h
      exact msFrom_hasEnded h

end Player

/-! ### Written songs -/

namespace Writer

theorem ms_delays (ms : Nat) : ((delays ms).map SongItem.ms).sum = ms := by
  fun_induction delays ms with
  | case1 => rfl
  | case2 ms hms ih =>
    rw [List.map_cons, List.sum_cons, ih, SongItem.ms, toNat_delay]
    omega

/-- The time that some calls take, as long as it is. -/
def totalMs (calls : List Call) : Nat := (calls.map fun call => call.ms.toNat).sum

theorem totalMs_cons (call : Call) (calls : List Call) :
    totalMs (call :: calls) = call.ms.toNat + totalMs calls := List.sum_cons

theorem ms_of_event {call : Call} {e : SongEvent} (h : call.event = some e) : call.ms = 0 := by
  cases call with
  | wait ms => cases h
  | _ => rfl

/-- Whole turns of the writer's counter are lost, and nothing else. -/
theorem ms_itemsFrom (pending : UInt32) (calls : List Call) :
    ((itemsFrom pending calls).map SongItem.ms).sum % 2 ^ 32
      = (pending.toNat + totalMs calls) % 2 ^ 32 := by
  induction calls generalizing pending with
  | nil => exact congrArg (· % 2 ^ 32) (ms_delays pending.toNat)
  | cons call calls ih =>
    rw [totalMs_cons]
    cases hevent : call.event with
    | none =>
      rw [itemsFrom_silent hevent, ih, UInt32.toNat_add, Nat.mod_add_mod, Nat.add_assoc]
    | some e =>
      have hrest := ih 0
      rw [itemsFrom_event hevent, List.map_append, List.sum_append, List.map_cons, List.sum_cons,
        ms_delays, ms_of_event hevent, SongItem.ms, Nat.zero_add, Nat.add_mod, hrest]
      simp

theorem ms_readItems (calls : List Call) :
    ((readItems calls).map SongItem.ms).sum % 2 ^ 32 = totalMs calls % 2 ^ 32 := by
  have hsame : SongItem.ms ∘ SongItem.readBack = SongItem.ms := funext SongItem.ms_readBack
  have hsum := ms_itemsFrom 0 calls
  rw [UInt32.toNat_zero, Nat.zero_add] at hsum
  rw [readItems, List.map_map, hsame, hsum]

end Writer

namespace Player

open Writer

theorem durationMs_ofCalls (us : UInt32) (calls : List Call) {p : Player} {rate : UInt32}
    {repeats : Bool} {resource : Option ResourceId}
    (h : make rate (ofCalls us calls).finish repeats resource = .ok p) :
    p.song.durationMs.toNat = totalMs calls % 2 ^ 32 := by
  rw [make_ofCalls] at h
  split at h
  · cases h
  · cases h
    obtain ⟨last, hstream, hend⟩ := stream_ofCalls us calls
    have hsum := hstream.msFrom
    rw [Song.msFrom_end hend, Nat.add_zero] at hsum
    show (Song.delaysFrom (ofCalls us calls).finish.toArray Song.headerLength).toNat = _
    rw [Song.toNat_delaysFrom, hsum, ms_readItems]

/-- The duration of a song that does not repeat is the sum, in 32 bits, of the delay bytes that its
steps take up until they find the end or a wrong event, however the song is played; and there is a
way to play it so far. A byte takes 127 ms at most. A written song with anything in its stream lasts
as long as all its waits together, in 32 bits too. -/
theorem duration_counts_delays :
    (∀ rate bytes resource p, make rate bytes false resource = .ok p →
        (∃ ms q, Metered p ms q ∧ q.HasEnded)
          ∧ ∀ ms q skip, Metered p ms q →
            (q.step skip).1 = .ok .finished ∨ (∃ e, (q.step skip).1 = .error e) →
            p.song.durationMs.toNat = ms % 2 ^ 32 ∧ ms ≤ 127 * p.song.data.size)
      ∧ ∀ us calls rate repeats resource,
        Song.headerLength < (ofCalls us calls).finish.length →
          ∃ p, make rate (ofCalls us calls).finish repeats resource = .ok p
            ∧ p.song.durationMs.toNat = totalMs calls % 2 ^ 32 := by
  refine ⟨fun rate bytes resource p hmake => ?_, fun us calls rate repeats resource hbody => ?_⟩
  · obtain ⟨song, -, rfl⟩ := map_eq_ok.mp hmake
    refine ⟨exists_metered rfl rfl, fun ms q skip hmetered hended => ?_⟩
    obtain ⟨hsong, hsum⟩ := hmetered.msFrom rfl
    have hlast := msFrom_ended skip hended
    rw [hsong] at hlast
    rw [hlast, Nat.add_zero] at hsum
    have hbound := Song.msFrom_le song.data song.start
    change Song.msFrom song.data song.start = ms at hsum
    constructor
    · show (Song.delaysFrom song.data song.start).toNat = _
      rw [Song.toNat_delaysFrom, hsum]
    · show ms ≤ 127 * song.data.size
      omega
  · obtain ⟨p, hload⟩ := make_of_stream ((headerLength_lt_finish us calls).mp hbody) us rate repeats
      resource
    exact ⟨p, hload, durationMs_ofCalls us calls hload⟩

/-- A wait of 130 ms between the events and one of 10 ms behind them. -/
theorem duration_counts_delays_threeEvents :
    Song.headerLength < (ofCalls 500000 threeEvents).finish.length
      ∧ ∃ p, make 48000 (ofCalls 500000 threeEvents).finish false none = .ok p
        ∧ p.song.durationMs = 140
        ∧ ∃ q, Metered p 140 q ∧ q.HasEnded := by
  have hbody : Song.headerLength < (ofCalls 500000 threeEvents).finish.length :=
    (headerLength_lt_finish _ _).mpr (stream_of_event threeEvents_event)
  obtain ⟨hplayed, hwritten⟩ := duration_counts_delays
  obtain ⟨p, hload, hms⟩ := hwritten 500000 threeEvents 48000 false none hbody
  have hms' : p.song.durationMs.toNat = 140 := hms
  obtain ⟨⟨ms, q, hmetered, hended⟩, hsum⟩ := hplayed _ _ _ p hload
  obtain ⟨hturn, hbound⟩ := hsum ms q false hmetered hended
  have hsize : p.song.data.size = 53 := by
    rw [make_ofCalls, if_neg (stream_of_event threeEvents_event)] at hload
    cases hload
    decide +kernel
  obtain rfl : ms = 140 := by omega
  exact ⟨hbody, p, hload, UInt32.toNat_inj.mp hms', q, hmetered, hended⟩

def turningCalls : List Call := [.wait 0xffffffff, .wait 1, .wheel 0 0x2000]

/-- The waits of this song fill the writer's counter once, and nothing is left of them. -/
theorem duration_turns :
    Song.headerLength < (ofCalls 500000 turningCalls).finish.length
      ∧ ∃ p, make 1000 (ofCalls 500000 turningCalls).finish false none = .ok p
        ∧ p.song.durationMs = 0 ∧ totalMs turningCalls = 4294967296 := by
  have hevent : ∃ call ∈ turningCalls, call.event ≠ none :=
    ⟨.wheel 0 0x2000, by simp [turningCalls], nofun⟩
  obtain ⟨p, hload⟩ := make_of_stream (stream_of_event hevent) 500000 1000 false none
  have hms := durationMs_ofCalls 500000 turningCalls hload
  exact ⟨(headerLength_lt_finish _ _).mpr (stream_of_event hevent), p, hload,
    UInt32.toNat_inj.mp hms, rfl⟩

end Player

end Tonewheel
