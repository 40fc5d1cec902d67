import Tonewheel.Proofs.Song.RoundTrip

/-!
# How well songs keep time (SPEC_FULL, section 8)

The frames of a delay are rounded, so an event may come early or late (`Player.msOff`). What the
delays before an event are off by adds up (`timeline_drift`). Where a ms is a whole number of frames
nothing is lost; at any other rate every delay of 1 ms is off to the same side, and a long song
comes to be off by as much as one likes (`events_keep_time`).
-/

namespace Tonewheel

namespace Player

/-- How many ms a frame is off the time it should come at. -/
def msOff (rate : UInt32) (frames ms : Nat) : ℚ := |(frames : ℚ) * 1000 / rate.toNat - ms|

theorem msOff_add (rate : UInt32) (a b s t : Nat) :
    msOff rate (a + b) (s + t) ≤ msOff rate a s + msOff rate b t := by
  have hsplit : ((a + b : Nat) : ℚ) * 1000 / rate.toNat - (s + t : Nat)
      = ((a : ℚ) * 1000 / rate.toNat - s) + ((b : ℚ) * 1000 / rate.toNat - t) := by
    push_cast
    ring
  rw [msOff, hsplit]
  exact abs_add_le _ _

section

variable {p : Player} {rate : UInt32} (hrate : Rate.isLegal rate = true)
  (hframes : p.framesPerMs = Format.framesPerMs rate)

include hrate hframes

theorem msOff_delay {ms : UInt8} (hpos : 0 < ms) :
    msOff rate (p.delayFrames ms).val ms.toNat ≤ 800 / rate.toNat := by
  have hnear := delayFrames_near hrate hframes hpos
  have hlow : (200 : ℚ) ≤ rate.toNat := by exact_mod_cast (Rate.legal_bounds hrate).1
  have hscale : ((p.delayFrames ms).val : ℚ) * 1000 / rate.toNat - ms.toNat
      = ((p.delayFrames ms).val - ms.toNat * (rate.toNat / 1000)) * (1000 / rate.toNat) := by
    field_simp
  have hratio : (0 : ℚ) ≤ 1000 / rate.toNat := by positivity
  rw [msOff, hscale, abs_mul, abs_of_nonneg hratio]
  calc _ ≤ 4 / 5 * (1000 / (rate.toNat : ℚ)) := mul_le_mul_of_nonneg_right hnear hratio
    _ = 800 / rate.toNat := by ring

theorem msOff_delay_of_dvd (hdvd : 1000 ∣ rate.toNat) {ms : UInt8} (hpos : 0 < ms) :
    msOff rate (p.delayFrames ms).val ms.toNat ≤ 0 := by
  have hexact := delayFrames_of_dvd hrate hframes hdvd hpos
  have hlow : (200 : ℚ) ≤ rate.toNat := by exact_mod_cast (Rate.legal_bounds hrate).1
  have hvalue : ((p.delayFrames ms).val : ℚ) * 1000 = ms.toNat * rate.toNat := by
    exact_mod_cast hexact
  have hnonzero : (rate.toNat : ℚ) ≠ 0 := by positivity
  rw [msOff, hvalue, mul_div_cancel_right₀ _ hnonzero, sub_self, abs_zero]

end

end Player

/-! ### Drift -/

namespace Song

open Player

theorem length_timeline (size size' : UInt8 → Nat) (now now' : Nat) (items : List SongItem) :
    (timeline size now items).length = (timeline size' now' items).length := by
  induction items generalizing now now' with
  | nil => rfl
  | cons x items ih =>
    cases x with
    | delay ms => exact ih _ _
    | event e => exact congrArg (· + 1) (ih _ _)

/-- An event is off by no more than what the delays before it are off by, each of them by
`error`. -/
theorem timeline_drift (size : UInt8 → Nat) {rate : UInt32} {error : ℚ} {items : List SongItem}
    (hsize : ∀ ms, SongItem.delay ms ∈ items → msOff rate (size ms) ms.toNat ≤ error)
    {frames now count : Nat} (hnow : msOff rate frames now ≤ count * error) :
    List.Forall₂ (fun t y => msOff rate y.1.1 t ≤ y.2.1 * error)
      ((timeline UInt8.toNat now items).map Prod.fst)
      ((timeline size frames items).zip (timeline (fun _ => 1) count items)) := by
  induction items generalizing frames now count with
  | nil => exact .nil
  | cons x items ih =>
    have hrest : ∀ ms, SongItem.delay ms ∈ items → msOff rate (size ms) ms.toNat ≤ error :=
      fun ms hms => hsize ms (List.mem_cons_of_mem _ hms)
    cases x with
    | delay ms =>
      have hdelay := hsize ms List.mem_cons_self
      have hnext : msOff rate (frames + size ms) (now + ms.toNat) ≤ (count + 1 : Nat) * error := by
        have hsum := msOff_add rate frames (size ms) now ms.toNat
        push_cast
        linarith
      exact ih hrest hnext
    | event e => exact .cons hnow (ih hrest hnow)

end Song

namespace Player

open Writer

theorem times_ofCalls {calls : List Call} (hfit : waitsFit 0 calls = true) :
    (Song.timeline UInt8.toNat 0 (readItems calls)).map Prod.fst
      = (score 0 calls).map Prod.fst := by
  have htimes := (timeline_itemsFrom 0 0 hfit).flip
  rw [readItems, Song.timeline_readBack, List.map_map, ← List.forall₂_eq_eq_eq,
    List.forall₂_map_left_iff, List.forall₂_map_right_iff]
  exact htimes.imp fun x y h => h.1

theorem drift_written (p : Player) {calls : List Call} (hfit : waitsFit 0 calls = true)
    {rate : UInt32} {error : ℚ}
    (herror : ∀ ms, 0 < ms → msOff rate (p.delayFrames ms).val ms.toNat ≤ error) :
    List.Forall₂ (fun x y => msOff rate y.1.1 x.1 ≤ y.2.1 * error) (score 0 calls)
      ((timed 0 ((readItems calls).map p.stepOf)).zip
        (Song.timeline (fun _ => 1) 0 (readItems calls))) := by
  have hsize : ∀ ms, SongItem.delay ms ∈ readItems calls →
      msOff rate (p.delayFrames ms).val ms.toNat ≤ error := by
    intro ms hms
    obtain ⟨x, hx, hback⟩ := List.mem_map.mp hms
    cases x with
    | event e => cases hback
    | delay ms' =>
      cases hback
      exact herror ms (fits_itemsFrom hx).1
  have hstart : msOff rate 0 0 ≤ (0 : Nat) * error := by simp [msOff]
  have hdrift := Song.timeline_drift (fun ms => (p.delayFrames ms).val) hsize hstart
  rw [times_ofCalls hfit, List.forall₂_map_left_iff] at hdrift
  rw [timed_stepOf, List.zip_map_left, List.forall₂_map_right_iff]
  exact hdrift

/-- Whether a song has every event within 63 ms of the time that its waits give it. -/
def KeepsTime (p : Player) (rate : UInt32) (calls : List Call) : Prop :=
  ∃ steps, p.Performs steps
    ∧ List.Forall₂ (fun x y => msOff rate y.1 x.1 ≤ 63) (score 0 calls) (timed 0 steps)

theorem keepsTime_of_dvd {rate : UInt32} (hrate : Rate.isLegal rate = true)
    (hdvd : 1000 ∣ rate.toNat) {us : UInt32} {calls : List Call} (hfit : waitsFit 0 calls = true)
    {resource : Option ResourceId} {p : Player}
    (hload : Player.make rate (ofCalls us calls).finish false resource = .ok p) :
    p.KeepsTime rate calls := by
  have hmade := madeOf_ofCalls hload
  refine ⟨_, hmade.performs, ?_⟩
  have hdrift := drift_written p hfit fun ms hms =>
    msOff_delay_of_dvd hrate hmade.framesPerMs hdvd hms
  generalize readItems calls = items at hdrift ⊢
  have hlength : (timed 0 (items.map p.stepOf)).length
      ≤ (Song.timeline (fun _ => 1) 0 items).length := by
    rw [timed_stepOf, List.length_map]
    exact (Song.length_timeline _ _ 0 0 items).le
  rw [← List.map_fst_zip hlength, List.forall₂_map_right_iff]
  refine hdrift.imp fun x y h => h.trans ?_
  rw [mul_zero]
  norm_num

/-! ### Songs that lose time -/

def ticks (ms : UInt32) : Nat → List Call
  | 0 => []
  | n + 1 => .wait ms :: .wheel 0 0x2000 :: ticks ms n

theorem waitsFit_ticks (ms : UInt32) (n : Nat) : waitsFit 0 (ticks ms n) = true := by
  induction n with
  | zero => rfl
  | succ n ih =>
    rw [ticks, waitsFit_silent rfl, waitsFit_event rfl, ih, Bool.and_true, Nat.zero_add]
    exact decide_eq_true ms.toNat_lt

theorem ticks_event (ms : UInt32) {n : Nat} (hn : 0 < n) :
    ∃ call ∈ ticks ms n, call.event ≠ none := by
  obtain ⟨m, rfl⟩ := Nat.exists_eq_add_one.mpr hn
  exact ⟨.wheel 0 0x2000, List.mem_cons_of_mem _ List.mem_cons_self, nofun⟩

section

variable {ms : UInt32} (hpos : 0 < ms.toNat) (hms : ms.toNat ≤ delayLimitMs)

include hpos hms

theorem readItems_ticks (n : Nat) :
    readItems (ticks ms (n + 1))
      = .delay ms.toNat.toUInt8 :: .event (.wheel 0 0x2000) :: readItems (ticks ms n) := by
  have hdelays : delays ms.toNat = [.delay ms.toNat.toUInt8] := by
    rw [delays_of_pos hpos, Nat.min_eq_left hms, Nat.sub_self, delays_zero]
  have hitems : itemsFrom 0 (ticks ms (n + 1))
      = delays (0 + ms).toNat ++ .event (.wheel 0 0x2000) :: itemsFrom 0 (ticks ms n) := rfl
  rw [readItems, hitems, UInt32.zero_add, hdelays]
  rfl

theorem msOff_ticks {p : Player} {rate : UInt32} {n : Nat} (hn : 0 < n) {now frames : Nat}
    (h : List.Forall₂ (fun x y => msOff rate y.1 x.1 ≤ 63) (score now (ticks ms n))
      (timed frames ((readItems (ticks ms n)).map p.stepOf))) :
    msOff rate (frames + n * (p.delayFrames ms.toNat.toUInt8).val) (now + n * ms.toNat) ≤ 63 := by
  induction n generalizing now frames with
  | zero => exact absurd hn (Nat.lt_irrefl 0)
  | succ n ih =>
    rw [readItems_ticks hpos hms n] at h
    obtain ⟨hhead, hrest⟩ := List.forall₂_cons.mp h
    rcases Nat.eq_zero_or_pos n with rfl | hn'
    · rw [Nat.zero_add, Nat.one_mul, Nat.one_mul]
      exact hhead
    · have hlast := ih hn' hrest
      have hframes : frames + (n + 1) * (p.delayFrames ms.toNat.toUInt8).val
          = frames + (p.delayFrames ms.toNat.toUInt8).val
            + n * (p.delayFrames ms.toNat.toUInt8).val := by ring
      have htime : now + (n + 1) * ms.toNat = now + ms.toNat + n * ms.toNat := by ring
      rw [hframes, htime]
      exact hlast

theorem not_keepsTime_ticks {us rate : UInt32} {resource : Option ResourceId} {n : Nat}
    {p : Player}
    (hload : Player.make rate (ofCalls us (ticks ms n)).finish false resource = .ok p)
    (hn : 0 < n)
    (hoff : 63 < msOff rate (n * (p.delayFrames ms.toNat.toUInt8).val) (n * ms.toNat)) :
    ¬ p.KeepsTime rate (ticks ms n) := by
  rintro ⟨steps, hsteps, hnear⟩
  rw [hsteps.unique (madeOf_ofCalls hload).performs] at hnear
  have hlast := msOff_ticks hpos hms hn hnear
  rw [Nat.zero_add, Nat.zero_add] at hlast
  exact absurd hlast (not_le.mpr hoff)

end

/-- Where a ms is no whole number of frames a delay of 1 ms is off by some part of a frame, always to
the same side, so enough of them are off by more than 63 ms. -/
theorem lt_msOff_repeated {rate : UInt32} (hrate : Rate.isLegal rate = true)
    (hdvd : ¬ 1000 ∣ rate.toNat) (frames : Nat) :
    63 < msOff rate ((63 * rate.toNat + 1) * frames) (63 * rate.toNat + 1) := by
  have hlow : (200 : ℚ) ≤ rate.toNat := by exact_mod_cast (Rate.legal_bounds hrate).1
  have hwhole : 1 ≤ |(frames : ℤ) * 1000 - rate.toNat| := by
    refine Int.one_le_abs fun hzero => hdvd ⟨frames, ?_⟩
    omega
  have hwhole' : (1 : ℚ) ≤ |(frames : ℚ) * 1000 - rate.toNat| := by exact_mod_cast hwhole
  have hscale : ((63 * rate.toNat + 1) * frames : ℚ) * 1000 / rate.toNat - (63 * rate.toNat + 1)
      = (frames * 1000 - rate.toNat) * ((63 * rate.toNat + 1) / rate.toNat) := by
    field_simp
  have hratio : (63 : ℚ) < (63 * rate.toNat + 1) / rate.toNat := by
    rw [lt_div_iff₀ (by linarith)]
    linarith
  have hratio' : |((63 : ℚ) * rate.toNat + 1) / rate.toNat| = (63 * rate.toNat + 1) / rate.toNat :=
    abs_of_pos (by linarith)
  rw [msOff]
  push_cast
  rw [hscale, abs_mul, hratio']
  calc (63 : ℚ) < 1 * ((63 * rate.toNat + 1) / rate.toNat) := by linarith
    _ ≤ _ := mul_le_mul_of_nonneg_right hwhole' (by linarith)

theorem exists_late_song {rate : UInt32} (hrate : Rate.isLegal rate = true)
    (hdvd : ¬ 1000 ∣ rate.toNat) :
    ∃ calls p, waitsFit 0 calls = true
      ∧ Player.make rate (ofCalls 500000 calls).finish false none = .ok p
      ∧ ¬ p.KeepsTime rate calls := by
  obtain ⟨p, hload⟩ := make_of_stream
    (stream_of_event (ticks_event 1 (Nat.succ_pos (63 * rate.toNat)))) 500000 rate false none
  refine ⟨_, p, waitsFit_ticks _ _, hload,
    not_keepsTime_ticks (by decide) (by decide) hload (Nat.succ_pos _) ?_⟩
  have hms : (1 : UInt32).toNat = 1 := rfl
  rw [hms, Nat.mul_one]
  exact lt_msOff_repeated hrate hdvd _

/-- Every song whose gaps 32 bits count keeps time where a ms is a whole number of frames, and at no
other rate. At any rate an event of such a song is off by at most 0.8 frames for each delay before
it. -/
theorem events_keep_time {rate : UInt32} (hrate : Rate.isLegal rate = true) :
    ((∀ us calls resource p, waitsFit 0 calls = true →
        Player.make rate (ofCalls us calls).finish false resource = .ok p →
          p.KeepsTime rate calls)
      ↔ 1000 ∣ rate.toNat)
    ∧ ∀ us calls resource p, waitsFit 0 calls = true →
        Player.make rate (ofCalls us calls).finish false resource = .ok p →
        ∃ items last, Song.Stream p.song.data p.offset items last
          ∧ p.Performs (items.map p.stepOf)
          ∧ List.Forall₂ (fun x y => msOff rate y.1.1 x.1 ≤ y.2.1 * (800 / rate.toNat))
            (score 0 calls)
            ((timed 0 (items.map p.stepOf)).zip (Song.timeline (fun _ => 1) 0 items)) := by
  refine ⟨⟨fun hall => ?_, fun hdvd us calls resource p hfit hload =>
    keepsTime_of_dvd hrate hdvd hfit hload⟩, ?_⟩
  · by_contra hdvd
    obtain ⟨calls, p, hfit, hload, hlate⟩ := exists_late_song hrate hdvd
    exact hlate (hall 500000 calls none p hfit hload)
  · intro us calls resource p hfit hload
    have hmade := madeOf_ofCalls hload
    obtain ⟨last, hstream⟩ := hmade.stream
    exact ⟨readItems calls, last, hstream, hmade.performs,
      drift_written p hfit fun ms hms => msOff_delay hrate hmade.framesPerMs hms⟩

theorem events_keep_time_threeEvents :
    Rate.isLegal 48000 = true ∧ waitsFit 0 threeEvents = true
      ∧ ∃ p, Player.make 48000 (ofCalls 500000 threeEvents).finish false none = .ok p
        ∧ p.KeepsTime 48000 threeEvents := by
  obtain ⟨p, hload⟩ := make_of_stream (stream_of_event threeEvents_event) 500000 48000 false none
  have hrate : Rate.isLegal 48000 = true := by decide
  have hfit : waitsFit 0 threeEvents = true := by decide
  have hkeeps := (events_keep_time hrate).1.mpr (by decide)
  exact ⟨hrate, hfit, p, hload, hkeeps 500000 threeEvents none p hfit hload⟩

theorem rounding_adds_up :
    ∃ p, Player.make 200 (ofCalls 500000 (ticks 7 32)).finish false none = .ok p
      ∧ ¬ p.KeepsTime 200 (ticks 7 32) := by
  obtain ⟨p, hload⟩ := make_of_stream
    (stream_of_event (ticks_event 7 (n := 32) (by decide))) 500000 200 false none
  refine ⟨p, hload, not_keepsTime_ticks (by decide) (by decide) hload (by decide) ?_⟩
  -- 1.4 frames are cut to one, each time.
  have hframe : (p.delayFrames (7 : UInt32).toNat.toUInt8).val = 1 := by
    rw [delayFrames_val (madeOf_ofCalls hload).framesPerMs]
    decide +kernel
  rw [hframe, msOff]
  show (63 : ℚ) < |((32 * 1 : Nat) : ℚ) * 1000 / (200 : Nat) - (32 * 7 : Nat)|
  norm_num

end Player

end Tonewheel
