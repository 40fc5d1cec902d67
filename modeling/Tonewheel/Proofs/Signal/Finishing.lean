import Mathlib.Algebra.Ring.Nat
import Mathlib.Algebra.Ring.Int.Defs
import Tonewheel.Output
import Tonewheel.Proofs.Signal.Blocks
import Tonewheel.Signal.Envelope

/-!
# How envelopes finish (SPEC_FULL, section 8)

Each step of an envelope takes one off a count of steps to its end, in which a stage without time
still costs a step (`stepsLeft_step`). Letting the note go never adds to that count, and leaves no
more of it than attack, decay and release can take (`Walks.stepsLeft_release_le`). So an envelope
finishes within the sum of its times, however steps and releases are interleaved
(`finishes_in_time`). The last stage has a count of its own, which is wound up again whenever it has
run out.
-/

namespace Tonewheel

namespace Stage

def next : Stage → Stage
  | .attack => .decay
  | .decay => .sustain
  | .sustain => .release
  | .release => .finished
  | .finished => .finished

def rank : Stage → Nat
  | .attack => 0
  | .decay => 1
  | .sustain => 2
  | .release => 3
  | .finished => 4

theorem rank_le_next (stage : Stage) : stage.rank ≤ stage.next.rank := by
  cases stage <;> decide

end Stage

namespace Contour

def timeOf (c : Contour) : Stage → Int
  | .attack => c.attackTime
  | .decay => c.decayTime
  | .sustain => c.sustainTime
  | .release => c.releaseTime
  | .finished => Envelope.held

/-- Whether all times are words that are not negative. -/
def Fits (c : Contour) : Prop := ∀ stage, 0 ≤ c.timeOf stage ∧ c.timeOf stage ≤ Envelope.held

theorem fits_of_times {c : Contour}
    (h : ∀ stage, stage ≠ .finished → 0 ≤ c.timeOf stage ∧ c.timeOf stage ≤ Envelope.held) :
    c.Fits := by
  intro stage
  by_cases hstage : stage = .finished
  · subst hstage
    exact ⟨Int.zero_le_ofNat _, Int.le_refl _⟩
  · exact h stage hstage

/-- The steps from the end of a stage to the end of an envelope. Every stage after the attack costs a
step at least. -/
def stepsAfter (c : Contour) : Stage → Nat
  | .attack =>
    max c.decayTime.toNat 1 + (max c.sustainTime.toNat 1 + (max c.releaseTime.toNat 1 + 1))
  | .decay => max c.sustainTime.toNat 1 + (max c.releaseTime.toNat 1 + 1)
  | .sustain => max c.releaseTime.toNat 1 + 1
  | .release => 1
  | .finished => 0

end Contour

/-! ### Times that fit -/

namespace Dynamics

/-- Whether the times of dynamics are words that are not negative, and so are the sums that are
blended from them at a velocity. -/
structure Fits (d : Dynamics) (velocity : UInt8) : Prop where
  soft : d.soft.Fits
  loud : d.loud.Fits
  blend : velocity ≠ 0 → velocity < 0x7f → ∀ stage, stage ≠ .finished →
    d.loud.timeOf stage * velocity.toNat + d.soft.timeOf stage * (0x7f - velocity.toNat)
      ≤ Envelope.held

theorem timeOf_contour {d : Dynamics} {velocity : UInt8} (hzero : velocity ≠ 0)
    (hsoft : velocity < 0x7f) {stage : Stage} (hstage : stage ≠ .finished) :
    (d.contour velocity).timeOf stage
      = (d.loud.timeOf stage * velocity.toNat + d.soft.timeOf stage * (0x7f - velocity.toNat))
        / 128 := by
  unfold contour
  rw [if_neg hzero, if_neg (UInt8.not_le.mpr hsoft)]
  cases stage with
  | finished => exact absurd rfl hstage
  | _ => rfl

theorem Fits.contour {d : Dynamics} {velocity : UInt8} (h : d.Fits velocity) :
    (d.contour velocity).Fits := by
  by_cases hzero : velocity = 0
  · rw [Dynamics.contour, if_pos hzero]
    exact h.soft
  by_cases hloud : 0x7f ≤ velocity
  · rw [Dynamics.contour, if_neg hzero, if_pos hloud]
    exact h.loud
  refine Contour.fits_of_times fun stage hstage => ?_
  have hsoft := UInt8.not_le.mp hloud
  have hblend := h.blend hzero hsoft stage hstage
  have hv : (velocity.toNat : Int) < 127 := by
    have hlt := UInt8.lt_iff_toNat_lt.mp hsoft
    exact Int.ofNat_lt.mpr hlt
  have hfirst := Int.mul_nonneg (h.loud stage).1 (Int.natCast_nonneg velocity.toNat)
  have hsecond : 0 ≤ d.soft.timeOf stage * (0x7f - velocity.toNat) :=
    Int.mul_nonneg (h.soft stage).1 (by omega)
  rw [timeOf_contour hzero hsoft hstage]
  omega

theorem framesOfMs_bounds {rate : UInt32} (hrate : rate ≤ 200000) {ms : Int} (hms : ms ≤ 1200) :
    0 ≤ framesOfMs ms rate ∧ framesOfMs ms rate ≤ 240000 := by
  have hrate' : (rate.toNat : Int) ≤ 200000 := Int.ofNat_le.mpr (UInt32.le_iff_toNat_le.mp hrate)
  have hproduct : ms * rate.toNat ≤ 1200 * 200000 :=
    Int.mul_le_mul hms hrate' (Int.natCast_nonneg _) (by decide)
  have hframes : framesOfMs ms rate = max (ms * rate.toNat / 1000) 1 :=
    Int.bmod_eq_of_le (by omega) (by omega)
  omega

theorem attackMs_le (i : Fin 8) : attackMs[i] ≤ 80 := by
  revert i
  decide

theorem releaseMs_le (i : Fin 8) : releaseMs[i] ≤ 1200 := by
  revert i
  decide

/-- At a rate that is supported no time of a descriptor is longer than 1.2 seconds. -/
theorem timeOf_ofDescriptor {rate : UInt32} (hrate : rate ≤ 200000) (descriptor : UInt8)
    {stage : Stage} (hstage : stage ≠ .finished) :
    (0 ≤ (ofDescriptor rate descriptor).loud.timeOf stage
        ∧ (ofDescriptor rate descriptor).loud.timeOf stage ≤ 240000)
      ∧ 0 ≤ (ofDescriptor rate descriptor).soft.timeOf stage
        ∧ (ofDescriptor rate descriptor).soft.timeOf stage ≤ 240000 := by
  have hattack := attackMs_le (lowBits (descriptor >>> 3))
  have hrelease := releaseMs_le (lowBits descriptor)
  cases stage with
  | attack => exact ⟨framesOfMs_bounds hrate (by omega), framesOfMs_bounds hrate (by omega)⟩
  | decay => exact ⟨framesOfMs_bounds hrate (by omega), framesOfMs_bounds hrate (by omega)⟩
  | release => exact ⟨framesOfMs_bounds hrate hrelease, framesOfMs_bounds hrate (by omega)⟩
  | sustain =>
    have hone : 0 ≤ framesOfMs 1 rate ∧ framesOfMs 1 rate ≤ 240000 :=
      framesOfMs_bounds hrate (by decide)
    simp only [ofDescriptor, Contour.timeOf]
    split <;> omega
  | finished => exact absurd rfl hstage

theorem fits_ofDescriptor {rate : UInt32} (hrate : Rate.isLegal rate = true)
    (descriptor velocity : UInt8) : (ofDescriptor rate descriptor).Fits velocity := by
  simp only [Rate.isLegal, Bool.and_eq_true, decide_eq_true_eq] at hrate
  have htimes (stage : Stage) (hstage : stage ≠ .finished) :=
    timeOf_ofDescriptor hrate.2 descriptor hstage
  have hheld : Envelope.held = 2147483647 := rfl
  refine ⟨Contour.fits_of_times fun stage hstage => ?_,
    Contour.fits_of_times fun stage hstage => ?_, fun _ hsoft stage hstage => ?_⟩
  · have hbounds := htimes stage hstage
    omega
  · have hbounds := htimes stage hstage
    omega
  · have hv : (velocity.toNat : Int) < 127 := Int.ofNat_lt.mpr (UInt8.lt_iff_toNat_lt.mp hsoft)
    obtain ⟨⟨-, hloud⟩, -, hsoft⟩ := htimes stage hstage
    have hfirst := Int.mul_le_mul_of_nonneg_right hloud (Int.natCast_nonneg velocity.toNat)
    have hsecond := Int.mul_le_mul_of_nonneg_right hsoft
      (show 0 ≤ (0x7f - velocity.toNat : Int) by omega)
    omega

end Dynamics

namespace Envelope

/-! ### Steps to the end -/

theorem advance_stage (e : Envelope) : e.advance.stage = e.stage.next := by
  unfold advance
  cases e.stage <;> rfl

theorem advance_left (e : Envelope) : e.advance.left = e.contour.timeOf e.stage.next := by
  unfold advance
  cases e.stage <;> rfl

theorem advance_contour (e : Envelope) : e.advance.contour = e.contour := by
  unfold advance
  cases e.stage <;> rfl

/-- What a step does but for the level: a frame of the stage passes, or the next stage begins. -/
theorem step_cases (e : Envelope) :
    (0 < e.left ∧ e.step.2.stage = e.stage ∧ e.step.2.left = e.left - 1
        ∧ e.step.2.slope = e.slope ∧ e.step.2.contour = e.contour)
      ∨ (e.left ≤ 0 ∧ e.step.2.stage = e.stage.next
        ∧ e.step.2.left = e.contour.timeOf e.stage.next - 1
        ∧ e.step.2.slope = e.advance.slope ∧ e.step.2.contour = e.contour) := by
  unfold step
  by_cases hleft : e.left ≤ 0
  · right
    rw [if_pos hleft]
    exact ⟨hleft, e.advance_stage, congrArg (· - 1) e.advance_left, rfl, e.advance_contour⟩
  · left
    rw [if_neg hleft]
    exact ⟨Int.not_le.mp hleft, rfl, rfl, rfl, rfl⟩

/-- The steps after which an envelope is finished, if it is not let go before. -/
def stepsLeft (e : Envelope) : Nat :=
  if e.stage = .finished then 0 else e.left.toNat + e.contour.stepsAfter e.stage

theorem stepsLeft_eq_zero {e : Envelope} : e.stepsLeft = 0 ↔ e.stage = .finished := by
  unfold stepsLeft
  cases e.stage <;> simp [Contour.stepsAfter]

theorem stepsLeft_step (e : Envelope) : e.step.2.stepsLeft = e.stepsLeft - 1 := by
  unfold stepsLeft
  obtain ⟨hleft, hstage, hleft', -, hcontour⟩ | ⟨hleft, hstage, hleft', -, hcontour⟩ := e.step_cases
  · rw [hstage, hleft', hcontour]
    cases e.stage <;> simp [Contour.stepsAfter] <;> omega
  · rw [hstage, hleft', hcontour]
    cases e.stage <;> simp [Stage.next, Contour.stepsAfter, Contour.timeOf] <;> omega

theorem stepsLeft_render (e : Envelope) (n : Nat) :
    (e.render n).2.stepsLeft = e.stepsLeft - n := by
  induction n generalizing e with
  | zero => rfl
  | succ n ih =>
    have hnext := ih e.step.2
    rw [stepsLeft_step] at hnext
    unfold render at hnext ⊢
    rw [Block.generate_succ]
    dsimp only
    omega

theorem stepsLeft_release_le (e : Envelope) : e.release.stepsLeft ≤ e.stepsLeft := by
  unfold release stepsLeft
  cases hstage : e.stage with
  | attack | decay =>
    simp only [Contour.stepsAfter, reduceCtorEq, if_false, Int.toNat_one, Nat.max_self]
    omega
  | sustain =>
    simp only [Contour.stepsAfter, reduceCtorEq, if_false]
    omega
  | release | finished => rw [hstage]

/-! ### Steps and releases -/

inductive Move where
  | step
  | release
  deriving Repr, DecidableEq

def move (e : Envelope) : Move → Envelope
  | .step => e.step.2
  | .release => e.release

def moves (e : Envelope) (ms : List Move) : Envelope := ms.foldl move e

theorem moves_append (e : Envelope) (ms more : List Move) :
    e.moves (ms ++ more) = (e.moves ms).moves more :=
  List.foldl_append

theorem moves_invariant {motive : Envelope → Prop} (step : ∀ e, motive e → motive e.step.2)
    (release : ∀ e, motive e → motive e.release) {e : Envelope} (start : motive e)
    (ms : List Move) : motive (e.moves ms) := by
  induction ms generalizing e with
  | nil => exact start
  | cons m ms ih =>
    cases m with
    | step => exact ih (step e start)
    | release => exact ih (release e start)

theorem stepsLeft_moves_le (e : Envelope) (ms : List Move) :
    (e.moves ms).stepsLeft ≤ e.stepsLeft - ms.count .step := by
  induction ms generalizing e with
  | nil => exact Nat.le_refl _
  | cons m ms ih =>
    have hrest := ih (e.move m)
    cases m with
    | step =>
      have hstep : (e.move .step).stepsLeft = e.stepsLeft - 1 := e.stepsLeft_step
      rw [List.count_cons_self]
      exact Nat.le_trans hrest (by omega)
    | release =>
      have hrelease : (e.move .release).stepsLeft ≤ e.stepsLeft := e.stepsLeft_release_le
      rw [List.count_cons_of_ne (by decide)]
      exact Nat.le_trans hrest (by omega)

theorem finished_of_stepsLeft_le {e : Envelope} {ms : List Move}
    (h : e.stepsLeft ≤ ms.count .step) : (e.moves ms).stage = .finished := by
  have hle := e.stepsLeft_moves_le ms
  exact stepsLeft_eq_zero.mp (by omega)

theorem rank_moves_le (e : Envelope) (ms : List Move) : e.stage.rank ≤ (e.moves ms).stage.rank := by
  refine moves_invariant (motive := fun e' => e.stage.rank ≤ e'.stage.rank) (fun e' h => ?_)
    (fun e' h => ?_) (Nat.le_refl _) ms
  · obtain ⟨-, hstage, -⟩ | ⟨-, hstage, -⟩ := e'.step_cases
    · rwa [hstage]
    · rw [hstage]
      exact Nat.le_trans h e'.stage.rank_le_next
  · have hstage : e'.release.stage = e'.stage := by
      unfold release
      cases hstage : e'.stage <;> simp [hstage]
    rwa [hstage]

/-- What is true of an envelope on its way along a contour. Of the contour only the sustain changes,
to a frame, and a stage has no more left than its time. -/
structure Walks (e : Envelope) (c : Contour) : Prop where
  contour : e.contour = c ∨ e.contour = { c with sustainTime := 1 }
  left_le : e.left ≤ max 0 (e.contour.timeOf e.stage)
  le_left : c.Fits → -1 ≤ e.left
  finished : e.stage = .finished → e.slope = 0 ∧ 0 ≤ e.left

namespace Walks

variable {e : Envelope} {c : Contour}

theorem ofContour (c : Contour) : (ofContour c).Walks c where
  contour := .inl rfl
  left_le := Int.le_max_right _ _
  le_left h := Int.le_trans (by decide) (h .attack).1
  finished h := by cases h

theorem fits (h : e.Walks c) (hfits : c.Fits) : e.contour.Fits := by
  rcases h.contour with hsame | hsame
  · rwa [hsame]
  · rw [hsame]
    intro stage
    cases stage with
    | sustain => exact ⟨Int.zero_le_ofNat 1, Int.ofNat_le.mpr (by decide)⟩
    | attack => exact hfits .attack
    | decay => exact hfits .decay
    | release => exact hfits .release
    | finished => exact hfits .finished

theorem step (h : e.Walks c) : e.step.2.Walks c := by
  obtain ⟨hleft, hstage, hleft', hslope, hcontour⟩ | ⟨hleft, hstage, hleft', hslope, hcontour⟩ :=
    e.step_cases
  · refine ⟨hcontour ▸ h.contour, ?_, fun hfits => by omega, fun hfinished => ?_⟩
    · rw [hstage, hleft', hcontour]
      have hle := h.left_le
      omega
    · rw [hslope]
      exact ⟨(h.finished (hstage ▸ hfinished)).1, by omega⟩
  · refine ⟨hcontour ▸ h.contour, ?_, fun hfits => ?_, fun hfinished => ?_⟩
    · rw [hstage, hleft', hcontour]
      omega
    · have htime := (h.fits hfits e.stage.next).1
      omega
    · rw [hstage] at hfinished
      rw [hfinished] at hleft'
      refine ⟨?_, by rw [hleft']; exact Int.zero_le_ofNat _⟩
      rw [hslope]
      unfold advance
      cases hbefore : e.stage <;> rw [hbefore] at hfinished <;> first | rfl | cases hfinished

theorem release (h : e.Walks c) : e.release.Walks c := by
  have hshort : { e.contour with sustainTime := 1 } = { c with sustainTime := 1 } := by
    rcases h.contour with hsame | hsame <;> rw [hsame]
  have hle := h.left_le
  unfold Envelope.release
  cases hstage : e.stage with
  | attack | decay =>
    rw [hstage] at hle
    exact ⟨.inr hshort, hle, h.le_left, fun hfinished => by cases hfinished⟩
  | sustain =>
    exact ⟨h.contour, Int.le_max_left _ _, fun _ => (show (-1 : Int) ≤ 0 by decide),
      fun hfinished => by cases hfinished⟩
  | release | finished => exact h

/-- A note that is let go has no more to take than its attack, its decay and its release. -/
theorem stepsLeft_release_le (h : e.Walks c) :
    e.release.stepsLeft
      ≤ c.attackTime.toNat + c.decayTime.toNat + c.releaseTime.toNat + 4 := by
  have htimes : e.contour.attackTime = c.attackTime ∧ e.contour.decayTime = c.decayTime
      ∧ e.contour.releaseTime = c.releaseTime := by
    rcases h.contour with hsame | hsame <;> rw [hsame] <;> exact ⟨rfl, rfl, rfl⟩
  have hle := h.left_le
  unfold Envelope.release stepsLeft
  cases hstage : e.stage <;> simp [hstage, Contour.stepsAfter, Contour.timeOf] at hle ⊢ <;> omega

theorem moves (h : e.Walks c) (ms : List Move) : (e.moves ms).Walks c :=
  moves_invariant (motive := fun e => e.Walks c) (fun _ h => h.step) (fun _ h => h.release) h ms

end Walks

/-! ### Notes -/

theorem fits_ofNote {d : Dynamics} {velocity : UInt8} (hfits : d.Fits velocity) {duration : Int}
    (hduration : duration ≤ held) : (ofNote d velocity duration).contour.Fits := by
  have hheld : held = 2147483647 := rfl
  intro stage
  cases stage with
  | sustain =>
    show 0 ≤ (if _ then duration else 1) ∧ (if _ then duration else 1) ≤ held
    split <;> omega
  | attack => exact hfits.contour .attack
  | decay => exact hfits.contour .decay
  | release => exact hfits.contour .release
  | finished => exact hfits.contour .finished

/-- A note's envelope goes through its stages in order, and is finished after as many steps as its
times add up to and four more. Once it is let go the sustain does not count, however long it was. What
is left of a stage is a word throughout, and a finished envelope stays as it is: its level moves no
more, and its count is wound up again when it has run out. -/
theorem finishes_in_time {d : Dynamics} {velocity : UInt8} (hfits : d.Fits velocity)
    {duration : Int} (hduration : duration ≤ held) :
    let e := ofNote d velocity duration
    let c := e.contour
    (∀ before after, (e.moves before).stage.rank ≤ (e.moves (before ++ after)).stage.rank)
      ∧ (∀ ms, -1 ≤ (e.moves ms).left ∧ (e.moves ms).left ≤ held)
      ∧ (∀ ms : List Move,
          c.attackTime + c.decayTime + c.sustainTime + c.releaseTime + 4 ≤ ms.count .step →
          (e.moves ms).stage = .finished)
      ∧ (∀ before after : List Move,
          c.attackTime + c.decayTime + c.releaseTime + 5 ≤ after.count .step →
          (e.moves (before ++ .release :: after)).stage = .finished)
      ∧ ∀ before after, (e.moves before).stage = .finished →
          let f := e.moves (before ++ after)
          f.stage = .finished ∧ f.slope = 0
            ∧ (0 < f.left ∨ f.left = 0 ∧ f.step.2.left = held - 1) := by
  intro e c
  have hc : c.Fits := fits_ofNote hfits hduration
  have hwalks (ms : List Move) : (e.moves ms).Walks c := (Walks.ofContour c).moves ms
  have hattack := (hc .attack).1
  have hdecay := (hc .decay).1
  have hsustain := (hc .sustain).1
  have hrelease := (hc .release).1
  simp only [Contour.timeOf] at hattack hdecay hsustain hrelease
  refine ⟨fun before after => ?_, fun ms => ⟨(hwalks ms).le_left hc, ?_⟩, fun ms hms => ?_,
    fun before after hafter => ?_, fun before after hfinished => ?_⟩
  · rw [moves_append]
    exact rank_moves_le _ after
  · have hle := (hwalks ms).left_le
    have htime := ((hwalks ms).fits hc (e.moves ms).stage).2
    have hpos : 0 ≤ held := Int.zero_le_ofNat _
    omega
  · refine finished_of_stepsLeft_le ?_
    have hsteps : e.stepsLeft = c.attackTime.toNat + c.stepsAfter .attack := rfl
    rw [Contour.stepsAfter] at hsteps
    omega
  · rw [moves_append]
    refine finished_of_stepsLeft_le (e := (e.moves before).release) ?_
    have hle := (hwalks before).stepsLeft_release_le
    omega
  · intro f
    have hleft := stepsLeft_moves_le (e.moves before) after
    rw [stepsLeft_eq_zero.mpr hfinished, Nat.zero_sub, ← moves_append] at hleft
    have hstage : f.stage = .finished := stepsLeft_eq_zero.mp (Nat.le_zero.mp hleft)
    obtain ⟨hslope, hle⟩ := (hwalks (before ++ after)).finished hstage
    refine ⟨hstage, hslope, ?_⟩
    rcases Int.lt_or_eq_of_le hle with hpos | hzero
    · exact .inl hpos
    · have hzero : f.left = 0 := hzero.symm
      refine .inr ⟨hzero, ?_⟩
      obtain ⟨hpos, -⟩ | ⟨-, -, hwound, -⟩ := f.step_cases
      · omega
      · rw [hwound, hstage]
        rfl

/-- A held note of medium loudness that is let go twice, at first in its decay. -/
theorem finishes_in_time_heldNote :
    let d := Dynamics.ofDescriptor 44100 0x80
    let e := ofNote d 64 held
    let c := e.contour
    let before : List Move := List.replicate 400 .step
    let after : List Move := List.replicate 3000 .step
    d.Fits 64 ∧ held ≤ held
      ∧ c.attackTime + c.decayTime + c.releaseTime + 5 ≤ after.count .step
      ∧ (e.moves (before ++ .release :: after)).stage = .finished := by
  intro d e c before after
  have hfits : d.Fits 64 := Dynamics.fits_ofDescriptor (by decide) 0x80 64
  have hlong : c.attackTime + c.decayTime + c.releaseTime + 5 ≤ after.count .step := by
    decide +kernel
  exact ⟨hfits, Int.le_refl _, hlong,
    (finishes_in_time hfits (Int.le_refl held)).2.2.2.1 before after hlong⟩

end Envelope

end Tonewheel
