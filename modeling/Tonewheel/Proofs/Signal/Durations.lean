import Mathlib.Algebra.Ring.Nat
import Mathlib.Algebra.Ring.Int.Defs
import Tonewheel.Output
import Tonewheel.Proofs.Signal.Blocks
import Tonewheel.Signal.Envelope

/-!
# How long notes are held (SPEC_FULL, section 4.3)

The sustain of a note's envelope is the duration of the note, if its dynamics sustain at all. They
say so by a sustain that is not zero: a millisecond, in both sets of breakpoints. Between the two
sets times are blended in 128ths by weights that add up to 127, so a blend of two equal times comes
out a little short, and a single frame as none (`sustainTime_contour`). At fewer than 2000 frames a
second the millisecond is a single frame, and there a note between the softest and the loudest is not
held at all. Everywhere else the duration reaches the envelope (`duration_reaches_sustain`), which
then stays before its release that long (`sustains_render`).
-/

namespace Tonewheel

namespace Dynamics

/-! ### The sustain of a descriptor -/

theorem framesOfMs_one (rate : UInt32) : framesOfMs 1 rate = max ((rate.toNat / 1000 : Nat) : Int) 1 := by
  have hrate := rate.toNat_lt
  have hframes : (1 * (rate.toNat : Int) / 1000) = ((rate.toNat / 1000 : Nat) : Int) := by omega
  rw [framesOfMs, hframes]
  exact Int.bmod_eq_of_le (by omega) (by omega)

/-- Equal times are kept at the ends of the velocities, and cut by a 128th between them. -/
theorem sustainTime_contour {d : Dynamics} (hsame : d.soft.sustainTime = d.loud.sustainTime)
    (velocity : UInt8) :
    (d.contour velocity).sustainTime
      = if velocity = 0 ∨ 0x7f ≤ velocity then d.loud.sustainTime
        else d.loud.sustainTime * 127 / 128 := by
  unfold contour
  by_cases hzero : velocity = 0
  · rw [if_pos hzero, if_pos (.inl hzero), hsame]
  · by_cases hloud : 0x7f ≤ velocity
    · rw [if_neg hzero, if_pos hloud, if_pos (.inr hloud)]
    · rw [if_neg hzero, if_neg hloud, if_neg (not_or.mpr ⟨hzero, hloud⟩)]
      show (d.loud.sustainTime * velocity.toNat + d.soft.sustainTime * (0x7f - velocity.toNat)) / 128
        = d.loud.sustainTime * 127 / 128
      rw [hsame, ← Int.mul_add]
      congr 2
      omega

/-- Notes of a profile that sustains have none of it where a millisecond is a single frame, between
the ends of the velocities. -/
theorem sustainTime_eq_zero {rate : UInt32} {descriptor : UInt8}
    (hprofile : Profile.ofDescriptor descriptor ≠ .impulse) (velocity : UInt8) :
    ((ofDescriptor rate descriptor).contour velocity).sustainTime = 0
      ↔ rate < 2000 ∧ velocity ≠ 0 ∧ velocity < 0x7f := by
  have hsustains : (Profile.ofDescriptor descriptor).sustains = true := by
    cases hcase : Profile.ofDescriptor descriptor with
    | impulse => exact absurd hcase hprofile
    | pluck | tone | bow => rfl
  have hloud : (ofDescriptor rate descriptor).loud.sustainTime = framesOfMs 1 rate := if_pos hsustains
  have hslow : rate < 2000 ↔ rate.toNat < 2000 := UInt32.lt_iff_toNat_lt
  rw [sustainTime_contour rfl, hloud, framesOfMs_one, hslow]
  by_cases hend : velocity = 0 ∨ 0x7f ≤ velocity
  · rw [if_pos hend]
    constructor
    · omega
    · rintro ⟨-, hzero, hsoft⟩
      exact absurd hend (not_or.mpr ⟨hzero, UInt8.not_le.mpr hsoft⟩)
  · rw [if_neg hend]
    obtain ⟨hzero, hsoft⟩ := not_or.mp hend
    constructor
    · intro hnone
      exact ⟨by omega, hzero, UInt8.not_le.mp hsoft⟩
    · omega

theorem sustainTime_impulse {rate : UInt32} {descriptor : UInt8}
    (hprofile : Profile.ofDescriptor descriptor = .impulse) (velocity : UInt8) :
    ((ofDescriptor rate descriptor).contour velocity).sustainTime = 0 := by
  have hloud : (ofDescriptor rate descriptor).loud.sustainTime = 0 := by
    simp [ofDescriptor, hprofile, Profile.sustains]
  rw [sustainTime_contour rfl, hloud]
  split <;> rfl

end Dynamics

namespace Envelope

/-! ### Sustaining -/

/-- Whether an envelope comes to its release in no fewer than `n` steps: its sustain is at least that
long, or what is left of it. -/
def Sustains (e : Envelope) (n : Nat) : Prop :=
  match e.stage with
  | .attack => (n : Int) ≤ e.contour.sustainTime
  | .decay => (n : Int) ≤ e.contour.sustainTime
  | .sustain => (n : Int) ≤ e.left
  | .release => False
  | .finished => False

theorem Sustains.step {e : Envelope} {n : Nat} (h : e.Sustains (n + 1)) : e.step.2.Sustains n := by
  unfold Sustains at h
  unfold Envelope.step
  cases hstage : e.stage with
  | attack | decay =>
    rw [hstage] at h
    by_cases hleft : e.left ≤ 0
    · simp only [if_pos hleft, advance, hstage, Sustains]
      omega
    · simp only [if_neg hleft, hstage, Sustains]
      omega
  | sustain =>
    rw [hstage] at h
    -- The sustain has at least this frame left, so it does not end here.
    have hleft : ¬e.left ≤ 0 := by
      dsimp only at h
      omega
    simp only [if_neg hleft, hstage, Sustains]
    dsimp only at h
    omega
  | release | finished =>
    rw [hstage] at h
    exact h.elim

theorem Sustains.render {e : Envelope} {n : Nat} (h : e.Sustains n) :
    (e.render n).2.stage ≠ .release ∧ (e.render n).2.stage ≠ .finished := by
  induction n generalizing e with
  | zero =>
    show e.stage ≠ .release ∧ e.stage ≠ .finished
    unfold Sustains at h
    constructor <;> intro hstage <;> rw [hstage] at h <;> exact h
  | succ n ih =>
    have hnext := ih h.step
    unfold Envelope.render at hnext ⊢
    rw [Block.generate_succ]
    exact hnext

/-! ### Notes -/

theorem sustainTime_ofNote (d : Dynamics) (velocity : UInt8) (duration : Int) :
    (ofNote d velocity duration).contour.sustainTime
      = if (d.contour velocity).sustainTime ≠ 0 ∧ 0 < duration then duration else 1 := rfl

theorem sustains_ofNote (d : Dynamics) (velocity : UInt8) (duration : Int) {n : Nat}
    (h : (n : Int) ≤ (ofNote d velocity duration).contour.sustainTime) :
    (ofNote d velocity duration).Sustains n := h

/-- The sustain of a note is its duration, so a held note stays before its release for the longest
time there is. It is one frame for a profile without sustain, for no duration, and for notes between
the softest and the loudest at fewer than 2000 frames a second. -/
theorem duration_reaches_sustain (rate : UInt32) (descriptor velocity : UInt8) (duration : Int) :
    let e := ofNote (Dynamics.ofDescriptor rate descriptor) velocity duration
    e.contour.sustainTime
        = (if Dynamics.Profile.ofDescriptor descriptor = .impulse ∨ duration ≤ 0
            ∨ (rate < 2000 ∧ velocity ≠ 0 ∧ velocity < 0x7f) then 1 else duration)
      ∧ ∀ n : Nat, (n : Int) ≤ e.contour.sustainTime →
        (e.render n).2.stage ≠ .release ∧ (e.render n).2.stage ≠ .finished := by
  intro e
  refine ⟨?_, fun n hn => (sustains_ofNote _ velocity duration hn).render⟩
  show (ofNote _ velocity duration).contour.sustainTime = _
  rw [sustainTime_ofNote]
  by_cases himpulse : Dynamics.Profile.ofDescriptor descriptor = .impulse
  · rw [Dynamics.sustainTime_impulse himpulse, if_neg fun h => h.1 rfl, if_pos (.inl himpulse)]
  · have hnone : ((Dynamics.ofDescriptor rate descriptor).contour velocity).sustainTime = 0
        ↔ rate < 2000 ∧ velocity ≠ 0 ∧ velocity < 0x7f :=
      Dynamics.sustainTime_eq_zero himpulse velocity
    by_cases hsustains : ((Dynamics.ofDescriptor rate descriptor).contour velocity).sustainTime = 0
    · rw [if_neg fun h => h.1 hsustains, if_pos (.inr (.inr (hnone.mp hsustains)))]
    · by_cases hduration : 0 < duration
      · rw [if_pos ⟨hsustains, hduration⟩, if_neg]
        rintro (h | h | h)
        · exact himpulse h
        · omega
        · exact hsustains (hnone.mpr h)
      · rw [if_neg fun h => hduration h.2, if_pos (.inr (.inl (by omega)))]

/-- A held note of medium loudness is let go after a frame at 200 frames a second. -/
theorem slow_note_is_let_go :
    ¬ ∀ (rate : UInt32) (descriptor velocity : UInt8) (duration : Int), Rate.isLegal rate = true →
      Dynamics.Profile.ofDescriptor descriptor ≠ .impulse → 0 < duration →
      (ofNote (Dynamics.ofDescriptor rate descriptor) velocity duration).contour.sustainTime
        = duration := by
  intro hall
  have hheld := hall 200 0x80 64 held (by decide) (by decide) (by decide)
  have hnone : ((Dynamics.ofDescriptor 200 0x80).contour 64).sustainTime = 0 :=
    (Dynamics.sustainTime_eq_zero (by decide) 64).mpr (by decide)
  rw [sustainTime_ofNote, if_neg fun h => h.1 hnone] at hheld
  exact absurd hheld (by decide)

end Envelope

end Tonewheel
