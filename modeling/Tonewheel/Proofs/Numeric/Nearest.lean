import Mathlib.Data.Int.Log
import Mathlib.Data.Rat.Floor
import Tonewheel.Proofs.Numeric.Rounding

/-!
# The nearest double

`nearest v` is the number nearest to `v` among those with a mantissa of at most 53 bits and an
exponent of at least -1074, the even mantissa of two that are as near. There is no largest one: what
is too large for a double is cut off elsewhere. Such numbers stay as they are (`nearest_of_fits`),
`nearest` is monotone, and it is off by half of the last bit at most.
-/

namespace Tonewheel.Double

/-! ### Whole numbers -/

/-- Whether no whole number is nearer, and the number is even if another one is as near. -/
def IsNearest (n : ℤ) (q : ℚ) : Prop := |n - q| < 1 / 2 ∨ |n - q| = 1 / 2 ∧ n % 2 = 0

/-- The nearest whole number, the even one of two. -/
def roundEven (q : ℚ) : ℤ :=
  if 2 * Int.fract q < 1 then ⌊q⌋
  else if 1 < 2 * Int.fract q then ⌊q⌋ + 1
  else ⌊q⌋ + ⌊q⌋ % 2

theorem IsNearest.le {n : ℤ} {q : ℚ} (h : IsNearest n q) : |n - q| ≤ 1 / 2 :=
  h.elim le_of_lt fun h => h.1.le

theorem isNearest_roundEven (q : ℚ) : IsNearest (roundEven q) q := by
  have hfract := Int.floor_add_fract q
  have hnonneg := Int.fract_nonneg q
  unfold roundEven IsNearest
  split
  next hlow =>
    left
    rw [abs_lt]
    constructor <;> linarith
  next hlow =>
    split
    next hhigh =>
      left
      have hone := Int.fract_lt_one q
      push_cast
      rw [abs_lt]
      constructor <;> linarith
    next hhigh =>
      right
      have htie : Int.fract q = 1 / 2 := by linarith
      rcases Int.emod_two_eq_zero_or_one ⌊q⌋ with hparity | hparity
      · refine ⟨?_, by omega⟩
        rw [hparity, add_zero, abs_sub_comm, abs_of_nonneg (by linarith)]
        linarith
      · refine ⟨?_, by omega⟩
        rw [hparity]
        push_cast
        rw [abs_of_nonneg (by linarith)]
        linarith

theorem IsNearest.unique {n m : ℤ} {q : ℚ} (hn : IsNearest n q) (hm : IsNearest m q) : n = m := by
  have hn' := abs_le.mp hn.le
  have hm' := abs_le.mp hm.le
  have hupper : n < m + 2 := by
    have : (n : ℚ) < m + 2 := by linarith
    exact_mod_cast this
  have hlower : m < n + 2 := by
    have : (m : ℚ) < n + 2 := by linarith
    exact_mod_cast this
  by_contra hne
  -- Two neighbours are both half a step away, but only one of them is even.
  have hfar : (1 : ℚ) ≤ |(n : ℚ) - q| + |(m : ℚ) - q| := by
    have hone : (1 : ℚ) ≤ |(n : ℚ) - m| := by
      exact_mod_cast Int.one_le_abs (sub_ne_zero.mpr hne)
    calc (1 : ℚ) ≤ |(n : ℚ) - m| := hone
      _ = |((n : ℚ) - q) - (m - q)| := by rw [sub_sub_sub_cancel_right]
      _ ≤ |(n : ℚ) - q| + |(m : ℚ) - q| := abs_sub _ _
  have hn'' := hn.le
  have hm'' := hm.le
  rcases hn with hn | ⟨-, hn⟩
  · linarith
  · rcases hm with hm | ⟨-, hm⟩
    · linarith
    · omega

theorem roundEven_eq {n : ℤ} {q : ℚ} (h : IsNearest n q) : roundEven q = n :=
  (isNearest_roundEven q).unique h

@[simp]
theorem roundEven_intCast (n : ℤ) : roundEven n = n := by
  apply roundEven_eq
  left
  norm_num

theorem roundEven_neg (q : ℚ) : roundEven (-q) = -roundEven q := by
  apply roundEven_eq
  have h := isNearest_roundEven q
  have habs : |((-roundEven q : ℤ) : ℚ) - -q| = |(roundEven q : ℚ) - q| := by
    rw [abs_sub_comm]
    push_cast
    ring_nf
  unfold IsNearest at h ⊢
  rw [habs]
  exact h.imp_right fun h => ⟨h.1, by omega⟩

theorem roundEven_near (q : ℚ) : |(roundEven q : ℚ) - q| ≤ 1 / 2 := (isNearest_roundEven q).le

theorem roundEven_mono {a b : ℚ} (h : a ≤ b) : roundEven a ≤ roundEven b := by
  rcases h.eq_or_lt with rfl | hlt
  · exact le_rfl
  · have ha := abs_le.mp (roundEven_near a)
    have hb := abs_le.mp (roundEven_near b)
    have hless : (roundEven a : ℚ) < roundEven b + 1 := by linarith
    exact Int.lt_add_one_iff.mp (by exact_mod_cast hless)

theorem roundEven_le {q : ℚ} {n : ℤ} (h : q ≤ n) : roundEven q ≤ n :=
  (roundEven_mono h).trans_eq (roundEven_intCast n)

theorem le_roundEven {q : ℚ} {n : ℤ} (h : n ≤ q) : n ≤ roundEven q :=
  (roundEven_intCast n).symm.trans_le (roundEven_mono h)

/-! ### Doubles -/

open Single (two_zpow_pos two_zpow_add)

/-- The exponent of the last bit of the double nearest to a number. -/
def unit (v : ℚ) : ℤ := max (Int.log 2 |v| - 52) (-1074)

/-- The nearest double, if doubles went on for ever. -/
def nearest (v : ℚ) : ℚ := roundEven (v / 2 ^ unit v) * 2 ^ unit v

theorem unit_neg (v : ℚ) : unit (-v) = unit v := by rw [unit, unit, abs_neg]

theorem nearest_neg (v : ℚ) : nearest (-v) = -nearest v := by
  rw [nearest, nearest, unit_neg, neg_div, roundEven_neg]
  push_cast
  ring

theorem unit_eq {v : ℚ} {e : ℤ} (hlow : 2 ^ e ≤ v) (hhigh : v < 2 ^ (e + 1)) :
    unit v = max (e - 52) (-1074) := by
  have hpos : 0 < v := (two_zpow_pos e).trans_le hlow
  have hle := (Int.zpow_le_iff_le_log (b := 2) (by decide) hpos).mp hlow
  have hlt := (Int.lt_zpow_iff_log_lt (b := 2) (by decide) hpos).mp hhigh
  rw [unit, abs_of_pos hpos]
  omega

theorem lt_unit {v : ℚ} (hpos : 0 < v) : v / 2 ^ unit v < 2 ^ 53 := by
  have hlog := Int.lt_zpow_succ_log_self (b := 2) (by decide) v
  have hunit : Int.log 2 v + 1 ≤ unit v + (53 : ℕ) := by
    rw [unit, abs_of_pos hpos]
    omega
  rw [div_lt_iff₀ (two_zpow_pos _), ← two_zpow_add]
  exact hlog.trans_le (zpow_le_zpow_right₀ (by norm_num) hunit)

theorem unit_le {v : ℚ} (hpos : 0 < v) (h : -1074 < unit v) : 2 ^ 52 ≤ v / 2 ^ unit v := by
  have hlog := Int.zpow_log_le_self (b := 2) (by decide) hpos
  have hunit : unit v + (52 : ℕ) = Int.log 2 v := by
    rw [unit, abs_of_pos hpos] at h ⊢
    omega
  rw [le_div_iff₀ (two_zpow_pos _), ← two_zpow_add, hunit]
  exact hlog

theorem unit_mono {v w : ℚ} (hpos : 0 < v) (h : v ≤ w) : unit v ≤ unit w := by
  have hlog := Int.log_mono_right (b := 2) hpos h
  rw [unit, unit, abs_of_pos hpos, abs_of_pos (hpos.trans_le h)]
  omega

/-- Whether a number has a mantissa of less than 53 bits and an exponent that is not too small. -/
def Fits (v : ℚ) : Prop := ∃ (m e : ℤ), |m| < 2 ^ 53 ∧ -1074 ≤ e ∧ v = m * 2 ^ e

theorem nearest_of_fits {v : ℚ} (h : Fits v) : nearest v = v := by
  obtain ⟨m, e, hm, he, rfl⟩ := h
  rcases eq_or_ne m 0 with rfl | hne
  · have hzero : roundEven 0 = 0 := roundEven_intCast 0
    simp [nearest, hzero]
  · have hpos : 0 < |(m : ℚ) * 2 ^ e| := abs_pos.mpr (mul_ne_zero (by exact_mod_cast hne)
      (two_zpow_pos e).ne')
    have hlog : Int.log 2 |(m : ℚ) * 2 ^ e| < e + (53 : ℕ) := by
      rw [← Int.lt_zpow_iff_log_lt (b := 2) (by decide) hpos]
      show _ < (2 : ℚ) ^ (e + (53 : ℕ))
      rw [two_zpow_add, abs_mul, abs_of_pos (two_zpow_pos e)]
      exact mul_lt_mul_of_pos_right (by exact_mod_cast hm) (two_zpow_pos e)
    have hunit : unit (m * 2 ^ e) ≤ e := by
      rw [unit]
      omega
    obtain ⟨k, hk⟩ : ∃ k : ℕ, e = unit (m * 2 ^ e) + k := ⟨(e - unit (m * 2 ^ e)).toNat, by omega⟩
    have hwhole : (m : ℚ) * 2 ^ e / 2 ^ unit (m * 2 ^ e) = ((m * 2 ^ k : ℤ) : ℚ) := by
      rw [div_eq_iff (two_zpow_pos _).ne']
      push_cast
      rw [mul_assoc, ← two_zpow_add, ← hk]
    rw [nearest, hwhole, roundEven_intCast, ← hwhole, div_mul_cancel₀ _ (two_zpow_pos _).ne']

@[simp]
theorem nearest_zero : nearest 0 = 0 := nearest_of_fits ⟨0, 0, by decide, by decide, by simp⟩

theorem nearest_nonneg {v : ℚ} (h : 0 ≤ v) : 0 ≤ nearest v := by
  have hround : 0 ≤ roundEven (v / 2 ^ unit v) := by
    apply le_roundEven
    push_cast
    exact div_nonneg h (two_zpow_pos _).le
  exact mul_nonneg (by exact_mod_cast hround) (two_zpow_pos _).le

theorem nearest_near (v : ℚ) : |nearest v - v| ≤ 2 ^ unit v / 2 := by
  have hnear := roundEven_near (v / 2 ^ unit v)
  have hscaled : nearest v - v
      = (roundEven (v / 2 ^ unit v) - v / 2 ^ unit v) * 2 ^ unit v := by
    rw [sub_mul, div_mul_cancel₀ _ (two_zpow_pos _).ne']
    rfl
  rw [hscaled, abs_mul, abs_of_pos (two_zpow_pos (unit v))]
  calc _ ≤ 1 / 2 * (2 : ℚ) ^ unit v := mul_le_mul_of_nonneg_right hnear (two_zpow_pos _).le
    _ = 2 ^ unit v / 2 := by ring

/-- What is below a power of two is off by less than its 53rd fraction. -/
theorem nearest_close {v : ℚ} {k : ℤ} (hnonneg : 0 ≤ v) (hless : v < 2 ^ k) (hk : -1021 ≤ k) :
    |nearest v - v| ≤ 2 ^ (k - 54) := by
  rcases hnonneg.eq_or_lt with rfl | hpos
  · rw [nearest_zero, sub_self, abs_zero]
    exact (two_zpow_pos _).le
  · have hlog := (Int.lt_zpow_iff_log_lt (b := 2) (by decide) hpos).mp hless
    have hunit : unit v ≤ k - 54 + (1 : ℕ) := by
      rw [unit, abs_of_pos hpos]
      omega
    calc |nearest v - v| ≤ 2 ^ unit v / 2 := nearest_near v
      _ ≤ 2 ^ (k - 54 + (1 : ℕ)) / 2 :=
          div_le_div_of_nonneg_right (zpow_le_zpow_right₀ (by norm_num) hunit) (by norm_num)
      _ = 2 ^ (k - 54) := by
          rw [two_zpow_add]
          ring

theorem nearest_mono_pos {v w : ℚ} (hpos : 0 < v) (h : v ≤ w) : nearest v ≤ nearest w := by
  rcases (unit_mono hpos h).eq_or_lt with hsame | hless
  · have hround := roundEven_mono (div_le_div_of_nonneg_right h (two_zpow_pos (unit w)).le)
    rw [nearest, nearest, hsame]
    exact mul_le_mul_of_nonneg_right (by exact_mod_cast hround) (two_zpow_pos _).le
  · -- There is a power of two between the two numbers, and so between what they are rounded to.
    have hbelow : roundEven (v / 2 ^ unit v) ≤ 2 ^ 53 := by
      apply roundEven_le
      push_cast
      exact (lt_unit hpos).le
    have habove : 2 ^ 52 ≤ roundEven (w / 2 ^ unit w) := by
      apply le_roundEven
      push_cast
      exact unit_le (hpos.trans_le h) (lt_of_le_of_lt (le_max_right _ _) hless)
    have hbelow' : (roundEven (v / 2 ^ unit v) : ℚ) ≤ 2 ^ 53 := by exact_mod_cast hbelow
    have habove' : (2 : ℚ) ^ 52 ≤ roundEven (w / 2 ^ unit w) := by exact_mod_cast habove
    calc nearest v ≤ 2 ^ 53 * 2 ^ unit v :=
          mul_le_mul_of_nonneg_right hbelow' (two_zpow_pos _).le
      _ = 2 ^ (unit v + (53 : ℕ)) := (two_zpow_add _ _).symm
      _ ≤ 2 ^ (unit w + (52 : ℕ)) := zpow_le_zpow_right₀ (by norm_num) (by omega)
      _ = 2 ^ 52 * 2 ^ unit w := two_zpow_add _ _
      _ ≤ nearest w :=
          mul_le_mul_of_nonneg_right habove' (two_zpow_pos _).le

theorem nearest_mono {v w : ℚ} (h : v ≤ w) : nearest v ≤ nearest w := by
  rcases lt_trichotomy 0 v with hpos | rfl | hneg
  · exact nearest_mono_pos hpos h
  · rw [nearest_zero]
    exact nearest_nonneg h
  · rcases lt_or_ge w 0 with hneg' | hpos'
    · have hswapped := nearest_mono_pos (neg_pos.mpr hneg') (neg_le_neg h)
      rw [nearest_neg, nearest_neg] at hswapped
      exact neg_le_neg_iff.mp hswapped
    · have hleft := nearest_nonneg (neg_nonneg.mpr hneg.le)
      rw [nearest_neg] at hleft
      exact (neg_nonneg.mp hleft).trans (nearest_nonneg hpos')

/-! ### The ends of the range -/

theorem nearest_eq_zero {v : ℚ} (hnonneg : 0 ≤ v) (hless : v < 2 ^ (-1075 : ℤ)) :
    nearest v = 0 := by
  rcases hnonneg.eq_or_lt with rfl | hpos
  · exact nearest_zero
  · have hlog := (Int.lt_zpow_iff_log_lt (b := 2) (by decide) hpos).mp hless
    have hunit : unit v = -1074 := by
      rw [unit, abs_of_pos hpos]
      omega
    have hhalf : v / 2 ^ (-1074 : ℤ) < 1 / 2 := by
      have hsplit : (1 : ℚ) / 2 * 2 ^ (-1074 : ℤ) = 2 ^ (-1075 : ℤ) := by
        rw [show (-1074 : ℤ) = -1075 + (1 : ℕ) by norm_num, two_zpow_add]
        ring
      rw [div_lt_iff₀ (two_zpow_pos _), hsplit]
      exact hless
    have hround : roundEven (v / 2 ^ (-1074 : ℤ)) = 0 := by
      apply roundEven_eq
      left
      rw [Int.cast_zero, zero_sub, abs_neg, abs_of_nonneg (div_nonneg hnonneg (two_zpow_pos _).le)]
      exact hhalf
    rw [nearest, hunit, hround, Int.cast_zero, zero_mul]

theorem limit_le_nearest {v : ℚ} (h : 2 ^ 1024 ≤ v) : 2 ^ 1024 ≤ nearest v := by
  have hfits : nearest (2 ^ 1024) = 2 ^ 1024 :=
    nearest_of_fits ⟨1, (1024 : ℕ), by norm_num, by norm_num, by
      rw [zpow_natCast, Int.cast_one, one_mul]⟩
  rw [← hfits]
  exact nearest_mono h

end Tonewheel.Double
