import Tonewheel.Proofs.Numeric.Decimals
import Tonewheel.Proofs.Sound.Grammar

/-!
# Numbers in their fields

A number of a sound goes into a fixed-point field: it is rounded to a double, scaled, truncated and
held within the field (`FixedField.held`). A time is held within 16 bits (`heldMs`). Every decimal
numeral is read into its field unless no double is that large (`readNumber_of_numeral`).
-/

namespace Tonewheel.Sound

open Double

/-! ### Held values -/

def truncate (q : ℚ) : ℤ := if 0 ≤ q then ⌊q⌋ else ⌈q⌉

theorem truncate_mono {a b : ℚ} (h : a ≤ b) : truncate a ≤ truncate b := by
  unfold truncate
  by_cases ha : 0 ≤ a
  · rw [if_pos ha, if_pos (ha.trans h)]
    exact Int.floor_le_floor h
  · rw [if_neg ha]
    have hceil : ⌈a⌉ ≤ 0 := Int.ceil_le.mpr (by exact_mod_cast (not_le.mp ha).le)
    split
    next hb => exact hceil.trans (Int.floor_nonneg.mpr hb)
    next => exact Int.ceil_le_ceil h

/-- The fixed-point fields, by their bits before and behind the point. -/
inductive FixedField where
  | u88
  | u08
  | u16
  | u016
  deriving DecidableEq

namespace FixedField

def whole : FixedField → ℕ
  | .u88 => 8
  | .u08 => 0
  | .u16 => 16
  | .u016 => 0

def fraction : FixedField → ℕ
  | .u88 => 8
  | .u08 => 8
  | .u16 => 0
  | .u016 => 16

def limit (f : FixedField) : ℕ := 2 ^ (f.whole + f.fraction) - 1

/-- What a field holds for a number: the nearest double of it, scaled and truncated, or the end of
the field that this is beyond. -/
def held (f : FixedField) (v : ℚ) : ℕ :=
  (max 0 (min (f.limit : ℤ) (truncate (nearest v * 2 ^ f.fraction)))).toNat

theorem held_mono (f : FixedField) {v w : ℚ} (h : v ≤ w) : f.held v ≤ f.held w := by
  have hscaled : nearest v * 2 ^ f.fraction ≤ nearest w * 2 ^ f.fraction :=
    mul_le_mul_of_nonneg_right (nearest_mono h) (by positivity)
  have htruncated := truncate_mono hscaled
  unfold held
  omega

end FixedField

theorem heldMs_mono {n m : ℤ} (h : n ≤ m) : heldMs n ≤ heldMs m := by
  unfold heldMs
  omega

/-! ### Quantizing -/

section

variable {x scale : Float} {a : ℚ} {k limit : ℕ}

theorem quantize_of_positive (hx : Holds x .positive a) (hscale : Holds scale .positive (2 ^ k))
    (hlimit : limit < 2 ^ 64) : quantize scale limit x = min limit ⌊a * 2 ^ k⌋₊ := by
  have hfits := hx.fits k
  have hproduct : Gives (x * scale) .positive (a * 2 ^ k) := gives_mul hx hscale
  by_cases hsmall : a * 2 ^ k < 2 ^ 1024
  · have hcut := toUInt64_of_positive (hproduct.holds hfits hsmall)
    rw [quantize, hcut]
    omega
  · unfold Gives at hproduct
    rw [nearest_of_fits hfits, if_neg hsmall] at hproduct
    have hcut := toUInt64_of_infinity hproduct
    have hlarge : limit ≤ ⌊a * 2 ^ k⌋₊ := by
      refine Nat.le_floor (le_trans ?_ (not_lt.mp hsmall))
      have hpow : limit ≤ 2 ^ 64 := hlimit.le
      have hcast : (limit : ℚ) ≤ 2 ^ 64 := by exact_mod_cast hpow
      exact hcast.trans (pow_le_pow_right₀ (by norm_num) (by norm_num))
    rw [quantize, hcut]
    omega

theorem quantize_of_negative (hx : Holds x .negative a) (hscale : Holds scale .positive (2 ^ k)) :
    quantize scale limit x = 0 := by
  have hproduct : Gives (x * scale) .negative (a * 2 ^ k) := gives_mul hx hscale
  have hcut : (x * scale).toUInt64.toNat = 0 := by
    unfold Gives at hproduct
    split at hproduct
    · exact toUInt64_of_negative hproduct
    · exact toUInt64_of_negInfinity hproduct
  rw [quantize, hcut, Nat.min_zero]

end

namespace FixedField

def put : FixedField → Float → ℕ
  | .u88, x => (fixed88 x).toNat
  | .u08, x => (fixed08 x).toNat
  | .u16, x => (whole16 x).toNat
  | .u016, x => (fixed016 x).toNat

def scale : FixedField → Float
  | .u88 => 256
  | .u08 => 256
  | .u16 => 1
  | .u016 => 65536

theorem put_eq (f : FixedField) (x : Float) : f.put x = quantize f.scale f.limit x := by
  have hsmall (scale : Float) (limit size : ℕ) (h : limit < size) :
      quantize scale limit x % size = quantize scale limit x :=
    Nat.mod_eq_of_lt (lt_of_le_of_lt (Nat.min_le_left _ _) h)
  cases f with
  | u88 => exact hsmall 256 0xffff (2 ^ 16) (by decide)
  | u08 => exact hsmall 256 0xff (2 ^ 8) (by decide)
  | u16 => exact hsmall 1 0xffff (2 ^ 16) (by decide)
  | u016 => exact hsmall 65536 0xffff (2 ^ 16) (by decide)

theorem holds_scale (f : FixedField) : Holds f.scale .positive (2 ^ f.fraction) := by
  have hscale : f.scale = ⟨Float.Model.ofNat (2 ^ f.fraction)⟩ := by
    cases f <;> decide +kernel
  have hshort : 2 ^ f.fraction < 2 ^ 53 := by cases f <;> decide
  rw [hscale]
  exact_mod_cast holds_ofNat hshort

theorem limit_lt (f : FixedField) : f.limit < 2 ^ 64 := by cases f <;> decide

variable {x : Float} {v : ℚ}

theorem put_of_positive (f : FixedField) (h : Holds x .positive (nearest v)) :
    f.put x = f.held v := by
  have hnonneg : 0 ≤ nearest v * 2 ^ f.fraction := mul_nonneg h.nonneg (by positivity)
  have hfloor := Int.natCast_floor_eq_floor hnonneg
  rw [put_eq, quantize_of_positive h f.holds_scale f.limit_lt, held, truncate, if_pos hnonneg]
  omega

theorem put_of_negative (f : FixedField) (h : Holds x .negative (nearest v)) :
    f.put x = f.held (-v) := by
  have hnonpos : nearest (-v) * 2 ^ f.fraction ≤ 0 := by
    rw [nearest_neg]
    exact mul_nonpos_of_nonpos_of_nonneg (neg_nonpos.mpr h.nonneg) (by positivity)
  have htruncated := truncate_mono hnonpos
  have hzero : truncate 0 = 0 := by simp [truncate]
  rw [put_eq, quantize_of_negative h f.holds_scale, held]
  omega

end FixedField

/-! ### Numbers -/

/-- A decimal numeral is read as a number, unless no double is that large. -/
theorem readNumber_of_numeral {token : List Char} {v : ℚ} (h : Decimal.Numeral token v) :
    (|nearest v| < 2 ^ 1024
        → ∃ x, readNumber token = .ok x ∧ ∀ f : FixedField, f.put x = f.held v)
      ∧ (2 ^ 1024 ≤ |nearest v|
        → readNumber token = .error (.expectedNumber (String.ofList token))) := by
  obtain ⟨negative, m, e, hread, rfl⟩ := Decimal.numeral_iff.mp h
  have hgives := Decimal.gives_toDouble negative m e
  have hnonneg : (0 : ℚ) ≤ m * 10 ^ e := mul_nonneg m.cast_nonneg (Decimal.ten_zpow_pos e).le
  have habs : |nearest (if negative then -(m * 10 ^ e : ℚ) else m * 10 ^ e)|
      = nearest (m * 10 ^ e) := by
    cases negative with
    | false => exact abs_of_nonneg (nearest_nonneg hnonneg)
    | true =>
      rw [if_pos rfl, nearest_neg, abs_neg]
      exact abs_of_nonneg (nearest_nonneg hnonneg)
  rw [habs]
  unfold readNumber
  rw [hread]
  dsimp only [Option.map_some]
  unfold Gives at hgives
  constructor
  · intro hsmall
    rw [if_pos hsmall] at hgives
    refine ⟨_, if_pos hgives.isFinite, fun f => ?_⟩
    cases negative with
    | false => exact f.put_of_positive hgives
    | true => exact f.put_of_negative hgives
  · intro hlarge
    rw [if_neg (not_lt.mpr hlarge)] at hgives
    have hinfinite : (Decimal.toDouble ⟨negative, .finite m e⟩).isFinite = false := by
      show (Decimal.toDouble ⟨negative, .finite m e⟩).toModel.unpack.isFinite = false
      rw [hgives]
      rfl
    rw [hinfinite, if_neg Bool.false_ne_true]

/-! ### Times -/

theorem oneSign_of_numeral {token : List Char} {n : ℤ} (h : Integer.Numeral token n) :
    Integer.signsHex (Decimal.splitSign token).2 = false := by
  obtain ⟨m, hbody, -⟩ := h
  generalize (Decimal.splitSign token).2 = body at hbody
  unfold Integer.signsHex
  split
  next x c rest =>
    cases hbody with
    | decimal _ hdigits =>
      have hx := hdigits x (List.mem_cons_of_mem _ List.mem_cons_self)
      have hplain : ¬ (x = 'x' ∨ x = 'X') := by
        rintro (rfl | rfl) <;> cases hx
      simp [hplain]
    | hex _ _ hvalue =>
      have hplain : ¬ (c = '+' ∨ c = '-') := by
        rintro (rfl | rfl) <;> cases hvalue
      simp [not_or.mp hplain]
  next => rfl

theorem numeral_unique {token : List Char} {n n' : ℤ} (h : Integer.Numeral token n)
    (h' : Integer.Numeral token n') : n = n' := by
  obtain ⟨m, hm, rfl⟩ := h
  obtain ⟨m', hm', rfl⟩ := h'
  rw [hm.unique hm']

end Tonewheel.Sound
