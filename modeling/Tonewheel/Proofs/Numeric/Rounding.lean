import Mathlib.Algebra.Order.Field.Rat
import Mathlib.Algebra.Order.Floor.Semifield
import Mathlib.Data.Rat.Floor
import Mathlib.Tactic.FieldSimp
import Mathlib.Tactic.Linarith
import Mathlib.Tactic.NormNum
import Mathlib.Tactic.Positivity
import Mathlib.Tactic.Ring
import Tonewheel.Numeric.Single

/-!
# Rounding errors of singles

A positive single away from the ends of the range is a mantissa of 24 bits times a power of two
(`Holds`). Products and quotients of such numbers are off by less than one in the last bit
(`holds_mul`, `holds_div`). Whole numbers of up to 24 bits are exact (`holds_ofNat`), and so is what
is left of a number without its whole part (`sub_whole`), so `nearest` is to the nearest whole number
(`nearest_eq`).
-/

namespace Tonewheel.Single

open Float.Model Float.Model.UnpackedFloat

/-! ### Shifts -/

theorem shiftRight_mantissa (em : ExtendedMantissa) (k : Nat) :
    (em >>> k).mantissa = em.mantissa / 2 ^ k := by
  show (Nat.repeat ExtendedMantissa.shiftRightOne k em).mantissa = _
  induction k with
  | zero => rw [Nat.pow_zero, Nat.div_one]; rfl
  | succ k ih =>
    show (Nat.repeat ExtendedMantissa.shiftRightOne k em).mantissa / 2 = _
    rw [ih, Nat.div_div_eq_div_mul, ← Nat.pow_succ]

theorem roundedMantissa_bounds (em : ExtendedMantissa) :
    em.mantissa ≤ em.roundedMantissa ∧ em.roundedMantissa ≤ em.mantissa + 1 := by
  obtain ⟨m, round, sticky⟩ := em
  have hmod : m % 2 < 2 := Nat.mod_lt m (by decide)
  cases round <;> cases sticky <;>
    simp only [ExtendedMantissa.roundedMantissa, ExtendedMantissa.accuracy,
      Accuracy.roundToNearestEven] <;> omega

theorem ofMantissaAndAccuracy_mantissa (m : Nat) (a : Accuracy) :
    (ExtendedMantissa.ofMantissaAndAccuracy m a).mantissa = m := by
  cases a with
  | exact => rfl
  | inexact o => cases o <;> rfl

/-! ### Packing -/

theorem unpackSign_positive (exponent : BitVec 8) (fraction : BitVec 23) :
    unpackSign (packComponents .binary32 .positive exponent fraction) = 0#1 := by
  have hvalue : (packComponents .binary32 .positive exponent fraction).toNat
      = exponent.toNat * 2 ^ 23 + fraction.toNat := by
    show (0#1 ++ exponent ++ fraction).toNat = _
    rw [BitVec.toNat_append, BitVec.toNat_append, ← Nat.shiftLeft_add_eq_or_of_lt fraction.isLt,
      Nat.shiftLeft_eq]
    simp
  have hsmall : (packComponents .binary32 .positive exponent fraction).toNat < 2 ^ 31 := by
    have hexponent := exponent.isLt
    have hfraction := fraction.isLt
    omega
  apply BitVec.eq_of_toNat_eq
  show (packComponents .binary32 .positive exponent fraction).toNat >>> 31 % 2 ^ 1 = 0
  rw [Nat.shiftRight_eq_div_pow, Nat.div_eq_of_lt hsmall]

theorem toNat_implicit {k : Nat} (v : BitVec k) : (1#1 ++ v).toNat = 2 ^ k + v.toNat := by
  rw [BitVec.toNat_append, ← Nat.shiftLeft_add_eq_or_of_lt v.isLt, Nat.shiftLeft_eq]
  show 1 * 2 ^ k + v.toNat = _
  rw [Nat.one_mul]

theorem finite_congr {s t : Sign} {m n : Nat} {e f : Int} {hm : 0 < m} {hn : 0 < n} (hsign : s = t)
    (hmantissa : m = n) (hexponent : e = f) :
    UnpackedFloat.finite s m e hm = .finite t n f hn := by
  subst hsign hmantissa hexponent
  rfl

section

variable {spec : Float.Model.Format} {b : BitVec spec.numBits}

theorem unpack_normal (hspecial : unpackExponent b ≠ -1#(spec.exponentBits))
    (hzero : unpackExponent b ≠ 0#(spec.exponentBits)) (hpos : 0 < (1#1 ++ unpackMantissa b).toNat) :
    UnpackedFloat.unpack spec b
      = .finite (Sign.ofBitVec (unpackSign b)) (1#1 ++ unpackMantissa b).toNat
        ((unpackExponent b).toNat - (spec.exponentBias + spec.mantissaBitsWithoutImplicit)) hpos :=
  (if_neg hspecial).trans (if_neg hzero)

theorem unpack_subnormal (hspecial : unpackExponent b ≠ -1#(spec.exponentBits))
    (hzero : unpackExponent b = 0#(spec.exponentBits))
    (hsome : unpackMantissa b ≠ 0#(spec.mantissaBitsWithoutImplicit))
    (hpos : 0 < (unpackMantissa b).toNat) :
    UnpackedFloat.unpack spec b
      = .finite (Sign.ofBitVec (unpackSign b)) (unpackMantissa b).toNat
        ((unpackExponent b).toNat - (spec.exponentBias + spec.mantissaBitsWithoutImplicit) + 1)
        hpos :=
  (if_neg hspecial).trans ((if_pos hzero).trans (dif_neg hsome))

theorem unpack_zero (hspecial : unpackExponent b ≠ -1#(spec.exponentBits))
    (hzero : unpackExponent b = 0#(spec.exponentBits))
    (hnone : unpackMantissa b = 0#(spec.mantissaBitsWithoutImplicit)) :
    UnpackedFloat.unpack spec b = .zero (Sign.ofBitVec (unpackSign b)) :=
  (if_neg hspecial).trans ((if_pos hzero).trans (dif_pos hnone))

theorem unpack_infinity (hspecial : unpackExponent b = -1#(spec.exponentBits))
    (hnone : unpackMantissa b = 0#(spec.mantissaBitsWithoutImplicit)) :
    UnpackedFloat.unpack spec b = .infinity (Sign.ofBitVec (unpackSign b)) :=
  (if_pos hspecial).trans (if_pos hnone)

theorem unpack_nan (hspecial : unpackExponent b = -1#(spec.exponentBits))
    (hsome : unpackMantissa b ≠ 0#(spec.mantissaBitsWithoutImplicit)) :
    UnpackedFloat.unpack spec b = .notANumber :=
  (if_pos hspecial).trans (if_neg hsome)

end

theorem unpack_pack {m : Nat} {e : Int} (hpos : 0 < m) (hm : m.log2 = 23) (hlo : -149 ≤ e)
    (hhi : e ≤ 104) :
    (Float32.Model.pack (.finite .positive m e hpos)).unpack = .finite .positive m e hpos := by
  let biased := (e + 127 + 23).toNat
  have hbiased : (biased : Int) = e + 150 := by omega
  have hpack : UnpackedFloat.pack .binary32 (.finite .positive m e hpos)
      = packComponents .binary32 .positive (BitVec.ofNat 8 biased) (BitVec.ofNat 23 m) := by
    show (if 2 ^ 8 ≤ biased + 1 then _ else if m.log2 + 1 = 24 then _ else _) = _
    rw [if_neg (by omega), if_pos (by omega)]
    rfl
  have hexponent : (BitVec.ofNat 8 biased).toNat = biased := by
    rw [BitVec.toNat_ofNat, Nat.mod_eq_of_lt (by omega)]
  have hnan : BitVec.ofNat 8 biased ≠ -1#8 := by
    intro h
    have htoNat : biased = 255 := hexponent.symm.trans (congrArg BitVec.toNat h)
    omega
  have hzero : BitVec.ofNat 8 biased ≠ 0#8 := by
    intro h
    have htoNat : biased = 0 := hexponent.symm.trans (congrArg BitVec.toNat h)
    omega
  show UnpackedFloat.unpack .binary32 (UnpackedFloat.pack .binary32 _) = _
  rw [hpack]
  have hsign := unpackSign_positive (BitVec.ofNat 8 biased) (BitVec.ofNat 23 m)
  have hexponentBits : unpackExponent (packComponents .binary32 .positive (BitVec.ofNat 8 biased)
      (BitVec.ofNat 23 m)) = BitVec.ofNat 8 biased := unpackExponent_packComponents
  have hmantissaBits : unpackMantissa (packComponents .binary32 .positive (BitVec.ofNat 8 biased)
      (BitVec.ofNat 23 m)) = BitVec.ofNat 23 m := unpackMantissa_packComponents
  generalize packComponents .binary32 .positive (BitVec.ofNat 8 biased) (BitVec.ofNat 23 m) = b
    at hsign hexponentBits hmantissaBits
  have hmantissa : (1#1 ++ unpackMantissa b).toNat = m := by
    have hrange := (Nat.log2_eq_iff (Nat.ne_of_gt hpos)).mp hm
    rw [hmantissaBits, toNat_implicit, BitVec.toNat_ofNat]
    omega
  have hbits := unpack_normal (hexponentBits.trans_ne hnan) (hexponentBits.trans_ne hzero)
    (hmantissa.symm ▸ hpos)
  refine hbits.trans (finite_congr ?_ hmantissa ?_)
  · rw [hsign]
    rfl
  · rw [hexponentBits, hexponent]
    show (biased : ℤ) - (127 + 23) = e
    omega

/-! ### Powers of two -/

theorem two_zpow_pos (e : Int) : (0 : ℚ) < 2 ^ e := zpow_pos (by norm_num) e

theorem two_zpow_add (e : Int) (k : Nat) : (2 : ℚ) ^ (e + k) = 2 ^ k * 2 ^ e := by
  rw [zpow_add₀ (by norm_num), zpow_natCast, mul_comm]

theorem exponent_lt {e f : Int} (h : (2 : ℚ) ^ e < 2 ^ f) : e < f :=
  (zpow_lt_zpow_iff_right₀ (by norm_num)).mp h

theorem exponent_le {e f : Int} (h : (2 : ℚ) ^ e ≤ 2 ^ f) : e ≤ f :=
  (zpow_le_zpow_iff_right₀ (by norm_num)).mp h

/-! ### Rounding -/

theorem shiftToTargetExponent_eq {m k : Nat} {e : Int} (a : Accuracy) (hm : m.log2 = 23 + k)
    (hlo : -149 ≤ e + k) :
    shiftToTargetExponent .binary32 m e a
      = (ExtendedMantissa.ofMantissaAndAccuracy m a >>> k, e + k) := by
  have htarget : Float.Model.Format.binary32.targetExponent (totalExponent m e) = e + k := by
    show max ((m.log2 : Int) + 1 + e - 24) (-149) = e + k
    rw [hm]
    omega
  have hshift : (e + (k : Int) - e).toNat = k := by omega
  rw [shiftToTargetExponent, htarget, shiftToExponent, hshift]

/-- Whether a number is positive, has the given value, and is held with all its bits. -/
def Holds (x : Float32) (value : ℚ) : Prop :=
  ∃ (m : Nat) (e : Int) (hpos : 0 < m), x.toModel.unpack = .finite .positive m e hpos
    ∧ m.log2 = 23 ∧ -149 ≤ e ∧ e ≤ 104 ∧ value = m * 2 ^ e

theorem Holds.nonneg {x : Float32} {a : ℚ} (hx : Holds x a) : 0 ≤ a := by
  obtain ⟨m, e, -, -, -, -, -, rfl⟩ := hx
  exact mul_nonneg (Nat.cast_nonneg m) (two_zpow_pos e).le

theorem holds_pack {m : Nat} {e : Int} (hpos : 0 < m) (hm : m.log2 = 23) (hlo : -149 ≤ e)
    (hhi : e ≤ 104) : Holds ⟨Float32.Model.pack (.finite .positive m e hpos)⟩ (m * 2 ^ e) :=
  ⟨m, e, hpos, unpack_pack hpos hm hlo hhi, hm, hlo, hhi, rfl⟩

/-- The first shift leaves `k` bits out and rounds; the second makes up for a carry. -/
theorem roundWithAccuracy_eq {m k n : Nat} {e f : Int} {a : Accuracy} (hm : m.log2 = 23 + k)
    (hlo : -149 ≤ e + k) (hpos : 0 < n)
    (hmantissa : (shiftToTargetExponent .binary32
      (ExtendedMantissa.ofMantissaAndAccuracy m a >>> k).roundedMantissa (e + k) .exact).1.mantissa
        = n)
    (hexponent : (shiftToTargetExponent .binary32
      (ExtendedMantissa.ofMantissaAndAccuracy m a >>> k).roundedMantissa (e + k) .exact).2 = f) :
    roundWithAccuracy .binary32 .positive m e a = .finite .positive n f hpos := by
  subst hmantissa hexponent
  rw [roundWithAccuracy, shiftToTargetExponent_eq a hm hlo]
  exact dif_neg (Nat.ne_of_gt hpos)

theorem quotient_bounds {m k : Nat} (hm : m.log2 = 23 + k) :
    2 ^ 23 ≤ m / 2 ^ k ∧ m / 2 ^ k < 2 ^ 24 := by
  have hmpos : m ≠ 0 := by
    rintro rfl
    rw [Nat.log2_zero] at hm
    omega
  have hrange := (Nat.log2_eq_iff hmpos).mp hm
  have hpow : 0 < 2 ^ k := Nat.two_pow_pos k
  have hexponent : 23 + k + 1 = 24 + k := by omega
  constructor
  · rw [Nat.le_div_iff_mul_le hpow, ← Nat.pow_add]
    exact hrange.1
  · rw [Nat.div_lt_iff_lt_mul hpow, ← Nat.pow_add, ← hexponent]
    exact hrange.2

theorem holds_roundWithAccuracy {m k : Nat} {e : Int} (a : Accuracy) (hm : m.log2 = 23 + k)
    (hlo : -149 ≤ e + k) (hhi : e + k ≤ 103) :
    ∃ r : Nat, m / 2 ^ k ≤ r ∧ r ≤ m / 2 ^ k + 1 ∧
      Holds ⟨Float32.Model.pack (roundWithAccuracy .binary32 .positive m e a)⟩
        (r * 2 ^ (e + k)) := by
  have hbounds := roundedMantissa_bounds (ExtendedMantissa.ofMantissaAndAccuracy m a >>> k)
  rw [shiftRight_mantissa, ofMantissaAndAccuracy_mantissa] at hbounds
  have hquotient := quotient_bounds hm
  refine ⟨_, hbounds.1, hbounds.2, ?_⟩
  generalize hr : (ExtendedMantissa.ofMantissaAndAccuracy m a >>> k).roundedMantissa = r at hbounds
  by_cases hsmall : r < 2 ^ 24
  · have hlog : r.log2 = 23 + 0 := (Nat.log2_eq_iff (by omega)).mpr ⟨by omega, hsmall⟩
    have hsecond := shiftToTargetExponent_eq .exact hlog (e := e + k) (by omega)
    have hpos : 0 < r := by omega
    rw [roundWithAccuracy_eq (f := e + k) hm hlo hpos (by rw [hr, hsecond]; rfl)
      (by rw [hr, hsecond]; exact Int.add_zero _)]
    exact holds_pack hpos hlog hlo (by omega)
  · obtain rfl : r = 2 ^ 24 := by omega
    have hsecond := shiftToTargetExponent_eq (m := 2 ^ 24) (k := 1) .exact (Nat.log2_two_pow)
      (e := e + k) (by omega)
    rw [roundWithAccuracy_eq (n := 2 ^ 23) (f := e + k + 1) hm hlo (by decide)
      (by rw [hr, hsecond]; rfl) (by rw [hr, hsecond]; rfl)]
    have hcarry : ((2 ^ 24 : Nat) : ℚ) * 2 ^ (e + k) = (2 ^ 23 : Nat) * 2 ^ (e + k + 1) := by
      rw [zpow_add_one₀ (by norm_num)]
      push_cast
      ring
    rw [hcarry]
    exact holds_pack _ (Nat.log2_two_pow) (by omega) (by omega)

def InRange (v : ℚ) : Prop := 2 ^ (-100 : Int) ≤ v ∧ v ≤ 2 ^ (100 : Int)

/-- A rounded value is off by less than one in the last of its 24 bits. -/
theorem round_near {m : Nat} {e : Int} {v : ℚ} (a : Accuracy) (hm : 23 ≤ m.log2)
    (hge : m * 2 ^ e ≤ v) (hle : v ≤ (m + 1) * 2 ^ e) (hv : InRange v) :
    ∃ c, Holds ⟨Float32.Model.pack (roundWithAccuracy .binary32 .positive m e a)⟩ c
      ∧ |c - v| ≤ v / 2 ^ 23 := by
  obtain ⟨k, hk⟩ : ∃ k, m.log2 = 23 + k := ⟨m.log2 - 23, by omega⟩
  have hunit := two_zpow_pos (e + k)
  have hsplit := two_zpow_add e k
  have hquotient := quotient_bounds hk
  have hlow : (m / 2 ^ k : Nat) * (2 : ℚ) ^ (e + k) ≤ v := by
    have hdiv : ((m / 2 ^ k : Nat) : ℚ) * 2 ^ k ≤ m := by
      exact_mod_cast Nat.div_mul_le_self m (2 ^ k)
    rw [hsplit, ← mul_assoc]
    exact (mul_le_mul_of_nonneg_right hdiv (two_zpow_pos e).le).trans hge
  have hhigh : v ≤ ((m / 2 ^ k : Nat) + 1) * (2 : ℚ) ^ (e + k) := by
    have hdiv : (m : ℚ) + 1 ≤ ((m / 2 ^ k : Nat) + 1) * 2 ^ k := by
      exact_mod_cast Nat.lt_mul_of_div_lt (Nat.lt_succ_self _) (Nat.two_pow_pos k)
    rw [hsplit, ← mul_assoc]
    exact hle.trans (mul_le_mul_of_nonneg_right hdiv (two_zpow_pos e).le)
  have hq : (2 : ℚ) ^ 23 ≤ (m / 2 ^ k : Nat) := by exact_mod_cast hquotient.1
  have hq' : ((m / 2 ^ k : Nat) : ℚ) + 1 ≤ 2 ^ 24 := by exact_mod_cast hquotient.2
  have hlo : -149 ≤ e + k := by
    have hpow : (2 : ℚ) ^ (-100 : Int) ≤ 2 ^ (e + k + (24 : Nat)) := by
      rw [two_zpow_add]
      exact hv.1.trans (hhigh.trans (mul_le_mul_of_nonneg_right hq' hunit.le))
    have := exponent_le hpow
    omega
  have hhi : e + k ≤ 103 := by
    have hpow : (2 : ℚ) ^ (e + k + (23 : Nat)) ≤ 2 ^ (100 : Int) := by
      rw [two_zpow_add]
      exact ((mul_le_mul_of_nonneg_right hq hunit.le).trans hlow).trans hv.2
    have := exponent_le hpow
    omega
  obtain ⟨r, hr, hr', hholds⟩ := holds_roundWithAccuracy a hk hlo hhi
  refine ⟨_, hholds, ?_⟩
  have hrlow : ((m / 2 ^ k : Nat) : ℚ) * 2 ^ (e + k) ≤ r * 2 ^ (e + k) :=
    mul_le_mul_of_nonneg_right (by exact_mod_cast hr) hunit.le
  have hrhigh : (r : ℚ) * 2 ^ (e + k) ≤ ((m / 2 ^ k : Nat) + 1) * 2 ^ (e + k) :=
    mul_le_mul_of_nonneg_right (by exact_mod_cast hr') hunit.le
  have hulp : (2 : ℚ) ^ (e + k) ≤ v / 2 ^ 23 := by
    rw [le_div_iff₀ (by norm_num), mul_comm]
    exact (mul_le_mul_of_nonneg_right hq hunit.le).trans hlow
  rw [abs_le]
  constructor <;> linarith

/-! ### Products and quotients -/

theorem holds_mul {x y : Float32} {a b : ℚ} (hx : Holds x a) (hy : Holds y b)
    (hrange : InRange (a * b)) : ∃ c, Holds (x * y) c ∧ |c - a * b| ≤ a * b / 2 ^ 23 := by
  obtain ⟨m, e, hm, hxm, hmlog, -, -, rfl⟩ := hx
  obtain ⟨n, f, hn, hyn, hnlog, -, -, rfl⟩ := hy
  have hproduct : x * y
      = ⟨Float32.Model.pack
          (roundWithAccuracy .binary32 .positive (m * n) (e + f) .exact)⟩ := by
    show Float32.ofModel (Float32.Model.pack (UnpackedFloat.mul .binary32 x.toModel.unpack
      y.toModel.unpack)) = _
    rw [hxm, hyn]
    rfl
  have hlog : 23 ≤ (m * n).log2 := by
    rw [Nat.le_log2 (Nat.mul_ne_zero (Nat.ne_of_gt hm) (Nat.ne_of_gt hn))]
    have hm23 := ((Nat.log2_eq_iff (Nat.ne_of_gt hm)).mp hmlog).1
    exact hm23.trans (Nat.le_mul_of_pos_right m hn)
  have hvalue : ((m * n : Nat) : ℚ) * 2 ^ (e + f) = m * 2 ^ e * (n * 2 ^ f) := by
    rw [zpow_add₀ (by norm_num)]
    push_cast
    ring
  rw [hproduct]
  refine round_near .exact hlog hvalue.le ?_ hrange
  rw [← hvalue]
  exact mul_le_mul_of_nonneg_right (by linarith) (two_zpow_pos _).le

/-- The mantissa of a quotient has at least 24 bits before it is rounded. -/
theorem div_eq_round {x y : Float32} {m n : Nat} {e f : Int} {hm : 0 < m} {hn : 0 < n}
    (hx : x.toModel.unpack = .finite .positive m e hm)
    (hy : y.toModel.unpack = .finite .positive n f hn) (hmlog : m.log2 = 23) (hnlog : n.log2 = 23)
    (hlow : -125 ≤ e - f) :
    x / y = ⟨Float32.Model.pack (roundWithAccuracy .binary32 .positive ((m <<< 24) / n)
      (e - f - 24) (accuracyOfFraction ((m <<< 24) % n) n))⟩ := by
  have htarget : min (e - f) (Float.Model.Format.binary32.targetExponent
      (totalExponent m e - totalExponent n f)) = e - f - 24 := by
    show min (e - f) (max (((m.log2 : Int) + 1 + e) - ((n.log2 : Int) + 1 + f) - 24) (-149)) = _
    rw [hmlog, hnlog]
    omega
  have hshift : (e - f - (e - f - 24)).toNat = 24 := by omega
  show Float32.ofModel (Float32.Model.pack (UnpackedFloat.div .binary32 x.toModel.unpack
    y.toModel.unpack)) = _
  rw [hx, hy]
  show Float32.ofModel (Float32.Model.pack (roundWithAccuracy .binary32 .positive
    (divCore .binary32 m e n f).1 (divCore .binary32 m e n f).2.1
    (divCore .binary32 m e n f).2.2)) = _
  rw [divCore, htarget, hshift]

theorem holds_div {x y : Float32} {a b : ℚ} (hx : Holds x a) (hy : Holds y b)
    (hrange : InRange (a / b)) : ∃ c, Holds (x / y) c ∧ |c - a / b| ≤ a / b / 2 ^ 23 := by
  obtain ⟨m, e, hm, hxm, hmlog, -, -, rfl⟩ := hx
  obtain ⟨n, f, hn, hyn, hnlog, -, -, rfl⟩ := hy
  have hmrange := (Nat.log2_eq_iff (Nat.ne_of_gt hm)).mp hmlog
  have hnrange := (Nat.log2_eq_iff (Nat.ne_of_gt hn)).mp hnlog
  have hnpos : (0 : ℚ) < n := by exact_mod_cast hn
  have hvalue : m * (2 : ℚ) ^ e / (n * 2 ^ f) = m * 2 ^ 24 / n * 2 ^ (e - f - 24) := by
    rw [zpow_sub₀ (by norm_num), zpow_sub₀ (by norm_num)]
    have := (two_zpow_pos f).ne'
    field_simp
  have hlow : -125 ≤ e - f := by
    have hratio : (m : ℚ) * 2 ^ 24 / n ≤ 2 ^ 25 := by
      have hle : m * 2 ^ 24 ≤ 2 ^ 25 * n := by omega
      rw [div_le_iff₀ hnpos]
      exact_mod_cast hle
    have hpow : (2 : ℚ) ^ (-100 : Int) ≤ 2 ^ (e - f - 24 + (25 : Nat)) := by
      rw [two_zpow_add]
      refine hrange.1.trans ?_
      rw [hvalue]
      exact mul_le_mul_of_nonneg_right hratio (two_zpow_pos _).le
    have := exponent_le hpow
    omega
  rw [div_eq_round hxm hyn hmlog hnlog hlow, Nat.shiftLeft_eq]
  refine round_near _ ?_ ?_ ?_ hrange
  · have hle : 2 ^ 23 ≤ m * 2 ^ 24 / n := by
      rw [Nat.le_div_iff_mul_le hn]
      omega
    exact (Nat.le_log2 (by omega)).mpr hle
  · rw [hvalue]
    refine mul_le_mul_of_nonneg_right ?_ (two_zpow_pos _).le
    rw [le_div_iff₀ hnpos]
    exact_mod_cast Nat.div_mul_le_self (m * 2 ^ 24) n
  · rw [hvalue]
    refine mul_le_mul_of_nonneg_right ?_ (two_zpow_pos _).le
    rw [div_le_iff₀ hnpos]
    exact_mod_cast (Nat.lt_mul_of_div_lt (Nat.lt_succ_self _) hn).le

/-! ### Whole numbers -/

theorem log2_shiftLeft {m : Nat} (k : Nat) (hm : 0 < m) : (m <<< k).log2 = m.log2 + k := by
  have hrange := (Nat.log2_eq_iff (Nat.ne_of_gt hm)).mp rfl
  have hpow : 0 < 2 ^ k := Nat.two_pow_pos k
  rw [Nat.shiftLeft_eq, Nat.log2_eq_iff (Nat.ne_of_gt (Nat.mul_pos hm hpow))]
  constructor
  · rw [Nat.pow_add]
    exact Nat.mul_le_mul_right _ hrange.1
  · rw [show m.log2 + k + 1 = m.log2 + 1 + k by omega, Nat.pow_add]
    exact Nat.mul_lt_mul_of_pos_right hrange.2 hpow

theorem shiftLeft_value (m k : Nat) (e : Int) :
    ((m <<< k : Nat) : ℚ) * 2 ^ (e - k) = m * 2 ^ e := by
  rw [Nat.shiftLeft_eq, zpow_sub₀ (by norm_num), zpow_natCast]
  push_cast
  field_simp

/-- A number of less than 24 bits is first shifted up to 24 of them. -/
theorem round_eq {m k : Nat} {e : Int} (hk : k = 23 - m.log2) (hlo : -149 ≤ e - k) :
    UnpackedFloat.round .binary32 .positive m e
      = roundWithAccuracy .binary32 .positive (m <<< k) (e - k) .exact := by
  have hshift : (e - Float.Model.Format.binary32.targetExponent (totalExponent m e)).toNat = k := by
    show (e - max ((m.log2 : Int) + 1 + e - 24) (-149)).toNat = k
    omega
  rw [UnpackedFloat.round, decreaseExponent, hshift]

theorem roundWithAccuracy_exact {m : Nat} {e : Int} (hpos : 0 < m) (hm : m.log2 = 23)
    (hlo : -149 ≤ e) :
    roundWithAccuracy .binary32 .positive m e .exact = .finite .positive m e hpos := by
  have hsame : (ExtendedMantissa.ofMantissaAndAccuracy m .exact >>> 0).roundedMantissa = m := rfl
  have hsecond := shiftToTargetExponent_eq (k := 0) .exact hm (e := e + (0 : Nat)) (by omega)
  refine roundWithAccuracy_eq (k := 0) hm (by omega) hpos ?_ ?_
  · rw [hsame, hsecond]
    rfl
  · rw [hsame, hsecond]
    exact (Int.add_zero _).trans (Int.add_zero e)

theorem holds_round {m : Nat} {e : Int} (hpos : 0 < m) (hm : m < 2 ^ 24) (hlo : -126 ≤ e)
    (hhi : e ≤ 104) :
    Holds ⟨Float32.Model.pack (UnpackedFloat.round .binary32 .positive m e)⟩ (m * 2 ^ e) := by
  have hlog : m.log2 < 24 := (Nat.log2_lt (Nat.ne_of_gt hpos)).mpr hm
  let k := 23 - m.log2
  have hshift : (m <<< k).log2 = 23 := by
    rw [log2_shiftLeft k hpos]
    omega
  have hshiftPos : 0 < m <<< k := Nat.shiftLeft_pos_iff.mpr hpos
  rw [round_eq (k := k) rfl (by omega), roundWithAccuracy_exact hshiftPos hshift (by omega),
    ← shiftLeft_value m k e]
  exact holds_pack hshiftPos hshift (by omega) (by omega)

theorem normalize_of_pos {d : Int} (e : Int) (h : 0 < d) :
    UnpackedFloat.normalize .binary32 d e .positive
      = UnpackedFloat.round .binary32 .positive d.toNat e := by
  rw [UnpackedFloat.normalize, Int.compare_eq_gt.mpr h]

theorem ofNat_eq {n : Nat} (hpos : 0 < n) :
    Float32.Model.ofNat n = Float32.Model.pack (UnpackedFloat.round .binary32 .positive n 0) :=
  congrArg Float32.Model.pack (normalize_of_pos (d := n) 0 (by omega))

theorem holds_ofNat {n : Nat} (hpos : 0 < n) (hn : n < 2 ^ 24) :
    Holds ⟨Float32.Model.ofNat n⟩ n := by
  have hholds := holds_round hpos hn (e := 0) (by decide) (by decide)
  rwa [← ofNat_eq hpos, zpow_zero, mul_one] at hholds

/-! ### Whole and fractional part -/

theorem floor_shift (m : ℕ) (e : ℤ) :
    ⌊(m : ℚ) * 2 ^ e⌋₊ = m * 2 ^ e.toNat / 2 ^ (-e).toNat := by
  have he : e = (e.toNat : ℤ) - ((-e).toNat : ℤ) := by omega
  have hvalue : (m : ℚ) * 2 ^ e = ((m * 2 ^ e.toNat : ℕ) : ℚ) / ((2 ^ (-e).toNat : ℕ) : ℚ) := by
    conv_lhs => rw [he]
    rw [zpow_sub₀ (by norm_num), zpow_natCast, zpow_natCast]
    push_cast
    ring
  rw [hvalue, Nat.floor_div_eq_div]

theorem toNat_ofNatClamp (n : ℕ) : (UInt64.ofNatClamp n).toNat = min (2 ^ 64 - 1) n := by
  by_cases h : n < UInt64.size
  · rw [UInt64.toNat_ofNatClamp_of_lt h]
    have hsize : n < 2 ^ 64 := h
    omega
  · have hsize : 2 ^ 64 ≤ n := Nat.le_of_not_lt h
    rw [UInt64.toNat_ofNatClamp_of_le (Nat.le_of_not_lt h)]
    show 2 ^ 64 - 1 = _
    omega

theorem roundToInt_eq (s : Sign) (m : ℕ) (e : ℤ) :
    roundToInt s m e = s.apply ⌊(m : ℚ) * 2 ^ e⌋₊ := by
  have hup : (e - 0).toNat = e.toNat := by rw [Int.sub_zero]
  have hdown : (0 - (e - (e.toNat : ℤ))).toNat = (-e).toNat := by omega
  show s.apply (((ExtendedMantissa.ofMantissaAndAccuracy (m <<< (e - 0).toNat) .exact
    >>> (0 - (e - (e - 0).toNat)).toNat).mantissa : ℕ) : ℤ) = _
  rw [hup, hdown, shiftRight_mantissa, ofMantissaAndAccuracy_mantissa, Nat.shiftLeft_eq,
    floor_shift]

theorem toUInt64_eq (x : Float32) : x.toUInt64.toNat
    = min (2 ^ 64 - 1) (UnpackedFloat.toInt 0 (UInt64.size - 1) x.toModel.unpack).toNat :=
  toNat_ofNatClamp _

/-- Truncation is to the whole number below, as far as a word holds it. -/
theorem toUInt64_of_holds {x : Float32} {a : ℚ} (hx : Holds x a) :
    x.toUInt64.toNat = min (2 ^ 64 - 1) ⌊a⌋₊ := by
  obtain ⟨m, e, hpos, hxm, -, -, -, rfl⟩ := hx
  have hcut : UnpackedFloat.toInt 0 (UInt64.size - 1) (.finite .positive m e hpos)
      = ((⌊(m : ℚ) * 2 ^ e⌋₊ : ℕ) : ℤ) := roundToInt_eq .positive m e
  rw [toUInt64_eq, hxm, hcut, Int.toNat_natCast]

theorem toModel_sub (x y : Float32) :
    x - y = ⟨Float32.Model.pack
      (UnpackedFloat.sub .binary32 x.toModel.unpack y.toModel.unpack)⟩ := rfl

theorem lt_exponent {m : Nat} {e i : Int} (hm : m.log2 = 23) (h : (2 : ℚ) ^ i ≤ m * 2 ^ e) :
    i < e + 24 := by
  have hmpos : m ≠ 0 := by
    rintro rfl
    cases hm
  have hm24 : (m : ℚ) < 2 ^ 24 := by exact_mod_cast ((Nat.log2_eq_iff hmpos).mp hm).2
  have hpow : (2 : ℚ) ^ i < 2 ^ (e + (24 : Nat)) := by
    rw [two_zpow_add]
    exact h.trans_lt (mul_lt_mul_of_pos_right hm24 (two_zpow_pos e))
  exact exponent_lt hpow

theorem sub_zero_holds {x : Float32} {a : ℚ} (hx : Holds x a) :
    Holds (x - ⟨Float32.Model.ofNat 0⟩) a := by
  obtain ⟨m, e, hpos, hxm, hlog, hlo, hhi, rfl⟩ := hx
  have hzero : (Float32.Model.ofNat 0).unpack = .zero .positive := rfl
  rw [toModel_sub, hxm, hzero]
  exact holds_pack hpos hlog hlo hhi

/-- Both numbers are brought to the smaller exponent, where the difference of the mantissas is
exact. -/
theorem sub_aligned {x y : Float32} {a b : ℚ} (hx : Holds x a) (hy : Holds y b) (hle : b ≤ a) :
    ∃ (d : ℕ) (e : ℤ), a - b = d * 2 ^ e ∧ (∀ i : ℤ, 2 ^ i ≤ b → i < e + 24) ∧ e ≤ 104
      ∧ x - y = ⟨Float32.Model.pack (UnpackedFloat.normalize .binary32 d e .positive)⟩ := by
  obtain ⟨m, e, hpos, hxm, hlog, -, hhi, rfl⟩ := hx
  obtain ⟨n, f, hpos', hyn, hlog', -, -, rfl⟩ := hy
  let s := min e f
  let u := m <<< (e - s).toNat
  let w := n <<< (f - s).toNat
  have hu : (u : ℚ) * 2 ^ s = m * 2 ^ e := by
    have hs : s = e - (e - s).toNat := by omega
    conv_lhs => rw [hs]
    exact shiftLeft_value m _ e
  have hw : (w : ℚ) * 2 ^ s = n * 2 ^ f := by
    have hs : s = f - (f - s).toNat := by omega
    conv_lhs => rw [hs]
    exact shiftLeft_value n _ f
  have hwu : w ≤ u := by
    rw [← hu, ← hw] at hle
    exact_mod_cast le_of_mul_le_mul_right hle (two_zpow_pos s)
  refine ⟨u - w, s, ?_, fun i hi => ?_, by omega, ?_⟩
  · rw [Nat.cast_sub hwu, sub_mul, hu, hw]
  · have he := lt_exponent hlog (hi.trans hle)
    have hf := lt_exponent hlog' hi
    omega
  · rw [toModel_sub, hxm, hyn, Nat.cast_sub hwu]
    rfl

theorem sub_same {x y : Float32} {a : ℚ} (hx : Holds x a) (hy : Holds y a) :
    x - y = ⟨Float32.Model.pack (.zero .positive)⟩ := by
  obtain ⟨d, e, hvalue, -, -, hsub⟩ := sub_aligned hx hy le_rfl
  have hd : d = 0 := by
    rw [sub_self, zero_eq_mul, or_iff_left (two_zpow_pos e).ne'] at hvalue
    exact_mod_cast hvalue
  rw [hsub, hd]
  rfl

theorem sub_whole {x y : Float32} {a b : ℚ} (hx : Holds x a) (hy : Holds y b) (hone : 1 ≤ b)
    (hlt : b < a) (hless : a < b + 1) : Holds (x - y) (a - b) := by
  obtain ⟨d, e, hvalue, hexponent, he, hsub⟩ := sub_aligned hx hy hlt.le
  have hlow : -24 < e := by
    have := hexponent 0 (by rwa [zpow_zero])
    omega
  have hpow : (0 : ℚ) < 2 ^ e := two_zpow_pos e
  have hpos : 0 < d := by
    have hprod : (0 : ℚ) < d * 2 ^ e := by linarith
    exact_mod_cast (mul_pos_iff_of_pos_right hpow).mp hprod
  have hshort : d < 2 ^ 24 := by
    have hprod : (d : ℚ) * 2 ^ e < 2 ^ 24 * 2 ^ e := by
      calc (d : ℚ) * 2 ^ e < 2 ^ (0 : ℤ) := by rw [zpow_zero]; linarith
        _ ≤ 2 ^ (e + (24 : ℕ)) := zpow_le_zpow_right₀ (by norm_num) (by omega)
        _ = 2 ^ 24 * 2 ^ e := two_zpow_add e 24
    exact_mod_cast lt_of_mul_lt_mul_right hprod hpow.le
  rw [hsub, hvalue, normalize_of_pos e (by omega), Int.toNat_natCast]
  exact holds_round hpos hshort (by omega) he

theorem half_le {x : Float32} {a : ℚ} (hx : Holds x a) : 0.5 ≤ x ↔ 1 / 2 ≤ a := by
  obtain ⟨m, e, hpos, hxm, hlog, -, -, rfl⟩ := hx
  have hm : 2 ^ 23 ≤ m := ((Nat.log2_eq_iff (Nat.ne_of_gt hpos)).mp hlog).1
  have hhalf : (0.5 : Float32).toModel.unpack = .finite .positive (2 ^ 23) (-24) (by decide) := rfl
  have hcompare : 0.5 ≤ x ↔ ((compare (-24) e).then (compare (2 ^ 23) m)).isLE = true := by
    show decide ((0.5 : Float32).toModel.unpack.le x.toModel.unpack = true) = true ↔ _
    rw [hhalf, hxm, decide_eq_true_iff]
    rfl
  have hvalue : (1 : ℚ) / 2 ≤ m * 2 ^ e ↔ -24 ≤ e := by
    have hpow : (1 : ℚ) / 2 = 2 ^ (-1 : Int) := by norm_num
    rw [hpow]
    constructor
    · intro h
      have := lt_exponent hlog h
      omega
    · intro h
      have hm' : (2 : ℚ) ^ 23 ≤ m := by exact_mod_cast hm
      calc (2 : ℚ) ^ (-1 : Int) ≤ 2 ^ (e + (23 : Nat)) :=
            zpow_le_zpow_right₀ (by norm_num) (by omega)
        _ = 2 ^ 23 * 2 ^ e := two_zpow_add e 23
        _ ≤ m * 2 ^ e := mul_le_mul_of_nonneg_right hm' (two_zpow_pos e).le
  rw [hcompare, hvalue]
  rcases lt_trichotomy (-24) e with h | h | h
  · rw [Int.compare_eq_lt.mpr h]
    exact iff_of_true rfl h.le
  · rw [← h, Int.compare_eq_eq.mpr rfl]
    exact iff_of_true (Nat.isLE_compare.mpr hm) le_rfl
  · rw [Int.compare_eq_gt.mpr h]
    exact iff_of_false Bool.false_ne_true (by omega)

theorem half_le_rest {x : Float32} {a : ℚ} {n : ℕ} (hx : Holds x a) (hn : n < 2 ^ 24)
    (hle : (n : ℚ) ≤ a) (hlt : a < n + 1) :
    0.5 ≤ x - ⟨Float32.Model.ofNat n⟩ ↔ 1 / 2 ≤ a - n := by
  rcases Nat.eq_zero_or_pos n with rfl | hpos
  · rw [half_le (sub_zero_holds hx), Nat.cast_zero, sub_zero]
  · have hwhole := holds_ofNat hpos hn
    have hone : (1 : ℚ) ≤ n := by exact_mod_cast hpos
    rcases hle.eq_or_lt with rfl | hless
    · rw [sub_same hx hwhole, sub_self]
      exact iff_of_false (by decide) (by norm_num)
    · exact half_le (sub_whole hx hwhole hone hless hlt)

theorem nearest_of_word {x : Float32} {n : ℕ} (h : x.toUInt64.toNat = n) :
    nearest x = if 0.5 ≤ x - ⟨Float32.Model.ofNat n⟩ then n + 1 else n := by
  subst h
  rfl

theorem nearest_eq {x : Float32} {a : ℚ} (hx : Holds x a) (ha : a < 2 ^ 24) :
    nearest x = ⌊a + 1 / 2⌋₊ := by
  have hnonneg := hx.nonneg
  have hshort : ⌊a⌋₊ < 2 ^ 24 := (Nat.floor_lt hnonneg).mpr (by exact_mod_cast ha)
  have hwhole : x.toUInt64.toNat = ⌊a⌋₊ := by
    rw [toUInt64_of_holds hx]
    omega
  have hle := Nat.floor_le hnonneg
  have hlt := Nat.lt_floor_add_one a
  rw [nearest_of_word hwhole, eq_comm, Nat.floor_eq_iff (by linarith)]
  have hhalf := half_le_rest hx hshort hle hlt
  split
  next hup =>
    have := hhalf.mp hup
    push_cast
    constructor <;> linarith
  next hdown =>
    have := mt hhalf.mpr hdown
    constructor <;> linarith

theorem nearest_near {x : Float32} {a : ℚ} (hx : Holds x a) (ha : a < 2 ^ 24) :
    |(nearest x : ℚ) - a| ≤ 1 / 2 := by
  have hle := Nat.floor_le (a := a + 1 / 2) (by linarith [hx.nonneg])
  have hlt := Nat.lt_floor_add_one (a + 1 / 2)
  rw [nearest_eq hx ha, abs_le]
  constructor <;> linarith

end Tonewheel.Single
