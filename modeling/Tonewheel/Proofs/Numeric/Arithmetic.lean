import Tonewheel.Proofs.Numeric.Doubles

/-!
# Arithmetic of doubles

Products, quotients and whole numbers are rounded once (`gives_mul`, `gives_div`, `gives_ofNat`),
and so are decimals in scientific notation (`gives_ofScientific`). A double is truncated to the
whole number below its magnitude (`toUInt64_of_positive`).
-/

namespace Tonewheel.Double

open Float.Model Float.Model.UnpackedFloat
open Single (two_zpow_pos two_zpow_add log2_shiftLeft shiftLeft_value toNat_ofNatClamp
  roundToInt_eq)

variable {s t : Sign} {a b : ℚ} {u w : UnpackedFloat}

/-! ### Products -/

theorem Denotes.nonneg (h : Denotes s a u) : 0 ≤ a := by
  cases h with
  | zero ha => exact ha.ge
  | finite hpos _ ha =>
    rw [ha]
    exact mul_nonneg (Nat.cast_nonneg _) (two_zpow_pos _).le

theorem Canonical.fine {m n : ℕ} {e f : ℤ} (hm : Canonical m e) (hn : Canonical n f)
    (hmpos : 0 < m) (hnpos : 0 < n) : 2 ^ 52 ≤ m * n ∨ e + f ≤ -1074 := by
  rcases hm.low with hlong | he
  · exact .inl (hlong.trans (Nat.le_mul_of_pos_right m hnpos))
  · rcases hn.low with hlong | hf
    · exact .inl (hlong.trans (Nat.le_mul_of_pos_left n hmpos))
    · exact .inr (by omega)

theorem denotes_product (s : Sign) {m n : ℕ} {e f : ℤ} (hm : 0 < m) (hn : 0 < n)
    (hfine : 2 ^ 52 ≤ m * n ∨ e + f ≤ -1074) :
    Denotes s (nearest (m * 2 ^ e * (n * 2 ^ f)))
      (roundWithAccuracy .binary64 s (m * n) (e + f) .exact) := by
  have hmpos : (0 : ℚ) < m := by exact_mod_cast hm
  have hnpos : (0 : ℚ) < n := by exact_mod_cast hn
  refine denotes_round s (t := 0) rfl ?_ hfine ?_
  · rw [zpow_add₀ (by norm_num)]
    push_cast
    ring
  · exact mul_pos (mul_pos hmpos (two_zpow_pos e)) (mul_pos hnpos (two_zpow_pos f))

theorem denotes_mul (hu : Denotes s a u) (hw : Denotes t b w) :
    Denotes (s * t) (nearest (a * b)) (UnpackedFloat.mul .binary64 u w) := by
  cases hu with
  | zero ha =>
    have hzero : nearest (a * b) = 0 := by rw [ha, zero_mul, nearest_zero]
    cases hw with
    | zero _ => exact .zero hzero
    | finite _ _ _ => exact .zero hzero
  | finite hm hmc ha =>
    cases hw with
    | zero hb => exact .zero (by rw [hb, mul_zero, nearest_zero])
    | finite hn hnc hb =>
      rw [ha, hb]
      exact denotes_product (s * t) hm hn (hmc.fine hnc hm hn)

theorem gives_mul {x y : Float} (hx : Holds x s a) (hy : Holds y t b) :
    Gives (x * y) (s * t) (a * b) := gives_pack (denotes_mul hx hy)

/-! ### Quotients -/

/-- The exponent that a quotient is cut at, and by how much the dividend is shifted for that. -/
theorem divCore_eq (m : ℕ) (e : ℤ) (n : ℕ) (f : ℤ) {target : ℤ} {k : ℕ}
    (htarget : min (e - f) (max ((m.log2 : ℤ) - n.log2 + (e - f) - 53) (-1074)) = target)
    (hk : (e - f - target).toNat = k) :
    divCore .binary64 m e n f
      = (m <<< k / n, target, accuracyOfFraction (m <<< k % n) n) := by
  have htarget' : min (e - f) (Float.Model.Format.binary64.targetExponent
      (totalExponent m e - totalExponent n f)) = target := by
    show min (e - f) (max (((m.log2 : ℤ) + 1 + e) - ((n.log2 : ℤ) + 1 + f) - 53) (-1074)) = target
    omega
  rw [divCore, htarget', hk]

/-- A quotient is cut so far behind its first bit that rounding sees all it needs. -/
theorem denotes_quotient (s : Sign) {m n : ℕ} {e f : ℤ} (hm : 0 < m) (hn : 0 < n) :
    Denotes s (nearest (m * 2 ^ e / (n * 2 ^ f)))
      (roundWithAccuracy .binary64 s (divCore .binary64 m e n f).1
        (divCore .binary64 m e n f).2.1 (divCore .binary64 m e n f).2.2) := by
  obtain ⟨target, htarget⟩ : ∃ target : ℤ,
      min (e - f) (max ((m.log2 : ℤ) - n.log2 + (e - f) - 53) (-1074)) = target := ⟨_, rfl⟩
  obtain ⟨k, hk⟩ : ∃ k : ℕ, (e - f - target).toNat = k := ⟨_, rfl⟩
  rw [divCore_eq m e n f htarget hk]
  dsimp only
  have hmpos : (0 : ℚ) < m := by exact_mod_cast hm
  have hnpos : (0 : ℚ) < n := by exact_mod_cast hn
  have hexponent : e - f = target + k := by omega
  have hvalue : (m : ℚ) * 2 ^ e / (n * 2 ^ f)
      = ((m <<< k / n : ℕ) + (m <<< k % n : ℕ) / n) * 2 ^ target := by
    have hdivmod : (n : ℚ) * (m <<< k / n : ℕ) + (m <<< k % n : ℕ) = m * 2 ^ k := by
      rw [Nat.shiftLeft_eq]
      exact_mod_cast Nat.div_add_mod (m * 2 ^ k) n
    have hpow : (2 : ℚ) ^ e = 2 ^ k * 2 ^ target * 2 ^ f := by
      rw [← two_zpow_add, ← hexponent, ← zpow_add₀ (by norm_num), sub_add_cancel]
    have hf := (two_zpow_pos f).ne'
    rw [hpow]
    field_simp
    linarith
  refine denotes_round s (accurate_fraction (Nat.mod_lt _ hn)) hvalue ?_ ?_
  · by_cases hsmall : target ≤ -1074
    · exact .inr hsmall
    · left
      have hshift : n.log2 + 53 ≤ m.log2 + k := by omega
      have hmlog := ((Nat.log2_eq_iff (Nat.ne_of_gt hm)).mp rfl).1
      have hnlog := ((Nat.log2_eq_iff (Nat.ne_of_gt hn)).mp rfl).2
      rw [Nat.le_div_iff_mul_le hn, Nat.shiftLeft_eq]
      calc 2 ^ 52 * n ≤ 2 ^ 52 * 2 ^ (n.log2 + 1) := Nat.mul_le_mul_left _ hnlog.le
        _ = 2 ^ (n.log2 + 53) := by rw [← Nat.pow_add]; congr 1; omega
        _ ≤ 2 ^ (m.log2 + k) := Nat.pow_le_pow_right (by decide) hshift
        _ = 2 ^ m.log2 * 2 ^ k := Nat.pow_add _ _ _
        _ ≤ m * 2 ^ k := Nat.mul_le_mul_right _ hmlog
  · exact div_pos (mul_pos hmpos (two_zpow_pos e)) (mul_pos hnpos (two_zpow_pos f))

theorem denotes_div (hu : Denotes s a u) (hw : Denotes t b w) (hb : b ≠ 0) :
    Denotes (s / t) (nearest (a / b)) (UnpackedFloat.div .binary64 u w) := by
  cases hw with
  | zero hzero => exact absurd hzero hb
  | finite hn hnc hb =>
    cases hu with
    | zero ha => exact .zero (by rw [ha, zero_div, nearest_zero])
    | finite hm hmc ha =>
      rw [ha, hb]
      exact denotes_quotient (s / t) hm hn

theorem gives_div {x y : Float} (hx : Holds x s a) (hy : Holds y t b) (hb : b ≠ 0) :
    Gives (x / y) (s / t) (a / b) := gives_pack (denotes_div hx hy hb)

/-! ### Signs and whole numbers -/

theorem Denotes.neg (h : Denotes s a u) : Denotes (-s) a u.neg := by
  cases h with
  | zero ha => exact .zero ha
  | finite hpos hm ha => exact .finite hpos hm ha

theorem Gives.neg {x : Float} {v : ℚ} (h : Gives x s v) : Gives (-x) (-s) v := by
  have hunpack : (-x).toModel.unpack
      = UnpackedFloat.unpack .binary64 (UnpackedFloat.pack .binary64 x.toModel.unpack.neg) := rfl
  unfold Gives Holds at h ⊢
  rw [hunpack]
  generalize x.toModel.unpack = u at h
  split at h
  next hsmall =>
    rw [if_pos hsmall, unpack_pack h.neg, if_pos hsmall]
    exact h.neg
  next hlarge =>
    rw [if_neg hlarge, h]
    exact unpack_packedInfinity (-s)

theorem Denotes.isFinite (h : Denotes s a u) : u.isFinite = true := by
  cases h <;> rfl

theorem Denotes.fits (h : Denotes s a u) (k : ℕ) : Fits (a * 2 ^ k) := by
  cases h with
  | zero ha => exact ⟨0, 0, by decide, by decide, by simp [ha]⟩
  | @finite m e _ hm ha =>
    refine ⟨m, e + k, ?_, ?_, ?_⟩
    · rw [abs_of_nonneg (Int.natCast_nonneg m)]
      exact_mod_cast hm.high
    · have := hm.exponent
      omega
    · rw [ha, zpow_add₀ (by norm_num), zpow_natCast, mul_assoc]
      rfl

theorem Gives.holds {x : Float} {v : ℚ} (h : Gives x s v) (hfits : Fits v) (hsmall : v < 2 ^ 1024) :
    Holds x s v := by
  have hsame := nearest_of_fits hfits
  unfold Gives at h
  rw [hsame, if_pos hsmall] at h
  exact h

theorem Gives.holds_nearest {x : Float} {v : ℚ} (h : Gives x s v) (hsmall : nearest v < 2 ^ 1024) :
    Holds x s (nearest v) := by
  unfold Gives at h
  rwa [if_pos hsmall] at h

theorem fits_natCast {n : ℕ} (h : n < 2 ^ 53) : Fits n := by
  refine ⟨n, 0, ?_, by decide, by simp⟩
  rw [abs_of_nonneg (Int.natCast_nonneg n)]
  exact_mod_cast h

theorem gives_ofNat (n : ℕ) : Gives ⟨Float.Model.ofNat n⟩ .positive n := by
  rcases Nat.eq_zero_or_pos n with rfl | hpos
  · exact gives_pack (u := .zero .positive) (.zero (by simp))
  · obtain ⟨k, hk⟩ : ∃ k : ℕ, 52 - n.log2 = k := ⟨_, rfl⟩
    have hshift : (0 - Float.Model.Format.binary64.targetExponent (totalExponent n 0)).toNat = k := by
      show (0 - max ((n.log2 : ℤ) + 1 + 0 - 53) (-1074)).toNat = k
      omega
    have hround : UnpackedFloat.round .binary64 .positive n 0
        = roundWithAccuracy .binary64 .positive (n <<< k) (0 - k) .exact := by
      rw [UnpackedFloat.round, decreaseExponent, hshift]
    have hnormal : UnpackedFloat.normalize .binary64 n 0 .positive
        = UnpackedFloat.round .binary64 .positive n 0 := by
      rw [UnpackedFloat.normalize, Int.compare_eq_gt.mpr (by omega)]
      rfl
    have hlong : 2 ^ 52 ≤ n <<< k := by
      have hlog := log2_shiftLeft k hpos
      exact (Nat.le_log2 (Nat.ne_of_gt (Nat.shiftLeft_pos_iff.mpr hpos))).mp (by omega)
    have hvalue : (n : ℚ) = ((n <<< k : ℕ) + 0) * 2 ^ ((0 : ℤ) - k) := by
      rw [add_zero, shiftLeft_value, zpow_zero, mul_one]
    have hdenotes := denotes_round .positive (a := .exact) rfl hvalue (.inl hlong)
      (by exact_mod_cast hpos)
    rw [← hround, ← hnormal] at hdenotes
    exact gives_pack hdenotes

theorem lt_limit {c : ℚ} {k : ℕ} (h : c ≤ 2 ^ k) (hk : k < 1024) : c < 2 ^ 1024 :=
  h.trans_lt (pow_lt_pow_right₀ (by norm_num) hk)

theorem holds_ofNat {n : ℕ} (h : n < 2 ^ 53) : Holds ⟨Float.Model.ofNat n⟩ .positive n :=
  (gives_ofNat n).holds (fits_natCast h) (lt_limit (by exact_mod_cast h.le) (by decide))

/-! ### Truncation -/

theorem Denotes.toInt (h : Denotes s a u) (low high : ℤ) :
    UnpackedFloat.toInt low high u = s.apply ⌊a⌋₊ := by
  cases h with
  | zero ha =>
    rw [ha, Nat.floor_zero]
    cases s <;> rfl
  | @finite m e hpos _ ha =>
    rw [ha]
    exact roundToInt_eq s m e

theorem toUInt64_eq (x : Float) : x.toUInt64.toNat
    = min (2 ^ 64 - 1) (UnpackedFloat.toInt 0 (UInt64.size - 1) x.toModel.unpack).toNat :=
  toNat_ofNatClamp _

theorem toUInt64_of_positive {x : Float} (h : Holds x .positive a) :
    x.toUInt64.toNat = min (2 ^ 64 - 1) ⌊a⌋₊ := by
  rw [toUInt64_eq, h.toInt]
  rfl

theorem toUInt64_of_negative {x : Float} (h : Holds x .negative a) : x.toUInt64.toNat = 0 := by
  rw [toUInt64_eq, h.toInt]
  show min (2 ^ 64 - 1) (-(⌊a⌋₊ : ℤ)).toNat = 0
  omega

theorem toUInt64_of_infinity {x : Float} (h : x.toModel.unpack = .infinity .positive) :
    x.toUInt64.toNat = 2 ^ 64 - 1 := by
  have hhigh : ((UInt64.size : ℤ) - 1).toNat = 2 ^ 64 - 1 := by decide
  rw [toUInt64_eq, h]
  exact (congrArg (min (2 ^ 64 - 1)) hhigh).trans (Nat.min_self _)

theorem toUInt64_of_negInfinity {x : Float} (h : x.toModel.unpack = .infinity .negative) :
    x.toUInt64.toNat = 0 := by
  rw [toUInt64_eq, h]
  exact Nat.min_zero _

/-! ### Powers of ten -/

theorem powerOfTen_eq (k : Fin 23) :
    getElem Float.exactlyRepresentablePowersOfTen k.val k.isLt
      = ⟨Float.Model.ofNat (10 ^ k.val)⟩ := by
  revert k
  decide +kernel

theorem holds_powerOfTen {k : ℕ} (hk : k < 23) :
    Holds (getElem Float.exactlyRepresentablePowersOfTen k hk) .positive (10 ^ k) := by
  have hle : k ≤ 22 := Nat.lt_succ_iff.mp hk
  have hfive : 5 ^ k < 2 ^ 53 :=
    lt_of_le_of_lt (Nat.pow_le_pow_right (by decide) hle) (by norm_num)
  have hten : 10 ^ k < 2 ^ 77 :=
    lt_of_le_of_lt (Nat.pow_le_pow_right (by decide) hle) (by norm_num)
  have hfits : Fits ((10 ^ k : ℕ) : ℚ) := by
    refine ⟨(5 ^ k : ℕ), k, ?_, by omega, ?_⟩
    · rw [abs_of_nonneg (Int.natCast_nonneg _)]
      exact_mod_cast hfive
    · rw [zpow_natCast]
      push_cast
      rw [← mul_pow]
      norm_num
  have hgives := (gives_ofNat (10 ^ k)).holds hfits
    (lt_limit (by exact_mod_cast hten.le) (by decide))
  rw [powerOfTen_eq ⟨k, hk⟩]
  push_cast at hgives
  exact hgives

section

variable {m : ℕ} {e : ℤ} (hm : 0 < m) (hhigh : e ≤ 2 ^ 11) (hlow : -(2 ^ 11 + (m.log2 : ℤ)) ≤ e)

include hm hhigh hlow

theorem ofScientific_of_nonneg (he : 0 ≤ e) :
    UnpackedFloat.ofScientific .binary64 m e
      = roundWithAccuracy .binary64 .positive (m <<< 53 * 10 ^ e.toNat) (-53 + 0) .exact :=
  (dif_neg (Nat.ne_of_gt hm)).trans <| (if_neg (not_lt.mpr hhigh)).trans <|
    (if_neg (not_lt.mpr hlow)).trans <| if_pos he

theorem ofScientific_of_neg (he : ¬ 0 ≤ e) :
    UnpackedFloat.ofScientific .binary64 m e
      = roundWithAccuracy .binary64 .positive
        (divCore .binary64 m 0 (10 ^ (-e).toNat) 0).1
        (divCore .binary64 m 0 (10 ^ (-e).toNat) 0).2.1
        (divCore .binary64 m 0 (10 ^ (-e).toNat) 0).2.2 :=
  (dif_neg (Nat.ne_of_gt hm)).trans <| (if_neg (not_lt.mpr hhigh)).trans <|
    (if_neg (not_lt.mpr hlow)).trans <| if_neg he

theorem gives_model_ofScientific :
    Gives ⟨Float.Model.ofScientific m e⟩ .positive (m * 10 ^ e) := by
  by_cases he : 0 ≤ e
  · have hten : 0 < 10 ^ e.toNat := Nat.pow_pos (by decide)
    have hshift : 0 < m <<< 53 := Nat.shiftLeft_pos_iff.mpr hm
    have hlong : 2 ^ 52 ≤ m <<< 53 * 10 ^ e.toNat := by
      refine le_trans ?_ (Nat.le_mul_of_pos_right _ hten)
      rw [Nat.shiftLeft_eq]
      omega
    have hround := denotes_product .positive (e := -53) (f := 0) hshift hten (.inl hlong)
    rw [← ofScientific_of_nonneg hm hhigh hlow he] at hround
    have hvalue : ((m <<< 53 : ℕ) : ℚ) * 2 ^ (-53 : ℤ) * ((10 ^ e.toNat : ℕ) * 2 ^ (0 : ℤ))
        = m * 10 ^ e := by
      have hunshifted := shiftLeft_value m 53 0
      have hpower : (10 : ℚ) ^ e = ((10 ^ e.toNat : ℕ) : ℚ) := by
        conv_lhs => rw [← Int.toNat_of_nonneg he]
        push_cast
        rw [zpow_natCast]
      rw [zpow_zero, mul_one] at hunshifted ⊢
      rw [hpower]
      exact congrArg (· * _) hunshifted
    rw [hvalue] at hround
    exact gives_pack hround
  · have hten : 0 < 10 ^ (-e).toNat := Nat.pow_pos (by decide)
    have hround := denotes_quotient .positive (e := 0) (f := 0) hm hten
    rw [← ofScientific_of_neg hm hhigh hlow he] at hround
    have hvalue : (m : ℚ) * 2 ^ (0 : ℤ) / ((10 ^ (-e).toNat : ℕ) * 2 ^ (0 : ℤ)) = m * 10 ^ e := by
      have hpower : (10 : ℚ) ^ e = ((10 ^ (-e).toNat : ℕ) : ℚ)⁻¹ := by
        have hneg : e = -((-e).toNat : ℤ) := by omega
        conv_lhs => rw [hneg]
        push_cast
        rw [zpow_neg, zpow_natCast]
      rw [zpow_zero, mul_one, mul_one, hpower, div_eq_mul_inv]
    rw [hvalue] at hround
    exact gives_pack hround

theorem gives_ofScientific :
    Gives (Float.ofScientific m (e < 0) e.natAbs) .positive (m * 10 ^ e) := by
  unfold Float.ofScientific
  split
  next hfast =>
    obtain ⟨hshort, hpower⟩ := hfast
    have hwhole : Holds m.toUInt64.toFloat .positive m := by
      have htoNat : m.toUInt64.toNat = m := Nat.mod_eq_of_lt (by omega)
      have hfloat : m.toUInt64.toFloat = ⟨Float.Model.ofNat m⟩ :=
        congrArg (fun n => (⟨Float.Model.ofNat n⟩ : Float)) htoNat
      rw [hfloat]
      exact holds_ofNat hshort
    have hten := holds_powerOfTen (k := e.natAbs) (by omega)
    split
    next hneg =>
      rw [decide_eq_true_eq] at hneg
      have hvalue : (m : ℚ) / 10 ^ e.natAbs = m * 10 ^ e := by
        have he : e = -(e.natAbs : ℤ) := by omega
        conv_rhs => rw [he]
        rw [zpow_neg, zpow_natCast, div_eq_mul_inv]
      rw [← hvalue]
      exact gives_div hwhole hten (by positivity)
    next hpos =>
      rw [decide_eq_true_eq] at hpos
      have hvalue : (m : ℚ) * 10 ^ e.natAbs = m * 10 ^ e := by
        have he : e = (e.natAbs : ℤ) := by omega
        conv_rhs => rw [he]
        rw [zpow_natCast]
      rw [← hvalue]
      exact gives_mul hwhole hten
  next hslow =>
    have he : (if decide (e < 0) = true then Int.negOfNat e.natAbs else Int.ofNat e.natAbs) = e := by
      split
      next hneg =>
        rw [decide_eq_true_eq] at hneg
        rw [Int.negOfNat_eq]
        show -(e.natAbs : ℤ) = e
        omega
      next hpos =>
        rw [decide_eq_true_eq] at hpos
        show (e.natAbs : ℤ) = e
        omega
    show Gives ⟨Float.Model.ofScientific m (if decide (e < 0) = true then Int.negOfNat e.natAbs
      else Int.ofNat e.natAbs)⟩ _ _
    rw [he]
    exact gives_model_ofScientific hm hhigh hlow

end

end Tonewheel.Double
