import Tonewheel.Proofs.Numeric.Nearest

/-!
# Doubles are rounded to the nearest

A mantissa with two residual bits stands for a number as far as rounding goes (`Cuts`), and shifts
keep it so. What is rounded is then the nearest double (`denotes_round`), and packing loses nothing
but what is too large, which becomes infinite (`gives_pack`).
-/

namespace Tonewheel.Double

open Float.Model Float.Model.UnpackedFloat
open Single (two_zpow_pos two_zpow_add finite_congr unpack_normal unpack_subnormal unpack_zero
  unpack_infinity toNat_implicit)

/-! ### Residual bits -/

/-- Whether a mantissa with its residual bits stands for a number: the round bit for a half, and the
sticky bit for anything less. -/
def Cuts (em : ExtendedMantissa) (q : ℚ) : Prop :=
  ∃ rest : ℚ, 0 ≤ rest ∧ rest < 1 / 2 ∧ (em.stickyBit = true ↔ 0 < rest)
    ∧ q = em.mantissa + (if em.roundBit then 1 / 2 else 0) + rest

theorem Cuts.shiftRightOne {em : ExtendedMantissa} {q : ℚ} (h : Cuts em q) :
    Cuts em.shiftRightOne (q / 2) := by
  obtain ⟨m, round, sticky⟩ := em
  obtain ⟨rest, hnonneg, hless, hsticky, rfl⟩ := h
  dsimp only at hsticky
  refine ⟨(if round then 1 / 4 else 0) + rest / 2, ?_, ?_, ?_, ?_⟩
  · split <;> linarith
  · split <;> linarith
  · show (round || sticky) = true ↔ _
    rw [Bool.or_eq_true, hsticky]
    cases round with
    | true =>
      refine iff_of_true (.inl rfl) ?_
      rw [if_pos rfl]
      linarith
    | false => simp
  · have hdivmod : (m : ℚ) = 2 * (m / 2 : ℕ) + (m % 2 : ℕ) := by
      exact_mod_cast (Nat.div_add_mod m 2).symm
    show _ = ((m / 2 : ℕ) : ℚ) + (if (m % 2 != 0) = true then 1 / 2 else 0) + _
    dsimp only
    rw [hdivmod]
    rcases Nat.mod_two_eq_zero_or_one m with hparity | hparity <;>
      rw [hparity] <;> cases round <;> norm_num <;> ring

theorem Cuts.shiftRight {em : ExtendedMantissa} {q : ℚ} (h : Cuts em q) (k : ℕ) :
    Cuts (em >>> k) (q / 2 ^ k) := by
  show Cuts (Nat.repeat ExtendedMantissa.shiftRightOne k em) (q / 2 ^ k)
  induction k with
  | zero =>
    rw [pow_zero, div_one]
    exact h
  | succ k ih =>
    rw [pow_succ, ← div_div]
    exact ih.shiftRightOne

theorem roundedMantissa_eq (m : ℕ) (round sticky : Bool) :
    (⟨m, round, sticky⟩ : ExtendedMantissa).roundedMantissa
      = if round then if sticky then m + 1 else m + m % 2 else m := by
  cases round <;> cases sticky <;> rfl

theorem Cuts.roundedMantissa {em : ExtendedMantissa} {q : ℚ} (h : Cuts em q) :
    roundEven q = em.roundedMantissa := by
  obtain ⟨m, round, sticky⟩ := em
  obtain ⟨rest, hnonneg, hless, hsticky, rfl⟩ := h
  dsimp only at hsticky ⊢
  rw [roundedMantissa_eq]
  apply roundEven_eq
  cases sticky with
  | false =>
    have hrest : rest = 0 := by
      by_contra hne
      exact Bool.false_ne_true (hsticky.mpr (lt_of_le_of_ne hnonneg (Ne.symm hne)))
    rw [hrest]
    cases round with
    | false =>
      left
      simp
    | true =>
      right
      refine ⟨?_, by simp; omega⟩
      rcases Nat.mod_two_eq_zero_or_one m with hparity | hparity
      · simp [hparity]
      · simp [hparity]
        norm_num
  | true =>
    have hrest : 0 < rest := hsticky.mp rfl
    left
    cases round <;> simp [abs_lt] <;> constructor <;> linarith

/-- Whether an accuracy says how much is missing. -/
def Accurate : Accuracy → ℚ → Prop
  | .exact, t => t = 0
  | .inexact .lt, t => 0 < t ∧ t < 1 / 2
  | .inexact .eq, t => t = 1 / 2
  | .inexact .gt, t => 1 / 2 < t ∧ t < 1

theorem Accurate.bounds {a : Accuracy} {t : ℚ} (h : Accurate a t) : 0 ≤ t ∧ t < 1 := by
  rcases a with _ | _ | _ | _ <;> simp only [Accurate] at h <;> constructor <;> linarith

theorem Accurate.cuts {a : Accuracy} {t : ℚ} (h : Accurate a t) (m : ℕ) :
    Cuts (ExtendedMantissa.ofMantissaAndAccuracy m a) (m + t) := by
  rcases a with _ | _ | _ | _ <;> simp only [Accurate] at h
  · subst h
    exact ⟨0, le_rfl, by norm_num, by simp [ExtendedMantissa.ofMantissaAndAccuracy],
      by simp [ExtendedMantissa.ofMantissaAndAccuracy]⟩
  · exact ⟨t, h.1.le, h.2, iff_of_true rfl h.1, by simp [ExtendedMantissa.ofMantissaAndAccuracy]⟩
  · subst h
    exact ⟨0, le_rfl, by norm_num, by simp [ExtendedMantissa.ofMantissaAndAccuracy],
      by simp [ExtendedMantissa.ofMantissaAndAccuracy]⟩
  · refine ⟨t - 1 / 2, by linarith, by linarith, iff_of_true rfl (by linarith), ?_⟩
    show (m : ℚ) + t = m + 1 / 2 + (t - 1 / 2)
    ring

theorem accurate_fraction {num den : ℕ} (h : num < den) :
    Accurate (accuracyOfFraction num den) (num / den) := by
  have hden : (0 : ℚ) < den := by exact_mod_cast Nat.zero_lt_of_lt h
  have hlt : (num : ℚ) < den := by exact_mod_cast h
  unfold accuracyOfFraction
  split
  next hzero => simp [hzero, Accurate]
  next hsome =>
    have hnum : (0 : ℚ) < num := by exact_mod_cast Nat.pos_of_ne_zero hsome
    rcases lt_trichotomy (2 * num) den with hcompare | hcompare | hcompare
    · have hcompare' : 2 * (num : ℚ) < den := by exact_mod_cast hcompare
      rw [Nat.compare_eq_lt.mpr hcompare]
      exact ⟨div_pos hnum hden, by rw [div_lt_iff₀ hden]; linarith⟩
    · have hcompare' : 2 * (num : ℚ) = den := by exact_mod_cast hcompare
      rw [Nat.compare_eq_eq.mpr hcompare]
      show (num : ℚ) / den = 1 / 2
      rw [div_eq_iff hden.ne']
      linarith
    · have hcompare' : (den : ℚ) < 2 * num := by exact_mod_cast hcompare
      rw [Nat.compare_eq_gt.mpr hcompare]
      exact ⟨by rw [lt_div_iff₀ hden]; linarith, by rw [div_lt_one hden]; exact hlt⟩

/-! ### Rounding -/

/-- Whether a mantissa has its place: it has less than 54 bits, and not less than 53 unless its
exponent is the smallest. -/
structure Canonical (m : ℕ) (e : ℤ) : Prop where
  high : m < 2 ^ 53
  low : 2 ^ 52 ≤ m ∨ e = -1074
  exponent : -1074 ≤ e

/-- Whether an unpacked number has a sign and a magnitude. -/
inductive Denotes (s : Sign) (c : ℚ) : UnpackedFloat → Prop where
  | zero (h : c = 0) : Denotes s c (.zero s)
  | finite {m : ℕ} {e : ℤ} (hpos : 0 < m) (hm : Canonical m e) (h : c = m * 2 ^ e) :
      Denotes s c (.finite s m e hpos)

section

variable {m : ℕ} {e : ℤ} {t v : ℚ} (hfine : 2 ^ 52 ≤ m ∨ e ≤ -1074) (hpos : 0 < v)
  (hlow : 0 ≤ t) (hhigh : t < 1) (hv : v = (m + t) * 2 ^ e)

include hfine hpos hlow hhigh hv

theorem unit_of_mantissa : unit v = max ((m.log2 : ℤ) + e - 52) (-1074) := by
  rcases Nat.eq_zero_or_pos m with rfl | hm
  · have he : e ≤ -1074 := hfine.resolve_left (by decide)
    have hlog : Int.log 2 v < -1074 := by
      rw [← Int.lt_zpow_iff_log_lt (b := 2) (by decide) hpos, hv, Nat.cast_zero, zero_add]
      calc t * (2 : ℚ) ^ e < 1 * 2 ^ e := mul_lt_mul_of_pos_right hhigh (two_zpow_pos e)
        _ = 2 ^ e := one_mul _
        _ ≤ 2 ^ (-1074 : ℤ) := zpow_le_zpow_right₀ (by norm_num) he
    rw [unit, abs_of_pos hpos, Nat.log2_zero]
    omega
  · have hrange := (Nat.log2_eq_iff (Nat.ne_of_gt hm)).mp rfl
    have hlow' : (2 : ℚ) ^ m.log2 ≤ m := by exact_mod_cast hrange.1
    have hhigh' : (m : ℚ) + 1 ≤ 2 ^ (m.log2 + 1) := by exact_mod_cast hrange.2
    have hle : (2 : ℚ) ^ ((m.log2 : ℤ) + e) ≤ v := by
      rw [hv, add_comm, two_zpow_add]
      exact mul_le_mul_of_nonneg_right (by linarith) (two_zpow_pos e).le
    have hlt : v < (2 : ℚ) ^ ((m.log2 : ℤ) + e + 1) := by
      have hexponent : (m.log2 : ℤ) + e + 1 = e + ((m.log2 + 1 : ℕ) : ℤ) := by
        push_cast
        ring
      rw [hv, hexponent, two_zpow_add]
      exact mul_lt_mul_of_pos_right (by linarith) (two_zpow_pos e)
    exact unit_eq hle hlt

theorem le_unit : e ≤ unit v := by
  rw [unit_of_mantissa hfine hpos hlow hhigh hv]
  rcases hfine with hfine | hfine
  · have hlog : 52 ≤ m.log2 := (Nat.le_log2 (by omega)).mpr hfine
    omega
  · omega

end

theorem shiftToTargetExponent_eq (m : ℕ) {e target : ℤ} (a : Accuracy)
    (htarget : max ((m.log2 : ℤ) + e - 52) (-1074) = target) :
    shiftToTargetExponent .binary64 m e a
      = (ExtendedMantissa.ofMantissaAndAccuracy m a >>> (target - e).toNat,
        e + (target - e).toNat) := by
  have htarget' : Float.Model.Format.binary64.targetExponent (totalExponent m e) = target := by
    show max ((m.log2 : ℤ) + 1 + e - 53) (-1074) = target
    omega
  rw [shiftToTargetExponent, htarget']
  rfl

/-- A rounded mantissa is shifted once more if a carry has made it too long. -/
theorem denotes_rounded (s : Sign) {r : ℕ} {e : ℤ} (hr : r ≤ 2 ^ 53) (he : -1074 ≤ e)
    (hlow : 2 ^ 52 ≤ r ∨ e = -1074) (u : UnpackedFloat)
    (hu : u = if h : (shiftToTargetExponent .binary64 r e .exact).1.mantissa = 0 then .zero s
      else .finite s _ (shiftToTargetExponent .binary64 r e .exact).2 (Nat.pos_of_ne_zero h)) :
    Denotes s (r * 2 ^ e) u := by
  subst hu
  rcases Nat.lt_or_eq_of_le hr with hshort | rfl
  · have hlog : r.log2 ≤ 52 := by
      rcases Nat.eq_zero_or_pos r with rfl | hpos
      · decide
      · exact Nat.lt_succ_iff.mp ((Nat.log2_lt (Nat.ne_of_gt hpos)).mpr hshort)
    have hsecond := shiftToTargetExponent_eq r (e := e) .exact rfl
    have hstay : (max ((r.log2 : ℤ) + e - 52) (-1074) - e).toNat = 0 := by omega
    rw [hstay] at hsecond
    have hmantissa : (shiftToTargetExponent .binary64 r e .exact).1.mantissa = r := by
      rw [hsecond]
      rfl
    have hexponent : (shiftToTargetExponent .binary64 r e .exact).2 = e := by
      rw [hsecond]
      exact Int.add_zero e
    by_cases hzero : r = 0
    · rw [dif_pos (hmantissa.trans hzero)]
      exact .zero (by simp [hzero])
    · rw [dif_neg (by rwa [hmantissa])]
      refine .finite _ ?_ ?_
      · rw [hmantissa, hexponent]
        exact ⟨hshort, hlow, he⟩
      · rw [hmantissa, hexponent]
  · have hlog : (2 ^ 53 : ℕ).log2 = 53 := Nat.log2_two_pow
    have hsecond := shiftToTargetExponent_eq (2 ^ 53) (e := e) .exact rfl
    have hcarry : (max (((2 ^ 53 : ℕ).log2 : ℤ) + e - 52) (-1074) - e).toNat = 1 := by omega
    rw [hcarry] at hsecond
    have hmantissa : (shiftToTargetExponent .binary64 (2 ^ 53) e .exact).1.mantissa = 2 ^ 52 := by
      rw [hsecond]
      rfl
    have hexponent : (shiftToTargetExponent .binary64 (2 ^ 53) e .exact).2 = e + 1 := by
      rw [hsecond]
      rfl
    rw [dif_neg (by rw [hmantissa]; decide)]
    refine .finite _ ?_ ?_
    · rw [hmantissa, hexponent]
      exact ⟨by decide, .inl (by decide), by omega⟩
    · rw [hmantissa, hexponent, zpow_add_one₀ (by norm_num)]
      push_cast
      ring

theorem denotes_round (s : Sign) {m : ℕ} {e : ℤ} {a : Accuracy} {t v : ℚ} (ha : Accurate a t)
    (hv : v = (m + t) * 2 ^ e) (hfine : 2 ^ 52 ≤ m ∨ e ≤ -1074) (hpos : 0 < v) :
    Denotes s (nearest v) (roundWithAccuracy .binary64 s m e a) := by
  obtain ⟨hlow, hhigh⟩ := ha.bounds
  have hunit := unit_of_mantissa hfine hpos hlow hhigh hv
  have hle := le_unit hfine hpos hlow hhigh hv
  obtain ⟨k, hk⟩ : ∃ k : ℕ, unit v = e + k := ⟨(unit v - e).toNat, by omega⟩
  have hshift : (unit v - e).toNat = k := by omega
  have hfirst := shiftToTargetExponent_eq m a hunit.symm
  rw [hshift, ← hk] at hfirst
  have hquotient : ((m : ℚ) + t) / 2 ^ k = v / 2 ^ unit v := by
    rw [hk, two_zpow_add, hv]
    exact (mul_div_mul_right _ _ (two_zpow_pos e).ne').symm
  have hcuts := (ha.cuts m).shiftRight k
  rw [hquotient] at hcuts
  generalize hr : (ExtendedMantissa.ofMantissaAndAccuracy m a >>> k) = em at hfirst hcuts
  have hround := hcuts.roundedMantissa
  have hnearest : nearest v = em.roundedMantissa * 2 ^ unit v := by
    rw [nearest, hround, Int.cast_natCast]
  have hshort : em.roundedMantissa ≤ 2 ^ 53 := by
    have hless := roundEven_le (n := 2 ^ 53) (by push_cast; exact (lt_unit hpos).le)
    rw [hround] at hless
    exact_mod_cast hless
  have hsmallest : -1074 ≤ unit v := le_max_right _ _
  have hlong : 2 ^ 52 ≤ em.roundedMantissa ∨ unit v = -1074 := by
    rcases hsmallest.eq_or_lt with hsame | hlarger
    · exact .inr hsame.symm
    · have hmore := le_roundEven (n := 2 ^ 52) (by push_cast; exact unit_le hpos hlarger)
      rw [hround] at hmore
      exact .inl (by exact_mod_cast hmore)
  rw [hnearest]
  exact denotes_rounded s hshort hsmallest hlong _ (by rw [roundWithAccuracy, hfirst])

/-! ### Packing -/

theorem unpackSign_pack (s : Sign) (exponent : BitVec 11) (fraction : BitVec 52) :
    Sign.ofBitVec (unpackSign (packComponents .binary64 s exponent fraction)) = s := by
  have hvalue : (packComponents .binary64 s exponent fraction).toNat
      = (s.toBitVec.toNat * 2 ^ 11 + exponent.toNat) * 2 ^ 52 + fraction.toNat := by
    show (s.toBitVec ++ exponent ++ fraction).toNat = _
    rw [BitVec.toNat_append, BitVec.toNat_append, ← Nat.shiftLeft_add_eq_or_of_lt fraction.isLt,
      ← Nat.shiftLeft_add_eq_or_of_lt exponent.isLt, Nat.shiftLeft_eq, Nat.shiftLeft_eq]
  have hsign : (unpackSign (packComponents .binary64 s exponent fraction)).toNat
      = s.toBitVec.toNat := by
    have hexponent := exponent.isLt
    have hfraction := fraction.isLt
    have hbit := s.toBitVec.isLt
    show (packComponents .binary64 s exponent fraction).toNat >>> 63 % 2 ^ 1 = _
    rw [Nat.shiftRight_eq_div_pow, hvalue]
    omega
  rw [BitVec.eq_of_toNat_eq hsign]
  cases s <;> rfl

theorem unpack_components_normal (s : Sign) {m biased : ℕ} (hlow : 2 ^ 52 ≤ m) (hhigh : m < 2 ^ 53)
    (hbiased : 0 < biased) (hless : biased < 2047) (hpos : 0 < m) :
    UnpackedFloat.unpack .binary64 (packComponents .binary64 s (BitVec.ofNat 11 biased)
        (BitVec.ofNat 52 m))
      = .finite s m ((biased : ℤ) - 1075) hpos := by
  have hsign := unpackSign_pack s (BitVec.ofNat 11 biased) (BitVec.ofNat 52 m)
  have hexponent : unpackExponent (packComponents .binary64 s (BitVec.ofNat 11 biased)
      (BitVec.ofNat 52 m)) = BitVec.ofNat 11 biased := unpackExponent_packComponents
  have hfraction : unpackMantissa (packComponents .binary64 s (BitVec.ofNat 11 biased)
      (BitVec.ofNat 52 m)) = BitVec.ofNat 52 m := unpackMantissa_packComponents
  generalize packComponents .binary64 s (BitVec.ofNat 11 biased) (BitVec.ofNat 52 m) = b
    at hsign hexponent hfraction
  have htoNat : (BitVec.ofNat 11 biased).toNat = biased := by
    rw [BitVec.toNat_ofNat, Nat.mod_eq_of_lt (by omega)]
  have hnan : BitVec.ofNat 11 biased ≠ -1#11 := by
    intro h
    have : biased = 2047 := htoNat.symm.trans (congrArg BitVec.toNat h)
    omega
  have hzero : BitVec.ofNat 11 biased ≠ 0#11 := by
    intro h
    have : biased = 0 := htoNat.symm.trans (congrArg BitVec.toNat h)
    omega
  have hmantissa : (1#1 ++ unpackMantissa b).toNat = m := by
    rw [hfraction, toNat_implicit, BitVec.toNat_ofNat]
    omega
  refine (unpack_normal (hexponent.trans_ne hnan) (hexponent.trans_ne hzero)
    (hmantissa.symm ▸ hpos)).trans (finite_congr hsign hmantissa ?_)
  rw [hexponent, htoNat]
  rfl

theorem unpack_components_subnormal (s : Sign) {m : ℕ} (hhigh : m < 2 ^ 52) (hpos : 0 < m) :
    UnpackedFloat.unpack .binary64 (packComponents .binary64 s 0#11 (BitVec.ofNat 52 m))
      = .finite s m (-1074) hpos := by
  have hsign := unpackSign_pack s 0#11 (BitVec.ofNat 52 m)
  have hexponent : unpackExponent (packComponents .binary64 s 0#11 (BitVec.ofNat 52 m)) = 0#11 :=
    unpackExponent_packComponents
  have hfraction : unpackMantissa (packComponents .binary64 s 0#11 (BitVec.ofNat 52 m))
      = BitVec.ofNat 52 m := unpackMantissa_packComponents
  generalize packComponents .binary64 s 0#11 (BitVec.ofNat 52 m) = b at hsign hexponent hfraction
  have htoNat : (BitVec.ofNat 52 m).toNat = m := by
    rw [BitVec.toNat_ofNat, Nat.mod_eq_of_lt hhigh]
  have hmantissa : (unpackMantissa b).toNat = m := by rw [hfraction, htoNat]
  have hsome : unpackMantissa b ≠ 0#52 := by
    intro h
    have : m = 0 := hmantissa.symm.trans (congrArg BitVec.toNat h)
    omega
  refine (unpack_subnormal (hexponent.trans_ne (by decide)) hexponent hsome
    (hmantissa.symm ▸ hpos)).trans (finite_congr hsign hmantissa ?_)
  rw [hexponent]
  rfl

theorem unpack_packedZero (s : Sign) :
    UnpackedFloat.unpack .binary64 (packedZero .binary64 s) = .zero s := by
  have hexponent : unpackExponent (packComponents .binary64 s 0#11 0#52) = 0#11 :=
    unpackExponent_packComponents
  have hfraction : unpackMantissa (packComponents .binary64 s 0#11 0#52) = 0#52 :=
    unpackMantissa_packComponents
  have hbits := unpack_zero (hexponent.trans_ne (by decide)) hexponent hfraction
  rw [unpackSign_pack] at hbits
  exact hbits

theorem unpack_packedInfinity (s : Sign) :
    UnpackedFloat.unpack .binary64 (packedInfinity .binary64 s) = .infinity s := by
  have hexponent : unpackExponent (packComponents .binary64 s (-1#11) 0#52) = -1#11 :=
    unpackExponent_packComponents
  have hfraction : unpackMantissa (packComponents .binary64 s (-1#11) 0#52) = 0#52 :=
    unpackMantissa_packComponents
  have hbits := unpack_infinity hexponent hfraction
  rw [unpackSign_pack] at hbits
  exact hbits

theorem Canonical.lt_iff {m : ℕ} {e : ℤ} (h : Canonical m e) :
    (m : ℚ) * 2 ^ e < 2 ^ 1024 ↔ e < 972 := by
  have hhigh : (m : ℚ) < 2 ^ 53 := by exact_mod_cast h.high
  constructor
  · intro hless
    by_contra hlarge
    have hlow : (2 : ℚ) ^ 52 ≤ m := by exact_mod_cast h.low.resolve_right (by omega)
    have hmore : (2 : ℚ) ^ (1024 : ℤ) ≤ m * 2 ^ e := by
      calc (2 : ℚ) ^ (1024 : ℤ) ≤ 2 ^ (e + (52 : ℕ)) :=
            zpow_le_zpow_right₀ (by norm_num) (by omega)
        _ = 2 ^ 52 * 2 ^ e := two_zpow_add e 52
        _ ≤ m * 2 ^ e := mul_le_mul_of_nonneg_right hlow (two_zpow_pos e).le
    exact absurd hless (not_lt.mpr hmore)
  · intro hsmall
    calc (m : ℚ) * 2 ^ e < 2 ^ 53 * 2 ^ e := mul_lt_mul_of_pos_right hhigh (two_zpow_pos e)
      _ = 2 ^ (e + (53 : ℕ)) := (two_zpow_add e 53).symm
      _ ≤ 2 ^ (1024 : ℤ) := zpow_le_zpow_right₀ (by norm_num) (by omega)

/-- Packing loses nothing, but a number that is too large becomes infinite. -/
theorem unpack_pack {s : Sign} {c : ℚ} {u : UnpackedFloat} (h : Denotes s c u) :
    UnpackedFloat.unpack .binary64 (UnpackedFloat.pack .binary64 u)
      = if c < 2 ^ 1024 then u else .infinity s := by
  cases h with
  | zero hc =>
    rw [if_pos (by rw [hc]; positivity)]
    exact unpack_packedZero s
  | @finite m e hpos hm hc =>
    obtain ⟨biased, hbiased⟩ : ∃ biased : ℕ, (biased : ℤ) = e + 1075 :=
      ⟨(e + 1075).toNat, by have := hm.exponent; omega⟩
    have htoNat : (e + 1023 + 52).toNat = biased := by omega
    have hpack : UnpackedFloat.pack .binary64 (.finite s m e hpos)
        = if 2 ^ 11 ≤ (e + 1023 + 52).toNat + 1 then packedInfinity .binary64 s
          else if m.log2 + 1 = 53 then
            packComponents .binary64 s (BitVec.ofNat 11 (e + 1023 + 52).toNat) (BitVec.ofNat 52 m)
          else packComponents .binary64 s 0#11 (BitVec.ofNat 52 m) := rfl
    have hexponent := hm.exponent
    rw [hpack, htoNat, hc]
    by_cases hsmall : e < 972
    · rw [if_neg (by omega), if_pos (hm.lt_iff.mpr hsmall)]
      by_cases hnormal : 2 ^ 52 ≤ m
      · have hlog : m.log2 = 52 := (Nat.log2_eq_iff (Nat.ne_of_gt hpos)).mpr ⟨hnormal, hm.high⟩
        rw [if_pos (by omega), unpack_components_normal s hnormal hm.high (by omega) (by omega) hpos]
        exact finite_congr rfl rfl (by omega)
      · have hlog : m.log2 < 52 := (Nat.log2_lt (Nat.ne_of_gt hpos)).mpr (by omega)
        have hlowest : e = -1074 := hm.low.resolve_left hnormal
        rw [if_neg (by omega), unpack_components_subnormal s (by omega) hpos]
        exact finite_congr rfl rfl hlowest.symm
    · rw [if_pos (by omega), if_neg (mt hm.lt_iff.mp hsmall), unpack_packedInfinity]

/-! ### Doubles -/

/-- Whether a double has a sign and a magnitude. -/
def Holds (x : Float) (s : Sign) (c : ℚ) : Prop := Denotes s c x.toModel.unpack

/-- Whether a double has a sign and the magnitude nearest to a number, or is infinite if that is too
large. -/
def Gives (x : Float) (s : Sign) (v : ℚ) : Prop :=
  if nearest v < 2 ^ 1024 then Holds x s (nearest v) else x.toModel.unpack = .infinity s

theorem gives_pack {s : Sign} {v : ℚ} {u : UnpackedFloat} (h : Denotes s (nearest v) u) :
    Gives ⟨Float.Model.pack u⟩ s v := by
  have hunpack : (Float.Model.pack u).unpack
      = if nearest v < 2 ^ 1024 then u else .infinity s := unpack_pack h
  unfold Gives Holds
  split
  next hsmall =>
    rw [if_pos hsmall] at hunpack
    rw [hunpack]
    exact h
  next hlarge =>
    rw [if_neg hlarge] at hunpack
    exact hunpack

end Tonewheel.Double
