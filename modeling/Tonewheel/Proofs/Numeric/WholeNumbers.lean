import Tonewheel.Proofs.Numeric.Arithmetic

/-!
# Singles as whole numbers

Rounding is to the nearest whole number, halves away from zero (`roundAway`). Held between zero and
a limit it is what `nearest` gives, for every single (`min_nearest`): a number of 24 bits or more is
whole already and is converted exactly, and what is too small to be held with all its bits is less
than a half.
-/

namespace Tonewheel.Single

open Float.Model Float.Model.UnpackedFloat

/-! ### Bits -/

theorem mantissa_lt (b : BitVec Float.Model.Format.binary32.numBits) :
    (unpackMantissa b).toNat < 2 ^ 23 := (unpackMantissa b).isLt

theorem parts_of_finite {b : BitVec Float.Model.Format.binary32.numBits} {s : Sign} {m : ℕ}
    {e : ℤ} {hpos : 0 < m} (h : UnpackedFloat.unpack .binary32 b = .finite s m e hpos) :
    s = Sign.ofBitVec (unpackSign b)
      ∧ ((unpackExponent b = 0#8 ∧ m = (unpackMantissa b).toNat ∧ e = -149)
        ∨ (0 < (unpackExponent b).toNat ∧ (unpackExponent b).toNat < 255
          ∧ m = 2 ^ 23 + (unpackMantissa b).toNat ∧ e = (unpackExponent b).toNat - 150)) := by
  by_cases hspecial : unpackExponent b = -1#8
  · by_cases hnone : unpackMantissa b = 0#23
    · cases (unpack_infinity hspecial hnone).symm.trans h
    · cases (unpack_nan hspecial hnone).symm.trans h
  by_cases hzero : unpackExponent b = 0#8
  · by_cases hnone : unpackMantissa b = 0#23
    · cases (unpack_zero hspecial hzero hnone).symm.trans h
    · have hsome : 0 < (unpackMantissa b).toNat :=
        Nat.pos_of_ne_zero fun h => hnone (BitVec.eq_of_toNat_eq h)
      rw [unpack_subnormal hspecial hzero hnone hsome] at h
      cases h
      refine ⟨rfl, .inl ⟨hzero, rfl, ?_⟩⟩
      rw [hzero]
      rfl
  · have himplicit := toNat_implicit (unpackMantissa b)
    have hbyte : (unpackExponent b).toNat < 256 := (unpackExponent b).isLt
    have hlow : (unpackExponent b).toNat ≠ 0 := fun h => hzero (BitVec.eq_of_toNat_eq h)
    have hhigh : (unpackExponent b).toNat ≠ 255 := fun h => hspecial (BitVec.eq_of_toNat_eq h)
    rw [unpack_normal hspecial hzero (by omega)] at h
    cases h
    exact ⟨rfl, .inr ⟨by omega, by omega, himplicit, rfl⟩⟩

theorem packComponents_unpack (b : BitVec Float.Model.Format.binary32.numBits) :
    packComponents .binary32 (Sign.ofBitVec (unpackSign b)) (unpackExponent b) (unpackMantissa b)
      = b := by
  have hsign : (Sign.ofBitVec (unpackSign b)).toBitVec = unpackSign b := by
    generalize unpackSign b = sign
    revert sign
    decide
  have hbound : b.toNat < 2 ^ 32 := b.isLt
  apply BitVec.eq_of_toNat_eq
  show ((Sign.ofBitVec (unpackSign b)).toBitVec ++ unpackExponent b ++ unpackMantissa b).toNat = _
  rw [hsign, BitVec.toNat_append, BitVec.toNat_append,
    ← Nat.shiftLeft_add_eq_or_of_lt (unpackMantissa b).isLt,
    ← Nat.shiftLeft_add_eq_or_of_lt (unpackExponent b).isLt]
  show ((b.toNat >>> 31 % 2 ^ 1) <<< 8 + b.toNat >>> 23 % 2 ^ 8) <<< 23 + b.toNat >>> 0 % 2 ^ 23 = _
  simp only [Nat.shiftRight_eq_div_pow, Nat.shiftLeft_eq]
  omega

section

variable {x : Float32} {s : Sign} {m : ℕ} {e : ℤ} {hpos : 0 < m}

theorem range_of_finite (hx : x.toModel.unpack = .finite s m e hpos) :
    (m < 2 ^ 23 ∧ e = -149) ∨ (m.log2 = 23 ∧ -149 ≤ e ∧ e ≤ 104) := by
  obtain ⟨⟨⟨b⟩, hvalid⟩⟩ := x
  obtain ⟨-, hparts⟩ := parts_of_finite (b := b) hx
  have hmantissa := mantissa_lt b
  rcases hparts with ⟨-, rfl, he⟩ | ⟨hlow, hhigh, rfl, he⟩
  · exact .inl ⟨hmantissa, he⟩
  · exact .inr ⟨(Nat.log2_eq_iff (by omega)).mpr ⟨by omega, by omega⟩, by omega, by omega⟩

/-- Nothing is lost between the bits of a finite number and its parts. -/
theorem pack_unpack (hx : x.toModel.unpack = .finite s m e hpos) :
    Float32.ofModel (Float32.Model.pack (.finite s m e hpos)) = x := by
  obtain ⟨⟨⟨b⟩, hvalid⟩⟩ := x
  change BitVec Float.Model.Format.binary32.numBits at b
  obtain ⟨hsign, hparts⟩ := parts_of_finite (b := b) hx
  have hmantissa := mantissa_lt b
  obtain ⟨biased, hbiased⟩ : ∃ biased : ℕ, (e + 127 + 23).toNat = biased := ⟨_, rfl⟩
  have hpack : UnpackedFloat.pack .binary32 (.finite s m e hpos) = b := by
    show (if 2 ^ 8 ≤ (e + 127 + 23).toNat + 1 then _ else if m.log2 + 1 = 24 then
      packComponents .binary32 s (BitVec.ofNat 8 (e + 127 + 23).toNat) (BitVec.ofNat 23 m)
      else packComponents .binary32 s 0#8 (BitVec.ofNat 23 m)) = b
    rw [hbiased, if_neg (by omega)]
    rcases hparts with ⟨hzero, hm, he⟩ | ⟨hlow, hhigh, hm, he⟩
    · have hshort : m.log2 < 23 := (Nat.log2_lt (Nat.ne_of_gt hpos)).mpr (by omega)
      rw [if_neg (by omega), hm, BitVec.ofNat_toNat, BitVec.setWidth_eq, hsign, ← hzero]
      exact packComponents_unpack b
    · have hlong : m.log2 = 23 := (Nat.log2_eq_iff (by omega)).mpr ⟨by omega, by omega⟩
      have hexponent : BitVec.ofNat 8 biased = unpackExponent b := by
        apply BitVec.eq_of_toNat_eq
        rw [BitVec.toNat_ofNat]
        omega
      have hfraction : BitVec.ofNat 23 m = unpackMantissa b := by
        apply BitVec.eq_of_toNat_eq
        rw [BitVec.toNat_ofNat]
        omega
      rw [if_pos (by omega), hexponent, hfraction, hsign]
      exact packComponents_unpack b
  subst hpack
  rfl

theorem sub_nothing (hx : x.toModel.unpack = .finite s m e hpos) :
    x - ⟨Float32.Model.ofNat 0⟩ = x := by
  have hzero : (Float32.Model.ofNat 0).unpack = .zero .positive := rfl
  have hsub : UnpackedFloat.sub .binary32 (.finite s m e hpos) (.zero .positive)
      = .finite s m e hpos := rfl
  rw [toModel_sub, hx, hzero, hsub]
  exact pack_unpack hx

end

/-! ### Numbers that round to zero -/

theorem nearest_eq_zero {x : Float32} (hword : x.toUInt64.toNat = 0)
    (hless : ¬ 0.5 ≤ x - ⟨Float32.Model.ofNat 0⟩) : nearest x = 0 := by
  rw [nearest_of_word hword, if_neg hless]

theorem half_le_iff (x : Float32) :
    0.5 ≤ x ↔ UnpackedFloat.le (.finite .positive (2 ^ 23) (-24) (by decide)) x.toModel.unpack
      = true := by
  have hhalf : (0.5 : Float32).toModel.unpack = .finite .positive (2 ^ 23) (-24) (by decide) := rfl
  show decide ((0.5 : Float32).toModel.unpack.le x.toModel.unpack = true) = true ↔ _
  rw [hhalf, decide_eq_true_iff]

section

variable {x : Float32} {m : ℕ} {e : ℤ} {hpos : 0 < m}

theorem nearest_of_negative (hx : x.toModel.unpack = .finite .negative m e hpos) :
    nearest x = 0 := by
  have hcut : UnpackedFloat.toInt 0 (UInt64.size - 1) (.finite .negative m e hpos)
      = -((⌊(m : ℚ) * 2 ^ e⌋₊ : ℕ) : ℤ) := roundToInt_eq .negative m e
  refine nearest_eq_zero ?_ ?_
  · rw [toUInt64_eq, hx, hcut]
    omega
  · rw [sub_nothing hx, half_le_iff, hx]
    exact Bool.false_ne_true

theorem subnormal_lt (hm : m < 2 ^ 23) (he : e = -149) : (m : ℚ) * 2 ^ e < 1 / 2 := by
  have hm' : (m : ℚ) < 2 ^ 23 := by exact_mod_cast hm
  calc (m : ℚ) * 2 ^ e < 2 ^ 23 * 2 ^ e := mul_lt_mul_of_pos_right hm' (two_zpow_pos e)
    _ = 2 ^ (e + (23 : ℕ)) := (two_zpow_add e 23).symm
    _ ≤ 2 ^ (-1 : ℤ) := zpow_le_zpow_right₀ (by norm_num) (by omega)
    _ = 1 / 2 := by norm_num

theorem nearest_of_subnormal (hx : x.toModel.unpack = .finite .positive m e hpos)
    (hm : m < 2 ^ 23) (he : e = -149) : nearest x = 0 := by
  have hfloor : ⌊(m : ℚ) * 2 ^ e⌋₊ = 0 :=
    Nat.floor_eq_zero.mpr ((subnormal_lt hm he).trans (by norm_num))
  have hcut : UnpackedFloat.toInt 0 (UInt64.size - 1) (.finite .positive m e hpos)
      = ((⌊(m : ℚ) * 2 ^ e⌋₊ : ℕ) : ℤ) := roundToInt_eq .positive m e
  refine nearest_eq_zero ?_ ?_
  · rw [toUInt64_eq, hx, hcut, hfloor]
    rfl
  · rw [sub_nothing hx, half_le_iff, hx]
    show ¬ ((compare (-24) e).then (compare (2 ^ 23) m)).isLE = true
    rw [he]
    exact Bool.false_ne_true

end

/-! ### Numbers that are whole -/

theorem holds_ofNat_shift {m k : ℕ} (hm : m.log2 = 23) (hk : k ≤ 104) :
    Holds ⟨Float32.Model.ofNat (m * 2 ^ k)⟩ (m * 2 ^ k) := by
  have hpos : 0 < m := by
    refine Nat.pos_of_ne_zero ?_
    rintro rfl
    cases hm
  have hshift : m * 2 ^ k = m <<< k := (Nat.shiftLeft_eq m k).symm
  have hshiftPos : 0 < m <<< k := Nat.shiftLeft_pos_iff.mpr hpos
  have hlog : (m <<< k).log2 = 23 + k := by rw [log2_shiftLeft k hpos, hm]
  -- the shift back leaves no residual bits
  have hround : (ExtendedMantissa.ofMantissaAndAccuracy (m <<< k) .exact >>> k).roundedMantissa
      = m := by
    have hcuts := (Double.Accurate.cuts (a := .exact) (t := 0) rfl (m <<< k)).shiftRight k
    have hvalue : (((m <<< k : ℕ) : ℚ) + 0) / 2 ^ k = ((m : ℤ) : ℚ) := by
      rw [Nat.shiftLeft_eq]
      push_cast
      field_simp
      ring
    have heven := hcuts.roundedMantissa
    rw [hvalue, Double.roundEven_intCast] at heven
    exact_mod_cast heven.symm
  have hsecond := shiftToTargetExponent_eq (k := 0) .exact hm (e := 0 + (k : ℤ)) (by omega)
  have hexact : roundWithAccuracy .binary32 .positive (m <<< k) 0 .exact
      = .finite .positive m k hpos := by
    refine roundWithAccuracy_eq hlog (by omega) hpos ?_ ?_
    · rw [hround, hsecond]
      rfl
    · rw [hround, hsecond]
      show (0 : ℤ) + k + (0 : ℕ) = k
      omega
  have hvalue : (m : ℚ) * 2 ^ k = m * 2 ^ (k : ℤ) := by rw [zpow_natCast]
  have hwhole : Float32.Model.ofNat (m * 2 ^ k)
      = Float32.Model.pack (.finite .positive m k hpos) := by
    rw [hshift, ofNat_eq hshiftPos, round_eq (k := 0) (by omega) (by omega), ← hexact]
    rfl
  rw [hwhole, hvalue]
  exact holds_pack hpos hm (by omega) (by omega)

theorem word_le_nearest (x : Float32) : x.toUInt64.toNat ≤ nearest x := by
  rw [nearest_of_word rfl]
  split <;> omega

theorem min_nearest_of_large {x : Float32} {a : ℚ} (hx : Holds x a) (hlarge : 2 ^ 24 ≤ a)
    {limit : ℕ} (hlimit : limit < 2 ^ 64) : min (nearest x) limit = min ⌊a + 1 / 2⌋₊ limit := by
  obtain ⟨m, e, hpos, hxm, hlog, hlo, hhi, rfl⟩ := id hx
  have he : 0 < e := by
    have := lt_exponent hlog (i := 24) hlarge
    omega
  obtain ⟨k, rfl⟩ : ∃ k : ℕ, e = k := ⟨e.toNat, by omega⟩
  have hvalue : (m : ℚ) * 2 ^ (k : ℤ) = (m * 2 ^ k : ℕ) := by
    rw [zpow_natCast]
    push_cast
    rfl
  have hword := toUInt64_of_holds hx
  have hhalf : ⌊((m * 2 ^ k : ℕ) : ℚ) + 1 / 2⌋₊ = m * 2 ^ k := by
    rw [Nat.floor_eq_iff (by positivity)]
    constructor <;> linarith
  have hsame : Holds ⟨Float32.Model.ofNat (m * 2 ^ k)⟩ (m * 2 ^ (k : ℤ)) := by
    have hholds := holds_ofNat_shift (k := k) hlog (by omega)
    rwa [← zpow_natCast] at hholds
  rw [hvalue, Nat.floor_natCast] at hword
  rw [hvalue, hhalf]
  by_cases hfits : m * 2 ^ k < 2 ^ 64
  · have hwhole : x.toUInt64.toNat = m * 2 ^ k := by omega
    have hless : ¬ (0.5 : Float32) ≤ ⟨Float32.Model.pack (.zero .positive)⟩ := by decide
    rw [nearest_of_word hwhole, sub_same hx hsame, if_neg hless]
  · have hmost := word_le_nearest x
    omega

/-! ### Rounding -/

/-- The nearest whole number, and of two that are as near the one further from zero. -/
def roundAway (q : ℚ) : ℤ := if 0 ≤ q then ⌊q + 1 / 2⌋ else ⌈q - 1 / 2⌉

/-- A number rounded and held between zero and a limit. What is no number counts as zero. -/
def heldRound (limit : ℕ) : UnpackedFloat → ℕ
  | .notANumber => 0
  | .infinity .negative => 0
  | .infinity .positive => limit
  | .zero _ => 0
  | .finite s m e _ => (max 0 (min (roundAway (s.apply m * 2 ^ e)) limit)).toNat

theorem heldRound_positive (limit : ℕ) {m : ℕ} {e : ℤ} (hpos : 0 < m) :
    heldRound limit (.finite .positive m e hpos) = min ⌊(m : ℚ) * 2 ^ e + 1 / 2⌋₊ limit := by
  have hnonneg : (0 : ℚ) ≤ m * 2 ^ e := mul_nonneg (Nat.cast_nonneg m) (two_zpow_pos e).le
  have hround : roundAway (((m : ℤ) : ℚ) * 2 ^ e) = ⌊(m : ℚ) * 2 ^ e + 1 / 2⌋ := by
    rw [Int.cast_natCast, roundAway, if_pos hnonneg]
  have hnat : ((⌊(m : ℚ) * 2 ^ e + 1 / 2⌋₊ : ℕ) : ℤ) = ⌊(m : ℚ) * 2 ^ e + 1 / 2⌋ :=
    Int.natCast_floor_eq_floor (by linarith)
  show (max 0 (min (roundAway (((m : ℤ) : ℚ) * 2 ^ e)) limit)).toNat = _
  rw [hround]
  omega

theorem heldRound_negative (limit : ℕ) {m : ℕ} {e : ℤ} (hpos : 0 < m) :
    heldRound limit (.finite .negative m e hpos) = 0 := by
  have hpositive : (0 : ℚ) < m * 2 ^ e :=
    mul_pos (by exact_mod_cast hpos) (two_zpow_pos e)
  have hvalue : ((-(m : ℤ) : ℤ) : ℚ) * 2 ^ e = -(m * 2 ^ e) := by
    push_cast
    ring
  have hround : roundAway (((-(m : ℤ) : ℤ) : ℚ) * 2 ^ e) ≤ 0 := by
    rw [hvalue, roundAway, if_neg (by linarith), Int.ceil_le]
    push_cast
    linarith
  show (max 0 (min (roundAway (((-(m : ℤ) : ℤ) : ℚ) * 2 ^ e)) limit)).toNat = 0
  omega

theorem min_nearest_of_positive {x : Float32} {m : ℕ} {e : ℤ} {hpos : 0 < m}
    (hx : x.toModel.unpack = .finite .positive m e hpos) {limit : ℕ} (hlimit : limit < 2 ^ 64) :
    min (nearest x) limit = min ⌊(m : ℚ) * 2 ^ e + 1 / 2⌋₊ limit := by
  rcases range_of_finite hx with ⟨hm, he⟩ | ⟨hlog, hlo, hhi⟩
  · have hless := subnormal_lt hm he
    rw [nearest_of_subnormal hx hm he, Nat.floor_eq_zero.mpr (by linarith)]
  · have hholds : Holds x (m * 2 ^ e) := ⟨m, e, hpos, hx, hlog, hlo, hhi, rfl⟩
    by_cases hlarge : (2 : ℚ) ^ 24 ≤ m * 2 ^ e
    · exact min_nearest_of_large hholds hlarge hlimit
    · rw [nearest_eq hholds (by linarith)]

theorem min_nearest (x : Float32) {limit : ℕ} (hlimit : limit < 2 ^ 64) :
    min (nearest x) limit = heldRound limit x.toModel.unpack := by
  have hzero : (Float32.Model.ofNat 0).unpack = .zero .positive := rfl
  have hsub : x - ⟨Float32.Model.ofNat 0⟩
      = ⟨Float32.Model.pack (UnpackedFloat.sub .binary32 x.toModel.unpack (.zero .positive))⟩ := rfl
  match hx : x.toModel.unpack with
  | .notANumber =>
    have hword : x.toUInt64.toNat = 0 := by rw [toUInt64_eq, hx]; rfl
    rw [nearest_eq_zero hword (by rw [hsub, hx]; decide)]
    exact Nat.zero_min limit
  | .infinity .negative =>
    have hword : x.toUInt64.toNat = 0 := by rw [toUInt64_eq, hx]; rfl
    rw [nearest_eq_zero hword (by rw [hsub, hx]; decide)]
    exact Nat.zero_min limit
  | .infinity .positive =>
    have hword : x.toUInt64.toNat = 2 ^ 64 - 1 := by rw [toUInt64_eq, hx]; rfl
    have hmost := word_le_nearest x
    show min (nearest x) limit = limit
    omega
  | .zero s =>
    have hword : x.toUInt64.toNat = 0 := by rw [toUInt64_eq, hx]; rfl
    rw [nearest_eq_zero hword (by rw [hsub, hx]; cases s <;> decide)]
    exact Nat.zero_min limit
  | .finite .positive m e hpos => rw [min_nearest_of_positive hx hlimit, heldRound_positive]
  | .finite .negative m e hpos =>
    rw [nearest_of_negative hx, heldRound_negative]
    exact Nat.zero_min limit

end Tonewheel.Single
