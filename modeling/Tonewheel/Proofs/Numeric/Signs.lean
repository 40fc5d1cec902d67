import Tonewheel.Proofs.Numeric.WholeNumbers

/-!
# Signs of singles

A single is its parts, packed (`ofModel_pack_unpack`), so adding zero to it changes nothing, unless
it is the negative zero (`add_zero_eq`). A number whose sign bit is clear is not, and such numbers
are closed under products (`Unsigned.mul`).
-/

namespace Tonewheel.Single

open Float.Model Float.Model.UnpackedFloat

theorem ofModel_pack_eq {x : Float32} {u : UnpackedFloat}
    (h : UnpackedFloat.pack .binary32 u = x.toModel.toBits.toBitVec) :
    Float32.ofModel (Float32.Model.pack u) = x := by
  obtain ⟨⟨⟨b⟩, hvalid⟩⟩ := x
  change UnpackedFloat.pack .binary32 u = b at h
  subst h
  rfl

/-- What the bits of a single stand for: an infinity, the NaN, a zero or a finite number. -/
theorem unpack_cases (b : BitVec Float.Model.Format.binary32.numBits) :
    (unpackExponent b = -1#8 ∧ unpackMantissa b = 0#23
        ∧ UnpackedFloat.unpack .binary32 b = .infinity (Sign.ofBitVec (unpackSign b)))
      ∨ (unpackExponent b = -1#8 ∧ unpackMantissa b ≠ 0#23
        ∧ UnpackedFloat.unpack .binary32 b = .notANumber)
      ∨ (unpackExponent b = 0#8 ∧ unpackMantissa b = 0#23
        ∧ UnpackedFloat.unpack .binary32 b = .zero (Sign.ofBitVec (unpackSign b)))
      ∨ ∃ m e hpos,
        UnpackedFloat.unpack .binary32 b = .finite (Sign.ofBitVec (unpackSign b)) m e hpos := by
  by_cases hspecial : unpackExponent b = -1#8
  · by_cases hnone : unpackMantissa b = 0#23
    · exact .inl ⟨hspecial, hnone, unpack_infinity hspecial hnone⟩
    · exact .inr (.inl ⟨hspecial, hnone, unpack_nan hspecial hnone⟩)
  · by_cases hzero : unpackExponent b = 0#8
    · by_cases hnone : unpackMantissa b = 0#23
      · exact .inr (.inr (.inl ⟨hzero, hnone, unpack_zero hspecial hzero hnone⟩))
      · have hsome : 0 < (unpackMantissa b).toNat :=
          Nat.pos_of_ne_zero fun h => hnone (BitVec.eq_of_toNat_eq h)
        exact .inr (.inr (.inr ⟨_, _, _, unpack_subnormal hspecial hzero hnone hsome⟩))
    · have hpos : 0 < (1#1 ++ unpackMantissa b).toNat := by
        rw [toNat_implicit]
        exact Nat.lt_of_lt_of_le (Nat.two_pow_pos 23) (Nat.le_add_right _ _)
      exact .inr (.inr (.inr ⟨_, _, _, unpack_normal hspecial hzero hpos⟩))

/-- Nothing is lost between the bits of a single and its parts; of the NaNs there is only one. -/
theorem ofModel_pack_unpack (x : Float32) :
    Float32.ofModel (Float32.Model.pack x.toModel.unpack) = x := by
  have hparts := packComponents_unpack x.toModel.toBits.toBitVec
  rcases unpack_cases x.toModel.toBits.toBitVec with
    ⟨hspecial, hnone, hx⟩ | ⟨hspecial, hsome, hx⟩ | ⟨hzero, hnone, hx⟩ | ⟨m, e, hpos, hx⟩
  · rw [hspecial, hnone] at hparts
    exact ofModel_pack_eq ((congrArg _ hx).trans hparts)
  · have hnan := x.toModel.valid.eq_packedNaN hspecial hsome
    exact ofModel_pack_eq ((congrArg _ hx).trans hnan.symm)
  · rw [hzero, hnone] at hparts
    exact ofModel_pack_eq ((congrArg _ hx).trans hparts)
  · exact (congrArg (fun u => Float32.ofModel (Float32.Model.pack u)) hx).trans (pack_unpack hx)

/-! ### Adding zero -/

theorem toModel_add (x y : Float32) :
    x + y = ⟨Float32.Model.pack
      (UnpackedFloat.add .binary32 x.toModel.unpack y.toModel.unpack)⟩ := rfl

theorem add_zero_eq {x : Float32} (h : x.toModel.unpack ≠ .zero .negative) : x + 0 = x := by
  have hzero : (0 : Float32).toModel.unpack = .zero .positive := rfl
  have hadd : UnpackedFloat.add .binary32 x.toModel.unpack (.zero .positive)
      = x.toModel.unpack := by
    cases hx : x.toModel.unpack with
    | zero s =>
      cases s with
      | positive => rfl
      | negative => exact absurd hx h
    | _ => rfl
  rw [toModel_add, hzero, hadd]
  exact ofModel_pack_unpack x

theorem add_zero_add_zero (x : Float32) : x + 0 + 0 = x + 0 := by
  by_cases h : x.toModel.unpack = .zero .negative
  · rw [toModel_add x, h]
    rfl
  · rw [add_zero_eq h, add_zero_eq h]

/-! ### Clear signs -/

/-- The sign of a single's parts. A NaN counts as positive. -/
def signOf : UnpackedFloat → Sign
  | .notANumber => .positive
  | .infinity s => s
  | .zero s => s
  | .finite s _ _ _ => s

/-- Whether the sign bit of a single is clear. -/
def Unsigned (x : Float32) : Prop := signOf x.toModel.unpack = .positive

theorem signOf_unpack {b : BitVec Float.Model.Format.binary32.numBits} (h : unpackSign b = 0#1) :
    signOf (UnpackedFloat.unpack .binary32 b) = .positive := by
  have hsign : Sign.ofBitVec (unpackSign b) = .positive := by
    rw [h]
    rfl
  rcases unpack_cases b with ⟨-, -, hx⟩ | ⟨-, -, hx⟩ | ⟨-, -, hx⟩ | ⟨m, e, hpos, hx⟩
  · rw [hx]
    exact hsign
  · rw [hx]
    rfl
  · rw [hx]
    exact hsign
  · rw [hx]
    exact hsign

theorem unpackSign_pack {u : UnpackedFloat} (h : signOf u = .positive) :
    unpackSign (UnpackedFloat.pack .binary32 u) = 0#1 := by
  cases u with
  | notANumber => exact unpackSign_positive _ _
  | infinity s =>
    cases h
    exact unpackSign_positive _ _
  | zero s =>
    cases h
    exact unpackSign_positive _ _
  | finite s m e hpos =>
    cases h
    unfold UnpackedFloat.pack
    dsimp only
    split
    · exact unpackSign_positive _ _
    · split
      · exact unpackSign_positive _ _
      · exact unpackSign_positive _ _

theorem unsigned_pack {u : UnpackedFloat} (h : signOf u = .positive) :
    Unsigned ⟨Float32.Model.pack u⟩ := signOf_unpack (unpackSign_pack h)

theorem signOf_round (m : ℕ) (e : ℤ) (a : Accuracy) :
    signOf (roundWithAccuracy .binary32 .positive m e a) = .positive := by
  unfold roundWithAccuracy
  dsimp only
  -- If all is rounded away, a zero of the same sign is left.
  generalize (shiftToTargetExponent .binary32 _ _ .exact).1.mantissa = n
  by_cases hnone : n = 0
  · rw [dif_pos hnone]
    rfl
  · rw [dif_neg hnone]
    rfl

theorem signOf_mul {u w : UnpackedFloat} (hu : signOf u = .positive) (hw : signOf w = .positive) :
    signOf (UnpackedFloat.mul .binary32 u w) = .positive := by
  cases u with
  | finite s m e hpos =>
    cases w with
    | finite t n f hpos' =>
      cases hu
      cases hw
      exact signOf_round _ _ _
    | _ =>
      cases hu
      cases hw
      rfl
  | _ => cases w <;> cases hu <;> cases hw <;> rfl

theorem Unsigned.mul {x y : Float32} (hx : Unsigned x) (hy : Unsigned y) : Unsigned (x * y) :=
  unsigned_pack (signOf_mul hx hy)

theorem unsigned_ofNat (n : ℕ) : Unsigned ⟨Float32.Model.ofNat n⟩ := by
  rcases Nat.eq_zero_or_pos n with rfl | hpos
  · rfl
  · rw [ofNat_eq hpos]
    exact unsigned_pack (signOf_round _ _ _)

theorem Unsigned.add_zero {x : Float32} (h : Unsigned x) : x + 0 = x := by
  refine add_zero_eq fun hnegative => ?_
  cases (congrArg signOf hnegative).symm.trans h

end Tonewheel.Single
