import Tonewheel.Numeric.Decimal
import Tonewheel.Proofs.Numeric.Arithmetic

/-!
# Which decimals are read

A decimal numeral is at most one sign, digits with at most one point, and maybe an exponent
(`Decimal.Numeral`). These are what is read as a finite number (`readMagnitude_iff`), and the double
that is made of one is the nearest to its value, or infinite if that is too large (`gives_toDouble`).
-/

namespace Tonewheel.Decimal

open Double Float.Model.UnpackedFloat

/-- Whether some characters are a point and digits, or nothing. -/
inductive Fraction : List Char → List Char → Prop where
  | none : Fraction [] []
  | point {digits : List Char} (h : ∀ c ∈ digits, c.isDigit = true) : Fraction ('.' :: digits) digits

inductive Exponent : List Char → ℤ → Prop where
  | none : Exponent [] 0
  | mark {c : Char} {cs : List Char} (hc : c = 'e' ∨ c = 'E') (hsome : (splitSign cs).2 ≠ [])
      (hdigits : ∀ d ∈ (splitSign cs).2, d.isDigit = true) :
      Exponent (c :: cs)
        (if (splitSign cs).1 then -(digitsValue (splitSign cs).2 : ℤ)
          else digitsValue (splitSign cs).2)

/-- Whether some characters are a numeral without a sign, with its digits and their exponent. -/
inductive Unsigned : List Char → ℕ → ℤ → Prop where
  | decimal {whole point fraction mark : List Char} {e : ℤ}
      (hwhole : ∀ c ∈ whole, c.isDigit = true) (hpoint : Fraction point fraction)
      (hsome : whole ≠ [] ∨ fraction ≠ []) (hmark : Exponent mark e) :
      Unsigned (whole ++ (point ++ mark)) (digitsValue (whole ++ fraction)) (e - fraction.length)

/-- Whether a token is a decimal numeral, and its value. -/
def Numeral (token : List Char) (v : ℚ) : Prop :=
  ∃ m e, Unsigned (splitSign token).2 m e
    ∧ v = if (splitSign token).1 then -(m * 10 ^ e : ℚ) else m * 10 ^ e

/-! ### Reading -/

def StartsOff (cs : List Char) : Prop := ∀ c rest, cs = c :: rest → c.isDigit = false

theorem span_digits {xs ys : List Char} (hxs : ∀ c ∈ xs, c.isDigit = true) (hys : StartsOff ys) :
    (xs ++ ys).span Char.isDigit = (xs, ys) := by
  have hstop : ys.takeWhile Char.isDigit = [] ∧ ys.dropWhile Char.isDigit = ys := by
    cases ys with
    | nil => exact ⟨rfl, rfl⟩
    | cons c rest =>
      have hc := hys c rest rfl
      simp [hc]
  rw [List.span_eq_takeWhile_dropWhile, List.takeWhile_append_of_pos hxs,
    List.dropWhile_append_of_pos hxs, hstop.1, hstop.2, List.append_nil]

theorem Exponent.startsOff {mark : List Char} {e : ℤ} (h : Exponent mark e) : StartsOff mark := by
  intro c rest hmark
  cases h with
  | none => cases hmark
  | mark hc _ _ =>
    cases hmark
    rcases hc with rfl | rfl <;> rfl

theorem Exponent.splitFraction {point fraction mark : List Char} {e : ℤ}
    (hpoint : Fraction point fraction) (hmark : Exponent mark e) :
    splitFraction (point ++ mark) = (fraction, mark) := by
  cases hpoint with
  | none =>
    cases hmark with
    | none => rfl
    | mark hc _ _ => rcases hc with rfl | rfl <;> rfl
  | point hdigits => exact span_digits hdigits hmark.startsOff

theorem Exponent.readExponent {mark : List Char} {e : ℤ} (h : Exponent mark e) :
    readExponent mark = some e := by
  cases h with
  | none => rfl
  | @mark c cs hc hsome hdigits =>
    have hread : ((splitSign cs).2.isEmpty || !(splitSign cs).2.all Char.isDigit) = false := by
      simpa using ⟨hsome, hdigits⟩
    rw [Decimal.readExponent, if_pos hc]
    generalize splitSign cs = sign at hread ⊢
    obtain ⟨negative, digits⟩ := sign
    dsimp only at hread ⊢
    rw [hread, if_neg Bool.false_ne_true]
    split <;> rfl

theorem exponent_of_read {mark : List Char} {e : ℤ} (h : readExponent mark = some e) :
    Exponent mark e := by
  cases mark with
  | nil =>
    cases h
    exact .none
  | cons c cs =>
    by_cases hc : c = 'e' ∨ c = 'E'
    · have hmark (hsome : (splitSign cs).2 ≠ [])
          (hdigits : ∀ d ∈ (splitSign cs).2, d.isDigit = true) := Exponent.mark hc hsome hdigits
      rw [readExponent, if_pos hc] at h
      generalize splitSign cs = sign at h hmark
      obtain ⟨negative, digits⟩ := sign
      dsimp only at h hmark
      split at h
      · cases h
      next hread =>
        simp only [Bool.or_eq_true, List.isEmpty_iff, Bool.not_eq_true', not_or,
          Bool.not_eq_false, List.all_eq_true] at hread
        have hmark' := hmark hread.1 hread.2
        cases negative <;> cases h <;> exact hmark'
    · rw [readExponent, if_neg hc] at h
      cases h

theorem toLower_of_isDigit {c : Char} (h : c.isDigit = true) : c.toLower = c := by
  have hsmall := (Char.isDigit_iff_toNat.mp h).2
  refine dif_neg fun hupper => ?_
  have hlarge : 'A'.toNat ≤ c.toNat := UInt32.le_iff_toNat_le.mp hupper.1
  exact absurd (hlarge.trans hsmall) (by decide)

theorem Unsigned.not_word {body : List Char} {m : ℕ} {e : ℤ} (h : Unsigned body m e)
    (word : String) (hword : word ∈ ["inf", "infinity", "nan"]) :
    String.ofList (body.map Char.toLower) ≠ word := by
  have hhead : ∃ c rest, body = c :: rest ∧ (c.isDigit = true ∨ c = '.') := by
    cases h with
    | @decimal whole point fraction mark e hwhole hpoint hsome _ =>
      cases whole with
      | cons c whole => exact ⟨c, _, rfl, .inl (hwhole c List.mem_cons_self)⟩
      | nil =>
        cases hpoint with
        | none => exact absurd rfl (hsome.resolve_left (fun h => h rfl))
        | point _ => exact ⟨'.', _, rfl, .inr rfl⟩
  obtain ⟨c, rest, rfl, hc⟩ := hhead
  have hlower : c.toLower = c := by
    rcases hc with hc | rfl
    · exact toLower_of_isDigit hc
    · rfl
  intro hsame
  have hlist : c :: rest.map Char.toLower = word.toList := by
    rw [← hsame, String.toList_ofList, List.map_cons, hlower]
  have hstart : c = 'i' ∨ c = 'n' := by
    simp only [List.mem_cons, List.not_mem_nil, or_false] at hword
    rcases hword with rfl | rfl | rfl
    · exact .inl (List.cons.inj hlist).1
    · exact .inl (List.cons.inj hlist).1
    · exact .inr (List.cons.inj hlist).1
  rcases hstart with rfl | rfl <;> rcases hc with hc | hc <;> cases hc

theorem Unsigned.readMagnitude {body : List Char} {m : ℕ} {e : ℤ} (h : Unsigned body m e) :
    readMagnitude body = some (.finite m e) := by
  have hinf := h.not_word "inf" (by decide)
  have hinfinity := h.not_word "infinity" (by decide)
  have hnan := h.not_word "nan" (by decide)
  unfold Decimal.readMagnitude
  dsimp only
  rw [if_neg (not_or.mpr ⟨hinf, hinfinity⟩), if_neg hnan]
  cases h with
  | @decimal whole point fraction mark e hwhole hpoint hsome hmark =>
    have hoff : StartsOff (point ++ mark) := by
      cases hpoint with
      | none => exact hmark.startsOff
      | point _ =>
        intro c rest hc
        cases hc
        rfl
    have hdigits : (whole.isEmpty && fraction.isEmpty) = false := by
      simpa [Decidable.or_iff_not_imp_left] using hsome
    rw [span_digits hwhole hoff]
    dsimp only
    rw [hmark.splitFraction hpoint]
    dsimp only
    rw [hdigits, if_neg Bool.false_ne_true, hmark.readExponent]
    rfl

theorem span_eq (cs : List Char) :
    ∃ digits rest, cs.span Char.isDigit = (digits, rest) ∧ cs = digits ++ rest
      ∧ ∀ c ∈ digits, c.isDigit = true := by
  refine ⟨cs.takeWhile Char.isDigit, cs.dropWhile Char.isDigit, List.span_eq_takeWhile_dropWhile _ _,
    List.takeWhile_append_dropWhile.symm, List.all_eq_true.mp List.all_takeWhile⟩

theorem splitFraction_eq {rest fraction tail : List Char}
    (h : splitFraction rest = (fraction, tail)) :
    ∃ point, rest = point ++ tail ∧ Fraction point fraction := by
  unfold splitFraction at h
  split at h
  next cs =>
    obtain ⟨digits, rest, hspan, rfl, hdigits⟩ := span_eq cs
    rw [hspan] at h
    cases h
    exact ⟨_, rfl, .point hdigits⟩
  next =>
    cases h
    exact ⟨[], rfl, .none⟩

theorem readMagnitude_iff {body : List Char} {m : ℕ} {e : ℤ} :
    readMagnitude body = some (.finite m e) ↔ Unsigned body m e := by
  refine ⟨fun h => ?_, Unsigned.readMagnitude⟩
  unfold readMagnitude at h
  dsimp only at h
  split at h
  · cases h
  · split at h
    · cases h
    · obtain ⟨whole, rest, hspan, rfl, hwhole⟩ := span_eq body
      rw [hspan] at h
      dsimp only at h
      cases hsplit : splitFraction rest with
      | mk fraction tail =>
        obtain ⟨point, rfl, hpoint⟩ := splitFraction_eq hsplit
        rw [hsplit] at h
        dsimp only at h
        split at h
        · cases h
        next hsome =>
          obtain ⟨e', he', hfinite⟩ := Option.map_eq_some_iff.mp h
          cases hfinite
          refine .decimal hwhole hpoint ?_ (exponent_of_read he')
          simpa [Decidable.or_iff_not_imp_left] using hsome

theorem numeral_iff {token : List Char} {v : ℚ} :
    Numeral token v ↔ ∃ negative m e, read token = some ⟨negative, .finite m e⟩
      ∧ v = if negative then -(m * 10 ^ e : ℚ) else m * 10 ^ e := by
  unfold Numeral read
  generalize splitSign token = sign
  obtain ⟨negative, body⟩ := sign
  dsimp only
  constructor
  · rintro ⟨m, e, hbody, hv⟩
    refine ⟨negative, m, e, ?_, hv⟩
    rw [hbody.readMagnitude]
    rfl
  · rintro ⟨negative', m, e, hread, hv⟩
    obtain ⟨magnitude, hmagnitude, hsame⟩ := Option.map_eq_some_iff.mp hread
    cases hsame
    exact ⟨m, e, readMagnitude_iff.mp hmagnitude, hv⟩

/-! ### Rounding -/

theorem digitCount_bounds {n : ℕ} (hpos : 0 < n) :
    ∃ k, digitCount n = k + 1 ∧ 10 ^ k ≤ n ∧ n < 10 ^ (k + 1) := by
  have hcount : digitCount n = (Nat.toDigits 10 n).length := if_neg (Nat.ne_of_gt hpos)
  have hsome : 0 < (Nat.toDigits 10 n).length := Nat.length_toDigits_pos
  obtain ⟨k, hk⟩ : ∃ k, (Nat.toDigits 10 n).length = k + 1 := ⟨_, (Nat.sub_add_cancel hsome).symm⟩
  have hhigh := (Nat.length_toDigits_le_iff (n := n) (by decide : 1 < 10) k.succ_pos).mp hk.le
  refine ⟨k, hcount.trans hk, ?_, hhigh⟩
  rcases Nat.eq_zero_or_pos k with rfl | hkpos
  · exact hpos
  · by_contra hless
    have hshort := (Nat.length_toDigits_le_iff (n := n) (by decide : 1 < 10) hkpos).mpr
      (Nat.lt_of_not_le hless)
    omega

theorem digitCount_le_log2 {n : ℕ} (hpos : 0 < n) : digitCount n ≤ n.log2 + 1 := by
  obtain ⟨k, hk, hlow, -⟩ := digitCount_bounds hpos
  have hlog := ((Nat.log2_eq_iff (Nat.ne_of_gt hpos)).mp rfl).2
  have hless : 2 ^ k < 2 ^ (n.log2 + 1) :=
    (Nat.pow_le_pow_left (by decide) k).trans_lt (hlow.trans_lt hlog)
  have := (Nat.pow_lt_pow_iff_right (by decide : 1 < 2)).mp hless
  omega

theorem ten_zpow_pos (e : ℤ) : (0 : ℚ) < 10 ^ e := zpow_pos (by norm_num) e

theorem cast_pow_le {a b i j : ℕ} (h : a ^ i ≤ b ^ j) : (a : ℚ) ^ i ≤ b ^ j := by
  exact_mod_cast h

theorem cast_pow_lt {a b i j : ℕ} (h : a ^ i < b ^ j) : (a : ℚ) ^ i < b ^ j := by
  exact_mod_cast h

section

variable {m : ℕ} {e : ℤ} (hpos : 0 < m)

include hpos

theorem order_bounds : (10 : ℚ) ^ (digitCount m + e - 1) ≤ m * 10 ^ e
    ∧ (m : ℚ) * 10 ^ e < 10 ^ (digitCount m + e) := by
  obtain ⟨k, hk, hlow, hhigh⟩ := digitCount_bounds hpos
  have hlow' : (10 : ℚ) ^ (k : ℤ) ≤ m := by exact_mod_cast hlow
  have hhigh' : (m : ℚ) < 10 ^ ((k + 1 : ℕ) : ℤ) := by exact_mod_cast hhigh
  have hbefore : ((digitCount m : ℤ) + e - 1) = k + e := by omega
  constructor
  · rw [hbefore, zpow_add₀ (by norm_num)]
    exact mul_le_mul_of_nonneg_right hlow' (ten_zpow_pos e).le
  · rw [hk, zpow_add₀ (by norm_num)]
    exact mul_lt_mul_of_pos_right hhigh' (ten_zpow_pos e)

theorem nearest_of_low_order (horder : digitCount m + e < -400) :
    nearest ((m : ℚ) * 10 ^ e) = 0 := by
  have hpow : ((2 : ℕ) : ℚ) ^ 1075 < (10 : ℕ) ^ 401 := cast_pow_lt (by decide +kernel)
  have htiny : (10 : ℚ) ^ (-(401 : ℕ) : ℤ) < 2 ^ (-(1075 : ℕ) : ℤ) := by
    rw [zpow_neg, zpow_neg, zpow_natCast, zpow_natCast]
    exact inv_strictAnti₀ (pow_pos (by norm_num) _) hpow
  refine nearest_eq_zero (mul_nonneg m.cast_nonneg (ten_zpow_pos e).le) ?_
  calc (m : ℚ) * 10 ^ e < 10 ^ (digitCount m + e) := (order_bounds hpos).2
    _ ≤ 10 ^ (-(401 : ℕ) : ℤ) := zpow_le_zpow_right₀ (by norm_num) (by omega)
    _ < 2 ^ (-(1075 : ℕ) : ℤ) := htiny

theorem limit_le_of_high_order (horder : 400 < digitCount m + e) :
    (2 : ℚ) ^ 1024 ≤ m * 10 ^ e := by
  have hpow : ((2 : ℕ) : ℚ) ^ 1024 ≤ (10 : ℕ) ^ 400 := cast_pow_le (by decide +kernel)
  calc (2 : ℚ) ^ 1024 ≤ 10 ^ ((400 : ℕ) : ℤ) := by
        rw [zpow_natCast]
        exact hpow
    _ ≤ 10 ^ (digitCount m + e - 1) := zpow_le_zpow_right₀ (by norm_num) (by omega)
    _ ≤ m * 10 ^ e := (order_bounds hpos).1

end

def unsignedDouble (m : ℕ) (e : ℤ) : Float :=
  match inRange m e with
  | none => 0
  | some (.finite m e) => Float.ofScientific m (e < 0) e.natAbs
  | some _ => Float.ofBits 0x7ff0000000000000

theorem gives_zero {v : ℚ} (hv : nearest v = 0) : Gives 0 .positive v := by
  have hliteral : (0 : Float) = ⟨Float.Model.ofNat 0⟩ := by decide +kernel
  unfold Gives
  rw [hv, if_pos (by positivity), hliteral]
  exact_mod_cast holds_ofNat (n := 0) (by decide)

theorem gives_unsignedDouble (m : ℕ) (e : ℤ) :
    Gives (unsignedDouble m e) .positive (m * 10 ^ e) := by
  rcases Nat.eq_zero_or_pos m with rfl | hpos
  · exact gives_zero (by simp)
  · have hm : ¬ m = 0 := Nat.ne_of_gt hpos
    unfold unsignedDouble inRange
    dsimp only
    by_cases hsmall : (digitCount m : ℤ) + e < -400
    · rw [if_pos (.inr hsmall)]
      exact gives_zero (nearest_of_low_order hpos hsmall)
    · rw [if_neg (not_or.mpr ⟨hm, hsmall⟩)]
      by_cases hlarge : 400 < (digitCount m : ℤ) + e
      · have hlimit := limit_le_nearest (limit_le_of_high_order hpos hlarge)
        rw [if_pos hlarge]
        unfold Gives
        rw [if_neg (not_lt.mpr hlimit)]
        rfl
      · rw [if_neg hlarge]
        have hlog := digitCount_le_log2 hpos
        exact gives_ofScientific hpos (by omega) (by omega)

theorem gives_toDouble (negative : Bool) (m : ℕ) (e : ℤ) :
    Gives (toDouble ⟨negative, .finite m e⟩) (if negative then .negative else .positive)
      (m * 10 ^ e) := by
  have hunsigned := gives_unsignedDouble m e
  cases negative with
  | false => exact hunsigned
  | true => exact hunsigned.neg

end Tonewheel.Decimal
