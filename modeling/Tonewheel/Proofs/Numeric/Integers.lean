import Tonewheel.Numeric.Integer

/-!
# Which integers are read

An integer numeral is at most one sign and decimal digits, or at most one sign, `0x` or `0X` and
hexadecimal digits (`Integer.Numeral`). These are read, each with its value, as long as the value
fits 63 bits; and nothing else is, but for a hexadecimal numeral with a second sign behind its `0x`
(`Integer.read_eq_some`).
-/

namespace Tonewheel.Integer

/-- Whether some characters are a numeral without a sign, and its value. -/
inductive Unsigned : List Char → Nat → Prop where
  | decimal {digits : List Char} (hsome : digits ≠ [])
      (hdigits : ∀ c ∈ digits, c.isDigit = true) : Unsigned digits (Decimal.digitsValue digits)
  | hex {x : Char} {digits : List Char} {n : Nat} (hx : x = 'x' ∨ x = 'X') (hsome : digits ≠ [])
      (hvalue : hexValueFrom 0 digits = some n) : Unsigned ('0' :: x :: digits) n

/-- Whether a token is an integer numeral, and its value. -/
def Numeral (token : List Char) (n : Int) : Prop :=
  ∃ m : Nat, Unsigned (Decimal.splitSign token).2 m
    ∧ n = if (Decimal.splitSign token).1 then -(m : Int) else m

/-- Whether what comes after the sign of a token is `0x` and another sign. -/
def signsHex : List Char → Bool
  | '0' :: x :: c :: _ => (x = 'x' || x = 'X') && (c = '+' || c = '-')
  | _ => false

/-- Whether a token has no second sign, and a magnitude of at most 63 bits if it is a numeral. -/
structure Plain (token : List Char) : Prop where
  oneSign : signsHex (Decimal.splitSign token).2 = false
  small : ∀ n, Numeral token n → n.natAbs < 0x8000000000000000

theorem not_digits {x : Char} {digits : List Char} (hx : x = 'x' ∨ x = 'X') :
    ¬ ∀ c ∈ '0' :: x :: digits, c.isDigit = true := by
  intro hdigits
  have hdigit := hdigits x (List.mem_cons_of_mem _ List.mem_cons_self)
  rcases hx with rfl | rfl <;> cases hdigit

theorem fits_natCast (n : Nat) : fits n = true ↔ n < 0x8000000000000000 := by
  rw [fits, Bool.and_eq_true, decide_eq_true_iff, decide_eq_true_iff]
  omega

theorem negate_eq {n : Int} (h : n.natAbs < 0x8000000000000000) : negate n = -n := by
  refine Int.bmod_eq_of_le_mul_two ?_ ?_ <;> omega

theorem eq_neg_of_negate {n v : Int} (hv : fits v = true) (hn : n.natAbs < 0x8000000000000000)
    (h : negate v = n) : v = -n := by
  rw [fits, Bool.and_eq_true, decide_eq_true_iff, decide_eq_true_iff] at hv
  unfold negate Int.bmod at h
  dsimp only at h
  split at h <;> omega

theorem fitting_eq_some {m : Nat} {n : Int} :
    (if fits m then some (m : Int) else none) = some n ↔ m < 0x8000000000000000 ∧ n = m := by
  rw [← fits_natCast]
  split
  next hfits =>
    rw [Option.some.injEq]
    exact ⟨fun h => ⟨hfits, h.symm⟩, fun h => h.2.symm⟩
  next hlarge =>
    constructor
    · intro h
      cases h
    · rintro ⟨hfits, -⟩
      exact absurd hfits hlarge

theorem readDigits_eq_some {digits : List Char} {n : Int} :
    readDigits digits = some n ↔ (digits ≠ [] ∧ ∀ c ∈ digits, c.isDigit = true)
      ∧ Decimal.digitsValue digits < 0x8000000000000000 ∧ n = Decimal.digitsValue digits := by
  rw [readDigits]
  by_cases hdigits : digits ≠ [] ∧ ∀ c ∈ digits, c.isDigit = true
  · have hread : (digits.isEmpty || !digits.all Char.isDigit) = false := by
      simpa using hdigits
    rw [hread, if_neg Bool.false_ne_true, fitting_eq_some]
    exact ⟨fun h => ⟨hdigits, h⟩, fun h => h.2⟩
  · have hread : (digits.isEmpty || !digits.all Char.isDigit) = true := by
      simpa [Decidable.or_iff_not_imp_left] using hdigits
    rw [hread]
    constructor
    · intro h
      cases h
    · rintro ⟨h, -⟩
      exact absurd h hdigits

theorem readHex_eq_some {digits : List Char} {n : Int}
    (hsign : ∀ c rest, digits = c :: rest → ¬ (c = '+' ∨ c = '-')) :
    readHex digits = some n ↔ ∃ m, digits ≠ [] ∧ hexValueFrom 0 digits = some m
      ∧ m < 0x8000000000000000 ∧ n = m := by
  have hsplit : Decimal.splitSign digits = (false, digits) := by
    unfold Decimal.splitSign
    split
    next rest => exact absurd (.inr rfl) (hsign _ rest rfl)
    next rest => exact absurd (.inl rfl) (hsign _ rest rfl)
    next => rfl
  rw [readHex, hsplit]
  dsimp only
  cases digits with
  | nil =>
    constructor
    · intro h
      cases h
    · rintro ⟨m, hsome, -⟩
      exact absurd rfl hsome
  | cons c rest =>
    rw [List.isEmpty_cons, if_neg Bool.false_ne_true, Option.bind_eq_some_iff]
    refine exists_congr fun m => ?_
    rw [if_neg Bool.false_ne_true, fitting_eq_some]
    exact ⟨fun h => ⟨List.cons_ne_nil c rest, h⟩, fun h => h.2⟩

theorem readUnsigned_eq_some {body : List Char} {n : Int} (hsign : signsHex body = false) :
    readUnsigned body = some n ↔ ∃ m, Unsigned body m ∧ m < 0x8000000000000000 ∧ n = m := by
  have hhex {x : Char} {digits : List Char} (hx : x = 'x' ∨ x = 'X')
      (hsign : signsHex ('0' :: x :: digits) = false) :
      readHex digits = some n
        ↔ ∃ m, Unsigned ('0' :: x :: digits) m ∧ m < 0x8000000000000000 ∧ n = m := by
    have hplain : ∀ c rest, digits = c :: rest → ¬ (c = '+' ∨ c = '-') := by
      rintro c rest rfl hc
      have hone : ¬ c = '+' ∧ ¬ c = '-' := by simpa [signsHex, hx] using hsign
      exact hc.elim hone.1 hone.2
    rw [readHex_eq_some hplain]
    refine exists_congr fun m => ⟨?_, ?_⟩
    · rintro ⟨hsome, hvalue, h⟩
      exact ⟨.hex hx hsome hvalue, h⟩
    · rintro ⟨hbody, h⟩
      cases hbody with
      | hex _ hsome hvalue => exact ⟨hsome, hvalue, h⟩
      | decimal _ hdigits => exact absurd hdigits (not_digits hx)
  unfold readUnsigned
  split
  next digits => exact hhex (.inl rfl) hsign
  next digits => exact hhex (.inr rfl) hsign
  next hlower hupper =>
    rw [readDigits_eq_some]
    constructor
    · rintro ⟨⟨hsome, hdigits⟩, h⟩
      exact ⟨_, .decimal hsome hdigits, h⟩
    · rintro ⟨m, hbody, h⟩
      cases hbody with
      | decimal hsome hdigits => exact ⟨⟨hsome, hdigits⟩, h⟩
      | @hex x digits _ hx _ _ =>
        rcases hx with rfl | rfl
        · exact absurd rfl (hlower digits)
        · exact absurd rfl (hupper digits)

theorem read_eq_some {token : List Char} {n : Int}
    (hsign : signsHex (Decimal.splitSign token).2 = false) :
    read token = some n ↔ Numeral token n ∧ n.natAbs < 0x8000000000000000 := by
  rw [read]
  dsimp only
  rw [Option.map_eq_some_iff]
  constructor
  · rintro ⟨v, hread, rfl⟩
    obtain ⟨m, hbody, hsmall, rfl⟩ := (readUnsigned_eq_some hsign).mp hread
    rw [negate_eq (by omega)]
    refine ⟨⟨m, hbody, rfl⟩, ?_⟩
    split <;> omega
  · rintro ⟨⟨m, hbody, rfl⟩, hsmall⟩
    have hm : m < 0x8000000000000000 := by split at hsmall <;> omega
    refine ⟨m, (readUnsigned_eq_some hsign).mpr ⟨m, hbody, hm, rfl⟩, ?_⟩
    rw [negate_eq (by omega)]

theorem Plain.read_eq_some {token : List Char} (h : Plain token) (n : Int) :
    read token = some n ↔ Numeral token n :=
  (Integer.read_eq_some h.oneSign).trans ⟨fun hn => hn.1, fun hn => ⟨hn, h.small n hn⟩⟩

theorem Unsigned.unique {body : List Char} {m m' : Nat} (h : Unsigned body m)
    (h' : Unsigned body m') : m = m' := by
  cases h with
  | decimal _ hdigits =>
    cases h' with
    | decimal => rfl
    | hex hx => exact absurd hdigits (not_digits hx)
  | hex hx _ hvalue =>
    cases h' with
    | decimal _ hdigits => exact absurd hdigits (not_digits hx)
    | hex _ _ hvalue' => exact Option.some.inj (hvalue.symm.trans hvalue')

theorem plain_of_read {token : List Char} {n : Int}
    (hsign : signsHex (Decimal.splitSign token).2 = false) (hread : read token = some n) :
    Plain token where
  oneSign := hsign
  small n' hn' := by
    obtain ⟨⟨m, hm, rfl⟩, hsmall⟩ := (Integer.read_eq_some hsign).mp hread
    obtain ⟨m', hm', rfl⟩ := hn'
    rwa [hm'.unique hm]

end Tonewheel.Integer
