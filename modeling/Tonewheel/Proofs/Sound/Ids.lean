import Tonewheel.Proofs.Sound.Fields
import Tonewheel.Sound.Bank

/-!
# Which ids sounds have (SPEC_FULL, section 4.1)

A sound is called by an integer numeral from 1 to 65535, or by an identifier. These are the ids that
are read, each for what it is, but for one more kind: hexadecimal digits may have a sign of their own
behind the `0x`, and `-0x-5` is read as 5 (`Integer.Resigned`, `ids_read`).
-/

namespace Tonewheel

namespace Integer

/-! ### A second sign -/

/-- Whether a token is at most one sign, `0x` or `0X`, one more sign and hexadecimal digits, and its
value. -/
def Resigned (token : List Char) (n : Int) : Prop :=
  ∃ (x c : Char) (digits : List Char) (m : Nat),
    (Decimal.splitSign token).2 = '0' :: x :: c :: digits
      ∧ (x = 'x' ∨ x = 'X') ∧ (c = '+' ∨ c = '-')
      ∧ digits ≠ [] ∧ hexValueFrom 0 digits = some m
      ∧ n = if (Decimal.splitSign token).1 = decide (c = '-') then (m : Int) else -m

theorem signsHex_of_resigned {token : List Char} {n : Int} (h : Resigned token n) :
    signsHex (Decimal.splitSign token).2 = true := by
  obtain ⟨x, c, digits, m, hbody, hx, hc, -⟩ := h
  rw [hbody]
  simp [signsHex, hx, hc]

theorem exists_of_signsHex {body : List Char} (h : signsHex body = true) :
    ∃ x c digits, body = '0' :: x :: c :: digits ∧ (x = 'x' ∨ x = 'X') ∧ (c = '+' ∨ c = '-') := by
  unfold signsHex at h
  split at h
  next x c digits =>
    refine ⟨x, c, digits, rfl, ?_⟩
    simpa using h
  next => cases h

theorem readUnsigned_hex {x : Char} (hx : x = 'x' ∨ x = 'X') (digits : List Char) :
    readUnsigned ('0' :: x :: digits) = readHex digits := by
  rcases hx with rfl | rfl <;> rfl

theorem fits_of_natAbs {n : Int} (h : n.natAbs < 0x8000000000000000) : fits n = true := by
  rw [fits, Bool.and_eq_true, decide_eq_true_iff, decide_eq_true_iff]
  omega

theorem readHex_signed {c : Char} (hc : c = '+' ∨ c = '-') (digits : List Char) {v : Int}
    (hsmall : v.natAbs < 0x8000000000000000) :
    readHex (c :: digits) = some v
      ↔ ∃ m, digits ≠ [] ∧ hexValueFrom 0 digits = some m
        ∧ v = if c = '-' then -(m : Int) else m := by
  have hread : readHex (c :: digits)
      = if digits.isEmpty then none
        else (hexValueFrom 0 digits).bind fun m =>
          let value : Int := if c = '-' then -(m : Int) else m
          if fits value then some value else none := by
    rcases hc with rfl | rfl <;> rfl
  rw [hread]
  cases digits with
  | nil => simp
  | cons d ds =>
    rw [List.isEmpty_cons, if_neg Bool.false_ne_true, Option.bind_eq_some_iff]
    refine exists_congr fun m => ?_
    dsimp only
    generalize (if c = '-' then -(m : Int) else m) = value
    constructor
    · rintro ⟨hm, hvalue⟩
      split at hvalue
      next => exact ⟨List.cons_ne_nil d ds, hm, (Option.some.inj hvalue).symm⟩
      next => cases hvalue
    · rintro ⟨-, hm, rfl⟩
      exact ⟨hm, if_pos (fits_of_natAbs hsmall)⟩

theorem fits_of_readHex {digits : List Char} {v : Int} (h : readHex digits = some v) :
    fits v = true := by
  rw [readHex] at h
  dsimp only at h
  split at h
  next => cases h
  next =>
    obtain ⟨m, -, hvalue⟩ := Option.bind_eq_some_iff.mp h
    obtain ⟨hfits, hsame⟩ := (Option.ite_none_right_eq_some).mp hvalue
    exact Option.some.inj hsame ▸ hfits

theorem read_signed {token : List Char} {n : Int}
    (hsigns : signsHex (Decimal.splitSign token).2 = true) (hsmall : n.natAbs < 0x8000000000000000) :
    read token = some n ↔ Resigned token n := by
  obtain ⟨x, c, digits, hbody, hx, hc⟩ := exists_of_signsHex hsigns
  have hread : read token = some n ↔ readHex (c :: digits)
      = some (if (Decimal.splitSign token).1 then -n else n) := by
    rw [read]
    dsimp only
    rw [hbody, readUnsigned_hex hx, Option.map_eq_some_iff]
    cases (Decimal.splitSign token).1 with
    | false => simp
    | true =>
      simp only [if_true]
      constructor
      · rintro ⟨v, hv, hneg⟩
        rw [hv, eq_neg_of_negate (fits_of_readHex hv) hsmall hneg]
      · intro hv
        refine ⟨-n, hv, ?_⟩
        rw [negate_eq (by omega), Int.neg_neg]
  rw [hread, readHex_signed hc digits (by split <;> omega)]
  constructor
  · rintro ⟨m, hsome, hm, hn⟩
    refine ⟨x, c, digits, m, hbody, hx, hc, hsome, hm, ?_⟩
    rcases hc with rfl | rfl <;> cases hneg : (Decimal.splitSign token).1 <;>
      simp [hneg] at hn ⊢ <;> omega
  · rintro ⟨x', c', digits', m, hbody', -, -, hsome, hm, hn⟩
    rw [hbody] at hbody'
    cases hbody'
    refine ⟨m, hsome, hm, ?_⟩
    rcases hc with rfl | rfl <;> cases hneg : (Decimal.splitSign token).1 <;>
      simp [hneg] at hn ⊢ <;> omega

/-- Of at most 63 bits, the integers that are read are the numerals and those with a second sign. -/
theorem read_iff {token : List Char} {n : Int} (hsmall : n.natAbs < 0x8000000000000000) :
    read token = some n ↔ Numeral token n ∨ Resigned token n := by
  cases hsigns : signsHex (Decimal.splitSign token).2 with
  | false =>
    rw [read_eq_some hsigns]
    constructor
    · intro h
      exact .inl h.1
    · rintro (h | h)
      · exact ⟨h, hsmall⟩
      · rw [signsHex_of_resigned h] at hsigns
        cases hsigns
  | true =>
    rw [read_signed hsigns hsmall]
    constructor
    · intro h
      exact .inr h
    · rintro (h | h)
      · rw [Sound.oneSign_of_numeral h] at hsigns
        cases hsigns
      · exact h

end Integer

namespace Sound.SoundId

/-! ### Identifiers -/

/-- Whether some characters are a letter or an underscore, and then letters, digits and
underscores. -/
def Identifier (id : List Char) : Prop :=
  ∃ first rest, id = first :: rest ∧ (first.isAlpha = true ∨ first = '_')
    ∧ ∀ c ∈ rest, c.isAlphanum = true ∨ c = '_'

theorem isIdentifier_iff (id : List Char) : isIdentifier id = true ↔ Identifier id := by
  cases id with
  | nil => simp [isIdentifier, Identifier]
  | cons first rest => simp [isIdentifier, Identifier, isInitial, isInner]

theorem not_isDigit_of_initial {c : Char} (h : c.isAlpha = true ∨ c = '_') : c.isDigit = false := by
  rcases h with h | rfl
  · have halpha : c.isAlpha = (decide ('A'.val ≤ c.val ∧ c.val ≤ 'Z'.val)
        || (decide ('a'.val ≤ c.val) && decide (c.val ≤ 'z'.val))) := rfl
    have hdigit : c.isDigit = (decide ('0'.val ≤ c.val) && decide (c.val ≤ '9'.val)) := rfl
    have hnine : '9'.val.toNat = 57 := rfl
    have hupper : 'A'.val.toNat = 65 := rfl
    have hlower : 'a'.val.toNat = 97 := rfl
    rw [halpha] at h
    rw [hdigit]
    simp only [Bool.or_eq_true, Bool.and_eq_true, decide_eq_true_iff, Bool.and_eq_false_iff,
      decide_eq_false_iff_not, UInt32.le_iff_toNat_le] at h ⊢
    omega
  · rfl

theorem Identifier.read_eq_none {id : List Char} (h : Identifier id) : Integer.read id = none := by
  obtain ⟨first, rest, rfl, hfirst, -⟩ := h
  have hplus : first ≠ '+' := by
    rintro rfl
    revert hfirst
    decide
  have hminus : first ≠ '-' := by
    rintro rfl
    revert hfirst
    decide
  have hdigit := not_isDigit_of_initial hfirst
  have hzero : first ≠ '0' := by
    rintro rfl
    cases hdigit
  have hsplit : Decimal.splitSign (first :: rest) = (false, first :: rest) := by
    simp [Decimal.splitSign, hplus, hminus]
  have hunsigned : Integer.readUnsigned (first :: rest) = none := by
    simp [Integer.readUnsigned, hzero, Integer.readDigits, hdigit]
  rw [Integer.read, hsplit]
  simp [hunsigned]

/-! ### Ids -/

/-- Whether some characters are a numeral of a number that a sound may have. -/
def Numbers (id : List Char) (n : UInt16) : Prop := 1 ≤ n.toNat ∧ Integer.Numeral id n.toNat

/-- Whether some characters are read as such a number for a second sign. -/
def Misnumbers (id : List Char) (n : UInt16) : Prop := 1 ≤ n.toNat ∧ Integer.Resigned id n.toNat

theorem read_eq_number (id : List Char) (n : UInt16) :
    read id = some (.number n) ↔ 1 ≤ n.toNat ∧ Integer.read id = some (n.toNat : Int) := by
  have hn := n.toNat_lt
  unfold read
  cases hread : Integer.read id with
  | none => by_cases hname : isIdentifier id = true <;> simp [hname]
  | some v =>
    by_cases hrange : 1 ≤ v ∧ v ≤ 0xffff
    · have hvalue : v.toNat.toUInt16.toNat = v.toNat := Nat.mod_eq_of_lt (by omega)
      simp only [if_pos hrange, Option.some.injEq, number.injEq, ← UInt16.toNat_inj, hvalue]
      omega
    · have hout : ¬(1 ≤ n.toNat ∧ v = n.toNat) := by omega
      by_cases hname : isIdentifier id = true <;> simp [hrange, hname, hout]

theorem number_iff (id : List Char) (n : UInt16) :
    read id = some (.number n) ↔ Numbers id n ∨ Misnumbers id n := by
  have hn := n.toNat_lt
  have hsmall : ((n.toNat : Int)).natAbs < 0x8000000000000000 := by omega
  rw [read_eq_number, Integer.read_iff hsmall, and_or_left]
  rfl

theorem read_of_identifier {id : List Char} (h : Identifier id) :
    read id = some (.name (String.ofList id)) := by
  unfold read
  rw [h.read_eq_none, (isIdentifier_iff id).mpr h]
  rfl

theorem identifier_of_name {id : List Char} {name : String} (h : read id = some (.name name)) :
    Identifier id := by
  rw [← isIdentifier_iff]
  by_contra hname
  unfold read at h
  simp only [hname] at h
  split at h
  · split at h <;> cases h
  · cases h

theorem read_ne_anonymous (id : List Char) : read id ≠ some .anonymous := by
  intro h
  unfold read at h
  by_cases hname : isIdentifier id = true
  all_goals
    simp only [hname] at h
    split at h
    · split at h <;> cases h
    · cases h

/-- An id is read as a number if it is a numeral from 1 to 65535 or, against the rule, one with a
second sign; it is read as a name if it is an identifier; and nothing else is read. -/
theorem ids_read (id : String) :
    (∀ n, read id.toList = some (.number n) ↔ Numbers id.toList n ∨ Misnumbers id.toList n)
      ∧ (∀ name, read id.toList = some (.name name)
        ↔ name = id ∧ (∀ n, ¬Numbers id.toList n) ∧ Identifier id.toList)
      ∧ (read id.toList = none ↔ (∀ n, ¬Numbers id.toList n) ∧ (∀ n, ¬Misnumbers id.toList n)
        ∧ ¬Identifier id.toList)
      ∧ read id.toList ≠ some .anonymous := by
  refine ⟨number_iff id.toList, fun name => ⟨fun h => ?_, ?_⟩, ⟨fun h => ?_, ?_⟩,
    read_ne_anonymous id.toList⟩
  · have hid := identifier_of_name h
    have hname := read_of_identifier hid
    rw [h, String.ofList_toList] at hname
    refine ⟨by simpa using hname, fun n hn => ?_, hid⟩
    have hnumber := (number_iff id.toList n).mpr (.inl hn)
    rw [h] at hnumber
    cases hnumber
  · rintro ⟨rfl, -, hid⟩
    rw [read_of_identifier hid, String.ofList_toList]
  · refine ⟨fun n hn => ?_, fun n hn => ?_, fun hid => ?_⟩
    · rw [(number_iff id.toList n).mpr (.inl hn)] at h
      cases h
    · rw [(number_iff id.toList n).mpr (.inr hn)] at h
      cases h
    · rw [read_of_identifier hid] at h
      cases h
  · rintro ⟨hnumber, hmisnumber, hid⟩
    cases hread : read id.toList with
    | none => rfl
    | some found =>
      cases found with
      | number n => exact (((number_iff id.toList n).mp hread).elim (hnumber n) (hmisnumber n)).elim
      | name name => exact absurd (identifier_of_name hread) hid
      | anonymous => exact absurd hread (read_ne_anonymous id.toList)

/-- A text with two signs is no numeral, but it may be read as a number. -/
theorem second_sign_read :
    ¬ ∀ (id : String) (n : UInt16), read id.toList = some (.number n) ↔ Numbers id.toList n := by
  intro hall
  have hnumbers := (hall "-0x-5" 5).mp (by decide)
  have hone := oneSign_of_numeral hnumbers.2
  exact absurd hone (by decide)

end Sound.SoundId

end Tonewheel
