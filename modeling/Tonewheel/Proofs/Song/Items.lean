import Tonewheel.Proofs.Song.Stream

/-!
# What is read at an offset

The reader of items tests the high bits of a lead byte, the table of lengths goes by its value
(`lead_forms`). They agree: what is read at an offset is the end of the stream, a delay, an
event of the length in the table, one that data cuts off, or a lead byte that the table has no
length for (`Song.Found`, `found_item`).
-/

namespace Tonewheel.Song

/-! ### Lengths -/

/-- The forms of a lead byte with its high bit set, each with its length in the table. -/
theorem lead_forms {lead : UInt8} (h : 0x80 ≤ lead) :
    ((lead >>> 4).toNat = 8 ∧ itemLength lead = 3)
      ∨ ((lead >>> 4).toNat = 9 ∧ itemLength lead = 2)
      ∨ ((lead >>> 4).toNat = 10 ∧ lead &&& 0x08 = 0 ∧ itemLength lead = 2)
      ∨ ((lead >>> 4).toNat = 10 ∧ lead &&& 0x08 ≠ 0 ∧ itemLength lead = 0)
      ∨ (10 < (lead >>> 4).toNat ∧ itemLength lead = 0) := by
  revert h
  exact forall_small lead.toNat_lt (by decide +kernel)

theorem itemLength_of_low {lead : UInt8} (hpos : 0 < lead) (hlow : lead < 0x80) :
    itemLength lead = 1 := by
  rw [itemLength, if_neg (UInt8.pos_iff_ne_zero.mp hpos), if_pos hlow]

theorem two_le_itemLength {lead : UInt8} (h : 0x80 ≤ lead) (hlength : itemLength lead ≠ 0) :
    2 ≤ itemLength lead := by
  rcases lead_forms h with ⟨-, hform⟩ | ⟨-, hform⟩ | ⟨-, -, hform⟩ | ⟨-, -, hform⟩ | ⟨-, hform⟩ <;>
    omega

/-! ### Events -/

/-- An event that is built from its operands lacks nothing but these. -/
theorem operands_then {data : Array UInt8} {i length : Nat}
    {build : UInt8 × UInt8 → Except DecodeError (SongEvent × Nat)}
    (hbuild : ∀ a b, ∃ e, build (a, b) = .ok (e, length)) :
    (data.size ≤ i ∧ operands data i >>= build = .error (.truncated i))
      ∨ ∃ e, operands data i >>= build = .ok (e, length) := by
  unfold operands
  split
  next a _ => exact .inr (hbuild a _)
  next hnone => exact .inl ⟨Array.getElem?_eq_none_iff.mp hnone, rfl⟩

theorem event_of_length {lead : UInt8} (h : 0x80 ≤ lead) (hlength : itemLength lead ≠ 0)
    (data : Array UInt8) (i : Nat) :
    (data.size ≤ i ∧ event data lead i = .error (.truncated i))
      ∨ ∃ e, event data lead i = .ok (e, itemLength lead - 1) := by
  rcases lead_forms h with ⟨hkind, hform⟩ | ⟨hkind, hform⟩ | ⟨hkind, hbit, hform⟩
    | ⟨-, -, hform⟩ | ⟨-, hform⟩
  · rw [event, hkind, hform]
    exact operands_then fun a b => ⟨_, rfl⟩
  · rw [event, hkind, hform]
    exact operands_then fun a b => ⟨_, rfl⟩
  · rw [event, hkind, hform]
    dsimp only
    rw [if_pos hbit]
    exact operands_then fun a b => ⟨_, rfl⟩
  · exact absurd hform hlength
  · exact absurd hform hlength

theorem event_reserved {lead : UInt8} (h : 0x80 ≤ lead) (hlength : itemLength lead = 0)
    (data : Array UInt8) (i : Nat) : event data lead i = .error (.reservedEvent lead) := by
  rcases lead_forms h with ⟨-, hform⟩ | ⟨-, hform⟩ | ⟨-, -, hform⟩ | ⟨hkind, hbit, -⟩ | ⟨hkind, -⟩
  · omega
  · omega
  · omega
  · rw [event, hkind]
    exact if_neg hbit
  · unfold event
    split
    next hlong => omega
    next hshort => omega
    next hwheel => omega
    next => rfl

/-! ### Items -/

inductive Found (data : Array UInt8) (i : Nat) :
    Except DecodeError (Option (SongItem × Nat)) → Prop where
  | ended (hbyte : ∀ lead, data[i]? = some lead → lead = 0) : Found data i (.ok none)
  | delay {ms : UInt8} (hbyte : data[i]? = some ms) (hpos : 0 < ms) (hlow : ms < 0x80) :
      Found data i (.ok (some (.delay ms, i + 1)))
  | event {lead : UInt8} {e : SongEvent} (hbyte : data[i]? = some lead) (hhigh : 0x80 ≤ lead)
      (hlength : 2 ≤ itemLength lead) (hfits : i + itemLength lead ≤ data.size) :
      Found data i (.ok (some (.event e, i + itemLength lead)))
  | truncated {lead : UInt8} (hbyte : data[i]? = some lead) (hhigh : 0x80 ≤ lead)
      (hlength : 2 ≤ itemLength lead) (hcut : data.size < i + itemLength lead) :
      Found data i (.error (.truncated (i + 1)))
  | reserved {lead : UInt8} (hbyte : data[i]? = some lead) (hhigh : 0x80 ≤ lead)
      (hlength : itemLength lead = 0) : Found data i (.error (.reservedEvent lead))

theorem found_item (data : Array UInt8) (i : Nat) : Found data i (item data i) := by
  unfold item
  split
  next hnone => exact .ended fun lead hlead => by rw [hnone] at hlead; cases hlead
  next lead hbyte =>
    split
    next hzero =>
      refine .ended fun other hother => ?_
      rw [hbyte] at hother
      cases hother
      exact hzero
    next hzero =>
      split
      next hlow => exact .delay hbyte (UInt8.pos_iff_ne_zero.mpr hzero) hlow
      next hlow =>
        have hhigh : 0x80 ≤ lead := UInt8.not_lt.mp hlow
        by_cases hnone : itemLength lead = 0
        · rw [event_reserved hhigh hnone]
          exact .reserved hbyte hhigh hnone
        · have hlength := two_le_itemLength hhigh hnone
          rcases event_of_length hhigh hnone data (i + 1) with ⟨hsize, hevent⟩ | ⟨e, hevent⟩
          · rw [hevent]
            exact .truncated hbyte hhigh hlength (by omega)
          · have hnext : i + 1 + (itemLength lead - 1) = i + itemLength lead := by omega
            rw [hevent, ok_bind]
            dsimp only
            rw [hnext]
            split
            next hcut => exact .truncated hbyte hhigh hlength hcut
            next hfits => exact .event hbyte hhigh hlength (Nat.not_lt.mp hfits)

section

variable {data : Array UInt8} {i next : Nat}

theorem lt_size_of_byte {b : UInt8} (h : data[i]? = some b) : i < data.size :=
  (Array.getElem?_eq_some_iff.mp h).1

theorem next_le_size {x : SongItem} (h : item data i = .ok (some (x, next))) :
    next ≤ data.size := by
  have hfound := found_item data i
  rw [h] at hfound
  cases hfound with
  | delay hbyte => exact lt_size_of_byte hbyte
  | event _ _ _ hfits => exact hfits

theorem next_of_event {e : SongEvent} (h : item data i = .ok (some (.event e, next))) :
    i + 2 ≤ next := by
  have hfound := found_item data i
  rw [h] at hfound
  cases hfound with
  | event _ _ hlength => exact Nat.add_le_add_left hlength i

theorem next_of_delay {ms : UInt8} (h : item data i = .ok (some (.delay ms, next))) :
    next = i + 1 ∧ data[i]? = some ms := by
  have hfound := found_item data i
  rw [h] at hfound
  cases hfound with
  | delay hbyte => exact ⟨rfl, hbyte⟩

/-- The items from an offset lead to the end of the stream or to a wrong event. -/
theorem exists_stream (data : Array UInt8) (i : Nat) :
    ∃ items last, Stream data i items last
      ∧ (item data last = .ok none ∨ ∃ e, item data last = .error e) := by
  induction hleft : data.size - i using Nat.strongRecOn generalizing i with
  | ind left ih =>
    match hitem : item data i with
    | .error e => exact ⟨[], i, .nil i, .inr ⟨e, hitem⟩⟩
    | .ok none => exact ⟨[], i, .nil i, .inl hitem⟩
    | .ok (some (x, next)) =>
      have hlt := Player.lt_of_item hitem
      obtain ⟨items, last, hstream, hlast⟩ := ih (data.size - next) (by omega) next rfl
      exact ⟨x :: items, last, .cons hitem hstream, hlast⟩

theorem lt_size_of_error {e : DecodeError} (h : item data i = .error e) : i < data.size := by
  have hfound := found_item data i
  rw [h] at hfound
  cases hfound with
  | truncated hbyte => exact lt_size_of_byte hbyte
  | reserved hbyte => exact lt_size_of_byte hbyte

end

end Tonewheel.Song
