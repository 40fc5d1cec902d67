import Tonewheel.Bytes

/-!
# Reading back what was written

A reader takes a value from the front of the data and leaves the cursor behind it. `Reads` says this
of a reader and the bytes of a value, whatever comes after them; words, bytes and runs of bytes are
read back, and readers put together with `bind` read back what was written in a row.
-/

namespace Tonewheel

/-! ### Outcomes -/

theorem bind_eq_ok {ε α β : Type} {x : Except ε α} {f : α → Except ε β} {b : β} :
    x >>= f = .ok b ↔ ∃ a, x = .ok a ∧ f a = .ok b := by
  cases x with
  | error e => simp [bind, Except.bind]
  | ok a => simp [bind, Except.bind]

theorem bind_eq_error {ε α β : Type} {x : Except ε α} {f : α → Except ε β} {e : ε} :
    x >>= f = .error e ↔ x = .error e ∨ ∃ a, x = .ok a ∧ f a = .error e := by
  cases x with
  | error other => simp [bind, Except.bind]
  | ok a => simp [bind, Except.bind]

theorem ok_bind {ε α β : Type} (a : α) (f : α → Except ε β) :
    ((Except.ok a : Except ε α) >>= f) = f a := rfl

theorem map_eq_ok {ε α β : Type} {x : Except ε α} {f : α → β} {b : β} :
    x.map f = .ok b ↔ ∃ a, x = .ok a ∧ f a = b := by
  cases x with
  | error e => simp [Except.map]
  | ok a => simp [Except.map]

theorem map_eq_error {ε α β : Type} {x : Except ε α} {f : α → β} {e : ε} :
    x.map f = .error e ↔ x = .error e := by
  cases x with
  | error other => simp [Except.map]
  | ok a => simp [Except.map]

/-! ### Words -/

theorem wordOfBytes_bytesOfWord (w : UInt16) : wordOfBytes (w >>> 8).toUInt8 w.toUInt8 = w := by
  apply UInt16.toNat_inj.mp
  have hw := w.toNat_lt
  simp only [wordOfBytes, UInt16.toNat_or, UInt16.toNat_shiftLeft, UInt8.toNat_toUInt16,
    UInt16.toNat_toUInt8, UInt16.toNat_shiftRight, UInt16.reduceToNat, Nat.reduceMod]
  have hlow : w.toNat % 256 < 2 ^ 8 := Nat.mod_lt _ (by decide)
  have hhigh : w.toNat >>> 8 % 2 ^ 8 = w.toNat / 256 := by
    rw [Nat.shiftRight_eq_div_pow]
    omega
  have hshift : (w.toNat / 256) <<< 8 % 2 ^ 16 = (w.toNat / 256) <<< 8 := by
    rw [Nat.shiftLeft_eq]
    omega
  rw [hhigh, hshift, ← Nat.shiftLeft_add_eq_or_of_lt hlow, Nat.shiftLeft_eq]
  omega

/-! ### Readers -/

/-- Whether a reader takes exactly the bytes `written` from the front of any data and makes `a` of
them. -/
def Reads {α : Type} (reader : Cursor → Except DecodeError (α × Cursor)) (written : Bytes)
    (a : α) : Prop :=
  ∀ (rest : Bytes) (offset : Nat),
    reader ⟨written ++ rest, offset⟩ = .ok (a, ⟨rest, offset + written.length⟩)

theorem Reads.byte (b : UInt8) : Reads Cursor.byte [b] b := fun _ _ => rfl

theorem Reads.word (w : UInt16) : Reads Cursor.word (bytesOfWord w) w := by
  intro rest offset
  show Except.ok (wordOfBytes (w >>> 8).toUInt8 w.toUInt8, _) = _
  rw [wordOfBytes_bytesOfWord]
  rfl

theorem Reads.take (bytes : Bytes) : Reads (fun c => c.take bytes.length) bytes bytes := by
  intro rest offset
  have hfit : bytes.length ≤ (bytes ++ rest).length := by
    rw [List.length_append]
    omega
  simp only [Cursor.take]
  rw [if_pos hfit, List.take_left, List.drop_left]

theorem Reads.ok {α : Type} (a : α) : Reads (fun c => .ok (a, c)) [] a := fun _ _ => rfl

/-- One reader after another reads what was written one after the other. -/
theorem Reads.bind {α β : Type} {first : Cursor → Except DecodeError (α × Cursor)}
    {x y : Bytes} {a : α} {b : β} (hx : Reads first x a)
    (second : α → Cursor → Except DecodeError (β × Cursor)) (hy : Reads (second a) y b) :
    Reads (fun c => first c >>= fun r => second r.1 r.2) (x ++ y) b := by
  intro rest offset
  have hfirst := hx (y ++ rest) offset
  have hsecond := hy rest (offset + x.length)
  rw [List.append_assoc]
  show (first ⟨x ++ (y ++ rest), offset⟩ >>= fun r => second r.1 r.2) = _
  rw [hfirst]
  show second a ⟨y ++ rest, offset + x.length⟩ = _
  rw [hsecond, List.length_append, Nat.add_assoc]

theorem Reads.map {α β : Type} {reader : Cursor → Except DecodeError (α × Cursor)} {x : Bytes}
    {a : α} (hx : Reads reader x a) (f : α → β) :
    Reads (fun c => reader c >>= fun r => .ok (f r.1, r.2)) x (f a) := by
  intro rest offset
  show (reader ⟨x ++ rest, offset⟩ >>= fun r => .ok (f r.1, r.2)) = _
  rw [hx rest offset]
  rfl

theorem Reads.pair {α β γ : Type} {first : Cursor → Except DecodeError (α × Cursor)}
    {second : Cursor → Except DecodeError (β × Cursor)} {x y : Bytes} {a : α} {b : β}
    (hx : Reads first x a) (hy : Reads second y b) (f : α → β → γ) :
    Reads (fun c => first c >>= fun r => second r.2 >>= fun s => .ok (f r.1 s.1, s.2)) (x ++ y)
      (f a b) :=
  hx.bind (fun a c => second c >>= fun s => .ok (f a s.1, s.2)) (hy.map (f a))

end Tonewheel
