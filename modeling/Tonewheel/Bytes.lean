/-!
# Binary data (SPEC_FULL, sections 6 and 7)

Songs and sound programs are byte strings. `Cursor` reads big-endian fields from the front of one
and knows its offset; `DecodeError` says why data is refused.
-/

namespace Tonewheel

abbrev Bytes := List UInt8

inductive HeaderField where
  | tempo
  | start
  | loop
  deriving Repr, DecidableEq

def HeaderField.name : HeaderField → String
  | .tempo => "tempo"
  | .start => "start"
  | .loop => "loop"

inductive DecodeError where
  | signature
  | truncated (offset : Nat)
  | header (field : HeaderField)
  | unknownFeatures (bits : UInt8)
  | unknownShape (code : UInt8)
  | unknownOpcode (code : UInt8)
  | reservedEvent (lead : UInt8)
  | rate (rate : UInt32)
  deriving Repr, DecidableEq

def hexDigit (n : Nat) : Char := Nat.digitChar (n % 16)

def hexByte (b : UInt8) : String := String.ofList [hexDigit (b.toNat / 16), hexDigit b.toNat]

def DecodeError.message : DecodeError → String
  | .signature => "signature mismatch"
  | .truncated offset => s!"unexpected end of data at offset {offset}"
  | .header field => "invalid header field: " ++ field.name
  | .unknownFeatures bits => "unknown oscillator features 0x" ++ hexByte bits
  | .unknownShape code => s!"unknown wave shape {code.toNat}"
  | .unknownOpcode code => "unknown opcode 0x" ++ hexByte code
  | .reservedEvent lead => "reserved song event 0x" ++ hexByte lead
  | .rate r => s!"output rate {r.toNat} out of range 200..=200000"

/-- A 16-bit word from its two bytes, high first. -/
def wordOfBytes (high low : UInt8) : UInt16 := (high.toUInt16 <<< 8) ||| low.toUInt16

/-- The two bytes of a 16-bit word, high first. -/
def bytesOfWord (w : UInt16) : Bytes := [(w >>> 8).toUInt8, w.toUInt8]

/-- A place in binary data: what is left and how much was read. -/
structure Cursor where
  rest : Bytes
  offset : Nat
  deriving Repr

namespace Cursor

def ofBytes (bytes : Bytes) : Cursor := ⟨bytes, 0⟩

def byte (c : Cursor) : Except DecodeError (UInt8 × Cursor) :=
  match c.rest with
  | b :: rest => .ok (b, ⟨rest, c.offset + 1⟩)
  | [] => .error (.truncated c.offset)

def word (c : Cursor) : Except DecodeError (UInt16 × Cursor) :=
  match c.rest with
  | high :: low :: rest => .ok (wordOfBytes high low, ⟨rest, c.offset + 2⟩)
  | _ => .error (.truncated c.offset)

def take (c : Cursor) (n : Nat) : Except DecodeError (Bytes × Cursor) :=
  if n ≤ c.rest.length then .ok (c.rest.take n, ⟨c.rest.drop n, c.offset + n⟩)
  else .error (.truncated c.offset)

end Cursor

end Tonewheel
