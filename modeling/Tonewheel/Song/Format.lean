import Tonewheel.Bytes
import Tonewheel.Event

/-!
# Songs (SPEC_FULL, sections 3 and 6)

A song is a header of 42 bytes and a stream of events.

    0  4   signature
    4  2   tempo, ms per beat
    6  2   start offset, 42 or more
    8  2   loop offset, from the start offset to the end of data
    10 4*8 channel records: program, volume, pan, unused

    0xxxxxxx                    delay of x ms, end of song if x is zero
    1000vvvv cccnnnnn nnDDDDDD  note of D * 32 ms
    1001vvcc cnnnnnnn           note without a duration
    10100ccc wwwwwwww           wheel, the high 8 bits of 14
    anything else               reserved

`Song.ofBytes` checks a header, and `Song.item` reads the stream at an offset.
-/

namespace Tonewheel

abbrev songChannels : Nat := 8

structure ChannelRecord where
  program : UInt8 := 0
  /-- Zero for a channel that is not used. -/
  volume : UInt8 := 0
  /-- 0x80 in the middle. -/
  pan : UInt8 := 0
  deriving Repr, DecidableEq

abbrev ResourceId := UInt16 × UInt16

structure Song where
  data : Array UInt8
  /-- ms per beat. -/
  tempo : UInt16
  start : Nat
  loopStart : Nat
  /-- Where the song was loaded from, if it was stored. -/
  resource : Option ResourceId
  deriving Repr, DecidableEq

inductive SongEvent where
  /-- A note of some units of 32 ms, the units being none for a note without a duration. -/
  | note (channel key velocity units : UInt8)
  | wheel (channel : UInt8) (position : UInt16)
  deriving Repr, DecidableEq

inductive SongItem where
  /-- Nothing for some ms. -/
  | delay (ms : UInt8)
  | event (event : SongEvent)
  deriving Repr, DecidableEq

namespace Song

def signature : Bytes := [0xbe, 0xee, 0xee, 0x50]

def headerLength : Nat := 10 + 4 * songChannels

/-- The byte at an offset, zero past the end. -/
def byteAt (data : Array UInt8) (i : Nat) : UInt8 := data.getD i 0

def wordAt (data : Array UInt8) (i : Nat) : UInt16 :=
  wordOfBytes (byteAt data i) (byteAt data (i + 1))

def ofBytes (bytes : Bytes) (resource : Option ResourceId) : Except DecodeError Song :=
  let data := bytes.toArray
  let tempo := wordAt data 4
  let start := (wordAt data 6).toNat
  let loopStart := (wordAt data 8).toNat
  if data.size < headerLength then .error (.truncated data.size)
  else if bytes.take 4 ≠ signature then .error .signature
  else if tempo = 0 then .error (.header .tempo)
  else if start < headerLength then .error (.header .start)
  else if loopStart < start ∨ data.size ≤ loopStart then .error (.header .loop)
  else .ok { data, tempo, start, loopStart, resource }

def record (s : Song) (channel : Nat) : ChannelRecord :=
  let offset := 10 + 4 * channel
  { program := byteAt s.data offset
    volume := byteAt s.data (offset + 1)
    pan := byteAt s.data (offset + 2) }

def records (s : Song) : List ChannelRecord := (List.range songChannels).map s.record

/-! ### The stream -/

/-- Four bits of velocity, widened to seven by repeating the highest. -/
def widenFour (bits : UInt8) : UInt8 :=
  let v := bits <<< 3
  v ||| (v >>> 4)

/-- Two bits of velocity, already in place above four others, widened to seven by repetition. -/
def widenTwo (bits : UInt8) : UInt8 :=
  let v := bits <<< 2
  let v := v ||| (v >>> 2)
  v ||| (v >>> 4)

/-- The operands of the event whose lead byte is before `i`: the two bytes there, the second zero
when data ends before it. -/
def operands (data : Array UInt8) (i : Nat) : Except DecodeError (UInt8 × UInt8) :=
  match data[i]? with
  | some a => .ok (a, byteAt data (i + 1))
  | none => .error (.truncated i)

/-- The event of a lead byte of 0x80 and above whose operands start at `i`, with the count of its
operand bytes. -/
def event (data : Array UInt8) (lead : UInt8) (i : Nat) : Except DecodeError (SongEvent × Nat) :=
  match (lead >>> 4).toNat with
  | 0x8 => do
    let (a, b) ← operands data i
    return (.note (a >>> 5) (((a &&& 0x1f) <<< 2) ||| (b >>> 6)) (widenFour (lead &&& 0x0f))
      (b &&& 0x3f), 2)
  | 0x9 => do
    let (a, _) ← operands data i
    return (.note (((lead &&& 0x03) <<< 1) ||| (a >>> 7)) (a &&& 0x7f) (widenTwo (lead &&& 0x0c)) 0,
      1)
  | 0xa =>
    if lead &&& 0x08 = 0 then do
      let (v, _) ← operands data i
      return (.wheel (lead &&& 0x07) (v.toUInt16 <<< 6), 1)
    else .error (.reservedEvent lead)
  | _ => .error (.reservedEvent lead)

/-- The item at an offset and the offset after it, or `none` at the end of the stream. -/
def item (data : Array UInt8) (i : Nat) : Except DecodeError (Option (SongItem × Nat)) :=
  match data[i]? with
  | none => .ok none
  | some lead =>
    if lead = 0 then .ok none
    else if lead < 0x80 then .ok (some (.delay lead, i + 1))
    else do
      let (found, length) ← event data lead (i + 1)
      if data.size < i + 1 + length then .error (.truncated (i + 1))
      else return some (.event found, i + 1 + length)

/-! ### Length -/

/-- How many bytes an item takes by its lead byte; zero where the stream ends. -/
def itemLength (lead : UInt8) : Nat :=
  if lead = 0 then 0
  else if lead < 0x80 then 1
  else if lead < 0x90 then 3
  else if lead < 0xa8 then 2
  else 0

def leadDelay (lead : UInt8) : UInt8 := if lead < 0x80 then lead else 0

/-- The sum of the delays from an offset to the end of the stream, in 32 bits. -/
def delaysFrom (data : Array UInt8) (i : Nat) : UInt32 :=
  if h : i < data.size then
    if itemLength data[i] = 0 then 0
    else (leadDelay data[i]).toUInt32 + delaysFrom data (i + itemLength data[i])
  else 0
  termination_by data.size - i
  decreasing_by omega

def durationMs (s : Song) : UInt32 := delaysFrom s.data s.start

def durationBeats (s : Song) : Float := s.durationMs.toFloat / s.tempo.toUInt32.toFloat

end Song

end Tonewheel
