/-!
# Events (SPEC_FULL, sections 4.5 and 12)

Songs and callers control a synthesizer through one kind of event: a channel, an operation code, two
operand bytes, and a duration in frames that only a bounded note uses. `Event.action` says what an
event stands for.
-/

namespace Tonewheel

structure Event where
  channel : UInt8
  opcode : UInt8
  a : UInt8
  b : UInt8
  duration : Int
  deriving Repr, DecidableEq

inductive Action where
  | noteOff (note : UInt8)
  | noteOn (note velocity : UInt8)
  /-- A note that ends by itself after a number of frames. -/
  | noteOnce (note velocity : UInt8) (duration : Int)
  | control (key value : UInt8)
  | program (number : UInt8)
  | wheel (position : UInt16)
  | reset
  | nothing
  deriving Repr, DecidableEq

namespace Event

/-! ### Operation codes -/

def opNoteOff : UInt8 := 0x80
def opNoteOn : UInt8 := 0x90
def opNoteOnce : UInt8 := 0x98
def opControl : UInt8 := 0xb0
def opProgram : UInt8 := 0xc0
def opWheel : UInt8 := 0xe0
def opReset : UInt8 := 0xff

/-- A 14-bit position from its low and high seven bits. -/
def wheelPosition (low high : UInt8) : UInt16 := low.toUInt16 ||| (high.toUInt16 <<< 7)

/-- What an event asks for; unknown operation codes ask for nothing. -/
def action (e : Event) : Action :=
  if e.opcode = opNoteOff then .noteOff e.a
  else if e.opcode = opNoteOn then .noteOn e.a e.b
  else if e.opcode = opNoteOnce then .noteOnce e.a e.b e.duration
  else if e.opcode = opControl then .control e.a e.b
  else if e.opcode = opProgram then .program e.a
  else if e.opcode = opWheel then .wheel (wheelPosition e.a e.b)
  else if e.opcode = opReset then .reset
  else .nothing

def noteOnce (channel note velocity : UInt8) (duration : Int) : Event :=
  { channel, opcode := opNoteOnce, a := note, b := velocity, duration }

def wheel (channel : UInt8) (position : UInt16) : Event :=
  { channel
    opcode := opWheel
    a := (position &&& 0x7f).toUInt8
    b := ((position &&& 0x3fff) >>> 7).toUInt8
    duration := 0 }

end Event

/-! ### Controllers -/

def controlBankHigh : UInt8 := 0x00

def controlVolume : UInt8 := 0x07

def controlPan : UInt8 := 0x0a

def controlBankLow : UInt8 := 0x20

end Tonewheel
