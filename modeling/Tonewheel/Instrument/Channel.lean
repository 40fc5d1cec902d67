import Tonewheel.Event
import Tonewheel.Instrument.Bank
import Tonewheel.Instrument.Patch

/-!
# Channels (SPEC_FULL, section 4.4)

A channel binds a program number to a patch and keeps the channel's volume, place and pitch wheel.
Programs below 128 come from the bank, the next 128 are drum kits, and higher ones have no
channel.
-/

namespace Tonewheel

structure Channel where
  id : UInt8
  program : UInt32
  patch : Patch
  /-- The wheel position, in the middle at 0x2000. -/
  wheel : UInt16 := 0x2000
  /-- What the wheel multiplies frequencies by. -/
  bend : Float32 := 1
  /-- The volume that the caller controls. -/
  trim : Float32 := 0.5
  /-- From minus one, left, to one, right. -/
  pan : Float32 := 0

namespace Channel

def master : Float32 := 0.25

/-- Cents at full deflection of the wheel. -/
def wheelCents : Float32 := 200

/-- The channel of a program, in which `custom` takes the place of program zero. -/
def make (id : UInt8) (program : UInt32) (rate : UInt32) (notes : NoteTable)
    (custom : Option Definition) : Option Channel :=
  if program < 0x80 then do
    let definition ← Bank.resolve custom program.toUInt8
    let patch ← Patch.ofDefinition rate notes definition
    return { id, program, patch }
  else if program < 0x100 then
    some { id, program, patch := .drum ((program - 0x80) * 0x80).toUInt16 }
  else none

def mode (c : Channel) : Mode := c.patch.mode

/-- Volume and pan; other controllers change nothing. -/
def control (c : Channel) (key value : UInt8) : Channel :=
  if key = controlVolume then { c with trim := value.toFloat32 / 127 }
  else if key = controlPan then { c with pan := value.toFloat32 / 64 - 1 }
  else c

def bendsVoices (c : Channel) : Bool :=
  match c.patch with
  | .drum _ => false
  | .effect _ => false
  | _ => true

def bendOf (position : UInt16) : Float32 :=
  let cents := (position.toFloat32 - 0x2000) * wheelCents
  Float32.pow 2 (cents / (8192 * 1200))

/-- Moves the wheel. The result is the new bend for the channel's voices, if it changed and they
follow the wheel. -/
def setWheel (c : Channel) (position : UInt16) : Option Float32 × Channel :=
  if position = c.wheel then (none, c)
  else if c.bendsVoices then
    let bend := bendOf position
    (some bend, { c with wheel := position, bend })
  else (none, { c with wheel := position })

def drumTrim (c : Channel) (velocity : UInt8) : Float32 :=
  0.05 + c.trim * master * velocity.toFloat32 / 50

end Channel

end Tonewheel
