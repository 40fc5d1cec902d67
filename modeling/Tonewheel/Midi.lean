import Tonewheel.Bytes
import Tonewheel.Event

/-!
# MIDI channel messages (SPEC_FULL, section 12)

`Midi.parse?` reads one complete message; running status, system exclusive and the other system
messages are not read. `Midi.toEvent` is the event it stands for.
-/

namespace Tonewheel

inductive Midi where
  | noteOn (channel key velocity : UInt8)
  | noteOff (channel key velocity : UInt8)
  | controlChange (channel controller value : UInt8)
  | pitchBend (channel : UInt8) (position : UInt16)
  | programChange (channel program : UInt8)
  | reset
  deriving Repr, DecidableEq

namespace Midi

def dataByte (data : Bytes) (i : Nat) : Option UInt8 :=
  match data[i]? with
  | some b => if b < 0x80 then some b else none
  | none => none

/-- The message of a status byte and its data. A note on with velocity zero is a note off. -/
def ofStatus? (status : UInt8) (data : Bytes) : Option Midi :=
  let channel := status &&& 0x0f
  if status = 0xff then some .reset
  else
    match (status >>> 4).toNat with
    | 0x8 => do return .noteOff channel (← dataByte data 0) (← dataByte data 1)
    | 0x9 => do
      let key ← dataByte data 0
      let velocity ← dataByte data 1
      return if velocity = 0 then .noteOff channel key 0x40 else .noteOn channel key velocity
    | 0xb => do return .controlChange channel (← dataByte data 0) (← dataByte data 1)
    | 0xc => do return .programChange channel (← dataByte data 0)
    | 0xe => do
      let low ← dataByte data 0
      let high ← dataByte data 1
      return .pitchBend channel (Event.wheelPosition low high)
    | _ => none

def parse? : Bytes → Option Midi
  | [] => none
  | status :: data => ofStatus? status data

def toEvent : Midi → Event
  | .noteOn channel key velocity => ⟨channel, Event.opNoteOn, key, velocity, 0⟩
  | .noteOff channel key velocity => ⟨channel, Event.opNoteOff, key, velocity, 0⟩
  | .controlChange channel controller value => ⟨channel, Event.opControl, controller, value, 0⟩
  | .pitchBend channel position => Event.wheel channel position
  | .programChange channel program => ⟨channel, Event.opProgram, program, 0, 0⟩
  | .reset => ⟨0xff, Event.opReset, 0, 0, 0⟩

end Midi

end Tonewheel
