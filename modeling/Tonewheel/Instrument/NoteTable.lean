import Tonewheel.Signal.Wave

/-!
# Note tables (SPEC_FULL, section 4.4)

The frequencies of all notes at one rate, in cycles per frame and as steps of a 32-bit phase, and
the sine that the oscillators share.
-/

namespace Tonewheel

structure NoteTable where
  sine : Wave
  cycles : Vector Float32 128
  strides : Vector UInt32 128

namespace NoteTable

def cyclesAt (rate : UInt32) (note : UInt8) : Float32 := noteFrequency note / rate.toFloat32

/-- A number of cycles as a step of a 32-bit phase, which a frame's worth of cycles can exceed. -/
def strideOfCycles (cycles : Float32) : UInt32 := (Single.widen cycles * 4294967296).toUInt32

def ofRate (rate : UInt32) : NoteTable :=
  let cycles : Vector Float32 128 := Vector.ofFn fun i => cyclesAt rate i.val.toUInt8
  { sine := Wave.ofShape .sine
    cycles
    strides := cycles.map strideOfCycles }

def index (note : UInt8) : Fin 128 := ⟨note.toNat % 128, Nat.mod_lt _ (by decide)⟩

def cyclesOf (t : NoteTable) (note : UInt8) : Float32 := t.cycles[index note]

def strideOf (t : NoteTable) (note : UInt8) : UInt32 := t.strides[index note]

end NoteTable

end Tonewheel
