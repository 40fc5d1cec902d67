import Tonewheel.Bytes
import Tonewheel.Output
import Tonewheel.Signal.Block

/-!
# Breakpoint ramps (SPEC_FULL, section 4.2)

A ramp moves a value in straight lines from point to point and holds the last one. Unlike an
instrument's envelope it has any number of points and knows no velocity. Every point costs its
frames and one more, in which the value is set to the point exactly.
-/

namespace Tonewheel.Sound

structure Target where
  frames : Nat
  value : Float32

def holdFrames : Nat := 0x7fffffff

structure Ramp where
  value : Float32
  /-- What the value moves by per frame. -/
  slope : Float32 := 0
  /-- Frames left before the current target. -/
  left : Nat := holdFrames
  /-- The current target and those after it. -/
  targets : List Target := []

namespace Ramp

def hold (value : Float32) : Ramp := { value }

def toward (value : Float32) (targets : List Target) : Ramp :=
  match targets with
  | [] => hold value
  | t :: ts =>
    { value
      slope := (t.value - value) / t.frames.toUInt32.toFloat32
      left := t.frames
      targets := t :: ts }

def arrive (r : Ramp) : Ramp :=
  match r.targets with
  | [] => hold r.value
  | t :: ts => toward t.value ts

def step (r : Ramp) : Float32 × Ramp :=
  if 0 < r.left then
    let value := r.value + r.slope
    (value, { r with value, left := r.left - 1 })
  else
    let r := r.arrive
    (r.value, r)

/-! ### Reading -/

def framesOfMs (rate : UInt32) (ms : UInt16) : Nat :=
  max 1 (min holdFrames (ms.toFloat32 * Format.framesPerMs rate).toUInt32.toNat)

/-- Reads `count` points, each a time and a value that is multiplied by `scale`. -/
def readTargets (rate : UInt32) (scale : Float32) :
    Nat → Cursor → Except DecodeError (List Target × Cursor)
  | 0, c => .ok ([], c)
  | n + 1, c => do
    let (ms, c) ← c.word
    let (value, c) ← c.word
    let (rest, c) ← readTargets rate scale n c
    return ({ frames := framesOfMs rate ms, value := value.toFloat32 * scale } :: rest, c)

/-- Reads a curve: first value, count of points, points. -/
def read (rate : UInt32) (scale : Float32) (c : Cursor) :
    Except DecodeError (Ramp × Cursor) := do
  let (start, c) ← c.word
  let (count, c) ← c.byte
  let (targets, c) ← readTargets rate scale count.toNat c
  return (toward (start.toFloat32 * scale) targets, c)

end Ramp

end Tonewheel.Sound
