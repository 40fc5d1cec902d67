import Tonewheel.Numeric.Single
import Tonewheel.Signal.Block

/-!
# Delay lines (SPEC_FULL, sections 4.2 and 4.4)

A `Tape` is a feedback echo: what leaves the tape is mixed with the input and, scaled, recorded
again. A `Detune` is a delay whose read head moves under the control of a phase, which bends pitch
while it moves. Both keep their samples in a ring that is written once per sample.
-/

namespace Tonewheel

structure Ring where
  size : Nat
  cells : Vector Float32 size
  head : Fin size

namespace Ring

/-- A silent ring of `frames` samples, and of one sample if `frames` is zero. -/
def silent (frames : Nat) : Ring where
  size := max frames 1
  cells := Vector.replicate (max frames 1) 0
  head := ⟨0, by omega⟩

/-- The position after `i`, going back to the start at the end. -/
def following {n : Nat} (i : Fin n) : Fin n :=
  if h : i.val + 1 < n then ⟨i.val + 1, h⟩ else ⟨0, by have := i.isLt; omega⟩

def front (r : Ring) : Float32 := r.cells[r.head]

def behind (r : Ring) (back : Fin r.size) : Float32 :=
  if h : r.head.val < back.val then
    have := back.isLt
    r.cells[r.head.val + r.size - back.val]
  else
    have := r.head.isLt
    r.cells[r.head.val - back.val]

def write (r : Ring) (x : Float32) : Ring :=
  match r with
  | ⟨size, cells, head⟩ => ⟨size, cells.set head.val x head.isLt, head⟩

def turn (r : Ring) : Ring :=
  match r with
  | ⟨size, cells, head⟩ => ⟨size, cells, following head⟩

end Ring

/-- A feedback delay. With `old` the sample leaving the tape, the output is
`input * dry + old * wet` and `input * store + old * feedback` is recorded. -/
structure Tape where
  dry : Float32
  wet : Float32
  store : Float32
  feedback : Float32
  ring : Ring

namespace Tape

/-- A silent tape of `frames` samples with its four coefficients. -/
def withCoefficients (frames : Nat) (dry wet store feedback : Float32) : Tape :=
  { dry, wet, store, feedback, ring := .silent frames }

/-- A proportion held between zero and one, with its complement. -/
def proportion (v : Float32) : Float32 × Float32 :=
  if 1 ≤ v then (1, 0) else if v ≤ 0 then (0, 1) else (v, 1 - v)

/-- A tape with complementary coefficients: dry is what `mix` leaves of the output, and what is
stored is what `feedback` leaves of the recording. -/
def withMix (frames : Nat) (mix feedback : Float32) : Tape :=
  let (wet, dry) := proportion mix
  let (feedback, store) := proportion feedback
  withCoefficients frames dry wet store feedback

def length (t : Tape) : Nat := t.ring.size

def step (t : Tape) (x : Float32) : Float32 × Tape :=
  match t with
  | ⟨dry, wet, store, feedback, ring⟩ =>
    let old := ring.front
    (x * dry + old * wet,
      ⟨dry, wet, store, feedback, (ring.write (x * store + old * feedback)).turn⟩)

def render (t : Tape) (block : Block) : Block × Tape := Block.scan step t block

end Tape

structure Detune where
  /-- Half the length of the ring, in samples. -/
  half : Float32
  ring : Ring

namespace Detune

/-- A silent detune line of `frames` samples, and of one if `frames` is zero. -/
def ofFrames (frames : Nat) : Detune where
  half := (max frames 1).toUInt64.toFloat32 * 0.5
  ring := .silent frames

/-- How far behind the head a phase reads: minus one is the sample just written, one the oldest. -/
def reach (d : Detune) (phase : Float32) : Fin d.ring.size :=
  ⟨min (Single.nearest ((phase + 1) * d.half)) (d.ring.size - 1), by
    have := d.ring.head.isLt
    omega⟩

def step (d : Detune) (x phase : Float32) : Float32 × Detune :=
  let back := d.reach phase
  match d, back with
  | ⟨half, ⟨size, cells, head⟩⟩, back =>
    let ring : Ring := ⟨size, cells.set head.val x head.isLt, head⟩
    (ring.behind back, ⟨half, ring.turn⟩)

end Detune

end Tonewheel
