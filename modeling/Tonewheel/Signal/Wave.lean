import Tonewheel.Numeric.Single
import Tonewheel.Signal.Block

/-!
# Single-cycle wavetables (SPEC_FULL, sections 2 and 4.2)

A wave is one period of a signal in 1024 samples. Oscillators read it with the top ten bits of a
32-bit phase (`Wave.atPhase`). Besides the five geometric shapes a wave can be the sum of another
wave's harmonics (`Wave.withHarmonics`).
-/

namespace Tonewheel

inductive Shape where
  | sine
  | square
  | sawUp
  | sawDown
  | triangle
  deriving Repr, DecidableEq

def Shape.ofCode? (code : UInt8) : Option Shape :=
  match code.toNat with
  | 0 => some .sine
  | 1 => some .square
  | 2 => some .sawUp
  | 3 => some .sawDown
  | 4 => some .triangle
  | _ => none

abbrev waveSize : Nat := 1024

theorem waveSize_pos : 0 < waveSize := by decide

abbrev Wave := Vector Float32 waveSize

namespace Wave

/-- The most harmonics that are summed: higher ones would alias within one table. -/
def harmonicsLimit : Nat := waveSize / 2 - 1

def silent : Wave := Vector.replicate waveSize 0

/-- `n` samples from `start` toward `stop`, which is not reached, by repeated addition. -/
def ramp (n : Nat) (start stop : Float32) : Block :=
  let step := (stop - start) / n.toUInt32.toFloat32
  (Block.generate (fun t => (t, t + step)) n start).1

/-- Reads a block as a wave, with silence past its end. -/
def ofBlock (block : Block) : Wave :=
  Vector.ofFn fun i => block.getD i 0

def ofShape : Shape → Wave
  | .sine =>
    let step := Single.tau / waveSize.toUInt32.toFloat32
    ofBlock (Block.generate (fun p => (Float32.sin p, p + step)) waveSize 0).1
  | .square =>
    ofBlock (Array.replicate (waveSize / 2) 1 ++ Array.replicate (waveSize / 2) (-1))
  | .sawUp => ofBlock (ramp waveSize (-1) 1)
  | .sawDown => ofBlock (ramp waveSize 1 (-1))
  | .triangle => ofBlock (ramp (waveSize / 2) (-1) 1 ++ ramp (waveSize / 2) 1 (-1))

theorem wrap_lt (i : Nat) : i % waveSize < waveSize := Nat.mod_lt _ waveSize_pos

/-- Adds the harmonic of a wave that takes `stride` table steps per sample, scaled by `level`, to
the samples from `i` on; `read` is the table position for sample `i`. -/
def addHarmonicFrom (source : Wave) (stride : Nat) (level : Float32) (i : Nat)
    (read : Fin waveSize) (acc : Wave) : Wave :=
  if h : i < waveSize then
    addHarmonicFrom source stride level (i + 1) ⟨(read.val + stride) % waveSize, wrap_lt _⟩
      (acc.set i (acc[i] + source[read] * level))
  else acc
  termination_by waveSize - i

/-- Adds one harmonic of a wave; a zero coefficient adds nothing. -/
def addHarmonic (source acc : Wave) (stride : Nat) (coefficient : UInt8) : Wave :=
  if coefficient = 0 then acc
  else addHarmonicFrom source stride (coefficient.toFloat32 / 255) 0 ⟨0, waveSize_pos⟩ acc

def addHarmonics (source : Wave) : Nat → List UInt8 → Wave → Wave
  | _, [], acc => acc
  | stride, c :: cs, acc => addHarmonics source (stride + 1) cs (addHarmonic source acc stride c)

/-- The sum of a wave at one, two, three and more times its rate, each scaled by its coefficient
out of 255. -/
def withHarmonics (source : Wave) (coefficients : List UInt8) : Wave :=
  addHarmonics source 1 (coefficients.take harmonicsLimit) silent

theorem phase_lt (phase : UInt32) : (phase >>> 22).toNat < waveSize := by
  have h := phase.toNat_lt
  have e : (phase >>> 22).toNat = phase.toNat / 2 ^ 22 := by
    simp [UInt32.toNat_shiftRight, Nat.shiftRight_eq_div_pow]
  have size : waveSize = 1024 := rfl
  omega

/-- The sample at a 32-bit phase, of which the top ten bits select. -/
def atPhase (wave : Wave) (phase : UInt32) : Float32 :=
  have := phase_lt phase
  wave[(phase >>> 22).toNat]

end Wave

/-- The frequency in hertz of a note in equal temperament, with note 69 at 440. -/
def noteFrequency (note : UInt8) : Float32 :=
  440 * Float32.pow 2 ((note.toFloat32 - 69) / 12)

end Tonewheel
