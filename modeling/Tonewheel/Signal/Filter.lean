import Tonewheel.Numeric.Single
import Tonewheel.Signal.Block

/-!
# Five-coefficient recursive filters (SPEC_FULL, sections 4.2 and 4.4)

One structure serves low-pass, high-pass, band-pass and notch responses; only the coefficients
differ. The output is `c₀x₀ + c₁x₁ + c₂x₂ + c₃y₁ + c₄y₂`, with `x₀` the input, `x₁`, `x₂` the inputs
before it and `y₁`, `y₂` the outputs before. Frequencies and widths are fractions of the sample
rate.
-/

namespace Tonewheel

/-- The weights of the input, the two inputs before it and the two outputs before it. -/
structure FilterWeights where
  input : Float32
  input1 : Float32
  input2 : Float32
  output1 : Float32
  output2 : Float32

/-- A filter: its weights and the two latest inputs and outputs. -/
structure Filter where
  weights : FilterWeights
  input1 : Float32 := 0
  input2 : Float32 := 0
  output1 : Float32 := 0
  output2 : Float32 := 0

namespace FilterWeights

def toList (w : FilterWeights) : List Float32 :=
  [w.input, w.input1, w.input2, w.output1, w.output2]

/-- The weights of a second-order Chebyshev low-pass at the reference frequency, warped by `k`;
with `invert` minus one the response is mirrored into a high-pass. -/
def chebyshev (k invert : Float32) : FilterWeights :=
  let rp := -Float32.cos (Single.pi / 2)
  let ip := Float32.sin (Single.pi / 2)
  let t := 2 * Float32.tan 0.5
  let m := rp * rp + ip * ip
  let d := 4 - 4 * rp * t + m * t * t
  let x0 := (t * t) / d
  let x1 := (2 * t * t) / d
  let x2 := (t * t) / d
  let y1 := (8 - 2 * m * t * t) / d
  let y2 := (-4 - 4 * rp * t - m * t * t) / d
  { input := invert * (x0 - x1 * k + x2 * k * k) / d
    input1 := (-2 * x0 * k + x1 + x1 * k * k - 2 * x2 * k) / d
    input2 := (x0 * k * k - x1 * k + x2) / d
    output1 := invert * (2 * k + y1 + y1 * k * k - 2 * y2 * k) / d
    output2 := (-k * k - y1 * k + y2) / d }

def lowPass (freq : Float32) : FilterWeights :=
  let w := 2 * Single.pi * freq
  chebyshev (Float32.sin (0.5 - w / 2) / Float32.sin (0.5 + w / 2)) 1

def highPass (freq : Float32) : FilterWeights :=
  let w := 2 * Single.pi * freq
  chebyshev (-Float32.cos (w / 2 + 0.5) / Float32.cos (w / 2 - 0.5)) (-1)

/-- A resonator pair at a frequency: pole radius, cosine of the angle and gain. -/
structure Resonator where
  radius : Float32
  cosine : Float32
  gain : Float32

def resonator (freq width : Float32) : Resonator :=
  let r := 1 - 3 * width
  let cosine := Float32.cos (Single.pi * 2 * freq)
  { radius := r
    cosine
    gain := (1 - 2 * r * cosine + r * r) / (2 - 2 * cosine) }

def bandPass (freq width : Float32) : FilterWeights :=
  let ⟨r, cosine, k⟩ := resonator freq width
  { input := 1 - k
    input1 := 2 * (k - r) * cosine
    input2 := r * r - k
    output1 := 2 * r * cosine
    output2 := -r * r }

/-- Passes all but the band of the given width around `freq`. -/
def notch (freq width : Float32) : FilterWeights :=
  let ⟨r, cosine, k⟩ := resonator freq width
  { input := k
    input1 := -2 * k * cosine
    input2 := k
    output1 := 2 * r * cosine
    output2 := -r * r }

end FilterWeights

namespace Filter

def ofWeights (weights : FilterWeights) : Filter := { weights }

def step (f : Filter) (x : Float32) : Float32 × Filter :=
  let w := f.weights
  let y := x * w.input + f.input1 * w.input1 + f.input2 * w.input2 + f.output1 * w.output1
    + f.output2 * w.output2
  (y, { weights := w, input1 := x, input2 := f.input1, output1 := y, output2 := f.output1 })

def render (f : Filter) (block : Block) : Block × Filter := Block.scan step f block

def reset (f : Filter) : Filter := ofWeights f.weights

end Filter

end Tonewheel
