import Tonewheel.Numeric.Single
import Tonewheel.Signal.Block

/-!
# Velocity-sensitive envelopes (SPEC_FULL, section 4.3)

An envelope multiplies a note's signal. It walks four levels (initial, attack, decay, release) over
four times (attack, decay, sustain, release); sustain is a flat hold at the decay level, usually as
long as the note. A channel holds two sets of breakpoints, for the softest and for the loudest
note (`Dynamics`); a note takes its own set from them (`Dynamics.contour`) and walks it sample by
sample (`Envelope.step`). Times are in frames.
-/

namespace Tonewheel

structure Contour where
  attackTime : Int := 0
  decayTime : Int := 0
  sustainTime : Int := 0
  releaseTime : Int := 0
  initial : Float32 := 0
  attack : Float32 := 0
  decay : Float32 := 0
  release : Float32 := 0

def Contour.scale (c : Contour) (gain : Float32) : Contour :=
  { c with
    initial := c.initial * gain
    attack := c.attack * gain
    decay := c.decay * gain
    release := c.release * gain }

/-- The breakpoints of the softest note (velocity 0) and of the loudest (velocity 127). -/
structure Dynamics where
  soft : Contour := {}
  loud : Contour := {}

namespace Dynamics

/-! ### One-byte descriptors -/

/-- The four profiles of a descriptor, its top two bits. -/
inductive Profile where
  /-- No sustain, quiet tail. -/
  | impulse
  /-- Loud attack, heavy loss afterward. -/
  | pluck
  /-- Attack a bit louder than sustain. -/
  | tone
  /-- No attack contrast. -/
  | bow
  deriving Repr, DecidableEq

def Profile.ofDescriptor (descriptor : UInt8) : Profile :=
  match (descriptor >>> 6).toNat with
  | 0 => .impulse
  | 1 => .pluck
  | 2 => .tone
  | _ => .bow

def Profile.bits : Profile → UInt8
  | .impulse => 0x00
  | .pluck => 0x40
  | .tone => 0x80
  | .bow => 0xc0

def Profile.sustains : Profile → Bool
  | .impulse => false
  | _ => true

def Profile.attackLevel : Profile → Float32
  | .impulse => 1.0
  | .pluck => 1.0
  | .tone => 0.750
  | .bow => 0.400

def Profile.decayLevel : Profile → Float32
  | .impulse => 0.250
  | .pluck => 0.200
  | .tone => 0.400
  | .bow => 0.400

def attackMs : Vector Int 8 := #v[5, 8, 12, 18, 30, 45, 60, 80]

def releaseMs : Vector Int 8 := #v[40, 60, 100, 200, 300, 400, 800, 1200]

def lowBits (b : UInt8) : Fin 8 := ⟨b.toNat % 8, Nat.mod_lt _ (by decide)⟩

/-- Whole frames in a time, at least one, as a 32-bit word. -/
def framesOfMs (ms : Int) (rate : UInt32) : Int :=
  (max (ms * rate.toNat / 1000) 1).bmod 0x100000000

/-- The dynamics of a descriptor: profile in the top two bits, then attack and release. Soft notes
get double the attack and decay time, half the release time, a third of the attack level and half
the decay level. -/
def ofDescriptor (rate : UInt32) (descriptor : UInt8) : Dynamics :=
  let profile := Profile.ofDescriptor descriptor
  let attack := attackMs[lowBits (descriptor >>> 3)]
  let release := releaseMs[lowBits descriptor]
  let decay := attack * 3 / 2
  let sustain := if profile.sustains then framesOfMs 1 rate else 0
  { loud :=
      { attackTime := framesOfMs attack rate
        decayTime := framesOfMs decay rate
        sustainTime := sustain
        releaseTime := framesOfMs release rate
        initial := 0
        attack := profile.attackLevel
        decay := profile.decayLevel
        release := 0 }
    soft :=
      { attackTime := framesOfMs (attack * 2) rate
        decayTime := framesOfMs (decay * 2) rate
        sustainTime := sustain
        releaseTime := framesOfMs (release / 2) rate
        initial := 0
        attack := profile.attackLevel * 0.333
        decay := profile.decayLevel * 0.5
        release := 0 } }

/-! ### Levels -/

def nibble (levels : UInt16) (shift : UInt16) : Float32 :=
  ((levels >>> shift) &&& 15).toFloat32 / 15

/-- The timing of other dynamics with levels of its own: four nibbles, high to low, for the loud
note, and for the soft note each of them halfway to their average. -/
def withLevels (timing : Dynamics) (levels : UInt16) : Dynamics :=
  let initial := nibble levels 12
  let attack := nibble levels 8
  let decay := nibble levels 4
  let release := nibble levels 0
  let average := (initial + attack + decay + release) / 4
  { loud := { timing.loud with initial, attack, decay, release }
    soft :=
      { timing.soft with
        initial := (initial + average) / 2
        attack := (attack + average) / 2
        decay := (decay + average) / 2
        release := (release + average) / 2 } }

def scale (d : Dynamics) (gain : Float32) : Dynamics :=
  { soft := d.soft.scale gain, loud := d.loud.scale gain }

/-- The breakpoints for a velocity: the soft set at zero, the loud set from 127 up, and between
them times blended in 128ths and levels in 127ths. -/
def contour (d : Dynamics) (velocity : UInt8) : Contour :=
  if velocity = 0 then d.soft
  else if 0x7f ≤ velocity then d.loud
  else
    let v : Int := velocity.toNat
    let time (loud soft : Int) : Int := (loud * v + soft * (0x7f - v)) / 128
    let up := velocity.toFloat32 / 127
    let down := 1 - up
    let level (loud soft : Float32) : Float32 := loud * up + soft * down
    { attackTime := time d.loud.attackTime d.soft.attackTime
      decayTime := time d.loud.decayTime d.soft.decayTime
      sustainTime := time d.loud.sustainTime d.soft.sustainTime
      releaseTime := time d.loud.releaseTime d.soft.releaseTime
      initial := level d.loud.initial d.soft.initial
      attack := level d.loud.attack d.soft.attack
      decay := level d.loud.decay d.soft.decay
      release := level d.loud.release d.soft.release }

end Dynamics

/-! ### Running an envelope -/

inductive Stage where
  | attack
  | decay
  | sustain
  | release
  | finished
  deriving Repr, DecidableEq

structure Envelope where
  level : Float32
  /-- What the level moves by per sample. -/
  slope : Float32
  /-- Frames left in the stage. -/
  left : Int
  stage : Stage
  contour : Contour

namespace Envelope

/-- The longest duration: a note that is held until it is released. -/
def held : Int := 0x7fffffff

/-- The step that leads from one level to another, none if there is no time for it. -/
def slopeBetween (start stop : Float32) (frames : Int) : Float32 :=
  if 0 < frames then (stop - start) / Single.ofInt frames else 0

def ofContour (c : Contour) : Envelope :=
  { level := c.initial
    slope := slopeBetween c.initial c.attack c.attackTime
    left := c.attackTime
    stage := .attack
    contour := c }

/-- The envelope of a note. A positive duration replaces the sustain, unless the contour has none;
otherwise the sustain is one frame. -/
def ofNote (d : Dynamics) (velocity : UInt8) (duration : Int) : Envelope :=
  let c := d.contour velocity
  let sustain := if c.sustainTime ≠ 0 ∧ 0 < duration then duration else 1
  ofContour { c with sustainTime := sustain }

def scale (e : Envelope) (gain : Float32) : Envelope := ofContour (e.contour.scale gain)

/-- Lets the note go: before the sustain the sustain shrinks to a frame, during it the sustain ends,
after it nothing changes. -/
def release (e : Envelope) : Envelope :=
  match e.stage with
  | .attack => { e with contour := { e.contour with sustainTime := 1 } }
  | .decay => { e with contour := { e.contour with sustainTime := 1 } }
  | .sustain => { e with left := 0 }
  | .release => e
  | .finished => e

def advance (e : Envelope) : Envelope :=
  let c := e.contour
  match e.stage with
  | .attack =>
    { e with
      stage := .decay
      level := c.attack
      left := c.decayTime
      slope := slopeBetween c.attack c.decay c.decayTime }
  | .decay => { e with stage := .sustain, level := c.decay, left := c.sustainTime, slope := 0 }
  | .sustain =>
    { e with
      stage := .release
      level := c.decay
      left := c.releaseTime
      slope := slopeBetween c.decay c.release c.releaseTime }
  | .release => { e with stage := .finished, level := c.release, left := held, slope := 0 }
  | .finished => { e with stage := .finished, level := c.release, left := held, slope := 0 }

def step (e : Envelope) : Float32 × Envelope :=
  let e := if e.left ≤ 0 then e.advance else e
  let level := e.level + e.slope
  (level, { e with left := e.left - 1, level })

def render (e : Envelope) (n : Nat) : Block × Envelope := Block.generate step n e

def isFinished (e : Envelope) : Bool := e.stage == .finished

end Envelope

end Tonewheel
