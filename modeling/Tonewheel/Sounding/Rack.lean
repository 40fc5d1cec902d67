import Tonewheel.Output
import Tonewheel.Signal.Delay
import Tonewheel.Sounding.Voice

/-!
# Effect racks (SPEC_FULL, section 4.4)

A channel in effect mode sounds through one rack, which has eight voices of its own and effects that
they share:

    voices (sine FM pairs) -> overdrive -> detune -> delay -> trim -> fade
               ^
        swing of the depth

A rack is made with its channel and lasts until the song ends; then it is released and fades out.
-/

namespace Tonewheel

structure EffectVoice where
  carrierPhase : Float32 := 0
  modulatorPhase : Float32 := 0
  /-- Carrier radians per frame before the wheel. -/
  baseStride : Float32
  carrierStride : Float32
  modulatorStride : Float32
  level : Envelope
  range : Envelope
  born : Nat
  note : UInt8

instance : PoolEntry EffectVoice where
  isDefunct v := v.level.isFinished
  isOlder v w := v.born < w.born

namespace EffectVoice

/-- A phase in radians, brought back by a turn once it is past π. -/
def wrapTurn (p : Float32) : Float32 := if Single.pi < p then p - Single.tau else p

def step (v : EffectVoice) (swing : Float32) : Float32 × EffectVoice :=
  let (loudness, level) := v.level.step
  let (depth, range) := v.range.step
  let modulation := Float32.sin v.modulatorPhase * (depth + swing)
  (Float32.sin v.carrierPhase * loudness,
    { v with
      level
      range
      modulatorPhase := wrapTurn (v.modulatorPhase + v.modulatorStride)
      carrierPhase :=
        wrapTurn (v.carrierPhase + (v.carrierStride + v.carrierStride * modulation)) })

def release (v : EffectVoice) : EffectVoice :=
  { v with level := v.level.release, range := v.range.release, note := releasedNote }

def setBend (v : EffectVoice) (bend ratio : Float32) : EffectVoice :=
  let stride := v.baseStride * bend
  { v with carrierStride := stride, modulatorStride := stride * ratio }

end EffectVoice

/-- The detune effect of a rack: its line and the phase that moves the read head. -/
structure RackDetune where
  line : Detune
  /-- A quarter turn before zero at first, the lowest point of the sine. -/
  phase : UInt32 := 0xc0000000
  stride : UInt32

/-- One sample through the detune effect: a quarter of the moving line and three quarters of the
input. -/
def RackDetune.step (sine : Wave) (d : RackDetune) (x : Float32) : Float32 × RackDetune :=
  match d with
  | ⟨line, phase, stride⟩ =>
    let (y, line) := line.step x (sine.atPhase phase)
    (y * 0.25 + x * 0.75, ⟨line, phase + stride, stride⟩)

/-- The swing of the modulation depth: a sine of the given range. -/
structure RackSwing where
  phase : UInt32 := 0
  stride : UInt32
  range : Float32

def RackSwing.step (sine : Wave) (s : RackSwing) : Float32 × RackSwing :=
  (sine.atPhase s.phase * s.range, { s with phase := s.phase + s.stride })

/-- The fade of a released rack: the frames left, and whether they ran out on the way. -/
structure Fade where
  left : Int := 0
  isOver : Bool := false

/-- The frames over which the loudness falls at the end of a fade. -/
def fadeFrames : Int := 10000

def Fade.step (f : Fade) (x : Float32) : Float32 × Fade :=
  if f.left ≤ 0 then (0, { left := f.left - 1, isOver := true })
  else
    let y := if f.left < fadeFrames then x * (Single.ofInt f.left / Single.ofInt fadeFrames) else x
    (y, { f with left := f.left - 1 })

structure Rack where
  channel : UInt8
  origin : Origin
  born : Nat
  rate : UInt32
  voices : List EffectVoice := []
  level : Dynamics
  range : Dynamics
  bend : Float32 := 1
  /-- Modulator rate relative to the carrier. -/
  ratio : Float32
  swing : RackSwing
  /-- What the signal is multiplied by before it is clipped, and the clip level; no overdrive if it
  is not positive. -/
  drive : Float32
  clip : Float32
  trim : Float32
  detune : Option RackDetune
  delay : Option Tape
  /-- What is left of the fade, none while the rack plays. -/
  fade : Fade := {}

instance : PoolEntry Rack where
  isDefunct r := r.fade.isOver
  isOlder r s := r.born < s.born

namespace Rack

def voiceLimit : Nat := 8

def wheelCents : Float32 := 200

/-- The frames of a u4.4 number of beats, as a 32-bit word. -/
def framesOfBeats (framesPerBeat : UInt32) (beats : UInt8) : UInt32 :=
  (beats.toNat * framesPerBeat.toNat / 16).toUInt32

def strideOfPeriod (period : UInt32) : UInt32 := 0xffffffff / period

/-- The swing of an instrument, flat if its period or its depth is none. -/
def swingOf (params : EffectParams) (framesPerBeat : UInt32) : RackSwing :=
  let period := framesOfBeats framesPerBeat params.swingPeriod
  if 0 < period ∧ params.swingDepth ≠ 0 then
    { stride := strideOfPeriod period, range := Patch.fixed44 params.swingDepth }
  else { stride := 0, range := 0 }

def delayOf (params : EffectParams) (framesPerBeat : UInt32) : Option Tape :=
  if params.delayPeriod ≠ 0 ∧ params.delayDepth ≠ 0 then
    let depth := params.delayDepth.toFloat32 / 255
    some (Tape.withMix (framesOfBeats framesPerBeat params.delayPeriod).toNat
      (0.125 + depth * 0.5) (0.25 + depth * 0.5))
  else none

def detuneOf (params : EffectParams) (framesPerBeat : UInt32) : Option RackDetune :=
  if params.detunePeriod ≠ 0 ∧ params.detuneDepth ≠ 0 then
    let period := max (framesOfBeats framesPerBeat params.detunePeriod) 1
    some
      { line := Detune.ofFrames (1 + params.detuneDepth.toNat * period.toNat / 5000)
        stride := strideOfPeriod period }
  else none

/-- The rack of a channel. Beats are taken at the tempo of this moment. -/
def make (c : Channel) (params : EffectParams) (rate framesPerBeat : UInt32) (born : Nat) : Rack :=
  let level := (Dynamics.ofDescriptor rate params.level).scale Channel.master
  let overdrive := params.overdrive.toFloat32
  { channel := c.id
    origin := .ofChannel c.id
    born
    rate
    level
    range := (level.withLevels params.rangeLevels).scale (Patch.fixed44 params.scale)
    ratio := Patch.fixed44 params.rate
    swing := swingOf params framesPerBeat
    drive := if 0 < params.overdrive then 1 + overdrive / 4 else 0
    clip := if 0 < params.overdrive then (1 - overdrive / 500) * Channel.master else 0
    trim := c.trim
    detune := detuneOf params framesPerBeat
    delay := delayOf params framesPerBeat }

def isDefunct (r : Rack) : Bool := r.fade.isOver

def isSong (r : Rack) : Bool := !r.isDefunct && r.origin == .song

/-! ### Notes and controls -/

/-- The slot of the voice that gives way to a new one: the first finished voice, or else the oldest,
the first of several. It is found in one walk over the voices, where `slot` is the number of the
first voice listed and `oldest` the oldest so far, in the slot `found`. -/
def givingWayFrom (found : Nat) (oldest : EffectVoice) : (slot : Nat) → List EffectVoice → Nat
  | _, [] => found
  | slot, v :: vs =>
    if v.level.isFinished then slot
    else if v.born < oldest.born then givingWayFrom slot v (slot + 1) vs
    else givingWayFrom found oldest (slot + 1) vs

def givingWay : List EffectVoice → Nat
  | [] => 0
  | v :: vs => givingWayFrom 0 v 0 (v :: vs)

def addVoice (voices : List EffectVoice) (voice : EffectVoice) : List EffectVoice :=
  if voices.length < voiceLimit then voices ++ [voice] else voices.set (givingWay voices) voice

def voiceOf (r : Rack) (notes : NoteTable) (note velocity : UInt8) (duration : Int) (born : Nat) :
    EffectVoice :=
  let base := notes.cyclesOf note * Single.tau
  let stride := base * r.bend
  { baseStride := base
    carrierStride := stride
    modulatorStride := stride * r.ratio
    level := Envelope.ofNote r.level velocity duration
    range := Envelope.ofNote r.range velocity duration
    born
    note }

def noteOnce (r : Rack) (notes : NoteTable) (note velocity : UInt8) (duration : Int) (born : Nat) :
    Rack :=
  { r with voices := addVoice r.voices (r.voiceOf notes note velocity duration born) }

def noteOn (r : Rack) (notes : NoteTable) (note velocity : UInt8) (born : Nat) : Rack :=
  r.noteOnce notes note velocity Envelope.held born

def noteOff (r : Rack) (note : UInt8) : Rack :=
  { r with voices := r.voices.map fun v => if v.note = note then v.release else v }

/-- Volume; other controllers change nothing. -/
def control (r : Rack) (key value : UInt8) : Rack :=
  if key = controlVolume then { r with trim := value.toFloat32 / 127 } else r

def bendOf (position : UInt16) : Float32 :=
  let deflection := (position.toFloat32 - 0x2000) / 8192
  Float32.pow 2 (wheelCents * deflection / 1200)

def wheel (r : Rack) (position : UInt16) : Rack :=
  let bend := bendOf position
  { r with bend, voices := r.voices.map fun v => v.setBend bend r.ratio }

def releaseNotes (r : Rack) : Rack := { r with voices := r.voices.map EffectVoice.release }

/-- Lets all notes go and starts the fade, which lasts a second; the frames of that second are
counted down in a signed 32-bit word. -/
def release (r : Rack) : Rack :=
  let r := r.releaseNotes
  { r with fade := { r.fade with left := r.rate.toInt32.toInt } }

/-! ### Rendering -/

/-- All voices along a swing, added up one after another onto `mixed`; a finished voice adds
nothing. -/
def renderVoices (swing : Block) : List EffectVoice → Block → Block × List EffectVoice
  | [], mixed => (mixed, [])
  | v :: vs, mixed =>
    if v.level.isFinished then
      let (mixed, vs) := renderVoices swing vs mixed
      (mixed, v :: vs)
    else
      let (block, v) := Block.scan EffectVoice.step v swing
      let (mixed, vs) := renderVoices swing vs (Block.mix mixed block)
      (mixed, v :: vs)

def renderSwing (sine : Wave) (s : RackSwing) (n : Nat) : Block × RackSwing :=
  if 0 < s.range then Block.generate (RackSwing.step sine) n s else (.silence n, s)

def runOptional {σ : Type} (step : σ → Float32 → Float32 × σ) (effect : Option σ) (block : Block) :
    Block × Option σ :=
  match effect with
  | none => (block, none)
  | some s =>
    let (block, s) := Block.scan step s block
    (block, some s)

def render (sine : Wave) (r : Rack) (n : Nat) : Block × Rack :=
  if r.isDefunct then (#[], r)
  else
    let n := min n passSamples
    let (swing, rackSwing) := renderSwing sine r.swing n
    let (block, voices) := renderVoices swing r.voices (.silence n)
    let block :=
      if 0 < r.drive then block.map fun x => Single.clamp (-r.clip) r.clip (x * r.drive) else block
    let (block, detune) := runOptional (RackDetune.step sine) r.detune block
    let (block, delay) := runOptional Tape.step r.delay block
    let block := if r.trim < 1 then block.map (· * r.trim) else block
    let (block, fade) :=
      if 0 < r.fade.left then Block.scan Fade.step r.fade block else (block, r.fade)
    (block,
      { r with voices := Pool.trimDefunct voices, swing := rackSwing, detune, delay, fade })

end Rack

end Tonewheel
