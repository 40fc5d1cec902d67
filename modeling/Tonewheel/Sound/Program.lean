import Tonewheel.Bytes
import Tonewheel.Noise
import Tonewheel.Signal.Delay
import Tonewheel.Signal.Filter
import Tonewheel.Signal.Wave
import Tonewheel.Sound.Ramp
import Tonewheel.Sound.Script

/-!
# Sound programs (SPEC_FULL, section 4.2)

A program is a sound ready to be printed at one rate: its length in frames, its master gain and
its voices with all their processors at rest. `Program.decode` reads one from the binary form of a
script. A voice runs sample by sample (`Voice.emit`, `ChainStage.step`); a block of samples goes
through its oscillator first and then through one stage of the chain after another.
-/

namespace Tonewheel.Sound

/-! ### Oscillators -/

structure RateSwing where
  /-- Radians. -/
  phase : Float32
  /-- Radians per frame. -/
  stride : Float32
  /-- Octaves at full swing. -/
  range : Float32

/-- The ways an oscillator makes its samples, each as plain as its features allow. -/
inductive Generator where
  | silent
  | noise
  /-- A constant rate without modulation, on a 32-bit phase. -/
  | flat (phase stride : UInt32)
  /-- Frequency modulation, a rate curve or both. -/
  | modulated
  /-- All features. -/
  | swinging (swing : RateSwing)

structure Carrier where
  wave : Wave
  /-- Carrier cycles per frame. -/
  rate : Ramp
  /-- Depth of the modulation. -/
  range : Ramp
  /-- Modulator radians per carrier cycle. -/
  modulatorRate : Float32
  /-- Modulator phase in radians. -/
  modulatorPhase : Float32 := 0
  /-- Carrier phase in cycles. -/
  phase : Float32 := 0

/-- A phase in radians, brought back by a turn once it has reached π. -/
def wrapRadians (p : Float32) : Float32 :=
  if Single.pi ≤ p then p - Single.pi * 2 else p

/-- The table sample at a phase in cycles; a phase outside of one cycle reads the first sample. -/
def Carrier.sample (c : Carrier) : Float32 :=
  let position := (Single.truncate 0x80000000 (c.phase * 1024)).toNat
  if h : position < waveSize then c.wave.get ⟨position, h⟩ else c.wave.get ⟨0, waveSize_pos⟩

def Carrier.step (c : Carrier) (rate : Float32) : Float32 × Carrier :=
  let (depth, range) := c.range.step
  let modulation := Float32.sin c.modulatorPhase * depth
  let modulatorPhase := wrapRadians (c.modulatorPhase + rate * c.modulatorRate)
  let phase := c.phase + (rate + rate * modulation)
  (c.sample,
    { c with range, modulatorPhase, phase := if 1 ≤ phase then phase - 1 else phase })

/-! ### Chains -/

inductive ChainStage where
  | level (ramp : Ramp)
  | gain (factor : Float32)
  | clip (limit : Float32)
  | delay (tape : Tape)
  | filter (filter : Filter)

def ChainStage.step (stage : ChainStage) (x : Float32) : Float32 × ChainStage :=
  match stage with
  | .level ramp =>
    let (v, ramp) := ramp.step
    (x * v, .level ramp)
  | .gain factor => (x * factor, .gain factor)
  | .clip limit => (Single.clamp (-limit) limit x, .clip limit)
  | .delay tape =>
    let (y, tape) := tape.step x
    (y, .delay tape)
  | .filter f =>
    let (y, f) := f.step x
    (y, .filter f)

def runChain : List ChainStage → Block → Block × List ChainStage
  | [], block => (block, [])
  | stage :: rest, block =>
    let (block, stage) := Block.scan ChainStage.step stage block
    let (block, rest) := runChain rest block
    (block, stage :: rest)

/-! ### Voices -/

structure Voice where
  generator : Generator
  carrier : Carrier
  chain : List ChainStage

/-- One sample of the oscillator; only noise draws from the generator it is given. -/
def Voice.emit (state : Voice × Noise) : Float32 × (Voice × Noise) :=
  match state with
  | (⟨generator, carrier, chain⟩, noise) =>
    match generator with
    | .silent => (0, ⟨.silent, carrier, chain⟩, noise)
    | .noise =>
      let (word, noise) := noise.draw
      ((word.toFloat32 - 32768) / 32768, ⟨.noise, carrier, chain⟩, noise)
    | .flat phase stride =>
      (carrier.wave.atPhase phase, ⟨.flat (phase + stride) stride, carrier, chain⟩, noise)
    | .modulated =>
      let (rate, ramp) := carrier.rate.step
      let (y, carrier) := { carrier with rate := ramp }.step rate
      (y, ⟨.modulated, carrier, chain⟩, noise)
    | .swinging swing =>
      let (base, ramp) := carrier.rate.step
      let rate := base * Float32.pow 2 (Float32.sin swing.phase * swing.range)
      let (y, carrier) := { carrier with rate := ramp }.step rate
      let swing := { swing with phase := wrapRadians (swing.phase + swing.stride) }
      (y, ⟨.swinging swing, carrier, chain⟩, noise)

def Voice.render (v : Voice) (noise : Noise) (n : Nat) : Block × Voice × Noise :=
  match Block.generate Voice.emit n (v, noise) with
  | (block, ⟨generator, carrier, chain⟩, noise) =>
    let (block, chain) := runChain chain block
    (block, ⟨generator, carrier, chain⟩, noise)

structure Program where
  frames : Nat
  master : Float32
  voices : List Voice

/-! ### Reading -/

def readFixed88 (c : Cursor) : Except DecodeError (Float32 × Cursor) := do
  let (w, c) ← c.word
  return ((w >>> 8).toFloat32 + (w &&& 0xff).toFloat32 / 256, c)

def unitOfByte (b : UInt8) : Float32 := b.toFloat32 / 255

def relativeFrequency (rate : UInt32) (hz : UInt16) : Float32 := hz.toFloat32 / rate.toFloat32

def readStage (rate : UInt32) (opcode : UInt8) (c : Cursor) :
    Except DecodeError (ChainStage × Cursor) :=
  match opcode.toNat with
  | 0x01 => do
    let (ramp, c) ← Ramp.read rate (1 / 65535) c
    return (.level ramp, c)
  | 0x02 => do
    let (factor, c) ← readFixed88 c
    return (.gain factor, c)
  | 0x03 => do
    let (limit, c) ← c.byte
    return (.clip (unitOfByte limit), c)
  | 0x04 => do
    let (ms, c) ← c.word
    let frames := max 1 (ms.toNat * rate.toNat / 1000)
    let (unit, c) ← c.take 4
    let coefficient (i : Nat) : Float32 := unitOfByte (unit.getD i 0)
    return (.delay (Tape.withCoefficients frames (coefficient 0) (coefficient 1) (coefficient 2)
      (coefficient 3)), c)
  | 0x05 => do
    let (mid, c) ← c.word
    let (width, c) ← c.word
    return (.filter (.ofWeights (.bandPass (relativeFrequency rate mid)
      (relativeFrequency rate width))), c)
  | 0x06 => do
    let (mid, c) ← c.word
    let (width, c) ← c.word
    return (.filter (.ofWeights (.notch (relativeFrequency rate mid)
      (relativeFrequency rate width))), c)
  | 0x07 => do
    let (freq, c) ← c.word
    return (.filter (.ofWeights (.lowPass (relativeFrequency rate freq))), c)
  | 0x08 => do
    let (freq, c) ← c.word
    return (.filter (.ofWeights (.highPass (relativeFrequency rate freq))), c)
  | _ => .error (.unknownOpcode opcode)

/-- Reads a chain up to its closing byte or the end of data. Each operation takes a byte at least,
so `fuel` bytes of data are read out by `fuel` rounds. -/
def readChain (rate : UInt32) :
    (fuel : Nat) → Cursor → Except DecodeError (List ChainStage × Cursor)
  | 0, c => .ok ([], c)
  | fuel + 1, c =>
    match c.rest with
    | [] => .ok ([], c)
    | opcode :: rest =>
      let c : Cursor := ⟨rest, c.offset + 1⟩
      if opcode = 0 then .ok ([], c)
      else do
        let (stage, c) ← readStage rate opcode c
        let (stages, c) ← readChain rate fuel c
        return (stage :: stages, c)

def announces (features : UInt8) (f : Feature) : Bool := features &&& f.bit != 0

def unknownFeatures (features : UInt8) : UInt8 := features &&& 0xc0

/-- Reads a field if it is there, and keeps the default otherwise. -/
def readIf {α : Type} (present : Bool) (default : α)
    (field : Cursor → Except DecodeError (α × Cursor)) (c : Cursor) :
    Except DecodeError (α × Cursor) :=
  if present then field c else .ok (default, c)

/-- Reads the rate and range of a modulation, as modulator radians per cycle and depth. -/
def readModulation (c : Cursor) : Except DecodeError ((Float32 × Float32) × Cursor) := do
  let (rate, c) ← readFixed88 c
  let (range, c) ← readFixed88 c
  return ((rate * Single.tau, range), c)

def readSwing (rate : UInt32) (c : Cursor) : Except DecodeError (Option RateSwing × Cursor) := do
  let (hz, c) ← readFixed88 c
  let (cents, c) ← c.word
  return (some
    { phase := 0
      stride := hz * Single.tau / rate.toFloat32
      range := cents.toFloat32 / 1200 }, c)

def readCoefficients (c : Cursor) : Except DecodeError (Bytes × Cursor) := do
  let (count, c) ← c.byte
  c.take count.toNat

/-- The table and generator of a shape code, given the coefficients of its harmonics (none for the
plain shape), the swing, the carrier rate and whether there is frequency modulation. -/
def chooseGenerator (shape : UInt8) (coefficients : Bytes) (swing : Option RateSwing) (rate : Ramp)
    (modulates : Bool) : Except DecodeError (Wave × Generator) :=
  if shape = Waveform.noise.code then .ok (.silent, .noise)
  else if shape = Waveform.silence.code then .ok (.silent, .silent)
  else
    match Shape.ofCode? shape with
    | none => .error (.unknownShape shape)
    | some s =>
      let base := Wave.ofShape s
      let wave := if coefficients.isEmpty then base else base.withHarmonics coefficients
      let generator :=
        match swing with
        | some swing => .swinging swing
        | none =>
          if rate.targets.isEmpty && !modulates then
            .flat 0 (rate.value * 4294967296).toUInt32
          else .modulated
      .ok (wave, generator)

def readVoice (rate : UInt32) (c : Cursor) : Except DecodeError (Voice × Cursor) := do
  let (features, c) ← c.byte
  let (shape, c) ← readIf (announces features .shape) 0 Cursor.byte c
  let (coefficients, c) ← readIf (announces features .harmonics) [] readCoefficients c
  let ((modulatorRate, depth), c) ← readIf (announces features .fm) (0, 1) readModulation c
  let (range, c) ←
    readIf (announces features .fmCurve) (Ramp.hold depth) (Ramp.read rate (depth / 65535)) c
  let (carrierRate, c) ←
    readIf (announces features .rate) (Ramp.hold (440 / rate.toFloat32))
      (Ramp.read rate (1 / rate.toFloat32)) c
  let (swing, c) ← readIf (announces features .rateSweep) none (readSwing rate) c
  if unknownFeatures features ≠ 0 then .error (.unknownFeatures (unknownFeatures features))
  else
    let (wave, generator) ←
      chooseGenerator shape coefficients swing carrierRate (announces features .fm)
    let (chain, c) ← readChain rate c.rest.length c
    return ({ generator, chain, carrier := { wave, rate := carrierRate, range, modulatorRate } }, c)

def Voice.isSilent (v : Voice) : Bool :=
  match v.generator with
  | .silent => true
  | _ => false

/-- Reads voices to the end of data and leaves the silent ones out. Each voice takes a byte at
least, so `fuel` bytes of data are read out by `fuel` rounds. -/
def readVoices (rate : UInt32) : (fuel : Nat) → Cursor → Except DecodeError (List Voice)
  | 0, _ => .ok []
  | fuel + 1, c =>
    if c.rest.isEmpty then .ok []
    else do
      let (voice, c) ← readVoice rate c
      let voices ← readVoices rate fuel c
      return if voice.isSilent then voices else voice :: voices

/-- The frames of a duration: its ms over a thousand, times the rate, in doubles. -/
def framesOfDuration (rate : UInt32) (ms : UInt16) : Nat :=
  max 1 (ms.toUInt32.toFloat / 1000 * rate.toFloat).toUInt64.toNat

def headerLength : Nat := 6

def Program.decode (rate : UInt32) (bytes : Bytes) : Except DecodeError Program :=
  if bytes.length < headerLength then .error (.truncated bytes.length)
  else if bytes.take 2 ≠ signature then .error .signature
  else do
    let (ms, c) ← (⟨bytes.drop 2, 2⟩ : Cursor).word
    let (master, c) ← readFixed88 c
    let voices ← readVoices rate c.rest.length c
    return { frames := framesOfDuration rate ms, master, voices }

end Tonewheel.Sound
