import Tonewheel.Bytes

/-!
# Sound scripts and their binary form (SPEC_FULL, section 4.1)

A script describes one sound: a master gain and voices, each an oscillator followed by a chain of
processes. Every number in a script is already in its fixed-point field. `Script.encode` lays a
script out as bytes:

    eb eb            signature
    u16              duration in ms, of the longest level curve
    u8.8             master gain
    voice*           features byte, oscillator fields, processes, 00

A voice that was left open at the end has no closing `00`.
-/

namespace Tonewheel.Sound

/-- The waveforms of an oscillator: five tables, noise, and nothing. -/
inductive Waveform where
  | sine
  | square
  | sawUp
  | sawDown
  | triangle
  | noise
  | silence
  deriving Repr, DecidableEq

def Waveform.all : List Waveform := [sine, square, sawUp, sawDown, triangle, noise, silence]

def Waveform.name : Waveform → String
  | .sine => "sine"
  | .square => "square"
  | .sawUp => "sawup"
  | .sawDown => "sawdown"
  | .triangle => "triangle"
  | .noise => "noise"
  | .silence => "silence"

def Waveform.code : Waveform → UInt8
  | .sine => 0
  | .square => 1
  | .sawUp => 2
  | .sawDown => 3
  | .triangle => 4
  | .noise => 5
  | .silence => 6

/-- One point of a curve: how long the way to it takes, and its value. -/
structure Breakpoint where
  ms : UInt16
  value : UInt16
  deriving Repr, DecidableEq

/-- A curve of straight lines: a first value and at most 255 points. -/
structure Curve where
  start : UInt16
  points : List Breakpoint
  length_le : points.length ≤ 255 := by decide
  deriving Repr, DecidableEq

def Curve.duration (c : Curve) : Nat := c.points.foldl (fun total p => total + p.ms.toNat) 0

structure Harmonics where
  coefficients : List UInt8
  length_le : coefficients.length ≤ 255 := by decide
  deriving Repr, DecidableEq

/-- Frequency modulation: modulator rate relative to the carrier, and range, both u8.8. -/
structure Modulation where
  rate : UInt16
  range : UInt16
  deriving Repr, DecidableEq

/-- A slow swing of the carrier rate: u8.8 hertz, and cents. -/
structure Sweep where
  rate : UInt16
  cents : UInt16
  deriving Repr, DecidableEq

/-- The features of an oscillator, in the order in which they are given and stored. -/
inductive Feature where
  | shape
  | harmonics
  | fm
  | fmCurve
  | rate
  | rateSweep
  deriving Repr, DecidableEq

def Feature.all : List Feature := [shape, harmonics, fm, fmCurve, rate, rateSweep]

def Feature.rank : Feature → Nat
  | .shape => 0
  | .harmonics => 1
  | .fm => 2
  | .fmCurve => 3
  | .rate => 4
  | .rateSweep => 5

def Feature.bit (f : Feature) : UInt8 := 1 <<< f.rank.toUInt8

structure Oscillator where
  shape : Option Waveform := none
  harmonics : Option Harmonics := none
  fm : Option Modulation := none
  fmCurve : Option Curve := none
  rate : Option Curve := none
  rateSweep : Option Sweep := none
  deriving Repr, DecidableEq

def Oscillator.has (o : Oscillator) : Feature → Bool
  | .shape => o.shape.isSome
  | .harmonics => o.harmonics.isSome
  | .fm => o.fm.isSome
  | .fmCurve => o.fmCurve.isSome
  | .rate => o.rate.isSome
  | .rateSweep => o.rateSweep.isSome

/-- What is done to a voice's signal after its oscillator. -/
inductive Process where
  | level (curve : Curve)
  /-- A factor in u8.8. -/
  | gain (factor : UInt16)
  /-- The largest magnitude let through, in u0.8. -/
  | clip (limit : UInt8)
  /-- An echo after some ms, with its four coefficients in u0.8. -/
  | delay (ms : UInt16) (dry wet store feedback : UInt8)
  /-- Hertz of the middle and of the width. -/
  | bandPass (mid width : UInt16)
  | notch (mid width : UInt16)
  | lowPass (freq : UInt16)
  | highPass (freq : UInt16)
  deriving Repr, DecidableEq

structure VoiceScript where
  oscillator : Oscillator := {}
  chain : List Process := []
  deriving Repr, DecidableEq

def VoiceScript.duration (v : VoiceScript) : Nat :=
  v.chain.foldl
    (fun longest p =>
      match p with
      | .level curve => max longest curve.duration
      | _ => longest)
    0

/-- A sound as described: the voices that were closed and the one that was left open, if any. -/
structure Script where
  master : UInt16 := 0x0100
  closed : List VoiceScript := []
  unclosed : Option VoiceScript := none
  deriving Repr, DecidableEq

namespace Script

def voices (s : Script) : List VoiceScript := s.closed ++ s.unclosed.toList

/-- How long the sound lasts: its longest level curve, in ms. -/
def duration (s : Script) : Nat :=
  s.voices.foldl (fun longest v => max longest v.duration) 0

/-- The longest duration that the header can hold. -/
def durationLimit : Nat := 0xffff

end Script

/-! ### Layout -/

def signature : Bytes := [0xeb, 0xeb]

/-- A curve: first value, count, and the points. -/
def Curve.encode (c : Curve) : Bytes :=
  bytesOfWord c.start ++ c.points.length.toUInt8
    :: c.points.flatMap fun p => bytesOfWord p.ms ++ bytesOfWord p.value

def Harmonics.encode (h : Harmonics) : Bytes :=
  h.coefficients.length.toUInt8 :: h.coefficients

def Oscillator.features (o : Oscillator) : UInt8 :=
  Feature.all.foldl (fun bits f => if o.has f then bits ||| f.bit else bits) 0

def fieldBytes {α : Type} (encode : α → Bytes) : Option α → Bytes
  | some a => encode a
  | none => []

def Oscillator.encode (o : Oscillator) : Bytes :=
  o.features
    :: (fieldBytes (fun w : Waveform => [w.code]) o.shape
      ++ fieldBytes Harmonics.encode o.harmonics
      ++ fieldBytes (fun m : Modulation => bytesOfWord m.rate ++ bytesOfWord m.range) o.fm
      ++ fieldBytes Curve.encode o.fmCurve
      ++ fieldBytes Curve.encode o.rate
      ++ fieldBytes (fun s : Sweep => bytesOfWord s.rate ++ bytesOfWord s.cents) o.rateSweep)

def Process.encode : Process → Bytes
  | .level curve => 0x01 :: curve.encode
  | .gain factor => 0x02 :: bytesOfWord factor
  | .clip limit => [0x03, limit]
  | .delay ms dry wet store feedback =>
    0x04 :: (bytesOfWord ms ++ [dry, wet, store, feedback])
  | .bandPass mid width => 0x05 :: (bytesOfWord mid ++ bytesOfWord width)
  | .notch mid width => 0x06 :: (bytesOfWord mid ++ bytesOfWord width)
  | .lowPass freq => 0x07 :: bytesOfWord freq
  | .highPass freq => 0x08 :: bytesOfWord freq

def VoiceScript.encode (v : VoiceScript) : Bytes :=
  v.oscillator.encode ++ v.chain.flatMap Process.encode

def Script.encode (s : Script) : Bytes :=
  signature ++ bytesOfWord s.duration.toUInt16 ++ bytesOfWord s.master
    ++ (s.closed.flatMap fun v => v.encode ++ [0x00])
    ++ fieldBytes VoiceScript.encode s.unclosed

end Tonewheel.Sound
