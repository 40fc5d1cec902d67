import Tonewheel.Numeric.Decimal
import Tonewheel.Numeric.Integer
import Tonewheel.Sound.Script
import Tonewheel.Sound.SourceError
import Tonewheel.Text.Line

/-!
# Sound text (SPEC_FULL, section 4.1)

One command a line describes a sound. `master` comes before all voices. The other commands belong to
a voice, which the first of them opens and `endvoice` closes: features of its oscillator in their
order and each at most once, then processes in any order. `Script.ofText` reads a text into a script
and `compile` into its bytes.

Where a line has several faults, an out-of-place command is reported before its argument.
-/

namespace Tonewheel.Sound

/-! ### Commands -/

inductive ProcessKind where
  | level
  | gain
  | clip
  | delay
  | bandPass
  | notch
  | lowPass
  | highPass
  deriving Repr, DecidableEq

inductive Command where
  | master
  | endVoice
  | feature (feature : Feature)
  | process (kind : ProcessKind)
  deriving Repr, DecidableEq

def Command.ofKeyword? (keyword : String) : Option Command :=
  match keyword with
  | "master" => some .master
  | "endvoice" => some .endVoice
  | "shape" => some (.feature .shape)
  | "harmonics" => some (.feature .harmonics)
  | "fm" => some (.feature .fm)
  | "fmenv" => some (.feature .fmCurve)
  | "rate" => some (.feature .rate)
  | "ratelfo" => some (.feature .rateSweep)
  | "level" => some (.process .level)
  | "gain" => some (.process .gain)
  | "clip" => some (.process .clip)
  | "delay" => some (.process .delay)
  | "bandpass" => some (.process .bandPass)
  | "notch" => some (.process .notch)
  | "lopass" => some (.process .lowPass)
  | "hipass" => some (.process .highPass)
  | _ => none

/-! ### Arguments -/

def readNumber (token : List Char) : Except Fault Float :=
  match (Decimal.read token).map Decimal.toDouble with
  | some v => if v.isFinite then .ok v else .error (.expectedNumber (String.ofList token))
  | none => .error (.expectedNumber (String.ofList token))

/-- A number times a scale, truncated and held between zero and `limit`. -/
def quantize (scale : Float) (limit : Nat) (v : Float) : Nat :=
  min limit (v * scale).toUInt64.toNat

def fixed88 (v : Float) : UInt16 := (quantize 256 0xffff v).toUInt16

def fixed08 (v : Float) : UInt8 := (quantize 256 0xff v).toUInt8

def whole16 (v : Float) : UInt16 := (quantize 1 0xffff v).toUInt16

def fixed016 (v : Float) : UInt16 := (quantize 65536 0xffff v).toUInt16

/-- The number in the first of some words, and the words after it. A missing word counts as
empty. -/
def readField (tokens : List (List Char)) : Except Fault (Float × List (List Char)) := do
  let v ← readNumber (tokens.headD [])
  return (v, tokens.tail)

/-- A time in whole ms, held within 16 bits. -/
def readMs (token : List Char) : Except Fault UInt16 :=
  match Integer.read token with
  | some ms => .ok (max 0 (min 0xffff ms)).toNat.toUInt16
  | none => .error (.expectedMilliseconds (String.ofList token))

def readPoints (field : Float → UInt16) : List (List Char) → Except Fault (List Breakpoint)
  | [] => .ok []
  | [ms] => do
    let _ ← readMs ms
    .error (.expectedNumber "")
  | ms :: value :: rest => do
    let ms ← readMs ms
    let value ← readNumber value
    let points ← readPoints field rest
    return { ms, value := field value } :: points

/-- A curve: a first value, then pairs of a time and a value. -/
def readCurve (field : Float → UInt16) (arg : List Char) : Except Fault Curve := do
  let tokens := Text.words arg
  let start ← readNumber (tokens.headD [])
  let points ← readPoints field tokens.tail
  if h : points.length ≤ 255 then return { start := field start, points, length_le := h }
  else .error (.tooManyTokens points.length)

def readHarmonics (arg : List Char) : Except Fault Harmonics := do
  let coefficients ← (Text.words arg).mapM fun token => fixed08 <$> readNumber token
  if h : coefficients.length ≤ 255 then return { coefficients, length_le := h }
  else .error (.tooManyTokens coefficients.length)

def readWaveform (arg : List Char) : Except Fault Waveform :=
  match Waveform.all.find? fun w => w.name = String.ofList arg with
  | some w => .ok w
  | none => .error (.notInEnum (String.ofList arg))

def Oscillator.read (o : Oscillator) (feature : Feature) (arg : List Char) :
    Except Fault Oscillator :=
  match feature with
  | .shape => do return { o with shape := some (← readWaveform arg) }
  | .harmonics => do return { o with harmonics := some (← readHarmonics arg) }
  | .fm => do
    let (rate, rest) ← readField (Text.words arg)
    let (range, _) ← readField rest
    return { o with fm := some { rate := fixed88 rate, range := fixed88 range } }
  | .fmCurve => do return { o with fmCurve := some (← readCurve fixed016 arg) }
  | .rate => do return { o with rate := some (← readCurve whole16 arg) }
  | .rateSweep => do
    let (rate, rest) ← readField (Text.words arg)
    let (cents, _) ← readField rest
    return { o with rateSweep := some { rate := fixed88 rate, cents := whole16 cents } }

/-- The process of a kind with its argument. Words after the last field are ignored. -/
def Process.read (kind : ProcessKind) (arg : List Char) : Except Fault Process :=
  let tokens := Text.words arg
  match kind with
  | .level => do return .level (← readCurve fixed016 arg)
  | .gain => do
    let (factor, _) ← readField tokens
    return .gain (fixed88 factor)
  | .clip => do
    let (limit, _) ← readField tokens
    return .clip (fixed08 limit)
  | .delay => do
    let (ms, rest) ← readField tokens
    let (dry, rest) ← readField rest
    let (wet, rest) ← readField rest
    let (store, rest) ← readField rest
    let (feedback, _) ← readField rest
    return .delay (whole16 ms) (fixed08 dry) (fixed08 wet) (fixed08 store) (fixed08 feedback)
  | .bandPass => do
    let (mid, rest) ← readField tokens
    let (width, _) ← readField rest
    return .bandPass (whole16 mid) (whole16 width)
  | .notch => do
    let (mid, rest) ← readField tokens
    let (width, _) ← readField rest
    return .notch (whole16 mid) (whole16 width)
  | .lowPass => do
    let (freq, _) ← readField tokens
    return .lowPass (whole16 freq)
  | .highPass => do
    let (freq, _) ← readField tokens
    return .highPass (whole16 freq)

/-! ### Lines -/

/-- Checks that a feature may still be given to a voice: no process came yet, it is not there, and
no later feature is. -/
def VoiceScript.admit (v : VoiceScript) (keyword : String) (feature : Feature) :
    Except Fault Unit :=
  if !v.chain.isEmpty then .error (.mustComeEarlier keyword)
  else if v.oscillator.has feature then .error (.repeatedFeature keyword)
  else if Feature.all.any fun f => feature.rank < f.rank && v.oscillator.has f then
    .error (.mustComeEarlier keyword)
  else .ok ()

def Script.accept (s : Script) (keyword arg : List Char) : Except Fault Script :=
  let name := String.ofList keyword
  let voice := s.unclosed.getD {}
  match Command.ofKeyword? name with
  | none => .error (.unknownCommand name)
  | some .master =>
    if !s.voices.isEmpty then .error .masterNotFirst
    else do
      let v ← readNumber arg
      return { s with master := fixed88 v }
  | some .endVoice =>
    .ok { s with closed := s.closed ++ s.unclosed.toList, unclosed := none }
  | some (.feature feature) => do
    voice.admit name feature
    let oscillator ← voice.oscillator.read feature arg
    return { s with unclosed := some { voice with oscillator } }
  | some (.process kind) => do
    let process ← Process.read kind arg
    return { s with unclosed := some { voice with chain := voice.chain ++ [process] } }

/-- A script after one more cleaned line; an empty line changes nothing. -/
def Script.acceptLine (s : Script) (line : List Char) : Except Fault Script :=
  if line.isEmpty then .ok s
  else
    let (keyword, arg) := Text.splitKeyword line
    s.accept keyword arg

/-- A script after the lines of a text of which `line` are already read. A sound that lasts too long
is reported on the last line. -/
def Script.acceptLines (s : Script) (line : Nat) : List (List Char) → Except SourceError Script
  | [] =>
    if Script.durationLimit < s.duration then .error ⟨line, .durationTooLong s.duration⟩
    else .ok s
  | raw :: rest =>
    match s.acceptLine (Text.clean raw) with
    | .ok s => s.acceptLines (line + 1) rest
    | .error fault => .error ⟨line + 1, fault⟩

/-- The script of a sound whose first line is number `before + 1`. -/
def Script.ofText (text : String) (before : Nat) : Except SourceError Script :=
  Script.acceptLines {} before (Text.lines text.toList)

/-- Compiles a sound whose first line is number `before + 1` of some larger text. -/
def compile (text : String) (before : Nat) : Except SourceError Bytes :=
  (Script.ofText text before).map Script.encode

end Tonewheel.Sound
