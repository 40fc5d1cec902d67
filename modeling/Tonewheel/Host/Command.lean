import Tonewheel.Host.Arguments
import Tonewheel.Host.FileTree
import Tonewheel.Host.Program
import Tonewheel.Host.Wav
import Tonewheel.Song.Writer

/-!
# The command line (SPEC_FULL, section 13)

    compile INPUT [--out DIR]          every sound of a text, each to a file of its own
    render INPUT -o FILE [options]     a song or sound to a WAV file
    demo-song -o FILE                  a short song

`Command.parse?` reads the arguments and `Command.run` carries a command out over any file
operations. The exit code is zero on success and one on failure.
-/

namespace Tonewheel.Host

structure RenderOptions where
  input : String
  output : String
  id : Option UInt16 := none
  bank : Option String := none
  rate : UInt32 := 44100
  channels : Nat := 2
  seconds : Option Float32 := none

inductive Command where
  | compile (input out : String)
  | render (options : RenderOptions)
  | demoSong (output : String)

namespace Command

/-! ### Arguments -/

def parseCompile (arguments : List String) : Option Command := do
  let a ← Arguments.read [.out] arguments {}
  let [input] := a.positional | none
  return .compile input ((a.get? .out).getD ".")

def parseRender (arguments : List String) : Option Command := do
  let a ← Arguments.read [.output, .id, .sounds, .rate, .channels, .seconds] arguments {}
  let [input] := a.positional | none
  let output ← a.get? .output
  let id ← a.optional .id (readBounded 0xffff)
  let rate ← a.optional .rate (readBounded 0xffffffff)
  let channels ← a.optional .channels readCount
  let seconds ← a.optional .seconds fun text => (Decimal.read text.toList).map Decimal.toSingle
  return .render
    { input
      output
      id := id.map Nat.toUInt16
      bank := a.get? .sounds
      rate := (rate.getD 44100).toUInt32
      channels := channels.getD 2
      seconds }

def parseDemoSong (arguments : List String) : Option Command := do
  let a ← Arguments.read [.output] arguments {}
  let [] := a.positional | none
  return .demoSong (← a.get? .output)

/-- Reads the arguments of the command line, of which the first is the command. -/
def parse? : List String → Option Command
  | "compile" :: rest => parseCompile rest
  | "render" :: rest => parseRender rest
  | "demo-song" :: rest => parseDemoSong rest
  | _ => none

/-! ### The demo song -/

def demoBeat : UInt32 := 400

def demoChords : List (List UInt8) :=
  [[60, 64, 67, 72], [57, 60, 64, 69], [53, 57, 60, 65], [55, 59, 62, 67]]

def demoStep (w : Writer) (note : UInt8) (step : Nat) : Writer :=
  let w := w.note 0 note 90 (demoBeat / 2)
  let w := if step % 4 = 0 then w.note 7 1 120 0 else w
  w.wait (demoBeat / 2)

/-- One chord: a bass note under an arpeggio up and down. -/
def demoChord (w : Writer) (chord : List UInt8) : Writer :=
  let w := w.note 1 (chord.headD 0 - 24) 110 (demoBeat * 2)
  (chord ++ chord.reverse).zipIdx.foldl (fun w (note, step) => demoStep w note step) w

/-- Two bars of arpeggio over a bass line, with a few drums. -/
def demoSongBytes : Bytes :=
  let w := Writer.ofTempo (demoBeat * 1000)
  let w := w.channel 0 { program := 0x50, volume := 0xc0, pan := 0x80 }
  let w := w.channel 1 { program := 0x22, volume := 0xff, pan := 0x80 }
  let w := w.channel 7 { program := 0x80, volume := 0xff, pan := 0x80 }
  (demoChords.foldl demoChord w).finish

/-! ### Running -/

variable {m : Type → Type} [Monad m]

def fail (files : Files m) (text : String) : m UInt32 := do
  files.report ("Error: " ++ text ++ "\n")
  return 1

def soundFileName : Sound.SoundId → String
  | .anonymous => "sound.sfg"
  | id => id.text ++ ".sfg"

def compileBank (text : String) : Except Sound.SourceError (List (Sound.SoundId × Bytes)) := do
  let reading := Sound.readBank text
  let compiled ← reading.blocks.mapM fun block =>
    (Sound.compile block.text block.fence).map fun bytes => (block.id, bytes)
  match reading.error with
  | some e => .error e
  | none => return compiled

def writeSounds (files : Files m) (out : String) : List (Sound.SoundId × Bytes) → m UInt32
  | [] => return 0
  | (id, bytes) :: rest => do
    let path := joinPath out (soundFileName id)
    if ← files.writeFile path bytes then
      files.print s!"{path} ({bytes.length} bytes)\n"
      writeSounds files out rest
    else fail files ("failed to write " ++ path)

def runCompile (files : Files m) (input out : String) : m UInt32 := do
  match (← files.readFile input).bind Program.textOfBytes with
  | none => fail files ("failed to read " ++ input)
  | some text =>
    if ← files.makeDirectories out then
      match compileBank text with
      | .ok sounds => writeSounds files out sounds
      | .error e =>
        files.report (s!"{input}:{e.line}: " ++ e.fault.message ++ "\n")
        return 1
    else fail files ("failed to create " ++ out)

def readBankText (files : Files m) (bank : Option String) :
    m (Except String (Option (String × String))) := do
  match bank with
  | none => return .ok none
  | some path =>
    match (← files.readFile path).bind Program.textOfBytes with
    | none => return .error ("failed to read " ++ path)
    | some text => return .ok (some (path, text))

def loadProgram (files : Files m) (o : RenderOptions) : m (Except String Program) := do
  match ← readBankText files o.bank with
  | .error e => return .error e
  | .ok bank =>
    match Program.loadBank bank, ← files.readFile o.input with
    | .error e, _ => return .error e.message
    | .ok _, none => return .error ("failed to read " ++ o.input)
    | .ok _, some bytes => return (Program.load o.input bytes o.id bank).mapError LoadError.message

/-- Renders a song or sound. The file is made first, so that one that cannot be made is reported
before the work. -/
def runRender (files : Files m) (o : RenderOptions) : m UInt32 := do
  match Format.make o.rate o.channels with
  | .error e => fail files ("invalid output format: " ++ e.message)
  | .ok format =>
    match ← loadProgram files o with
    | .error e => fail files e
    | .ok program =>
      if ← files.writeFile o.output [] then
        let (frames, words) := program.record format o.seconds
        if ← files.writeFile o.output (Wav.encode o.rate.toNat o.channels words) then
          files.print s!"{o.output}: {frames} frames at {o.rate.toNat} Hz\n"
          return 0
        else fail files ("failed to write " ++ o.output)
      else fail files ("failed to create " ++ o.output)

def runDemoSong (files : Files m) (output : String) : m UInt32 := do
  if ← files.writeFile output demoSongBytes then
    files.print s!"wrote {output}\n"
    return 0
  else fail files ("failed to write " ++ output)

def run (files : Files m) : Command → m UInt32
  | .compile input out => runCompile files input out
  | .render options => runRender files options
  | .demoSong output => runDemoSong files output

def usage : String :=
  "usage: compile INPUT [--out DIR]\n"
    ++ "       render INPUT -o FILE [--id ID] [--sounds FILE] [--rate HZ] [--channels N]\n"
    ++ "              [--seconds S]\n"
    ++ "       demo-song -o FILE\n"

/-- Reads and carries out a whole command line; arguments that cannot be read give code two. -/
def runArguments (files : Files m) (arguments : List String) : m UInt32 := do
  match parse? arguments with
  | some command => run files command
  | none =>
    files.report usage
    return 2

end Command

end Tonewheel.Host
