import Tonewheel.Store
import Tonewheel.Synth.Message

/-!
# Loading programs (SPEC_FULL, section 13)

A host plays one input: a song, or a sound in binary form or as text. What it is follows from its
first bytes. A second text can hold the numbered sounds that drum channels play.
-/

namespace Tonewheel.Host

structure Program where
  kind : ResourceKind
  store : Store

/-- Why an input is not loaded. Texts are cited by the name of their file. -/
inductive LoadError where
  /-- A fault in the bank of numbered sounds. -/
  | bank (name : String) (error : Sound.SourceError)
  | song (error : DecodeError)
  | sound (error : DecodeError)
  /-- The input is no text either. -/
  | notText (name : String)
  /-- A fault in the input's text. -/
  | source (name : String) (error : Sound.SourceError)
  | noSuchSound (name : String) (id : UInt16)
  | noSounds (name : String)

def LoadError.message : LoadError → String
  | .bank name e => s!"{name}:{e.line}: " ++ e.fault.message
  | .song e => "song header is invalid: " ++ e.message
  | .sound e => "sound program is invalid: " ++ e.message
  | .notText name => name ++ " is neither a song nor SFG text"
  | .source name e => name ++ ": " ++ e.message
  | .noSuchSound name id => s!"{name}: no sound {id.toNat}"
  | .noSounds name => name ++ ": no sounds"

namespace Program

def songKey : ResourceKey := ⟨.song, 0, 1⟩

/-- The key under which an input sound is stored, above any number of a bank. -/
def soundKey : ResourceKey := ⟨.sound, 0, 0xfff0⟩

def checkRate : UInt32 := 44100

def textOfBytes (bytes : Bytes) : Option String := String.fromUTF8? ⟨bytes.toArray⟩

/-- Whether a block is asked for: the block of a number, or any if no number is given. -/
def isWanted (id : Option UInt16) (block : Sound.BankBlock) : Bool :=
  match id with
  | none => true
  | some n => block.id.number? == some n

/-- Compiles one sound of a text: the one of a number, or the first. The fences of the whole text
have to be right. -/
def compileText (name text : String) (id : Option UInt16) : Except LoadError Bytes :=
  let reading := Sound.readBank text
  let compiled : Except LoadError (Option Bytes) :=
    match reading.blocks.find? (isWanted id) with
    | none => .ok none
    | some block => ((Sound.compile block.text block.fence).mapError (.source name)).map some
  match compiled, reading.error, id with
  | .error e, _, _ => .error e
  | .ok _, some e, _ => .error (.source name e)
  | .ok (some bytes), none, _ => .ok bytes
  | .ok none, none, some n => .error (.noSuchSound name n)
  | .ok none, none, none => .error (.noSounds name)

def loadBank (bank : Option (String × String)) : Except LoadError Store :=
  match bank with
  | none => .ok {}
  | some (name, text) =>
    match Store.insertBank {} 0 text none with
    | (.ok _, store) => .ok store
    | (.error e, _) => .error (.bank name e)

/-- Loads an input, and a bank given by its name and text. -/
def load (name : String) (bytes : Bytes) (id : Option UInt16) (bank : Option (String × String)) :
    Except LoadError Program := do
  let store ← loadBank bank
  if Song.signature.isPrefixOf bytes then
    let _ ← (Player.make checkRate bytes false none).mapError .song
    return { kind := .song, store := store.insert songKey bytes }
  else if Sound.signature.isPrefixOf bytes then
    let _ ← (Sound.Printer.make checkRate bytes).mapError .sound
    return { kind := .sound, store := store.insert soundKey bytes }
  else
    match textOfBytes bytes with
    | none => .error (.notText name)
    | some text =>
      let compiled ← compileText name text id
      return { kind := .sound, store := store.insert soundKey compiled }

def loaded (p : Program) : Bytes :=
  match p.kind with
  | .song => (p.store.get? songKey).getD []
  | .sound => (p.store.get? soundKey).getD []

def start (p : Program) (s : Synth) (repeats : Bool) : Synth :=
  match p.kind with
  | .song => s.playSong (songKey.qualifier, songKey.id) true repeats
  | .sound => s.playSound ⟨soundKey.qualifier, soundKey.id⟩ 1

/-! ### Rendering to the end -/

/-- The longest recording that is made until silence, in seconds. -/
def longestSeconds : Nat := 600

/-- The frames of a recording: those of its seconds, or the longest there is. -/
def frameLimit (rate : UInt32) (seconds : Option Float32) : Nat :=
  match seconds with
  | some x => ((if 0 < x then x else 0) * rate.toFloat32).toUInt64.toNat
  | none => longestSeconds * rate.toNat

def updateFrames (format : Format) : Nat := passSamples / format.channels

/-- Records block after block: until `limit` frames are made or, unless the length is fixed, until
nothing sounds. -/
def recordFrom (limit : Nat) (isFixed : Bool) (s : Synth) (frames : Nat) (out : Array Int) :
    Nat × Array Int :=
  if h : frames < limit then
    let n : SomeFrames := ⟨max 1 (min (limit - frames) (updateFrames s.format)), by omega⟩
    let (block, s) := s.renderWords (n.val * s.format.channels)
    if !isFixed && s.isIdle then (frames + n.val, out ++ block)
    else recordFrom limit isFixed s (frames + n.val) (out ++ block)
  else (frames, out)
  termination_by limit - frames
  decreasing_by
    have := n.property
    omega

/-- Records a program: how many frames were made, and the words. -/
def record (p : Program) (format : Format) (seconds : Option Float32) : Nat × Array Int :=
  let s := p.start ((Synth.ofFormat format).setResources p.store) false
  recordFrom (frameLimit format.rate seconds) seconds.isSome s 0 #[]

end Program

end Tonewheel.Host
