import Tonewheel.Numeric.Integer
import Tonewheel.Sound.SourceError
import Tonewheel.Text.Line

/-!
# Sound banks (SPEC_FULL, section 4.1)

A bank is a text of several sounds, each between a line `sound ID` and a line `end`. A text whose
first line is no such fence is one anonymous sound. `readBank` gives the blocks in order, up to the
first error in the fences.
-/

namespace Tonewheel.Sound

inductive SoundId where
  /-- A number from 1 to 65535. -/
  | number (n : UInt16)
  /-- An identifier. -/
  | name (text : String)
  /-- A sound without a fence. -/
  | anonymous
  deriving Repr, DecidableEq

namespace SoundId

def text : SoundId → String
  | .number n => toString n.toNat
  | .name text => text
  | .anonymous => "(anonymous)"

def number? : SoundId → Option UInt16
  | .number n => some n
  | _ => none

def isInitial (c : Char) : Bool := c.isAlpha || c == '_'

def isInner (c : Char) : Bool := c.isAlphanum || c == '_'

/-- An identifier: a letter or an underscore, then letters, digits and underscores. -/
def isIdentifier : List Char → Bool
  | [] => false
  | c :: cs => isInitial c && cs.all isInner

/-- Reads an id: an integer from 1 to 65535, or an identifier. -/
def read (cs : List Char) : Option SoundId :=
  let asName := if isIdentifier cs then some (.name (String.ofList cs)) else none
  match Integer.read cs with
  | some n => if 1 ≤ n ∧ n ≤ 0xffff then some (.number n.toNat.toUInt16) else asName
  | none => asName

end SoundId

structure BankBlock where
  id : SoundId
  text : String
  /-- The number of the fence line, zero for an anonymous sound. -/
  fence : Nat
  deriving Repr, DecidableEq

/-- What was read of a bank: its blocks, and the error that ended it, if any. -/
structure BankReading where
  blocks : List BankBlock := []
  error : Option SourceError := none
  deriving Repr, DecidableEq

namespace BankReading

def cons (block : BankBlock) (r : BankReading) : BankReading :=
  { r with blocks := block :: r.blocks }

def failed (line : Nat) (fault : Fault) : BankReading :=
  { error := some { line, fault } }

end BankReading

def fenceId? : List Char → Option (List Char)
  | 's' :: 'o' :: 'u' :: 'n' :: 'd' :: c :: rest =>
    if Text.isBlank c then some (Text.trimStart rest) else none
  | _ => none

/-- An open block: its id, the number of its fence line, and its lines so far, latest first. -/
structure OpenBlock where
  id : SoundId
  fence : Nat
  reversed : List (List Char) := []

def OpenBlock.close (b : OpenBlock) : BankBlock :=
  { id := b.id, text := String.ofList b.reversed.reverse.flatten, fence := b.fence }

/-- Reads the lines that follow the first fence; `line` is the number of lines before them. -/
def readBlocks (line : Nat) (current : Option OpenBlock) : List (List Char) → BankReading
  | [] =>
    match current with
    | some block => .failed block.fence .unclosedBlock
    | none => {}
  | raw :: rest =>
    let content := Text.clean raw
    match current with
    | some block =>
      if content = ['e', 'n', 'd'] then (readBlocks (line + 1) none rest).cons block.close
      else readBlocks (line + 1) (some { block with reversed := raw :: block.reversed }) rest
    | none =>
      if content.isEmpty then readBlocks (line + 1) none rest
      else
        match fenceId? content with
        | some idText =>
          match SoundId.read idText with
          | some id => readBlocks (line + 1) (some { id, fence := line + 1 }) rest
          | none => .failed (line + 1) (.badSoundId (String.ofList idText))
        | none => .failed (line + 1) .unexpectedOuterLine

/-- The first line of a text that is not empty once it is cleaned. -/
def firstContent? (lines : List (List Char)) : Option (List Char) :=
  (lines.map Text.clean).find? fun content => !content.isEmpty

def readBank (text : String) : BankReading :=
  let lines := Text.lines text.toList
  match firstContent? lines with
  | none => {}
  | some content =>
    if (fenceId? content).isSome then readBlocks 0 none lines
    else { blocks := [{ id := .anonymous, text, fence := 0 }] }

end Tonewheel.Sound
