/-!
# Errors in sound text (SPEC_FULL, sections 4.1 and 7)

A fault is what is wrong with a line; a `SourceError` is a fault with the number of its line in the
whole text, counted from one.
-/

namespace Tonewheel.Sound

inductive Fault where
  | unknownCommand (keyword : String)
  | masterNotFirst
  | expectedNumber (found : String)
  | expectedMilliseconds (found : String)
  | notInEnum (found : String)
  | tooManyTokens (count : Nat)
  | repeatedFeature (keyword : String)
  | mustComeEarlier (keyword : String)
  | durationTooLong (ms : Nat)
  | badSoundId (found : String)
  | unexpectedOuterLine
  | unclosedBlock
  deriving Repr, DecidableEq

def Fault.message : Fault → String
  | .unknownCommand keyword => "unknown command '" ++ keyword ++ "'"
  | .masterNotFirst => "'master' may only be the first command in a sound"
  | .expectedNumber found => "expected number, found '" ++ found ++ "'"
  | .expectedMilliseconds found => "expected delay in ms, found '" ++ found ++ "'"
  | .notInEnum found => "'" ++ found ++ "' not in enum for this field"
  | .tooManyTokens count => s!"too many tokens: {count}, limit 255"
  | .repeatedFeature keyword => "multiple '" ++ keyword ++ "' commands in voice"
  | .mustComeEarlier keyword =>
    "command '" ++ keyword ++ "' not allowed here, must come earlier"
  | .durationTooLong ms => s!"duration {ms} ms exceeds limit (65535)"
  | .badSoundId found =>
    "expected integer or C identifier for sound name, found '" ++ found ++ "'"
  | .unexpectedOuterLine => "unexpected line at outer scope, expected 'sound ID'"
  | .unclosedBlock => "unclosed sound block"

structure SourceError where
  line : Nat
  fault : Fault
  deriving Repr, DecidableEq

def SourceError.message (e : SourceError) : String :=
  s!"line {e.line}: " ++ e.fault.message

end Tonewheel.Sound
