import Tonewheel.Numeric.Integer

/-!
# Command line arguments (SPEC_FULL, section 13)

An argument is an option or a positional value. Every option has a value: in the same argument,
after an equals sign or right after a short name, or else in the next one, which must not look like
an option itself. A hyphen alone is a value. After `--` all arguments are positional. An option is
given at most once, and no value is empty.
-/

namespace Tonewheel.Host

inductive OptionName where
  | out
  | output
  | id
  | sounds
  | rate
  | channels
  | seconds
  deriving Repr, DecidableEq

def OptionName.ofLong? (name : String) : Option OptionName :=
  match name with
  | "out" => some .out
  | "output" => some .output
  | "id" => some .id
  | "sounds" => some .sounds
  | "rate" => some .rate
  | "channels" => some .channels
  | "seconds" => some .seconds
  | _ => none

def OptionName.ofShort? (name : Char) : Option OptionName :=
  if name = 'o' then some .output else none

inductive Argument where
  /-- The end of the options. -/
  | escape
  /-- An option, if its name is one, and the value in the same argument. -/
  | option (name : Option OptionName) (value : Option String)
  | plain
  deriving Repr, DecidableEq

/-- The value right after a short name, without an equals sign in front. -/
def attachedValue : List Char → Option String
  | [] => none
  | '=' :: cs => some (String.ofList cs)
  | cs => some (String.ofList cs)

def Argument.ofText (text : String) : Argument :=
  match text.toList with
  | ['-', '-'] => .escape
  | '-' :: '-' :: cs =>
    match cs.span (· ≠ '=') with
    | (name, []) => .option (OptionName.ofLong? (String.ofList name)) none
    | (name, _ :: value) =>
      .option (OptionName.ofLong? (String.ofList name)) (some (String.ofList value))
  | '-' :: name :: cs => .option (OptionName.ofShort? name) (attachedValue cs)
  | _ => .plain

/-- The options that were given, and the positional values in order. -/
structure Arguments where
  options : List (OptionName × String) := []
  positional : List String := []
  deriving Repr, DecidableEq

namespace Arguments

def get? (a : Arguments) (name : OptionName) : Option String := a.options.lookup name

def addPositional (a : Arguments) (value : String) : Option Arguments :=
  if value = "" then none else some { a with positional := a.positional ++ [value] }

def addOption (known : List OptionName) (a : Arguments) (name : Option OptionName)
    (value : String) : Option Arguments :=
  match name with
  | none => none
  | some name =>
    if known.contains name && (a.get? name).isNone && value ≠ "" then
      some { a with options := (name, value) :: a.options }
    else none

def read (known : List OptionName) : List String → Arguments → Option Arguments
  | [], a => some a
  | text :: rest, a =>
    match Argument.ofText text with
    | .escape => rest.foldlM addPositional a
    | .plain => (a.addPositional text).bind (read known rest)
    | .option name (some value) => (a.addOption known name value).bind (read known rest)
    | .option name none =>
      match rest with
      | [] => none
      | next :: rest =>
        match Argument.ofText next with
        | .plain => (a.addOption known name next).bind (read known rest)
        | _ => none

/-- The value of an option that may be missing; a value that cannot be read is an error. -/
def optional {α : Type} (a : Arguments) (name : OptionName) (readValue : String → Option α) :
    Option (Option α) :=
  match a.get? name with
  | none => some none
  | some text => (readValue text).map some

end Arguments

/-! ### Values -/

/-- An integer from zero to a limit, in decimal digits after an optional sign; zero may have a
minus. -/
def readBounded (limit : Nat) (text : String) : Option Nat :=
  let (negative, digits) := Decimal.splitSign text.toList
  match Integer.readDigits digits with
  | none => none
  | some n =>
    let value := if negative then -n else n
    if 0 ≤ value ∧ value ≤ limit then some value.toNat else none

def countLimit : Nat := 0xffffffffffffffff

def readCount (text : String) : Option Nat :=
  let digits :=
    match text.toList with
    | '+' :: cs => cs
    | cs => cs
  if digits.isEmpty || !digits.all Char.isDigit then none
  else
    let n := Decimal.digitsValue digits
    if n ≤ countLimit then some n else none

end Tonewheel.Host
