import Tonewheel.Bytes

/-!
# Files (SPEC_FULL, section 13)

What the command line needs of a file system, as a record of operations over any monad (`Files`),
and a file system in memory that has them (`FileTree`).

A path is a list of steps between slashes; one with a slash in front starts from the top. A step by
name leads into a directory that has to be there, `..` leads out of one, and `.` or nothing stays.
So `a/../b` is `b` only if `a` is a directory, and a path that ends with a slash is never the path
of a file.
-/

namespace Tonewheel.Host

/-- The operations on files and on the two output streams. Failure of an operation is part of its
result. -/
structure Files (m : Type → Type) where
  readFile : String → m (Option Bytes)
  /-- Makes a directory and those above it; an existing directory is fine. -/
  makeDirectories : String → m Bool
  writeFile : String → Bytes → m Bool
  print : String → m Unit
  report : String → m Unit

/-- The steps of a path. An empty first step means the top. -/
def pathSteps (path : String) : List String := path.splitOn "/"

def joinPath (directory name : String) : String :=
  if directory = "" then name
  else if directory.endsWith "/" then directory ++ name
  else directory ++ "/" ++ name

def isIdleStep (step : String) : Bool := step = "" || step = "."

def nameLimit : Nat := 255

def isName (step : String) : Bool :=
  !isIdleStep step && step ≠ ".." && step.utf8ByteSize ≤ nameLimit

/-- Files and directories in memory, and what was printed. A place is the list of the names that
lead to it from the top. -/
structure FileTree where
  files : List (List String × Bytes) := []
  directories : List (List String) := []
  /-- The directory from which paths start that have no slash in front. -/
  here : List String := []
  output : String := ""
  reports : String := ""

namespace FileTree

def hasFile (t : FileTree) (place : List String) : Bool := (t.files.lookup place).isSome

/-- Whether there is a directory at a place: one that was made, or one above a file or directory.
The top is a directory. -/
def hasDirectory (t : FileTree) (place : List String) : Bool :=
  place.isEmpty || t.directories.any (place.isPrefixOf ·)
    || t.files.any fun f => place.isPrefixOf f.1 && place != f.1

/-- Where a step leads from a directory, if that is a directory. -/
def enter (t : FileTree) (place : List String) (step : String) : Option (List String) :=
  if isIdleStep step then some place
  else if step = ".." then some place.dropLast
  else
    let inner := place ++ [step]
    if t.hasDirectory inner then some inner else none

def directory? (t : FileTree) : (steps : List String) → Option (List String)
  | "" :: rest => rest.foldlM t.enter []
  | steps => steps.foldlM t.enter t.here

/-- The place of a last step that is a name, in a directory to which the steps before it lead. -/
def place? (t : FileTree) (steps : List String) : Option (List String) :=
  match steps.getLast? with
  | none => none
  | some name =>
    if isName name then (t.directory? steps.dropLast).map fun place => place ++ [name] else none

def read (t : FileTree) (path : String) : Option Bytes :=
  (t.place? (pathSteps path)).bind fun place => t.files.lookup place

def write (t : FileTree) (path : String) (bytes : Bytes) : Bool × FileTree :=
  match t.place? (pathSteps path) with
  | none => (false, t)
  | some place =>
    if t.hasDirectory place then (false, t)
    else (true, { t with files := (place, bytes) :: t.files.filter fun f => f.1 != place })

def makeDirectory (t : FileTree) (steps : List String) : Option FileTree :=
  match t.directory? steps, t.place? steps with
  | some _, _ => some t
  | none, some place =>
    if t.hasFile place then none else some { t with directories := place :: t.directories }
  | none, none => none

/-- The steps without those that stay; an empty first step is kept. -/
def activeSteps : List String → List String
  | "" :: rest => "" :: rest.filter fun step => !isIdleStep step
  | steps => steps.filter fun step => !isIdleStep step

/-- The directories above the end of some steps, from the first. -/
def above (steps : List String) : List (List String) := (List.range steps.length).map steps.take

/-- Makes a directory and those above it. Steps that stay are no directories above, and slashes at
the end of the path are dropped. -/
def makeDirectories (t : FileTree) (path : String) : Option FileTree :=
  let steps := pathSteps path
  let last := (steps.reverse.dropWhile (· = "")).reverse
  ((above (activeSteps steps)).foldlM makeDirectory t).bind fun t => t.makeDirectory last

def operations : Files (StateM FileTree) where
  readFile path := do return (← get).read path
  makeDirectories path := modifyGet fun t =>
    match t.makeDirectories path with
    | some made => (true, made)
    | none => (false, t)
  writeFile path bytes := modifyGet fun t => t.write path bytes
  print text := modify fun t => { t with output := t.output ++ text }
  report text := modify fun t => { t with reports := t.reports ++ text }

def pathOf? (t : FileTree) (place : List String) : Option String :=
  if t.here.isPrefixOf place then some ("/".intercalate (place.drop t.here.length)) else none

def listing (t : FileTree) : List (String × Bytes) :=
  (t.files.filterMap fun f => (t.pathOf? f.1).map fun path => (path, f.2)).mergeSort
    fun a b => a.1 ≤ b.1

def ofFiles (here : List String) (files : List (String × Bytes)) : FileTree :=
  { here
    directories := [here]
    files := files.map fun f => (here ++ (pathSteps f.1).filter fun step => !isIdleStep step, f.2) }

end FileTree

end Tonewheel.Host
