/-!
# Lines and words (SPEC_FULL, section 4.1)

Sound text is read line by line. A line loses its comment, from `#` on, and the blanks around it,
where every character up to the space counts as blank (`clean`). Its first word is the keyword
(`splitKeyword`), and the rest is cut into words at white space (`words`).
-/

namespace Tonewheel.Text

def isBlank (c : Char) : Bool := c ≤ ' '

/-- The characters that divide words: space, tab, line feed, form feed and carriage return. -/
def isSpace (c : Char) : Bool :=
  c == ' ' || c == '\t' || c == '\n' || c == '\x0c' || c == '\r'

def trimStart (cs : List Char) : List Char := cs.dropWhile isBlank

def trimEnd (cs : List Char) : List Char := (cs.reverse.dropWhile isBlank).reverse

/-- A line without its comment and the blanks around what is left. -/
def clean (line : List Char) : List Char := trimEnd (trimStart (line.takeWhile (· ≠ '#')))

/-- Puts a character in front of the first line, or ends a line of its own. -/
def consLine (c : Char) (lines : List (List Char)) : List (List Char) :=
  if c = '\n' then [c] :: lines
  else
    match lines with
    | [] => [[c]]
    | line :: lines => (c :: line) :: lines

def lines (text : List Char) : List (List Char) := text.foldr consLine []

def splitKeyword (line : List Char) : List Char × List Char :=
  let (keyword, rest) := line.span fun c => !isBlank c
  (keyword, trimStart rest)

/-- Puts a character in front of the words of a text; the first of the pair is the word that is
still growing. -/
def consWord (c : Char) (state : List Char × List (List Char)) : List Char × List (List Char) :=
  if isSpace c then
    match state.1 with
    | [] => ([], state.2)
    | word => ([], word :: state.2)
  else (c :: state.1, state.2)

def words (text : List Char) : List (List Char) :=
  match text.foldr consWord ([], []) with
  | ([], done) => done
  | (word, done) => word :: done

/-! ### Nothing is lost between the lines -/

theorem flatten_consLine (c : Char) (ls : List (List Char)) :
    (consLine c ls).flatten = c :: ls.flatten := by
  unfold consLine
  split
  · rfl
  · cases ls <;> rfl

theorem flatten_lines (text : List Char) : (lines text).flatten = text := by
  induction text with
  | nil => rfl
  | cons c cs ih =>
    have step : lines (c :: cs) = consLine c (lines cs) := rfl
    rw [step, flatten_consLine, ih]

end Tonewheel.Text
