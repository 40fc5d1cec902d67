import Tonewheel.Sound.Bank

/-!
# The layout of sound banks

A place in a bank is outer when it is reached from the start over blank lines and whole blocks
(`Outer`). The blocks that are read begin at outer places, with the lines between their fence and
the first line `end` (`BlockOf`), and the error that ends a reading is about the line at an outer
place (`OuterError`). A block is text again, and its lines are lines of the bank
(`BlockOf.lines_text`).
-/

namespace Tonewheel.Text

/-! ### Lines of some lines -/

def Terminated (line : List Char) : Prop := ∃ body, line = body ++ ['\n'] ∧ '\n' ∉ body

theorem Terminated.cons {c : Char} {line : List Char} (hc : c ≠ '\n') (h : Terminated line) :
    Terminated (c :: line) := by
  obtain ⟨body, rfl, hbody⟩ := h
  refine ⟨c :: body, rfl, fun hmem => ?_⟩
  rcases List.mem_cons.mp hmem with hsame | hmem
  · exact hc hsame.symm
  · exact hbody hmem

/-- Only the last line of a text can be without a line feed. -/
theorem terminated_of_mem_dropLast {text line : List Char} (h : line ∈ (lines text).dropLast) :
    Terminated line := by
  induction text generalizing line with
  | nil => cases h
  | cons c cs ih =>
    have hlines : lines (c :: cs) = consLine c (lines cs) := rfl
    rw [hlines] at h
    unfold consLine at h
    split at h
    next hfeed =>
      cases hrest : lines cs with
      | nil =>
        rw [hrest] at h
        cases h
      | cons first more =>
        rw [hrest, List.dropLast_cons_cons] at h
        rcases List.mem_cons.mp h with rfl | h
        · exact ⟨[], by rw [hfeed]; rfl, List.not_mem_nil⟩
        · exact ih (hrest ▸ h)
    next hc =>
      cases hrest : lines cs with
      | nil =>
        rw [hrest] at h
        cases h
      | cons first more =>
        rw [hrest] at h ih
        cases more with
        | nil => cases h
        | cons second more =>
          dsimp only at h
          rw [List.dropLast_cons_cons] at h ih
          rcases List.mem_cons.mp h with rfl | h
          · exact (ih List.mem_cons_self).cons hc
          · exact ih (List.mem_cons_of_mem _ h)

theorem lines_append {line : List Char} (h : Terminated line) (rest : List Char) :
    lines (line ++ rest) = line :: lines rest := by
  obtain ⟨body, rfl, hbody⟩ := h
  induction body with
  | nil => rfl
  | cons c body ih =>
    have hc : c ≠ '\n' := fun hfeed => hbody (hfeed ▸ List.mem_cons_self)
    have hstep : lines (c :: (body ++ ['\n'] ++ rest))
        = consLine c (lines (body ++ ['\n'] ++ rest)) := rfl
    have hrest := ih fun hmem => hbody (List.mem_cons_of_mem _ hmem)
    rw [List.cons_append, List.cons_append, hstep, hrest, consLine, if_neg hc]

theorem lines_flatten {ls : List (List Char)} (h : ∀ line ∈ ls, Terminated line) :
    lines ls.flatten = ls := by
  induction ls with
  | nil => rfl
  | cons line ls ih =>
    obtain ⟨hline, hls⟩ := List.forall_mem_cons.mp h
    rw [List.flatten_cons, lines_append hline, ih hls]

end Tonewheel.Text

namespace Tonewheel.Sound

/-! ### Places -/

section

variable (raws : List (List Char))

/-- Whether the line at a place, counted from zero, is a fence with a valid id. -/
def FenceAt (i : Nat) (id : SoundId) : Prop :=
  ∃ raw idText, raws[i]? = some raw ∧ fenceId? (Text.clean raw) = some idText
    ∧ SoundId.read idText = some id

/-- Whether some lines are those between a fence at a place and the first line `end` behind it. -/
structure Encloses (i : Nat) (id : SoundId) (inner : List (List Char)) : Prop where
  fence : FenceAt raws i id
  closed : ∃ last rest, raws.drop (i + 1) = inner ++ last :: rest
    ∧ Text.clean last = "end".toList
  unended : ∀ raw ∈ inner, Text.clean raw ≠ "end".toList

inductive Outer : Nat → Prop where
  | start : Outer 0
  | blank {i : Nat} {raw : List Char} (outer : Outer i) (hraw : raws[i]? = some raw)
      (hblank : Text.clean raw = []) : Outer (i + 1)
  | block {i : Nat} {id : SoundId} {inner : List (List Char)} (outer : Outer i)
      (hblock : Encloses raws i id inner) : Outer (i + 1 + inner.length + 1)

/-- The errors of a bank outside of its blocks, each with the number of its line. -/
inductive OuterError : SourceError → Prop where
  | unclosed {i : Nat} {id : SoundId} (outer : Outer raws i) (hfence : FenceAt raws i id)
      (hopen : ∀ raw ∈ raws.drop (i + 1), Text.clean raw ≠ "end".toList) :
      OuterError ⟨i + 1, .unclosedBlock⟩
  | badId {i : Nat} {raw idText : List Char} (outer : Outer raws i)
      (hraw : raws[i]? = some raw) (hfence : fenceId? (Text.clean raw) = some idText)
      (hread : SoundId.read idText = none) :
      OuterError ⟨i + 1, .badSoundId (String.ofList idText)⟩
  | stray {i : Nat} {raw : List Char} (outer : Outer raws i) (hraw : raws[i]? = some raw)
      (hcontent : Text.clean raw ≠ []) (hfence : fenceId? (Text.clean raw) = none) :
      OuterError ⟨i + 1, .unexpectedOuterLine⟩

end

inductive BlockOf (text : String) : BankBlock → List (List Char) → Prop where
  | anonymous {content : List Char}
      (hfirst : firstContent? (Text.lines text.toList) = some content)
      (hfence : fenceId? content = none) :
      BlockOf text ⟨.anonymous, text, 0⟩ (Text.lines text.toList)
  | fenced {i : Nat} {id : SoundId} {inner : List (List Char)}
      (outer : Outer (Text.lines text.toList) i)
      (hblock : Encloses (Text.lines text.toList) i id inner) :
      BlockOf text ⟨id, String.ofList inner.flatten, i + 1⟩ inner

theorem BlockOf.lines_text {text : String} {b : BankBlock} {inner : List (List Char)}
    (h : BlockOf text b inner) :
    Text.lines b.text.toList = inner ∧ inner <+: (Text.lines text.toList).drop b.fence := by
  cases h with
  | anonymous => exact ⟨rfl, List.prefix_refl _⟩
  | @fenced i id inner outer hblock =>
    obtain ⟨last, rest, hclosed, -⟩ := hblock.closed
    refine ⟨?_, ⟨last :: rest, hclosed.symm⟩⟩
    rw [String.toList_ofList]
    refine Text.lines_flatten fun line hline => ?_
    -- A line of the block is not the last of the text: the line that closes the block follows.
    have hsplit : Text.lines text.toList
        = (Text.lines text.toList).take (i + 1) ++ inner ++ last :: rest := by
      rw [List.append_assoc, ← hclosed, List.take_append_drop]
    have hmem : line ∈ (Text.lines text.toList).dropLast := by
      rw [hsplit, List.dropLast_append_of_ne_nil (List.cons_ne_nil _ _)]
      exact List.mem_append_left _ (List.mem_append_right _ hline)
    exact Text.terminated_of_mem_dropLast hmem

/-! ### Reading -/

/-- What is read so far of an open block: `i` is the place that comes next. -/
structure OpenAt (raws : List (List Char)) (i : Nat) (b : OpenBlock) : Prop where
  place : ∃ j, b.fence = j + 1 ∧ Outer raws j ∧ FenceAt raws j b.id
  next : i = b.fence + b.reversed.length
  read : raws.drop b.fence = b.reversed.reverse ++ raws.drop i
  unended : ∀ raw ∈ b.reversed, Text.clean raw ≠ "end".toList

/-- What is known of a reading before the line at a place. -/
def ReadTo (raws : List (List Char)) (i : Nat) : Option OpenBlock → Prop
  | none => Outer raws i
  | some b => OpenAt raws i b

theorem OpenAt.push {raws rest : List (List Char)} {i : Nat} {b : OpenBlock} {raw : List Char}
    (h : OpenAt raws i b) (hraw : raws.drop i = raw :: rest)
    (hgoes : Text.clean raw ≠ "end".toList) :
    OpenAt raws (i + 1) { b with reversed := raw :: b.reversed } where
  place := h.place
  next := by
    have hnext := h.next
    simp only [List.length_cons]
    omega
  read := by
    rw [h.read, hraw, ← List.tail_drop, hraw, List.reverse_cons, List.append_assoc]
    rfl
  unended := List.forall_mem_cons.mpr ⟨hgoes, h.unended⟩

theorem OpenAt.encloses {raws rest : List (List Char)} {i : Nat} {b : OpenBlock} {last : List Char}
    (h : OpenAt raws i b) (hlast : raws.drop i = last :: rest)
    (hends : Text.clean last = "end".toList) :
    ∃ j, b.fence = j + 1 ∧ Outer raws j ∧ Encloses raws j b.id b.reversed.reverse := by
  obtain ⟨j, hj, houter, hfence⟩ := h.place
  refine ⟨j, hj, houter, hfence, ⟨last, rest, ?_, hends⟩, fun raw hraw => ?_⟩
  · rw [← hj, h.read, hlast]
  · exact h.unended raw (List.mem_reverse.mp hraw)

/-- Whether a reading is one of a text: its blocks are, and an error is outside of all blocks. -/
structure BankReading.Of (text : String) (r : BankReading) : Prop where
  blocks : ∀ b ∈ r.blocks, ∃ inner, BlockOf text b inner
  error : ∀ e, r.error = some e → OuterError (Text.lines text.toList) e

namespace BankReading

theorem Of.empty (text : String) : Of text {} := by
  constructor
  · intro b hb
    cases hb
  · intro e he
    cases he

theorem Of.failed {text : String} {line : Nat} {fault : Fault}
    (h : OuterError (Text.lines text.toList) ⟨line, fault⟩) :
    Of text (BankReading.failed line fault) := by
  constructor
  · intro b hb
    cases hb
  · intro e he
    cases he
    exact h

theorem Of.cons {text : String} {r : BankReading} {b : BankBlock} {inner : List (List Char)}
    (hb : BlockOf text b inner) (h : Of text r) : Of text (r.cons b) where
  blocks := List.forall_mem_cons.mpr ⟨⟨inner, hb⟩, h.blocks⟩
  error := h.error

end BankReading

theorem of_readBlocks (text : String) (rest : List (List Char)) (i : Nat)
    (current : Option OpenBlock) (hrest : (Text.lines text.toList).drop i = rest)
    (hread : ReadTo (Text.lines text.toList) i current) :
    (readBlocks i current rest).Of text := by
  induction rest generalizing i current with
  | nil =>
    cases current with
    | none => exact .empty text
    | some block =>
      obtain ⟨j, hj, houter, hfence⟩ := hread.place
      unfold readBlocks
      dsimp only
      rw [hj]
      refine .failed (.unclosed houter hfence fun raw hraw => hread.unended raw ?_)
      rw [← hj, hread.read, hrest, List.append_nil] at hraw
      exact List.mem_reverse.mp hraw
  | cons raw rest ih =>
    have hnext : (Text.lines text.toList).drop (i + 1) = rest := by
      rw [← List.tail_drop, hrest, List.tail_cons]
    have hat : (Text.lines text.toList)[i]? = some raw := by
      rw [← List.head?_drop, hrest]
      rfl
    unfold readBlocks
    dsimp only
    cases current with
    | some block =>
      dsimp only
      split
      next hends =>
        obtain ⟨j, hj, houter, hencloses⟩ := OpenAt.encloses hread hrest hends
        have hplace : i + 1 = j + 1 + block.reversed.reverse.length + 1 := by
          have hi := hread.next
          rw [List.length_reverse]
          omega
        have hclose : BlockOf text block.close block.reversed.reverse := by
          rw [OpenBlock.close, hj]
          exact .fenced houter hencloses
        exact (ih (i + 1) none hnext (hplace ▸ .block houter hencloses)).cons hclose
      next hgoes => exact ih (i + 1) _ hnext (hread.push hrest hgoes)
    | none =>
      dsimp only
      split
      next hblank => exact ih (i + 1) none hnext (.blank hread hat (List.isEmpty_iff.mp hblank))
      next hcontent =>
        have hcontent : Text.clean raw ≠ [] := fun h => hcontent (List.isEmpty_iff.mpr h)
        split
        next idText hfence =>
          split
          next id hid =>
            refine ih (i + 1) _ hnext ⟨⟨i, rfl, hread, raw, idText, hat, hfence, hid⟩, rfl, rfl, ?_⟩
            intro raw hraw
            cases hraw
          next hid => exact .failed (.badId hread hat hfence hid)
        next hfence => exact .failed (.stray hread hat hcontent hfence)

theorem of_readBank (text : String) : (readBank text).Of text := by
  unfold readBank
  dsimp only
  split
  next => exact .empty text
  next content hfirst =>
    split
    next => exact of_readBlocks text _ 0 none rfl .start
    next hfence =>
      have hfence : fenceId? content = none := by
        rwa [Bool.not_eq_true, Option.isSome_eq_false_iff, Option.isNone_iff_eq_none] at hfence
      exact .cons (.anonymous hfirst hfence) (.empty text)

end Tonewheel.Sound
