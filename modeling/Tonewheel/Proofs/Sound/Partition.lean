import Tonewheel.Proofs.Sound.Banks
import Tonewheel.Proofs.Sound.ByteCuts

/-!
# How banks are taken apart (SPEC_FULL, section 4.1)

The reading of a bank passes over blank lines and whole blocks (`ClosedBy`) until it is at the end
or at a line that is an error. So the blocks that are read are all the outer ones, in order, and
each of them is the slice of the text behind its fence and before the line that closes it
(`bank_partitions`).
-/

namespace Tonewheel.Sound

open String (utf8Len)

/-! ### Blocks before a place -/

section

variable (raws : List (List Char))

/-- Whether some blocks are those that are closed before an outer place. -/
inductive ClosedBy : Nat → List BankBlock → Prop where
  | start : ClosedBy 0 []
  | blank {i : Nat} {bs : List BankBlock} {raw : List Char} (before : ClosedBy i bs)
      (hraw : raws[i]? = some raw) (hblank : Text.clean raw = []) : ClosedBy (i + 1) bs
  | block {i : Nat} {bs : List BankBlock} {id : SoundId} {inner : List (List Char)}
      (before : ClosedBy i bs) (hblock : Encloses raws i id inner) :
      ClosedBy (i + 1 + inner.length + 1)
        (bs ++ [{ id, text := String.ofList inner.flatten, fence := i + 1 }])

variable {raws}

theorem ClosedBy.outer {i : Nat} {bs : List BankBlock} (h : ClosedBy raws i bs) :
    Outer raws i := by
  induction h with
  | start => exact .start
  | blank _ hraw hblank ih => exact .blank ih hraw hblank
  | block _ hblock ih => exact .block ih hblock

theorem Outer.closedBy {i : Nat} (h : Outer raws i) : ∃ bs, ClosedBy raws i bs := by
  induction h with
  | start => exact ⟨[], .start⟩
  | blank _ hraw hblank ih =>
    obtain ⟨bs, hbs⟩ := ih
    exact ⟨bs, .blank hbs hraw hblank⟩
  | block _ hblock ih =>
    obtain ⟨bs, hbs⟩ := ih
    exact ⟨_, .block hbs hblock⟩

/-! ### From place to place -/

theorem drop_eq_cons {i : Nat} {raw : List Char} (h : raws[i]? = some raw) :
    raws.drop i = raw :: raws.drop (i + 1) := by
  obtain ⟨hi, rfl⟩ := List.getElem?_eq_some_iff.mp h
  exact List.drop_eq_getElem_cons hi

theorem readBlocks_closes {inner : List (List Char)} {last : List Char} (rest : List (List Char))
    (block : OpenBlock) (line : Nat) (hinner : ∀ raw ∈ inner, Text.clean raw ≠ "end".toList)
    (hlast : Text.clean last = "end".toList) :
    readBlocks line (some block) (inner ++ last :: rest)
      = (readBlocks (line + inner.length + 1) none rest).cons
        { id := block.id
          text := String.ofList (block.reversed.reverse ++ inner).flatten
          fence := block.fence } := by
  induction inner generalizing block line with
  | nil =>
    rw [List.nil_append, readBlocks_end hlast, List.append_nil]
    rfl
  | cons raw inner ih =>
    obtain ⟨hraw, hinner⟩ := List.forall_mem_cons.mp hinner
    rw [List.cons_append, readBlocks_inner hraw, ih _ _ hinner, List.length_cons,
      List.reverse_cons, List.append_assoc, Nat.add_right_comm line 1, ← Nat.add_assoc]
    rfl

theorem readBlocks_unclosed {rest : List (List Char)} (block : OpenBlock) (line : Nat)
    (hopen : ∀ raw ∈ rest, Text.clean raw ≠ "end".toList) :
    readBlocks line (some block) rest = .failed block.fence .unclosedBlock := by
  induction rest generalizing block line with
  | nil => rfl
  | cons raw rest ih =>
    obtain ⟨hraw, hrest⟩ := List.forall_mem_cons.mp hopen
    rw [readBlocks_inner hraw, ih _ _ hrest]

theorem readBlocks_at_fence {i : Nat} {id : SoundId} (h : FenceAt raws i id) :
    readBlocks i none (raws.drop i)
      = readBlocks (i + 1) (some { id, fence := i + 1 }) (raws.drop (i + 1)) := by
  obtain ⟨raw, idText, hraw, hfence, hread⟩ := h
  rw [drop_eq_cons hraw, readBlocks_fence hfence, hread]

theorem readBlocks_at_block {i : Nat} {id : SoundId} {inner : List (List Char)}
    (h : Encloses raws i id inner) :
    readBlocks i none (raws.drop i)
      = (readBlocks (i + 1 + inner.length + 1) none (raws.drop (i + 1 + inner.length + 1))).cons
        { id, text := String.ofList inner.flatten, fence := i + 1 } := by
  obtain ⟨last, rest, hdrop, hlast⟩ := h.closed
  have hrest : raws.drop (i + 1 + inner.length + 1) = rest := by
    rw [← List.drop_drop, ← List.drop_drop, hdrop, List.drop_left]
    rfl
  rw [readBlocks_at_fence h.fence, hdrop, readBlocks_closes rest _ _ h.unended hlast, hrest]
  rfl

theorem readBlocks_at_blank {i : Nat} {raw : List Char} (hraw : raws[i]? = some raw)
    (hblank : Text.clean raw = []) :
    readBlocks i none (raws.drop i) = readBlocks (i + 1) none (raws.drop (i + 1)) := by
  rw [drop_eq_cons hraw, readBlocks_blank hblank]

def BankReading.after (bs : List BankBlock) (r : BankReading) : BankReading :=
  { r with blocks := bs ++ r.blocks }

theorem BankReading.after_cons (bs : List BankBlock) (r : BankReading) (b : BankBlock) :
    (r.cons b).after bs = r.after (bs ++ [b]) := by
  unfold BankReading.after BankReading.cons
  rw [List.append_assoc]
  rfl

/-- A reading of the whole is one from an outer place, behind the blocks before that place. -/
theorem ClosedBy.reading {i : Nat} {bs : List BankBlock} (h : ClosedBy raws i bs) :
    readBlocks 0 none raws = (readBlocks i none (raws.drop i)).after bs := by
  induction h with
  | start => rfl
  | blank _ hraw hblank ih => rw [ih, readBlocks_at_blank hraw hblank]
  | block _ hblock ih => rw [ih, readBlocks_at_block hblock, BankReading.after_cons]

/-- Whether nothing more is read at a place: there is no line any more, or an error. -/
structure StopsAt (raws : List (List Char)) (i : Nat) : Prop where
  blocks : (readBlocks i none (raws.drop i)).blocks = []
  error : ∀ e, (readBlocks i none (raws.drop i)).error = some e → e.line = i + 1

theorem StopsAt.of_failed {i : Nat} (fault : Fault)
    (h : readBlocks i none (raws.drop i) = .failed (i + 1) fault) : StopsAt raws i := by
  constructor
  · rw [h]
    rfl
  · rw [h]
    rintro _ ⟨⟩
    rfl

/-- Behind a place there is a first line that closes a block, or none. -/
theorem closes_or_not (raws : List (List Char)) (i : Nat) :
    (∀ raw ∈ raws.drop (i + 1), Text.clean raw ≠ "end".toList)
      ∨ ∃ inner, (∃ last rest, raws.drop (i + 1) = inner ++ last :: rest
          ∧ Text.clean last = "end".toList)
        ∧ ∀ raw ∈ inner, Text.clean raw ≠ "end".toList := by
  cases hfind : (raws.drop (i + 1)).find? fun raw => Text.clean raw = "end".toList with
  | none =>
    refine .inl fun raw hmem => ?_
    simpa using List.find?_eq_none.mp hfind raw hmem
  | some last =>
    obtain ⟨hlast, inner, rest, hdrop, hinner⟩ := List.find?_eq_some_iff_append.mp hfind
    refine .inr ⟨inner, ⟨last, rest, hdrop, by simpa using hlast⟩, fun raw hmem => ?_⟩
    simpa using hinner raw hmem

theorem place_cases (raws : List (List Char)) (i : Nat) :
    StopsAt raws i ∨ (∃ raw, raws[i]? = some raw ∧ Text.clean raw = [])
      ∨ ∃ id inner, Encloses raws i id inner := by
  cases hraw : raws[i]? with
  | none =>
    have hend : raws.drop i = [] := List.drop_eq_nil_of_le (List.getElem?_eq_none_iff.mp hraw)
    refine .inl ⟨?_, ?_⟩
    · rw [hend]
      rfl
    · rw [hend]
      rintro _ ⟨⟩
  | some raw =>
    by_cases hblank : Text.clean raw = []
    · exact .inr (.inl ⟨raw, rfl, hblank⟩)
    · cases hfence : fenceId? (Text.clean raw) with
      | none =>
        refine .inl (.of_failed .unexpectedOuterLine ?_)
        rw [drop_eq_cons hraw, readBlocks_stray hblank hfence]
      | some idText =>
        cases hread : SoundId.read idText with
        | none =>
          refine .inl (.of_failed (.badSoundId (String.ofList idText)) ?_)
          rw [drop_eq_cons hraw, readBlocks_fence hfence, hread]
        | some id =>
          have hat : FenceAt raws i id := ⟨raw, idText, hraw, hfence, hread⟩
          rcases closes_or_not raws i with hopen | ⟨inner, hclosed, hunended⟩
          · refine .inl (.of_failed .unclosedBlock ?_)
            rw [readBlocks_at_fence hat]
            exact readBlocks_unclosed _ _ hopen
          · exact .inr (.inr ⟨id, inner, hat, hclosed, hunended⟩)

theorem ClosedBy.stops {i : Nat} {bs : List BankBlock} (h : ClosedBy raws i bs) :
    ∃ j bs', ClosedBy raws j bs' ∧ StopsAt raws j := by
  induction hleft : raws.length - i using Nat.strong_induction_on generalizing i bs with
  | _ left ih =>
    rcases place_cases raws i with hstops | ⟨raw, hraw, hblank⟩ | ⟨id, inner, hblock⟩
    · exact ⟨i, bs, h, hstops⟩
    · have hi : i < raws.length := (List.getElem?_eq_some_iff.mp hraw).1
      exact ih _ (by omega) (h.blank hraw hblank) rfl
    · obtain ⟨raw, -, hraw, -⟩ := hblock.fence
      have hi : i < raws.length := (List.getElem?_eq_some_iff.mp hraw).1
      exact ih _ (by omega) (h.block hblock) rfl

theorem readBlocks_stops (raws : List (List Char)) :
    ∃ i, ClosedBy raws i (readBlocks 0 none raws).blocks
      ∧ ∀ e, (readBlocks 0 none raws).error = some e → e.line = i + 1 := by
  have hstart : ClosedBy raws 0 [] := .start
  obtain ⟨i, bs, hclosed, hstops⟩ := hstart.stops
  have hblocks : (readBlocks 0 none raws).blocks = bs := by
    rw [hclosed.reading, BankReading.after, hstops.blocks, List.append_nil]
  refine ⟨i, hblocks.symm ▸ hclosed, fun e he => hstops.error e ?_⟩
  rw [hclosed.reading] at he
  exact he

/-! ### All blocks, and the error -/

theorem mem_blocks_of_encloses {i : Nat} {id : SoundId} {inner : List (List Char)}
    (houter : Outer raws i) (hblock : Encloses raws i id inner) :
    { id, text := String.ofList inner.flatten, fence := i + 1 : BankBlock }
      ∈ (readBlocks 0 none raws).blocks := by
  obtain ⟨bs, hclosed⟩ := houter.closedBy
  rw [hclosed.reading, readBlocks_at_block hblock]
  exact List.mem_append_right _ List.mem_cons_self

theorem error_of_failed {i line : Nat} {fault : Fault} (houter : Outer raws i)
    (h : readBlocks i none (raws.drop i) = .failed line fault) :
    (readBlocks 0 none raws).error = some ⟨line, fault⟩ := by
  obtain ⟨bs, hclosed⟩ := houter.closedBy
  rw [hclosed.reading, h]
  rfl

theorem OuterError.error {e : SourceError} (h : OuterError raws e) :
    (readBlocks 0 none raws).error = some e := by
  cases h with
  | unclosed houter hfence hopen =>
    refine error_of_failed houter ?_
    rw [readBlocks_at_fence hfence]
    exact readBlocks_unclosed _ _ hopen
  | badId houter hraw hfence hread =>
    refine error_of_failed houter ?_
    rw [drop_eq_cons hraw, readBlocks_fence hfence, hread]
  | stray houter hraw hcontent hfence =>
    refine error_of_failed houter ?_
    rw [drop_eq_cons hraw, readBlocks_stray hcontent hfence]

end

/-! ### Lines and bytes of blocks -/

def BankBlock.behind (b : BankBlock) : Nat := b.fence + (Text.lines b.text.toList).length

def lineOffset (raws : List (List Char)) (i : Nat) : Nat := utf8Len (raws.take i).flatten

theorem lineOffset_mono (raws : List (List Char)) {i j : Nat} (h : i ≤ j) :
    lineOffset raws i ≤ lineOffset raws j := by
  obtain ⟨between, hbetween⟩ := List.take_prefix_take_left h (l := raws)
  unfold lineOffset
  rw [← hbetween, List.flatten_append, String.utf8Len_append]
  exact Nat.le_add_right _ _

theorem BlockOf.slice {text : String} {b : BankBlock} {inner : List (List Char)}
    (h : BlockOf text b inner) :
    Text.slice? text.toList (lineOffset (Text.lines text.toList) b.fence)
      (lineOffset (Text.lines text.toList) b.behind) = some b.text.toList := by
  obtain ⟨rfl, rest, hrest⟩ := h.lines_text
  have hinner := Text.flatten_lines b.text.toList
  have htext : text.toList = ((Text.lines text.toList).take b.fence).flatten
      ++ (Text.lines b.text.toList).flatten ++ rest.flatten := by
    rw [List.append_assoc, ← List.flatten_append, hrest, ← List.flatten_append,
      List.take_append_drop, Text.flatten_lines]
  rw [hinner] at htext
  refine Text.slice?_of_eq htext rfl ?_
  unfold lineOffset BankBlock.behind
  rw [List.take_add, ← hrest, List.take_left, List.flatten_append, String.utf8Len_append, hinner]

theorem Encloses.behind {text : String} {i : Nat} {id : SoundId} {inner : List (List Char)}
    (houter : Outer (Text.lines text.toList) i)
    (hblock : Encloses (Text.lines text.toList) i id inner) :
    ({ id, text := String.ofList inner.flatten, fence := i + 1 } : BankBlock).behind
      = i + 1 + inner.length := by
  have hlines := (BlockOf.fenced houter hblock).lines_text.1
  rw [BankBlock.behind, hlines]

theorem ClosedBy.ordered {text : String} {i : Nat} {bs : List BankBlock}
    (h : ClosedBy (Text.lines text.toList) i bs) :
    (∀ b ∈ bs, b.behind < i) ∧ bs.Pairwise fun b later => b.behind < later.fence := by
  induction h with
  | start => exact ⟨fun _ hb => absurd hb List.not_mem_nil, .nil⟩
  | blank _ _ _ ih => exact ⟨fun b hb => Nat.lt_succ_of_lt (ih.1 b hb), ih.2⟩
  | @block i bs id inner before hblock ih =>
    obtain ⟨hbefore, hordered⟩ := ih
    have hbehind := hblock.behind before.outer
    refine ⟨fun b hb => ?_, List.pairwise_append.mpr ⟨hordered, List.pairwise_singleton _ _, ?_⟩⟩
    · rcases List.mem_append.mp hb with hb | hb
      · have hb := hbefore b hb
        omega
      · rw [List.mem_singleton.mp hb, hbehind]
        exact Nat.lt_succ_self _
    · intro b hb later hlater
      rw [List.mem_singleton.mp hlater]
      exact Nat.lt_succ_of_lt (hbefore b hb)

/-! ### Whole banks -/

section

variable (text : String) (r : BankReading)

/-- What a reading of a bank with fences is. -/
structure Fenced : Prop where
  /-- There is one block for each closed fence outside of others, with the lines up to the first
  `end`. -/
  blocks : ∀ b, b ∈ r.blocks ↔ ∃ i id inner, Outer (Text.lines text.toList) i
    ∧ Encloses (Text.lines text.toList) i id inner
    ∧ b = { id, text := String.ofList inner.flatten, fence := i + 1 }
  ordered : r.blocks.Pairwise fun b later => b.behind < later.fence
  error : ∀ e, r.error = some e ↔ OuterError (Text.lines text.toList) e
  /-- There is no error if all lines outside of blocks that are not blank are fences with a valid
  id, and each of these is closed. -/
  noError : r.error = none ↔
    (∀ i raw, Outer (Text.lines text.toList) i → (Text.lines text.toList)[i]? = some raw →
      Text.clean raw ≠ [] → ∃ id, FenceAt (Text.lines text.toList) i id)
    ∧ ∀ i id, Outer (Text.lines text.toList) i → FenceAt (Text.lines text.toList) i id →
      ∃ inner, Encloses (Text.lines text.toList) i id inner
  /-- The line that closes a block is before that of the error. -/
  before : ∀ e, r.error = some e → ∀ b ∈ r.blocks, b.behind + 1 < e.line

/-- What the reading of a bank is, and that it is cut out of the bank between characters. -/
structure Partition : Prop where
  empty : (∀ raw ∈ Text.lines text.toList, Text.clean raw = []) → r = {}
  anonymous : ∀ content, firstContent? (Text.lines text.toList) = some content →
    fenceId? content = none → r = { blocks := [{ id := .anonymous, text, fence := 0 }] }
  fenced : ∀ content idText, firstContent? (Text.lines text.toList) = some content →
    fenceId? content = some idText → Fenced text r
  slices : ∀ b ∈ r.blocks,
    Text.slice? text.toList (lineOffset (Text.lines text.toList) b.fence)
      (lineOffset (Text.lines text.toList) b.behind) = some b.text.toList
  disjoint : r.blocks.Pairwise fun b later =>
    lineOffset (Text.lines text.toList) b.behind ≤ lineOffset (Text.lines text.toList) later.fence
  cut : cutBank? text = some r

end

theorem no_outerError_iff (raws : List (List Char)) :
    (∀ e, ¬OuterError raws e) ↔
      (∀ i raw, Outer raws i → raws[i]? = some raw → Text.clean raw ≠ [] → ∃ id, FenceAt raws i id)
      ∧ ∀ i id, Outer raws i → FenceAt raws i id → ∃ inner, Encloses raws i id inner := by
  constructor
  · intro hnone
    refine ⟨fun i raw houter hraw hcontent => ?_, fun i id houter hfence => ?_⟩
    · cases hid : fenceId? (Text.clean raw) with
      | none => exact absurd (.stray houter hraw hcontent hid) (hnone _)
      | some idText =>
        cases hread : SoundId.read idText with
        | none => exact absurd (.badId houter hraw hid hread) (hnone _)
        | some id => exact ⟨id, raw, idText, hraw, hid, hread⟩
    · rcases closes_or_not raws i with hopen | ⟨inner, hclosed, hunended⟩
      · exact absurd (.unclosed houter hfence hopen) (hnone _)
      · exact ⟨inner, hfence, hclosed, hunended⟩
  · rintro ⟨hfences, hcloses⟩ e herror
    cases herror with
    | unclosed houter hfence hopen =>
      obtain ⟨inner, hblock⟩ := hcloses _ _ houter hfence
      obtain ⟨last, rest, hdrop, hlast⟩ := hblock.closed
      refine hopen last ?_ hlast
      rw [hdrop]
      exact List.mem_append_right _ List.mem_cons_self
    | badId houter hraw hfence hread =>
      obtain ⟨id, raw, idText, hraw', hfence', hread'⟩ :=
        hfences _ _ houter hraw (ne_nil_of_fenceId? hfence)
      obtain rfl := Option.some.inj (hraw'.symm.trans hraw)
      obtain rfl := Option.some.inj (hfence'.symm.trans hfence)
      rw [hread] at hread'
      cases hread'
    | stray houter hraw hcontent hfence =>
      obtain ⟨id, raw, idText, hraw', hfence', -⟩ := hfences _ _ houter hraw hcontent
      obtain rfl := Option.some.inj (hraw'.symm.trans hraw)
      rw [hfence] at hfence'
      cases hfence'

theorem readBlocks_fenced {text : String} {content idText : List Char}
    (hfirst : firstContent? (Text.lines text.toList) = some content)
    (hfence : fenceId? content = some idText) :
    Fenced text (readBlocks 0 none (Text.lines text.toList)) := by
  have hof := of_readBlocks text _ 0 none rfl .start
  have herror : ∀ e, (readBlocks 0 none (Text.lines text.toList)).error = some e
      ↔ OuterError (Text.lines text.toList) e := fun e => ⟨hof.error e, OuterError.error⟩
  obtain ⟨i, hclosed, hline⟩ := readBlocks_stops (Text.lines text.toList)
  obtain ⟨hbefore, hordered⟩ := hclosed.ordered
  refine ⟨fun b => ⟨fun hb => ?_, ?_⟩, hordered, herror, ?_, fun e he b hb => ?_⟩
  · obtain ⟨_, hblock⟩ := hof.blocks b hb
    cases hblock with
    | anonymous hfirst' hplain =>
      obtain rfl := Option.some.inj (hfirst'.symm.trans hfirst)
      rw [hfence] at hplain
      cases hplain
    | fenced houter hblock => exact ⟨_, _, _, houter, hblock, rfl⟩
  · rintro ⟨i, id, inner, houter, hblock, rfl⟩
    exact mem_blocks_of_encloses houter hblock
  · rw [← no_outerError_iff, Option.eq_none_iff_forall_ne_some]
    exact forall_congr' fun e => not_congr (herror e)
  · rw [hline e he]
    exact Nat.succ_lt_succ (hbefore b hb)

section

variable {text : String} {content idText : List Char}

theorem readBank_empty (h : firstContent? (Text.lines text.toList) = none) :
    readBank text = {} := by
  rw [readBank, h]

theorem readBank_anonymous (hfirst : firstContent? (Text.lines text.toList) = some content)
    (hplain : fenceId? content = none) :
    readBank text = { blocks := [{ id := .anonymous, text, fence := 0 }] } := by
  rw [readBank, hfirst]
  dsimp only
  rw [hplain]
  rfl

theorem readBank_fenced (hfirst : firstContent? (Text.lines text.toList) = some content)
    (hfence : fenceId? content = some idText) :
    readBank text = readBlocks 0 none (Text.lines text.toList) := by
  rw [readBank, hfirst]
  dsimp only
  rw [hfence]
  rfl

end

theorem firstContent?_of_blank {raws : List (List Char)}
    (h : ∀ raw ∈ raws, Text.clean raw = []) : firstContent? raws = none := by
  induction raws with
  | nil => rfl
  | cons raw rest ih =>
    obtain ⟨hraw, hrest⟩ := List.forall_mem_cons.mp h
    rw [firstContent?_blank rest hraw, ih hrest]

theorem readBank_disjoint (text : String) :
    (readBank text).blocks.Pairwise fun b later =>
      lineOffset (Text.lines text.toList) b.behind
        ≤ lineOffset (Text.lines text.toList) later.fence := by
  cases hfirst : firstContent? (Text.lines text.toList) with
  | none =>
    rw [readBank_empty hfirst]
    exact .nil
  | some content =>
    cases hfence : fenceId? content with
    | none =>
      rw [readBank_anonymous hfirst hfence]
      exact List.pairwise_singleton _ _
    | some idText =>
      rw [readBank_fenced hfirst hfence]
      exact (readBlocks_fenced hfirst hfence).ordered.imp fun h => lineOffset_mono _ h.le

/-- Every text is taken apart into the blocks of its fences, or it is one anonymous sound, or
nothing. -/
theorem bank_partitions (text : String) : Partition text (readBank text) where
  empty hblank := readBank_empty (firstContent?_of_blank hblank)
  anonymous _ := readBank_anonymous
  fenced _ _ hfirst hfence := readBank_fenced hfirst hfence ▸ readBlocks_fenced hfirst hfence
  slices b hb := by
    obtain ⟨inner, hblock⟩ := (of_readBank text).blocks b hb
    exact hblock.slice
  disjoint := readBank_disjoint text
  cut := cutBank?_eq text

/-- A line outside of blocks is an error here, but only behind two blocks, the second of them
without lines. -/
example :
    readBank "# é\nsound 3\nlevel 0 é\n  end # x\n\nsound 9\nend\nlevel 1"
      = { blocks := [⟨.number 3, "level 0 é\n", 2⟩, ⟨.number 9, "", 6⟩]
          error := some ⟨8, .unexpectedOuterLine⟩ } := by
  decide

end Tonewheel.Sound
