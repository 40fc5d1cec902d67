import Mathlib.Data.List.TakeWhile
import Mathlib.Data.String.Basic
import Tonewheel.Sound.Bank

/-!
# Cutting a bank at byte offsets

A bank can be read by byte offsets alone: a line is cut off at its comment, a fence behind its first
six bytes, and a block from behind its fence up to the line that closes it. `slice?` gives what is
between two offsets only where both are between characters. All cuts are (`cutBank?_eq`), and they
give what `readBank` puts together from lines.
-/

namespace Tonewheel.Text

open String (utf8Len utf8EncodeChar)

/-! ### Slices -/

def utf8 (cs : List Char) : List UInt8 := cs.flatMap utf8EncodeChar

/-- The characters between two byte offsets, if both are between characters. -/
def slice? (cs : List Char) (start stop : Nat) : Option (List Char) :=
  let text := String.ofList cs
  if start ≤ stop ∧ String.Pos.Raw.IsValid text ⟨start⟩ ∧ String.Pos.Raw.IsValid text ⟨stop⟩ then
    some (String.Pos.Raw.extract text ⟨start⟩ ⟨stop⟩).toList
  else none

/-- The offset behind some characters of a text is between characters. -/
theorem isValid_utf8Len (front behind : List Char) :
    String.Pos.Raw.IsValid (String.ofList (front ++ behind)) ⟨utf8Len front⟩ := by
  rw [String.Pos.Raw.isValid_iff_exists_append]
  exact ⟨String.ofList front, String.ofList behind, String.ofList_append,
    (String.rawEndPos_ofList front).symm⟩

theorem slice?_of_eq {cs front inner behind : List Char} {start stop : Nat}
    (hcs : cs = front ++ inner ++ behind) (hstart : start = utf8Len front)
    (hstop : stop = start + utf8Len inner) : slice? cs start stop = some inner := by
  subst hcs hstop hstart
  have hstart := isValid_utf8Len front (inner ++ behind)
  have hstop := isValid_utf8Len (front ++ inner) behind
  rw [← List.append_assoc] at hstart
  rw [String.utf8Len_append] at hstop
  unfold slice?
  dsimp only
  rw [if_pos ⟨Nat.le_add_right _ _, hstart, hstop⟩, String.extract_of_valid, String.toList_ofList]

/-! ### Comments -/

def commentStart? (line : List Char) : Option Nat :=
  (line.findIdx? (· = '#')).map fun i => utf8Len (line.take i)

/-- `clean`, with a line that is cut off where its comment starts. -/
def cutClean? (line : List Char) : Option (List Char) := do
  let kept ←
    match commentStart? line with
    | some start => slice? line 0 start
    | none => some line
  return trimEnd (trimStart kept)

theorem cutClean?_eq (line : List Char) : cutClean? line = some (clean line) := by
  unfold cutClean? commentStart? clean
  cases hfind : line.findIdx? (· = '#') with
  | none =>
    have hkept : line.takeWhile (· ≠ '#') = line := by
      refine List.takeWhile_eq_self_iff.mpr fun c hc => ?_
      have hplain := List.findIdx?_eq_none_iff.mp hfind c hc
      simpa using hplain
    rw [hkept]
    rfl
  | some i =>
    have hkept : line.takeWhile (· ≠ '#') = line.take i := by
      rw [List.takeWhile_eq_take_findIdx_not]
      have hi := (List.findIdx?_eq_some_iff_findIdx_eq.mp hfind).2
      simpa using congrArg (line.take ·) hi
    have hline : line = [] ++ line.take i ++ line.drop i := (List.take_append_drop i line).symm
    have hslice : slice? line 0 (utf8Len (line.take i)) = some (line.take i) :=
      slice?_of_eq hline rfl (Nat.zero_add _).symm
    rw [hkept]
    show (slice? line 0 (utf8Len (line.take i)) >>= fun kept => some (trimEnd (trimStart kept))) = _
    rw [hslice]
    rfl

/-! ### First bytes -/

theorem isBlank_iff (c : Char) : isBlank c = true ↔ c.val.toNat ≤ 0x20 := by
  rw [isBlank, decide_eq_true_iff]
  exact Iff.rfl

theorem utf8Size_of_isBlank {c : Char} (h : isBlank c = true) : c.utf8Size = 1 := by
  have hsmall := (isBlank_iff c).mp h
  rw [← String.length_utf8EncodeChar, utf8EncodeChar, if_pos (hsmall.trans (by decide))]
  rfl

/-- The first byte of a character is a small one only where the character is. -/
theorem utf8EncodeChar_cons (c : Char) :
    ∃ n more, utf8EncodeChar c = UInt8.ofNat n :: more
      ∧ (n % 256 ≤ 0x20 ↔ c.val.toNat ≤ 0x20) := by
  unfold utf8EncodeChar
  dsimp only
  by_cases h1 : c.val.toNat ≤ 0x7f
  · rw [if_pos h1]
    exact ⟨c.val.toNat, _, rfl, by omega⟩
  · rw [if_neg h1]
    by_cases h2 : c.val.toNat ≤ 0x7ff
    · rw [if_pos h2]
      exact ⟨c.val.toNat / 64 % 0x20 + 0xc0, _, rfl, by omega⟩
    · rw [if_neg h2]
      by_cases h3 : c.val.toNat ≤ 0xffff
      · rw [if_pos h3]
        exact ⟨c.val.toNat / 4096 % 0x10 + 0xe0, _, rfl, by omega⟩
      · rw [if_neg h3]
        exact ⟨c.val.toNat / 262144 % 0x08 + 0xf0, _, rfl, by omega⟩

theorem utf8EncodeChar_blank (c : Char) :
    ∃ b more, utf8EncodeChar c = b :: more ∧ decide (b ≤ 0x20) = isBlank c := by
  obtain ⟨n, more, hbytes, hsmall⟩ := utf8EncodeChar_cons c
  have hbyte : UInt8.ofNat n ≤ 0x20 ↔ n % 256 ≤ 0x20 := by
    rw [UInt8.le_iff_toNat_le, UInt8.toNat_ofNat']
    rfl
  refine ⟨_, more, hbytes, ?_⟩
  rw [Bool.eq_iff_iff, decide_eq_true_iff, hbyte, isBlank_iff, hsmall]

end Tonewheel.Text

namespace Tonewheel.Sound

open String (utf8Len utf8EncodeChar)
open Text (slice? utf8)

/-! ### Fences -/

def startsBlock (content : List Char) : Bool :=
  6 ≤ (utf8 content).length && "sound".toList.isPrefixOf content
    && (utf8 content)[5]?.any fun b => b ≤ 0x20

theorem startsBlock_sound (c : Char) (rest : List Char) :
    startsBlock ("sound".toList ++ c :: rest) = Text.isBlank c := by
  obtain ⟨b, more, hbytes, hblank⟩ := Text.utf8EncodeChar_blank c
  have hutf8 : utf8 ("sound".toList ++ c :: rest)
      = utf8 "sound".toList ++ (utf8EncodeChar c ++ utf8 rest) := rfl
  have hfive : (utf8 "sound".toList).length = 5 := rfl
  have hlong : 6 ≤ (utf8 ("sound".toList ++ c :: rest)).length := by
    rw [hutf8, hbytes, List.length_append, hfive, List.cons_append, List.length_cons]
    omega
  have hsixth : (utf8 ("sound".toList ++ c :: rest))[5]? = some b := by
    rw [hutf8, List.getElem?_append_right hfive.le, hfive, hbytes]
    rfl
  have hword : "sound".toList.isPrefixOf ("sound".toList ++ c :: rest) = true :=
    List.isPrefixOf_iff_prefix.mpr (List.prefix_append _ _)
  unfold startsBlock
  rw [decide_eq_true hlong, hword, hsixth]
  exact hblank

/-- A fence has a blank in its sixth byte, so it can be cut behind it. -/
theorem fenceId?_of_startsBlock {content : List Char} (h : startsBlock content = true) :
    ∃ rest, slice? content 6 (utf8Len content) = some rest
      ∧ fenceId? content = some (Text.trimStart rest) := by
  have hparts := h
  unfold startsBlock at hparts
  rw [Bool.and_eq_true, Bool.and_eq_true, decide_eq_true_iff] at hparts
  obtain ⟨⟨hlong, hword⟩, -⟩ := hparts
  obtain ⟨rest, rfl⟩ := List.isPrefixOf_iff_prefix.mp hword
  cases rest with
  | nil => exact absurd hlong (by decide)
  | cons c rest =>
    rw [startsBlock_sound] at h
    have hsix : utf8Len ("sound".toList ++ [c]) = 6 := by
      rw [String.utf8Len_append, String.utf8Len_cons, Text.utf8Size_of_isBlank h]
      rfl
    have hcons : "sound".toList ++ c :: rest = "sound".toList ++ [c] ++ rest ++ [] := by
      rw [List.append_nil, List.append_assoc]
      rfl
    refine ⟨rest, Text.slice?_of_eq hcons hsix.symm ?_, if_pos h⟩
    rw [hcons, List.append_nil, String.utf8Len_append, hsix]

theorem fenceId?_of_not_startsBlock {content : List Char} (h : startsBlock content = false) :
    fenceId? content = none := by
  unfold fenceId?
  split
  next c rest =>
    rw [← startsBlock_sound c rest]
    exact if_neg (Bool.eq_false_iff.mp h)
  next => rfl

/-! ### Steps of a reading -/

section

variable {raw idText : List Char} {rest : List (List Char)} {line : Nat}

theorem readBlocks_blank (h : Text.clean raw = []) :
    readBlocks line none (raw :: rest) = readBlocks (line + 1) none rest := by
  rw [readBlocks, h]
  rfl

theorem readBlocks_inner {block : OpenBlock} (h : Text.clean raw ≠ "end".toList) :
    readBlocks line (some block) (raw :: rest)
      = readBlocks (line + 1) (some { block with reversed := raw :: block.reversed }) rest := by
  rw [readBlocks]
  exact if_neg h

theorem readBlocks_end {block : OpenBlock} (h : Text.clean raw = "end".toList) :
    readBlocks line (some block) (raw :: rest)
      = (readBlocks (line + 1) none rest).cons block.close := by
  rw [readBlocks]
  exact if_pos h

theorem ne_nil_of_fenceId? {content : List Char} (h : fenceId? content = some idText) :
    content ≠ [] := by
  rintro rfl
  cases h

theorem readBlocks_fence (h : fenceId? (Text.clean raw) = some idText) :
    readBlocks line none (raw :: rest)
      = match SoundId.read idText with
        | some id => readBlocks (line + 1) (some { id, fence := line + 1 }) rest
        | none => .failed (line + 1) (.badSoundId (String.ofList idText)) := by
  rw [readBlocks, if_neg (mt List.isEmpty_iff.mp (ne_nil_of_fenceId? h))]
  generalize fenceId? (Text.clean raw) = found at h ⊢
  subst h
  rfl

theorem readBlocks_stray (hcontent : Text.clean raw ≠ [])
    (hfence : fenceId? (Text.clean raw) = none) :
    readBlocks line none (raw :: rest) = .failed (line + 1) .unexpectedOuterLine := by
  rw [readBlocks, if_neg (mt List.isEmpty_iff.mp hcontent), hfence]

end

/-! ### Reading by offsets -/

/-- An open block: its id, the byte offset of its text and the number of its fence line. -/
structure OpenSlice where
  id : SoundId
  start : Nat
  fence : Nat

/-- Reads some lines of a text from a byte offset on, if all that is cut off starts and ends between
characters; `done` is the number of blocks before them and `line` that of lines. -/
def cutBlocks (text : List Char) (opened : Option OpenSlice) (done offset line : Nat) :
    List (List Char) → Option BankReading
  | [] =>
    match opened with
    | some block => some (.failed block.fence .unclosedBlock)
    | none => some {}
  | raw :: rest => do
    let content ← Text.cutClean? raw
    let behind := offset + utf8Len raw
    if content.isEmpty then cutBlocks text opened done behind (line + 1) rest
    else
      match opened with
      | some block =>
        if content = "end".toList then do
          let inner ← slice? text block.start offset
          let r ← cutBlocks text none (done + 1) behind (line + 1) rest
          return r.cons { id := block.id, text := String.ofList inner, fence := block.fence }
        else cutBlocks text opened done behind (line + 1) rest
      | none =>
        if startsBlock content then do
          let idText ← slice? content 6 (utf8Len content)
          let idText := Text.trimStart idText
          match SoundId.read idText with
          | some id =>
            cutBlocks text (some { id, start := behind, fence := line + 1 }) done behind (line + 1)
              rest
          | none => return .failed (line + 1) (.badSoundId (String.ofList idText))
        else if done = 0 then
          return { blocks := [{ id := .anonymous, text := String.ofList text, fence := 0 }] }
        else return .failed (line + 1) .unexpectedOuterLine

def cutBank? (text : String) : Option BankReading :=
  cutBlocks text.toList none 0 0 0 (Text.lines text.toList)

/-! ### The same readings -/

section

variable (text : List Char) {raw : List Char}

theorem cutBlocks_blank (opened : Option OpenSlice) (done offset line : Nat)
    (rest : List (List Char)) (h : Text.clean raw = []) :
    cutBlocks text opened done offset line (raw :: rest)
      = cutBlocks text opened done (offset + utf8Len raw) (line + 1) rest := by
  rw [cutBlocks, Text.cutClean?_eq, h]
  rfl

theorem cutBlocks_inner (block : OpenSlice) (done offset line : Nat) (rest : List (List Char))
    (hgoes : Text.clean raw ≠ "end".toList) :
    cutBlocks text (some block) done offset line (raw :: rest)
      = cutBlocks text (some block) done (offset + utf8Len raw) (line + 1) rest := by
  by_cases hblank : Text.clean raw = []
  · exact cutBlocks_blank text _ _ _ _ _ hblank
  · rw [cutBlocks, Text.cutClean?_eq]
    show (if (Text.clean raw).isEmpty then _ else _) = _
    rw [if_neg (mt List.isEmpty_iff.mp hblank)]
    exact if_neg hgoes

theorem cutBlocks_end {block : OpenSlice} {done offset line : Nat} {rest : List (List Char)}
    {inner : List Char} {r : BankReading} (hends : Text.clean raw = "end".toList)
    (hinner : slice? text block.start offset = some inner)
    (hrest : cutBlocks text none (done + 1) (offset + utf8Len raw) (line + 1) rest = some r) :
    cutBlocks text (some block) done offset line (raw :: rest)
      = some (r.cons { id := block.id, text := String.ofList inner, fence := block.fence }) := by
  rw [cutBlocks, Text.cutClean?_eq, hends]
  show (slice? text block.start offset >>= fun inner =>
    cutBlocks text none (done + 1) (offset + utf8Len raw) (line + 1) rest >>= fun r =>
      some (r.cons { id := block.id, text := String.ofList inner, fence := block.fence })) = _
  rw [hinner, hrest]
  rfl

theorem cutBlocks_fence {idText : List Char} (done offset line : Nat) (rest : List (List Char))
    (h : fenceId? (Text.clean raw) = some idText) :
    cutBlocks text none done offset line (raw :: rest)
      = match SoundId.read idText with
        | some id =>
          cutBlocks text (some { id, start := offset + utf8Len raw, fence := line + 1 }) done
            (offset + utf8Len raw) (line + 1) rest
        | none => some (.failed (line + 1) (.badSoundId (String.ofList idText))) := by
  have hstarts : startsBlock (Text.clean raw) = true := by
    by_contra hplain
    rw [fenceId?_of_not_startsBlock (Bool.eq_false_iff.mpr hplain)] at h
    cases h
  obtain ⟨behind, hslice, hid⟩ := fenceId?_of_startsBlock hstarts
  obtain rfl : Text.trimStart behind = idText := Option.some.inj (hid.symm.trans h)
  rw [cutBlocks, Text.cutClean?_eq]
  show (if (Text.clean raw).isEmpty then _ else _) = _
  rw [if_neg (mt List.isEmpty_iff.mp (ne_nil_of_fenceId? h))]
  dsimp only
  rw [if_pos hstarts, hslice]
  rfl

theorem cutBlocks_stray (done offset line : Nat) (rest : List (List Char))
    (hcontent : Text.clean raw ≠ []) (hfence : fenceId? (Text.clean raw) = none) :
    cutBlocks text none done offset line (raw :: rest)
      = if done = 0 then
          some { blocks := [{ id := .anonymous, text := String.ofList text, fence := 0 }] }
        else some (.failed (line + 1) .unexpectedOuterLine) := by
  have hplain : ¬startsBlock (Text.clean raw) = true := fun hstarts => by
    obtain ⟨_, -, hid⟩ := fenceId?_of_startsBlock hstarts
    rw [hfence] at hid
    cases hid
  rw [cutBlocks, Text.cutClean?_eq]
  show (if (Text.clean raw).isEmpty then _ else _) = _
  rw [if_neg (mt List.isEmpty_iff.mp hcontent)]
  dsimp only
  rw [if_neg hplain]
  rfl

end

/-- Whether an open block known by its offset and one known by its lines are the same, behind some
characters. -/
structure Tracks (front : List Char) (o : OpenSlice) (b : OpenBlock) : Prop where
  id : o.id = b.id
  fence : o.fence = b.fence
  start : ∃ outside, front = outside ++ b.reversed.reverse.flatten ∧ o.start = utf8Len outside

theorem Tracks.push {front : List Char} {o : OpenSlice} {b : OpenBlock} (h : Tracks front o b)
    (raw : List Char) :
    Tracks (front ++ raw) o { b with reversed := raw :: b.reversed } where
  id := h.id
  fence := h.fence
  start := by
    obtain ⟨outside, rfl, hstart⟩ := h.start
    refine ⟨outside, ?_, hstart⟩
    rw [List.reverse_cons, List.flatten_append, List.flatten_singleton, List.append_assoc]

theorem Tracks.fresh (front : List Char) (id : SoundId) (fence : Nat) :
    Tracks front { id, start := utf8Len front, fence } { id, fence } :=
  ⟨rfl, rfl, front, (List.append_nil front).symm, rfl⟩

theorem cutBlocks_fence_eq {text front raw idText : List Char} {rest : List (List Char)}
    {done line : Nat} (h : fenceId? (Text.clean raw) = some idText)
    (hrest : ∀ id, cutBlocks text (some { id, start := utf8Len (front ++ raw), fence := line + 1 })
        done (utf8Len (front ++ raw)) (line + 1) rest
      = some (readBlocks (line + 1) (some { id, fence := line + 1 }) rest)) :
    cutBlocks text none done (utf8Len front) line (raw :: rest)
      = some (readBlocks line none (raw :: rest)) := by
  rw [readBlocks_fence h, cutBlocks_fence text _ _ _ _ h, ← String.utf8Len_append]
  cases SoundId.read idText with
  | none => rfl
  | some id => exact hrest id

/-- Behind a fence, both readings go on alike, as long as a block is open or one is done. -/
theorem cutBlocks_eq (text : List Char) (rest : List (List Char)) {front : List Char}
    {opened : Option OpenSlice} {current : Option OpenBlock} {done : Nat} (line : Nat)
    (htext : text = front ++ rest.flatten) (hopened : Option.Rel (Tracks front) opened current)
    (hdone : current.isSome ∨ 0 < done) :
    cutBlocks text opened done (utf8Len front) line rest = some (readBlocks line current rest) := by
  induction rest generalizing front opened current done line with
  | nil =>
    cases hopened with
    | none => rfl
    | some htracks =>
      rw [cutBlocks, readBlocks, htracks.fence]
  | cons raw rest ih =>
    have hnext : text = front ++ raw ++ rest.flatten := by
      rw [htext, List.flatten_cons, List.append_assoc]
    have hbehind : utf8Len front + utf8Len raw = utf8Len (front ++ raw) :=
      (String.utf8Len_append front raw).symm
    cases hopened with
    | @some o b htracks =>
      by_cases hends : Text.clean raw = "end".toList
      · obtain ⟨outside, hfront, hstart⟩ := htracks.start
        have hinner : slice? text o.start (utf8Len front) = some b.reversed.reverse.flatten := by
          refine Text.slice?_of_eq (hfront ▸ htext) hstart ?_
          rw [hfront, String.utf8Len_append, hstart]
        rw [readBlocks_end hends, cutBlocks_end text hends hinner
          (hbehind ▸ ih (line + 1) hnext .none (.inr (Nat.succ_pos done))), htracks.id,
          htracks.fence]
        rfl
      · rw [readBlocks_inner hends, cutBlocks_inner text o _ _ _ _ hends, hbehind]
        exact ih (line + 1) hnext (.some (htracks.push raw)) (.inl rfl)
    | none =>
      have hdone : 0 < done := hdone.resolve_left Bool.false_ne_true
      by_cases hblank : Text.clean raw = []
      · rw [readBlocks_blank hblank, cutBlocks_blank text _ _ _ _ _ hblank, hbehind]
        exact ih (line + 1) hnext .none (.inr hdone)
      · cases hfence : fenceId? (Text.clean raw) with
        | none =>
          rw [readBlocks_stray hblank hfence, cutBlocks_stray text _ _ _ _ hblank hfence,
            if_neg hdone.ne']
        | some idText =>
          exact cutBlocks_fence_eq hfence fun id =>
            ih (line + 1) hnext (.some (.fresh _ id (line + 1))) (.inl rfl)

theorem firstContent?_blank {raw : List Char} (rest : List (List Char))
    (h : Text.clean raw = []) : firstContent? (raw :: rest) = firstContent? rest := by
  rw [firstContent?, List.map_cons, h]
  rfl

theorem firstContent?_content {raw : List Char} (rest : List (List Char))
    (h : Text.clean raw ≠ []) : firstContent? (raw :: rest) = some (Text.clean raw) := by
  rw [firstContent?, List.map_cons, List.find?_cons_of_pos]
  rwa [Bool.not_eq_true', List.isEmpty_eq_false_iff]

theorem cutBlocks_start (text : List Char) (rest : List (List Char)) {front : List Char}
    (line : Nat) (htext : text = front ++ rest.flatten) :
    cutBlocks text none 0 (utf8Len front) line rest
      = some (match firstContent? rest with
        | none => {}
        | some content =>
          if (fenceId? content).isSome then readBlocks line none rest
          else { blocks := [{ id := .anonymous, text := String.ofList text, fence := 0 }] }) := by
  induction rest generalizing front line with
  | nil => rfl
  | cons raw rest ih =>
    have hnext : text = front ++ raw ++ rest.flatten := by
      rw [htext, List.flatten_cons, List.append_assoc]
    by_cases hblank : Text.clean raw = []
    · rw [cutBlocks_blank text _ _ _ _ _ hblank, firstContent?_blank rest hblank,
        readBlocks_blank hblank, ← String.utf8Len_append]
      exact ih (line + 1) hnext
    · rw [firstContent?_content rest hblank]
      dsimp only
      cases hfence : fenceId? (Text.clean raw) with
      | none => exact cutBlocks_stray text _ _ _ _ hblank hfence
      | some idText =>
        exact cutBlocks_fence_eq hfence fun id =>
          cutBlocks_eq text rest (line + 1) hnext (.some (.fresh _ id (line + 1))) (.inl rfl)

theorem cutBank?_eq (text : String) : cutBank? text = some (readBank text) := by
  have htext : text.toList = [] ++ (Text.lines text.toList).flatten :=
    (Text.flatten_lines text.toList).symm
  have hstart := cutBlocks_start text.toList _ 0 htext
  rw [String.ofList_toList] at hstart
  exact hstart

end Tonewheel.Sound
