import Mathlib.Data.List.Forall2
import Tonewheel.Proofs.Sound.Banks
import Tonewheel.Store

/-!
# Loading sound banks

A store answers for the key that was put in last, and as before for all others (`get?_insert`). A
bank is loaded block by block: the blocks that have an id are compiled in order, and their sounds
are inserted up to the first that fails (`insertBlocks_eq`). A number is an id, and so is the one
that is given for an anonymous sound, but a name is not (`Listed`). So an id of the bank stands for
its last sound, and the blocks that have only a name play no part (`loads_blocks`).
-/

namespace Tonewheel.Store

/-! ### Single resources -/

theorem lookup_cons_eq {α β : Type} [DecidableEq α] (a k : α) (b : β) (rest : List (α × β)) :
    ((k, b) :: rest).lookup a = if a = k then some b else rest.lookup a := by
  by_cases h : a = k
  · simp [h]
  · rw [List.lookup_cons, beq_false_of_ne h, if_neg h]

theorem lookup_put (key other : ResourceKey) (bytes : Bytes)
    (entries : List (ResourceKey × Bytes)) :
    (put key bytes entries).lookup other
      = if other = key then some bytes else entries.lookup other := by
  induction entries with
  | nil => simp [put, lookup_cons_eq]
  | cons entry rest ih =>
    obtain ⟨k, b⟩ := entry
    simp only [put]
    by_cases hsame : key = k
    · subst hsame
      simp only [if_true, lookup_cons_eq]
      split <;> rfl
    · rw [if_neg hsame]
      split
      · rw [lookup_cons_eq]
      · simp only [lookup_cons_eq, ih]
        -- the key that was put is not the one in front
        by_cases hother : other = key
        · simp [hother, hsame]
        · simp [hother]

theorem get?_insert (s : Store) (key other : ResourceKey) (bytes : Bytes) :
    (s.insert key bytes).get? other = if other = key then some bytes else s.get? other :=
  lookup_put key other bytes s.entries

/-! ### Sounds under one qualifier -/

def insertSound (qualifier : UInt16) (s : Store) (sound : UInt16 × Bytes) : Store :=
  s.insert ⟨.sound, qualifier, sound.1⟩ sound.2

theorem get?_insertSounds (qualifier id : UInt16) (s : Store) (sounds : List (UInt16 × Bytes)) :
    (sounds.foldl (insertSound qualifier) s).get? ⟨.sound, qualifier, id⟩
      = (sounds.reverse.lookup id).or (s.get? ⟨.sound, qualifier, id⟩) := by
  induction sounds generalizing s with
  | nil => rfl
  | cons sound sounds ih =>
    rw [List.foldl_cons, ih, List.reverse_cons, List.lookup_append, Option.or_assoc]
    congr 1
    obtain ⟨i, bytes⟩ := sound
    rw [insertSound, get?_insert, lookup_cons_eq]
    by_cases hid : id = i
    · simp [hid]
    · simp [hid]

theorem get?_insertSounds_other (qualifier : UInt16) (s : Store) (sounds : List (UInt16 × Bytes))
    {key : ResourceKey} (h : ¬ (key.kind = .sound ∧ key.qualifier = qualifier)) :
    (sounds.foldl (insertSound qualifier) s).get? key = s.get? key := by
  induction sounds generalizing s with
  | nil => rfl
  | cons sound sounds ih =>
    have hne : key ≠ ⟨.sound, qualifier, sound.1⟩ := by
      intro hkey
      exact h ⟨congrArg ResourceKey.kind hkey, congrArg ResourceKey.qualifier hkey⟩
    rw [List.foldl_cons, ih, insertSound, get?_insert, if_neg hne]

/-! ### Blocks -/

section

variable (anonymousId : Option UInt16)

/-- The blocks that have an id to be stored under, each compiled. -/
def outcomes (blocks : List Sound.BankBlock) : List (UInt16 × Except Sound.SourceError Bytes) :=
  blocks.filterMap fun b =>
    (bankId anonymousId b.id).map fun id => (id, Sound.compile b.text b.fence)

/-- The blocks that are stored, each under its id: a number under itself, an anonymous sound under
the id that is given, if any, and a name not at all. -/
inductive Listed :
    List Sound.BankBlock → List (UInt16 × Except Sound.SourceError Bytes) → Prop where
  | nil : Listed [] []
  | number {b : Sound.BankBlock} {n : UInt16} {blocks os} (hid : b.id = .number n)
      (hrest : Listed blocks os) : Listed (b :: blocks) ((n, Sound.compile b.text b.fence) :: os)
  | anonymous {b : Sound.BankBlock} {n : UInt16} {blocks os} (hid : b.id = .anonymous)
      (hgiven : anonymousId = some n) (hrest : Listed blocks os) :
      Listed (b :: blocks) ((n, Sound.compile b.text b.fence) :: os)
  | idless {b : Sound.BankBlock} {blocks os} (hid : b.id = .anonymous)
      (hnone : anonymousId = none) (hrest : Listed blocks os) : Listed (b :: blocks) os
  | name {b : Sound.BankBlock} {name : String} {blocks os} (hid : b.id = .name name)
      (hrest : Listed blocks os) : Listed (b :: blocks) os

def fault? : Except Sound.SourceError Bytes → Option Sound.SourceError
  | .error e => some e
  | .ok _ => none

def firstFault (blocks : List Sound.BankBlock) : Option Sound.SourceError :=
  (outcomes anonymousId blocks).findSome? fun o => fault? o.2

/-- The sounds of the blocks before the first that fails. -/
def sounds (blocks : List Sound.BankBlock) : List (UInt16 × Bytes) :=
  ((outcomes anonymousId blocks).takeWhile fun o => o.2.isOk).filterMap fun o =>
    o.2.toOption.map fun bytes => (o.1, bytes)

variable {anonymousId}

theorem outcomes_skip {b : Sound.BankBlock} (h : bankId anonymousId b.id = none)
    (blocks : List Sound.BankBlock) :
    outcomes anonymousId (b :: blocks) = outcomes anonymousId blocks := by
  simp [outcomes, h]

theorem outcomes_cons {b : Sound.BankBlock} {id : UInt16} (h : bankId anonymousId b.id = some id)
    (blocks : List Sound.BankBlock) :
    outcomes anonymousId (b :: blocks)
      = (id, Sound.compile b.text b.fence) :: outcomes anonymousId blocks := by
  simp [outcomes, h]

theorem listed_outcomes (blocks : List Sound.BankBlock) :
    Listed anonymousId blocks (outcomes anonymousId blocks) := by
  induction blocks with
  | nil => exact .nil
  | cons b blocks ih =>
    cases hid : b.id with
    | number n =>
      rw [outcomes_cons (congrArg (bankId anonymousId) hid)]
      exact .number hid ih
    | name name =>
      rw [outcomes_skip (congrArg (bankId anonymousId) hid)]
      exact .name hid ih
    | anonymous =>
      have hbank : bankId anonymousId b.id = anonymousId := congrArg (bankId anonymousId) hid
      cases hgiven : anonymousId with
      | none =>
        rw [outcomes_skip (hgiven ▸ hbank)]
        exact .idless hid rfl (hgiven ▸ ih)
      | some n =>
        rw [outcomes_cons (hgiven ▸ hbank)]
        exact .anonymous hid rfl (hgiven ▸ ih)

theorem sounds_length {blocks : List Sound.BankBlock} (h : firstFault anonymousId blocks = none) :
    (sounds anonymousId blocks).length = (outcomes anonymousId blocks).length := by
  unfold firstFault at h
  unfold sounds
  generalize outcomes anonymousId blocks = os at h
  induction os with
  | nil => rfl
  | cons o os ih =>
    obtain ⟨id, outcome⟩ := o
    cases outcome with
    | error e => simp [fault?] at h
    | ok bytes =>
      have hrest : os.findSome? (fun o => fault? o.2) = none := h
      rw [List.takeWhile_cons_of_pos rfl, List.length_cons, ← ih hrest]
      simp [Except.toOption]

/-- The outcome and the store of a run over blocks, of which `count` are stored before. -/
theorem insertBlocks_eq (qualifier : UInt16) (blocks : List Sound.BankBlock) (count : Nat)
    (s : Store) :
    insertBlocks qualifier anonymousId blocks count s
      = (match firstFault anonymousId blocks with
          | some e => .error e
          | none => .ok (count + (outcomes anonymousId blocks).length),
        (sounds anonymousId blocks).foldl (insertSound qualifier) s) := by
  induction blocks generalizing count s with
  | nil => rfl
  | cons b blocks ih =>
    unfold insertBlocks
    cases hid : bankId anonymousId b.id with
    | none =>
      dsimp only
      rw [ih, firstFault, firstFault, sounds, sounds, outcomes_skip hid]
    | some id =>
      dsimp only
      rw [firstFault, sounds, outcomes_cons hid]
      cases hcompile : Sound.compile b.text b.fence with
      | error e => simp [fault?, Except.isOk, Except.toBool]
      | ok bytes =>
        dsimp only
        rw [ih]
        simp only [firstFault, sounds, List.findSome?_cons, fault?, List.takeWhile_cons,
          Except.isOk, Except.toBool, if_true, List.filterMap_cons, Except.toOption,
          Option.map_some, List.foldl_cons, List.length_cons]
        rw [Nat.add_right_comm, Nat.add_assoc]
        rfl

end

/-! ### Banks -/

/-- Whether two readings have the same blocks and the same error, but for the texts and the lines of
the blocks that have only a name. -/
def SameButNamed (r other : Sound.BankReading) : Prop :=
  r.error = other.error ∧ List.Forall₂
    (fun b b' => b = b' ∨ ∃ name name', b.id = .name name ∧ b'.id = .name name')
    r.blocks other.blocks

theorem SameButNamed.outcomes {r other : Sound.BankReading} (h : SameButNamed r other)
    (anonymousId : Option UInt16) :
    outcomes anonymousId other.blocks = outcomes anonymousId r.blocks := by
  obtain ⟨-, hblocks⟩ := h
  generalize r.blocks = bs at hblocks
  generalize other.blocks = bs' at hblocks
  induction hblocks with
  | nil => rfl
  | @cons b b' bs bs' hb _ ih =>
    rcases hb with rfl | ⟨name, name', hname, hname'⟩
    · cases hid : bankId anonymousId b.id with
      | none => rw [outcomes_skip hid, outcomes_skip hid, ih]
      | some id => rw [outcomes_cons hid, outcomes_cons hid, ih]
    · have hnone : bankId anonymousId b.id = none := by rw [hname]; rfl
      have hnone' : bankId anonymousId b'.id = none := by rw [hname']; rfl
      rw [outcomes_skip hnone, outcomes_skip hnone', ih]

section

variable (s : Store) (qualifier : UInt16) (text : String) (anonymousId : Option UInt16)

/-- What loading a bank answers and leaves. -/
structure Loads (result : Except Sound.SourceError Nat) (t : Store) : Prop where
  listed : Listed anonymousId (Sound.readBank text).blocks
    (outcomes anonymousId (Sound.readBank text).blocks)
  inserted : t = (sounds anonymousId (Sound.readBank text).blocks).foldl (insertSound qualifier) s
  last : ∀ id, t.get? ⟨.sound, qualifier, id⟩
    = ((sounds anonymousId (Sound.readBank text).blocks).reverse.lookup id).or
      (s.get? ⟨.sound, qualifier, id⟩)
  others : ∀ key : ResourceKey, ¬ (key.kind = .sound ∧ key.qualifier = qualifier) →
    t.get? key = s.get? key
  /-- The first error is that of a block with an id, or else that of the lines between blocks. -/
  error : ∀ e, result = .error e ↔
    firstFault anonymousId (Sound.readBank text).blocks = some e
      ∨ firstFault anonymousId (Sound.readBank text).blocks = none
        ∧ (Sound.readBank text).error = some e
  outer : ∀ e, (Sound.readBank text).error = some e →
    Sound.OuterError (Text.lines text.toList) e
  count : ∀ n, result = .ok n ↔
    firstFault anonymousId (Sound.readBank text).blocks = none
      ∧ (Sound.readBank text).error = none
      ∧ n = (sounds anonymousId (Sound.readBank text).blocks).length
  named : ∀ other, SameButNamed (Sound.readBank text) (Sound.readBank other) →
    s.insertBank qualifier other anonymousId = (result, t)

end

theorem insertBank_eq (s : Store) (qualifier : UInt16) (text : String)
    (anonymousId : Option UInt16) :
    s.insertBank qualifier text anonymousId
      = (match firstFault anonymousId (Sound.readBank text).blocks, (Sound.readBank text).error with
          | some e, _ => .error e
          | none, some e => .error e
          | none, none => .ok (outcomes anonymousId (Sound.readBank text).blocks).length,
        (sounds anonymousId (Sound.readBank text).blocks).foldl (insertSound qualifier) s) := by
  unfold insertBank
  dsimp only
  rw [insertBlocks_eq, Nat.zero_add]
  cases firstFault anonymousId (Sound.readBank text).blocks with
  | some e => rfl
  | none => cases (Sound.readBank text).error <;> rfl

theorem loads_blocks (s : Store) (qualifier : UInt16) (text : String)
    (anonymousId : Option UInt16) :
    Loads s qualifier text anonymousId (s.insertBank qualifier text anonymousId).1
      (s.insertBank qualifier text anonymousId).2 where
  listed := listed_outcomes _
  inserted := by rw [insertBank_eq]
  last id := by rw [insertBank_eq]; exact get?_insertSounds qualifier id s _
  others key hkey := by rw [insertBank_eq]; exact get?_insertSounds_other qualifier s _ hkey
  error e := by
    rw [insertBank_eq]
    cases firstFault anonymousId (Sound.readBank text).blocks with
    | some first => simp
    | none => cases (Sound.readBank text).error <;> simp
  outer := (Sound.of_readBank text).error
  count n := by
    rw [insertBank_eq]
    cases hfault : firstFault anonymousId (Sound.readBank text).blocks with
    | some first => simp
    | none =>
      rw [sounds_length hfault]
      cases (Sound.readBank text).error with
      | some e => simp
      | none => simp [eq_comm]
  named other hsame := by
    have houtcomes := hsame.outcomes anonymousId
    rw [insertBank_eq, insertBank_eq s qualifier text, firstFault, firstFault, sounds, sounds,
      houtcomes, hsame.1]

/-- A number, a name, the number again, a block that fails and one behind it. -/
def fiveBlocks : String :=
  "sound 3\nshape noise\nend\nsound boom\nloudly\nend\nsound 3\nshape noise\nendvoice\nend\n"
    ++ "sound 4\nloudly\nend\nsound 5\nshape noise\nend\n"

def songAndSound : Store := { entries := [(⟨.song, 1, 3⟩, [1]), (⟨.sound, 1, 4⟩, [2])] }

theorem loads_blocks_fiveBlocks :
    ∃ t, songAndSound.insertBank 1 fiveBlocks none = (.error ⟨12, .unknownCommand "loudly"⟩, t)
      ∧ t.get? ⟨.sound, 1, 3⟩ = some [0xeb, 0xeb, 0x00, 0x00, 0x01, 0x00, 0x01, 0x05, 0x00]
      ∧ t.get? ⟨.sound, 1, 4⟩ = some [2]
      ∧ t.get? ⟨.sound, 1, 5⟩ = none
      ∧ t.get? ⟨.song, 1, 3⟩ = some [1] := by
  have hloads := loads_blocks songAndSound 1 fiveBlocks none
  have hfault : firstFault none (Sound.readBank fiveBlocks).blocks
      = some ⟨12, .unknownCommand "loudly"⟩ := by
    decide +kernel
  have hsounds : sounds none (Sound.readBank fiveBlocks).blocks
      = [(3, [0xeb, 0xeb, 0x00, 0x00, 0x01, 0x00, 0x01, 0x05]),
        (3, [0xeb, 0xeb, 0x00, 0x00, 0x01, 0x00, 0x01, 0x05, 0x00])] := by
    decide +kernel
  generalize songAndSound.insertBank 1 fiveBlocks none = loaded at hloads ⊢
  obtain ⟨result, t⟩ := loaded
  obtain rfl : result = .error _ := (hloads.error _).mpr (.inl hfault)
  refine ⟨t, rfl, ?_, ?_, ?_, ?_⟩
  · rw [hloads.last, hsounds]
    rfl
  · rw [hloads.last, hsounds]
    rfl
  · rw [hloads.last, hsounds]
    rfl
  · exact hloads.others _ (by decide)

end Tonewheel.Store
