import Tonewheel.Sound.Bank
import Tonewheel.Sound.Source

/-!
# Resource stores (SPEC_FULL, section 6)

A store keeps the binary form of songs and sounds by kind, qualifier and id. Its entries are in
increasing order: songs before sounds, then by qualifier, then by id. A whole sound bank is put in
by `Store.insertBank`.
-/

namespace Tonewheel

inductive ResourceKind where
  | song
  | sound
  deriving Repr, DecidableEq

def ResourceKind.rank : ResourceKind → Nat
  | .song => 0
  | .sound => 1

structure ResourceKey where
  kind : ResourceKind
  qualifier : UInt16
  id : UInt16
  deriving Repr, DecidableEq

/-- Keys are ordered by kind, then by qualifier, then by id. -/
def ResourceKey.rank (k : ResourceKey) : Nat :=
  (k.kind.rank * 0x10000 + k.qualifier.toNat) * 0x10000 + k.id.toNat

structure Store where
  entries : List (ResourceKey × Bytes) := []

namespace Store

def get? (s : Store) (key : ResourceKey) : Option Bytes := s.entries.lookup key

def put (key : ResourceKey) (bytes : Bytes) :
    List (ResourceKey × Bytes) → List (ResourceKey × Bytes)
  | [] => [(key, bytes)]
  | (k, b) :: rest =>
    if key = k then (key, bytes) :: rest
    else if key.rank < k.rank then (key, bytes) :: (k, b) :: rest
    else (k, b) :: put key bytes rest

def insert (s : Store) (key : ResourceKey) (bytes : Bytes) : Store :=
  { entries := put key bytes s.entries }

def erase (s : Store) (key : ResourceKey) : Store :=
  { entries := s.entries.filter fun e => e.1 ≠ key }

def keys (s : Store) : List ResourceKey := s.entries.map (·.1)

def size (s : Store) : Nat := s.entries.length

/-! ### Sound banks -/

/-- The id under which a block of a bank is stored: its number, or for an anonymous sound the id
that the caller gives. -/
def bankId (anonymousId : Option UInt16) : Sound.SoundId → Option UInt16
  | .number n => some n
  | .anonymous => anonymousId
  | .name _ => none

/-- Adds compiled blocks one after another up to the first that does not compile; the count is of
those added, and blocks without an id are passed over. -/
def insertBlocks (qualifier : UInt16) (anonymousId : Option UInt16) :
    List Sound.BankBlock → Nat → Store → Except Sound.SourceError Nat × Store
  | [], count, s => (.ok count, s)
  | block :: rest, count, s =>
    match bankId anonymousId block.id with
    | none => insertBlocks qualifier anonymousId rest count s
    | some id =>
      match Sound.compile block.text block.fence with
      | .error e => (.error e, s)
      | .ok bytes =>
        insertBlocks qualifier anonymousId rest (count + 1) (s.insert ⟨.sound, qualifier, id⟩ bytes)

/-- Adds the sounds of a bank under a qualifier and tells how many they were. An error ends it, and
what was added before stays. -/
def insertBank (s : Store) (qualifier : UInt16) (text : String) (anonymousId : Option UInt16) :
    Except Sound.SourceError Nat × Store :=
  let reading := Sound.readBank text
  let (result, s) := insertBlocks qualifier anonymousId reading.blocks 0 s
  match result, reading.error with
  | .ok _, some e => (.error e, s)
  | result, _ => (result, s)

end Store

end Tonewheel
