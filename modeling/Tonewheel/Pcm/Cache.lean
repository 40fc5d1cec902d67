import Tonewheel.Pcm.Shelf

/-!
# Cache of printed sounds (SPEC_FULL, sections 3 and 4.6)

The sounds that were printed, by qualifier and id, in increasing order of the two. At most one
buffer is kept for a key.
-/

namespace Tonewheel

structure SoundKey where
  qualifier : UInt16
  id : UInt16
  deriving Repr, DecidableEq

def SoundKey.rank (k : SoundKey) : Nat := k.qualifier.toNat * 0x10000 + k.id.toNat

structure CacheEntry where
  key : SoundKey
  pcm : PcmId
  deriving Repr, DecidableEq

structure Cache where
  entries : List CacheEntry := []

/-- Where a key is, or where it would go. -/
inductive CachePlace where
  | found (index : Nat)
  | missing (index : Nat)
  deriving Repr, DecidableEq

namespace Cache

/-- How many keys are smaller than a key, as far as they lead the list. -/
def countBelow (key : SoundKey) (entries : List CacheEntry) : Nat :=
  (entries.takeWhile fun e => e.key.rank < key.rank).length

def search (c : Cache) (key : SoundKey) : CachePlace :=
  let index := countBelow key c.entries
  match c.entries[index]? with
  | some e => if e.key = key then .found index else .missing index
  | none => .missing index

def get? (c : Cache) (index : Nat) : Option PcmId := c.entries[index]?.map (·.pcm)

def find? (c : Cache) (key : SoundKey) : Option PcmId :=
  match c.search key with
  | .found index => c.get? index
  | .missing _ => none

def followsLeft (c : Cache) (index : Nat) (key : SoundKey) : Bool :=
  if index = 0 then true
  else
    match c.entries[index - 1]? with
    | some e => e.key.rank < key.rank
    | none => true

def precedesRight (c : Cache) (index : Nat) (key : SoundKey) : Bool :=
  match c.entries[index]? with
  | some e => key.rank < e.key.rank
  | none => true

/-- Adds a buffer at an index, if the keys stay in order; tells whether it did. -/
def insertAt (c : Cache) (index : Nat) (key : SoundKey) (pcm : PcmId) : Bool × Cache :=
  if index ≤ c.entries.length && c.followsLeft index key && c.precedesRight index key then
    (true, { entries := c.entries.take index ++ { key, pcm } :: c.entries.drop index })
  else (false, c)

/-- Adds a buffer where its key belongs, unless the key is there. -/
def add (c : Cache) (key : SoundKey) (pcm : PcmId) : Cache :=
  match c.search key with
  | .found _ => c
  | .missing index => (c.insertAt index key pcm).2

end Cache

end Tonewheel
