/-!
# Bounded pools (SPEC_FULL, sections 3 and 9)

A pool holds at most a fixed number of entries. Inserting into a full pool takes the place of the
first finished entry, or else of the oldest one, the first of several. Finished entries at the end
are dropped by `reap`; those before a live one wait until they are replaced.
-/

namespace Tonewheel

class PoolEntry (α : Type) where
  /-- Whether an entry is finished and safe to replace. -/
  isDefunct : α → Bool
  /-- Whether an entry is strictly older than another. -/
  isOlder : α → α → Bool

structure Pool (α : Type) where
  capacity : Nat
  entries : List α := []

namespace Pool

variable {α : Type} [PoolEntry α]

/-- The slot of the oldest entry, where `slot` is the number of the first entry listed and `best`
the oldest so far; the first of several oldest wins. -/
def oldestFrom (bestSlot : Nat) (best : α) : (slot : Nat) → List α → Nat
  | _, [] => bestSlot
  | slot, e :: es =>
    if PoolEntry.isOlder e best then oldestFrom slot e (slot + 1) es
    else oldestFrom bestSlot best (slot + 1) es

def oldest : List α → Option Nat
  | [] => none
  | e :: es => some (oldestFrom 0 e 1 es)

/-- The slot that a new entry takes over: the first finished one, else the oldest. -/
def victim (entries : List α) : Option Nat :=
  match entries.findIdx? PoolEntry.isDefunct with
  | some slot => some slot
  | none => oldest entries

/-- Adds an entry to a list that may grow to `capacity`, and tells its slot. Without any capacity
nothing is added. -/
def place (capacity : Nat) (entries : List α) (entry : α) : Nat × List α :=
  if entries.length < capacity then (entries.length, entries ++ [entry])
  else
    match victim entries with
    | some slot => (slot, entries.set slot entry)
    | none => (0, entries)

def insert (p : Pool α) (entry : α) : Nat × Pool α :=
  let (slot, entries) := place p.capacity p.entries entry
  (slot, { p with entries })

def trimDefunct (entries : List α) : List α :=
  (entries.reverse.dropWhile PoolEntry.isDefunct).reverse

def reap (p : Pool α) : Pool α := { p with entries := trimDefunct p.entries }

omit [PoolEntry α] in
def retain (p : Pool α) (keep : α → Bool) : Pool α := { p with entries := p.entries.filter keep }

omit [PoolEntry α] in
def clear (p : Pool α) : Pool α := { p with entries := [] }

omit [PoolEntry α] in
def map (p : Pool α) (f : α → α) : Pool α := { p with entries := p.entries.map f }

omit [PoolEntry α] in
def modify (p : Pool α) (slot : Nat) (f : α → α) : Pool α :=
  { p with entries := p.entries.modify slot f }

omit [PoolEntry α] in
/-- A list with its first entry that passes a test changed. -/
def modifyFirst (test : α → Bool) (f : α → α) : List α → List α
  | [] => []
  | e :: es => if test e then f e :: es else e :: modifyFirst test f es

omit [PoolEntry α] in
def update (p : Pool α) (test : α → Bool) (f : α → α) : Pool α :=
  { p with entries := modifyFirst test f p.entries }

omit [PoolEntry α] in
def size (p : Pool α) : Nat := p.entries.length

def live (p : Pool α) : Nat := p.entries.countP fun e => !PoolEntry.isDefunct e

end Pool

end Tonewheel
