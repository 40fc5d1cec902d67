import Tonewheel.Signal.Block

/-!
# Printed buffers (SPEC_FULL, sections 3 and 9)

A shelf holds sample buffers of fixed length under numbers that are never given out twice. A printer
writes a buffer while playbacks read it; both know it by its number.
-/

namespace Tonewheel

structure PcmId where
  index : Nat
  deriving Repr, DecidableEq

structure Shelf where
  buffers : Array Block := #[]

namespace Shelf

def add (s : Shelf) (buffer : Block) : PcmId × Shelf :=
  (⟨s.buffers.size⟩, { buffers := s.buffers.push buffer })

/-- The samples of a buffer; a number that was not given out has none. -/
def read (s : Shelf) (id : PcmId) : Block := s.buffers.getD id.index #[]

def length (s : Shelf) (id : PcmId) : Nat := (s.read id).size

def write (s : Shelf) (id : PcmId) (buffer : Block) : Shelf :=
  { buffers := s.buffers.setIfInBounds id.index buffer }

/-- Takes a buffer off the shelf for a change; it is to be written back. -/
def take (s : Shelf) (id : PcmId) : Block × Shelf :=
  (s.read id, s.write id #[])

def writeSample (s : Shelf) (id : PcmId) (i : Nat) (x : Float32) : Shelf :=
  s.write id ((s.read id).setIfInBounds i x)

end Shelf

end Tonewheel
