import Tonewheel.Pcm.Shelf
import Tonewheel.Pool

/-!
# Playbacks (SPEC_FULL, section 3)

A playback mixes a buffer into the output once, from its start to its end, at a gain.
-/

namespace Tonewheel

structure Playback where
  pcm : PcmId
  /-- Samples in the buffer. -/
  length : Nat
  position : Nat := 0
  gain : Float32

instance : PoolEntry Playback where
  isDefunct p := p.length ≤ p.position
  isOlder p q := q.position < p.position

namespace Playback

/-- A playback of a whole buffer. The output is mono, so a place between left and right is not
kept. -/
def ofBuffer (shelf : Shelf) (pcm : PcmId) (gain : Float32) : Playback :=
  { pcm, length := shelf.length pcm, gain }

def isDefunct (p : Playback) : Bool := p.length ≤ p.position

/-- The next `n` samples, fewer at the end of the buffer. -/
def render (shelf : Shelf) (p : Playback) (n : Nat) : Block × Playback :=
  let block := ((shelf.read p.pcm).extract p.position (p.position + n)).map (· * p.gain)
  (block, { p with position := p.position + block.size })

end Playback

end Tonewheel
