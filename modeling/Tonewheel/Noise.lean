/-!
# White noise (SPEC_FULL, section 10)

A generator of 16-bit words: the state advances by a fixed odd step, and each word is cut from the
two halves of the 128-bit product of the state with a scrambled copy of itself.
-/

namespace Tonewheel

structure Noise where
  state : UInt64
  deriving Repr, DecidableEq

namespace Noise

def stride : UInt64 := 0x2d358dccaa6c78a5

def scramble : UInt64 := 0x8bb84b93962eacc9

/-- The next 16-bit word and the generator after it. -/
def draw (noise : Noise) : UInt16 × Noise :=
  let state := noise.state + stride
  let product := state.toNat * (state ^^^ scramble).toNat
  let folded := product.toUInt64 ^^^ (product >>> 64).toUInt64
  (folded.toUInt16, { state })

end Noise

end Tonewheel
