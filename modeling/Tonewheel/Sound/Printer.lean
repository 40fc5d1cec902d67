import Tonewheel.Output
import Tonewheel.Sound.Program

/-!
# Printing sounds (SPEC_FULL, section 4.2)

A printer renders a sound program into a buffer of its whole length, a part at a time. Before the
cursor the buffer holds the sound, after it silence. Voices are rendered one after another in
passes of at most 256 samples and share one noise generator. A program without voices is finished
by its first update.
-/

namespace Tonewheel.Sound

def printPass : Nat := 256

structure Printer where
  length : Nat
  cursor : Nat
  master : Float32
  voices : List Voice
  noise : Noise

namespace Printer

def noiseSeed : UInt64 := 0x5f6e99

def ofProgram (p : Program) : Printer :=
  { length := p.frames
    cursor := 0
    master := p.master
    voices := p.voices
    noise := ⟨noiseSeed⟩ }

def make (rate : UInt32) (bytes : Bytes) : Except DecodeError Printer :=
  if !Rate.isLegal rate then .error (.rate rate)
  else (Program.decode rate bytes).map ofProgram

def emptyBuffer (p : Printer) : Block := .silence p.length

def isFinished (p : Printer) : Bool := p.length ≤ p.cursor

/-- The next `n` samples of all voices, added up one voice after another onto `mixed`. -/
def renderVoices (n : Nat) : List Voice → Noise → Block → Block × List Voice × Noise
  | [], noise, mixed => (mixed, [], noise)
  | v :: vs, noise, mixed =>
    let (block, v, noise) := v.render noise n
    let (mixed, vs, noise) := renderVoices n vs noise (Block.mix mixed block)
    (mixed, v :: vs, noise)

/-- Prints the next `n` samples, which must fit in one pass and in the buffer. -/
def printPart (p : Printer) (buffer : Block) (n : Nat) : Printer × Block :=
  let part := buffer.extract p.cursor (p.cursor + n)
  let (mixed, voices, noise) := renderVoices n p.voices p.noise part
  let scaled := mixed.map (· * p.master)
  ({ p with voices, noise, cursor := p.cursor + n }, Block.overwrite buffer p.cursor scaled)

/-- Prints pass after pass until `frames` samples are made or the buffer is full. -/
def printFrames (p : Printer) (buffer : Block) (frames : Nat) : Printer × Block :=
  let n := min (min (p.length - p.cursor) frames) printPass
  if n = 0 then (p, buffer)
  else
    let (p, buffer) := p.printPart buffer n
    p.printFrames buffer (frames - n)
  termination_by frames
  decreasing_by omega

def update (p : Printer) (buffer : Block) (frames : Nat) : Printer × Block :=
  if p.voices.isEmpty then ({ p with cursor := p.length }, buffer)
  else p.printFrames buffer frames

/-- The answer of an update: whether the whole buffer is printed. Without voices it is at once. -/
def answer (p : Printer) (buffer : Block) (frames : Nat) : Bool :=
  p.voices.isEmpty || buffer.size ≤ (p.update buffer frames).1.cursor

def printAll (rate : UInt32) (bytes : Bytes) : Except DecodeError Block :=
  (make rate bytes).map fun p => (p.update p.emptyBuffer p.length).2

end Printer

end Tonewheel.Sound
