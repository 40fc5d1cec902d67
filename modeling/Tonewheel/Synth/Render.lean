import Tonewheel.Synth.Songs

/-!
# Making audio (SPEC_FULL, section 4.6)

An update makes a number of interleaved samples. It runs the printers first, and then makes the mono
signal pass by pass and spreads each pass over the channels; a trailing part of a frame stays
silent. Within a pass the song comes first and cuts the pass where its events fall (`renderMono`).
The word output is the same signal in 16 bits (`renderWords`).
-/

namespace Tonewheel.Synth

def renderVoices (sine : Wave) (n : Nat) : List Voice → Noise → Block → Block × List Voice × Noise
  | [], noise, mixed => (mixed, [], noise)
  | v :: vs, noise, mixed =>
    let (block, v, noise) := Voice.render sine v noise n
    let (mixed, vs, noise) := renderVoices sine n vs noise (Block.mix mixed block)
    (mixed, v :: vs, noise)

def renderRacks (sine : Wave) (n : Nat) : List Rack → Block → Block × List Rack
  | [], mixed => (mixed, [])
  | r :: rs, mixed =>
    let (block, r) := Rack.render sine r n
    let (mixed, rs) := renderRacks sine n rs (Block.mix mixed block)
    (mixed, r :: rs)

def renderPlaybacks (shelf : Shelf) (n : Nat) : List Playback → Block → Block × List Playback
  | [], mixed => (mixed, [])
  | p :: ps, mixed =>
    let (block, p) := Playback.render shelf p n
    let (mixed, ps) := renderPlaybacks shelf n ps (Block.mix mixed block)
    (mixed, p :: ps)

/-- The next `n` mono samples, without the song. -/
def renderStretch (s : Synth) (n : Nat) : Block × Synth :=
  let sine := s.notes.sine
  let (mixed, voices, noise) := renderVoices sine n s.voices.entries s.noise (.silence n)
  let (mixed, racks) := renderRacks sine n s.racks.entries mixed
  let (mixed, playbacks) := renderPlaybacks s.shelf n s.playbacks.entries mixed
  (mixed,
    { s with
      voices := { s.voices with entries := voices }
      racks := { s.racks with entries := racks }
      playbacks := { s.playbacks with entries := playbacks }
      noise })

/-- Dispatches the events at the song's place. The result is the frames to the next event, none at
the end of the song, which wrong data ends too. -/
def runSong (s : Synth) (p : Player) : Option SomeFrames × Synth :=
  let (arrival, p) := p.update false
  let s := arrival.events.foldl dispatch { s with song := some p }
  match arrival.outcome with
  | .ok frames => (frames, s)
  | .error _ => (none, s)

def advanceSong (s : Synth) (frames : Nat) : Synth :=
  { s with song := s.song.map fun p => p.advance frames }

/-- What the song does before at most `n` frames are made: it dispatches its events, it ends, or a
song that waits takes over once no voice of the last one sounds. The result is how many frames can
be made before it has to be asked again. -/
def prepareStretch (s : Synth) (n : SomeFrames) : SomeFrames × Synth :=
  match s.song with
  | some p =>
    match s.runSong p with
    | (some delay, s) =>
      let len := min n.val delay.val
      (⟨len, by have := n.property; have := delay.property; omega⟩, s.advanceSong len)
    | (none, s) => (n, s.endSong)
  | none =>
    match s.pending with
    | some p =>
      if s.hasSongVoices then (n, s)
      else (n, { s with song := some p, pending := none }.welcomeSong)
    | none => (n, s)

/-- Appends the next `n` mono samples to a block, stretch by stretch. -/
def renderMono (s : Synth) (n : Nat) (out : Block) : Block × Synth :=
  if h : 0 < n then
    let (len, s) := s.prepareStretch ⟨n, h⟩
    let (block, s) := s.renderStretch len.val
    s.renderMono (n - len.val) (out ++ block)
  else (out, s)
  termination_by n
  decreasing_by
    have := len.property
    omega

def renderPass (s : Synth) (samples : Nat) : Block × Synth :=
  let frames := samples / s.format.channels
  let (mono, t) := s.renderMono frames #[]
  (Block.spread (mono ++ Block.silence (samples - frames)) frames s.format.channels, t)

/-- Appends `samples` interleaved samples to a block, pass by pass, for passes of at most
`limit`. -/
def renderPasses (limit : SomeFrames) (s : Synth) (samples : Nat) (out : Block) :
    Block × Synth :=
  if _h : 0 < samples then
    let n := min samples limit.val
    let (block, s) := s.renderPass n
    renderPasses limit s (samples - n) (out ++ block)
  else (out, s)
  termination_by samples
  decreasing_by
    have := limit.property
    omega

/-- Begins an update of some frames: counts them and runs the printers. -/
def beginUpdate (s : Synth) (frames : Nat) : Synth :=
  let (printers, shelf) := runPrinters frames s.printers s.shelf
  { s with printers, shelf, framesMade := s.framesMade + frames, updating := frames }

/-- Ends an update: drops what has finished at the end of each pool. -/
def endUpdate (s : Synth) : Synth :=
  { s with
    updating := 0
    voices := s.voices.reap
    racks := s.racks.reap
    playbacks := s.playbacks.reap }

def passLength (s : Synth) : SomeFrames := ⟨s.format.passLimit, s.format.passLimit_pos⟩

def render (s : Synth) (samples : Nat) : Block × Synth :=
  let limit := s.passLength
  let s := s.beginUpdate (samples / s.format.channels)
  let (out, s) := renderPasses limit s samples #[]
  (out, s.endUpdate)

/-! ### Words -/

/-- What a sample is multiplied by to make a word: a little under full scale. -/
def wordScale : Float32 := 32000

/-- A sample as a 16-bit word, cut off at the ends of the range. -/
def wordOfSample (x : Float32) : Int := Single.truncate 0x8000 (x * wordScale)

/-- Appends `samples` words, in updates of at most `limit` samples. -/
def renderWordPasses (limit : SomeFrames) (s : Synth) (samples : Nat) (out : Array Int) :
    Array Int × Synth :=
  if _h : 0 < samples then
    let n := min samples limit.val
    let (block, s) := s.render n
    renderWordPasses limit s (samples - n) (out ++ block.map wordOfSample)
  else (out, s)
  termination_by samples
  decreasing_by
    have := limit.property
    omega

def renderWords (s : Synth) (samples : Nat) : Array Int × Synth :=
  renderWordPasses s.passLength s samples #[]

end Tonewheel.Synth
