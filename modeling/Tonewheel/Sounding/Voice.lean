import Tonewheel.Instrument.Channel
import Tonewheel.Noise
import Tonewheel.Pool
import Tonewheel.Signal.Filter
import Tonewheel.Song.Format

/-!
# Voices (SPEC_FULL, section 4.4)

A voice is one sounding note on a channel of a simple mode. It takes what it needs from its channel
when it begins; later the channel only bends it and lets it go. A voice that has nothing more to say
is defunct: it renders nothing and draws no noise.
-/

namespace Tonewheel

/-- Who started a voice or rack. Only what songs started holds back the next song. -/
inductive Origin where
  | song
  | caller
  deriving Repr, DecidableEq

/-- Songs reach the first eight channels, callers own the rest. -/
def Origin.ofChannel (channel : UInt8) : Origin :=
  if channel.toNat < songChannels then .song else .caller

/-- The note number of a voice that was let go and has not finished yet. -/
def releasedNote : UInt8 := 0xff

inductive Tone where
  | blip (left : Int) (level : Float32)
  | wave (table : Wave) (level : Envelope)
  | rock (table : Wave) (level mix : Envelope)
  | fm (level range : Envelope) (modulatorPhase modulatorStride : UInt32)
  | sub (level : Envelope) (first second : Filter)

structure Voice where
  channel : UInt8
  note : UInt8
  origin : Origin
  /-- The frame count when it began. -/
  born : Nat
  isDefunct : Bool := false
  phase : UInt32 := 0
  /-- The phase step before the wheel. -/
  baseStride : UInt32
  stride : UInt32
  tone : Tone

instance : PoolEntry Voice where
  isDefunct v := v.isDefunct
  isOlder v w := v.born < w.born

namespace Tone

/-- The tone of a note on a channel, or none for patches without voices. -/
def ofNote (c : Channel) (notes : NoteTable) (rate : UInt32) (note velocity : UInt8)
    (duration : Int) : Option Tone :=
  let gain := Channel.master * c.trim
  let loudness (d : Dynamics) (gain : Float32) : Envelope :=
    (Envelope.ofNote d velocity duration).scale gain
  let depth (d : Dynamics) : Envelope := Envelope.ofNote d velocity duration
  match c.patch with
  | .drum _ => none
  | .effect _ => none
  | .blip =>
    some (.blip (max duration (rate >>> 4).toNat)
      (c.trim * (velocity.toFloat32 + 10) / 1000))
  | .wave table level => some (.wave table (loudness level gain))
  | .rock table level mix => some (.rock table (loudness level gain) (depth mix))
  | .fmRelative level range ratio =>
    some (.fm (loudness level gain) (depth range) 0
      ((notes.strideOf note).toFloat32 * ratio).toUInt32)
  | .fmAbsolute level range stride => some (.fm (loudness level gain) (depth range) 0 stride)
  | .sub level width1 width2 subGain =>
    let freq := notes.cyclesOf note
    some (.sub (loudness level (gain * subGain)) (.ofWeights (.bandPass freq width1))
      (.ofWeights (.bandPass freq width2)))

def release : Tone → Tone
  | .blip _ level => .blip 0 level
  | .wave table level => .wave table level.release
  | .rock table level mix => .rock table level.release mix
  | .fm level range phase stride => .fm level.release range phase stride
  | .sub level first second => .sub level.release first second

def isFinished : Tone → Bool
  | .blip left _ => left ≤ 0
  | .wave _ level => level.isFinished
  | .rock _ level _ => level.isFinished
  | .fm level _ _ _ => level.isFinished
  | .sub level _ _ => level.isFinished

/-- What a tone steps through: itself, its phase, and the noise that all voices share. -/
structure Running where
  tone : Tone
  phase : UInt32
  noise : Noise

def wordOfInt (n : Int) : UInt32 := (n % 0x100000000).toNat.toUInt32

def step (sine : Wave) (stride : UInt32) (s : Running) : Float32 × Running :=
  match s with
  | ⟨tone, phase, noise⟩ =>
    match tone with
    | .blip left level =>
      (if phase &&& 0x80000000 != 0 then level else -level,
        ⟨.blip (left - 1) level, phase + stride, noise⟩)
    | .wave table level =>
      let (loudness, level) := level.step
      (table.atPhase phase * loudness, ⟨.wave table level, phase + stride, noise⟩)
    | .rock table level mix =>
      let (share, mix) := mix.step
      let (loudness, level) := level.step
      ((table.atPhase phase * share + sine.atPhase phase * (1 - share)) * loudness,
        ⟨.rock table level mix, phase + stride, noise⟩)
    | .fm level range modulatorPhase modulatorStride =>
      let (loudness, level) := level.step
      let (depth, range) := range.step
      let swing := stride.toFloat32 * (sine.atPhase modulatorPhase * depth)
      (sine.atPhase phase * loudness,
        ⟨.fm level range (modulatorPhase + modulatorStride) modulatorStride,
          phase + stride + wordOfInt (Single.truncate 0x80000000 swing), noise⟩)
    | .sub level first second =>
      let (word, noise) := noise.draw
      let (x, first) := first.step (word.toFloat32 / 32768 - 1)
      let (x, second) := second.step x
      let (loudness, level) := level.step
      (Single.clamp (-0.5) 0.5 (x * loudness), ⟨.sub level first second, phase, noise⟩)

end Tone

namespace Voice

/-- Begins a note, for notes below 128 on channels that have voices. The duration is the sustain in
frames. -/
def begin? (c : Channel) (notes : NoteTable) (rate : UInt32) (note velocity : UInt8)
    (duration : Int) (born : Nat) : Option Voice :=
  if 0x80 ≤ note then none
  else
    (Tone.ofNote c notes rate note velocity duration).map fun tone =>
      let stride := notes.strideOf note
      { channel := c.id
        note
        origin := .ofChannel c.id
        born
        baseStride := stride
        stride := (stride.toFloat32 * c.bend).toUInt32
        tone }

def isSong (v : Voice) : Bool := !v.isDefunct && v.origin == .song

def isNote (v : Voice) (channel note : UInt8) : Bool :=
  !v.isDefunct && v.channel == channel && v.note == note

def release (v : Voice) : Voice := { v with note := releasedNote, tone := v.tone.release }

def setBend (v : Voice) (bend : Float32) : Voice :=
  { v with stride := (v.baseStride.toFloat32 * bend).toUInt32 }

/-- How many of the next `n` samples a tone fills: a blip stops by itself. -/
def reach (tone : Tone) (n : Nat) : Nat :=
  match tone with
  | .blip left _ => min n left.toNat
  | _ => n

/-- Whether a voice is defunct after `n` samples from the tone `before`. A blip is so once it could
not fill them, other tones once their loudness has run out. -/
def endsWith (before after : Tone) (n : Nat) : Bool :=
  match before with
  | .blip _ _ => reach before n < n
  | _ => after.isFinished

def render (sine : Wave) (v : Voice) (noise : Noise) (n : Nat) : Block × Voice × Noise :=
  if v.isDefunct then (#[], v, noise)
  else
    let (block, running) :=
      Block.generate (Tone.step sine v.stride) (reach v.tone n) ⟨v.tone, v.phase, noise⟩
    (block,
      { v with
        tone := running.tone
        phase := running.phase
        isDefunct := endsWith v.tone running.tone n },
      running.noise)

end Voice

end Tonewheel
