import Tonewheel.Pcm.Cache
import Tonewheel.Pcm.Playback
import Tonewheel.Song.Player
import Tonewheel.Sound.Printer
import Tonewheel.Sounding.Rack
import Tonewheel.Store

/-!
# The synthesizer (SPEC_FULL, sections 3 and 12)

A synthesizer owns all channels, voices, racks, playbacks and printers, the song that plays and the
one that waits for it. This module holds the state, its start, and what a caller can ask it
without changing it.
-/

namespace Tonewheel

abbrev channelCount : Nat := 16

structure PrintJob where
  pcm : PcmId
  printer : Sound.Printer

structure Synth where
  format : Format
  notes : NoteTable
  /-- Where songs and sounds are looked up. -/
  resources : Option Store := none
  shelf : Shelf := {}
  cache : Cache := {}
  printers : List PrintJob := []
  voices : Pool Voice
  racks : Pool Rack
  playbacks : Pool Playback
  channels : Vector (Option Channel) channelCount := Vector.replicate channelCount none
  /-- Program and bank of each channel: 7 bits of program, 7 of low bank, 7 of high bank. -/
  programs : Vector UInt32 channelCount := Vector.replicate channelCount 0
  song : Option Player := none
  /-- The song that waits for the voices of the last one. -/
  pending : Option Player := none
  /-- What takes the place of program zero. -/
  custom : Option Definition := none
  /-- Frames made since the start, those of an update in progress included. -/
  framesMade : Nat := 0
  /-- The frames of the update in progress, zero between updates. -/
  updating : Nat := 0
  noise : Noise

namespace Synth

def voiceLimit : Nat := 32

def rackLimit : Nat := 16

def playbackLimit : Nat := 16

def noiseSeed : UInt64 := 0x0e995eed

def ofFormat (format : Format) : Synth :=
  { format
    notes := .ofRate format.rate
    voices := { capacity := voiceLimit }
    racks := { capacity := rackLimit }
    playbacks := { capacity := playbackLimit }
    noise := ⟨noiseSeed⟩ }

/-- Replaces the store of resources. Sounds that were printed stay. -/
def setResources (s : Synth) (store : Store) : Synth := { s with resources := some store }

def lookup (s : Synth) (key : ResourceKey) : Option Bytes :=
  match s.resources with
  | some store => store.get? key
  | none => none

def channelIndex? (channel : UInt8) : Option (Fin channelCount) :=
  if h : channel.toNat < channelCount then some ⟨channel.toNat, h⟩ else none

/-! ### Questions -/

def upcoming (s : Synth) : Option Player :=
  match s.pending with
  | some p => some p
  | none => s.song

/-- Qualifier, id and repetition of the song that waits or plays. A song without a resource has
qualifier and id zero. -/
def songInfo (s : Synth) : UInt16 × UInt16 × Bool :=
  match s.upcoming with
  | some p =>
    let (qualifier, id) := p.song.resource.getD (0, 0)
    (qualifier, id, p.repeats)
  | none => (0, 0, false)

def isSongPlaying (s : Synth) : Bool := s.song.isSome

/-- The position of the song in beats, less `adjust` seconds; minus one without a song. -/
def position (s : Synth) (adjust : Float) : Float :=
  match s.upcoming with
  | some p => p.position adjust
  | none => -1

/-- The length of the song in beats, zero without a song. -/
def duration (s : Synth) : Float :=
  match s.upcoming with
  | some p => p.song.durationBeats
  | none => 0

/-- The frames of a beat of the song that plays, of half a second without one. -/
def framesPerBeat (s : Synth) : UInt32 :=
  match s.song with
  | some p => (p.song.tempo.toNat * s.format.rate.toNat / 1000).toUInt32
  | none => s.format.rate >>> 1

def channelMode (s : Synth) (channel : UInt8) : Option Mode :=
  match channelIndex? channel with
  | some i => s.channels[i].map Channel.mode
  | none => none

def hasSongVoices (s : Synth) : Bool :=
  s.voices.entries.any Voice.isSong || s.racks.entries.any Rack.isSong

def isIdle (s : Synth) : Bool :=
  !s.isSongPlaying && s.songInfo == (0, 0, false) && s.voices.live == 0 && s.racks.live == 0
    && s.playbacks.live == 0

def songSummary (s : Synth) : String :=
  match s.song with
  | none => "None"
  | some p =>
    match p.song.resource with
    | none => "Some(None)"
    | some (qualifier, id) => s!"Some(Some(({qualifier.toNat}, {id.toNat})))"

/-- A one-line summary: format, slots in use, printers at work and the song that plays. -/
def summary (s : Synth) : String :=
  s!"Synth \x7b config: SynthConfig \x7b rate: {s.format.rate.toNat}, "
    ++ s!"channels: {s.format.channels} \x7d, voices: {s.voices.size}, procs: {s.racks.size}, "
    ++ s!"playbacks: {s.playbacks.size}, printers: {s.printers.length}, "
    ++ s!"song: {s.songSummary}, .. \x7d"

end Synth

end Tonewheel
