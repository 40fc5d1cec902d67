import Tonewheel.Synth.Control

/-!
# Playing songs on the synthesizer (SPEC_FULL, section 4.6)

One song plays and one can wait. A song that takes over from another waits until the voices of the
last one have died away; then it takes the first eight channels for itself. When a song ends, its
voices and racks are let go, and its programs are forgotten.
-/

namespace Tonewheel.Synth

def songIndices : List (Fin channelCount) :=
  (List.finRange channelCount).filter fun i => i.val < songChannels

def headerControl (s : Synth) (i : Fin channelCount) (key value : UInt8) : Synth :=
  s.withChannel i fun s c => s.controlChannel i c key value

/-- Sets a channel up as a song's header says; a channel without volume is only given its
program. -/
def setUpChannel (s : Synth) (i : Fin channelCount) (r : ChannelRecord) : Synth :=
  let s := { s with programs := s.programs.set i r.program.toUInt32 i.isLt }
  if r.volume = 0 then s
  else
    let s := s.instantiate i
    let s := s.headerControl i controlVolume (r.volume >>> 1)
    s.headerControl i controlPan (r.pan >>> 1)

def clearSongChannels (s : Synth) : Synth :=
  { s with channels := s.channels.mapIdx fun i c => if i < songChannels then none else c }

def welcomeSong (s : Synth) : Synth :=
  let s := s.clearSongChannels
  match s.song with
  | none => s
  | some p => songIndices.foldl (fun s i => s.setUpChannel i (p.song.record i.val)) s

/-- Drops the song that plays, lets all voices and racks go, and forgets the programs of the song's
channels. The channels stay, as fading voices may need them. -/
def endSong (s : Synth) : Synth :=
  match s.song with
  | none => s
  | some _ =>
    { s with
      song := none
      voices := s.voices.map Voice.release
      racks := s.racks.map Rack.release
      programs := s.programs.mapIdx fun i word => if i < songChannels then 0 else word }

/-- Starts a song, or nothing, at once if no song and no voice of one is there, and otherwise after
the last one. -/
def installSong (s : Synth) (song : Option Player) : Synth :=
  if s.song.isNone && s.pending.isNone && !s.hasSongVoices then { s with song }.welcomeSong
  else { s with pending := song }.endSong

/-- Plays a stored song. Unless it is forced, a song that plays or waits already is left alone. A
missing song fades to silence; one that cannot be decoded changes nothing. -/
def playSong (s : Synth) (id : ResourceId) (force repeats : Bool) : Synth :=
  if !force && s.upcoming.any (·.isResource id) then s
  else
    match s.lookup ⟨.song, id.1, id.2⟩ with
    | none => s.installSong none
    | some [] => s.installSong none
    | some bytes =>
      match Player.make s.format.rate bytes repeats (some id) with
      | .ok p => s.installSong (some p)
      | .error _ => s

/-- Plays a song from its binary form. No bytes end the song that plays; bytes that cannot be
decoded change nothing. -/
def playSongBytes (s : Synth) (bytes : Bytes) (repeats : Bool) : Synth :=
  if bytes.isEmpty then { s with pending := none }.endSong
  else
    match Player.make s.format.rate bytes repeats none with
    | .ok p => s.installSong (some p)
    | .error _ => s

/-- Moves the song that waits, or else the one that plays, to a beat. -/
def seek (s : Synth) (beats : Float) : Synth :=
  match s.pending, s.song with
  | some p, _ => { s with pending := some (p.seek beats) }
  | none, some p => { s with song := some (p.seek beats), voices := s.voices.map Voice.release }
  | none, none => s

end Tonewheel.Synth
