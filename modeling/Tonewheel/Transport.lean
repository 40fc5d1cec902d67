import Tonewheel.Numeric.Places
import Tonewheel.Synth.Message

/-!
# The transport line (SPEC_FULL, section 13)

One line of text about a synthesizer at work: its song and position, what is sounding, the sample
rate, and how loud the last samples were.
-/

namespace Tonewheel

structure Loudness where
  /-- The largest magnitude. -/
  peak : Float32
  /-- The root of the mean square. -/
  rms : Float32

/-- The loudness of a block, zero for an empty one. A NaN is no magnitude. -/
def Loudness.ofBlock (block : Block) : Loudness :=
  if block.isEmpty then { peak := 0, rms := 0 }
  else
    let peak := block.foldl (fun peak x => if peak < x.abs then x.abs else peak) 0
    let sum := block.foldl (fun sum x => sum + x * x) 0
    { peak, rms := (sum / block.size.toUInt64.toFloat32).sqrt }

structure Transport where
  song : UInt16 × UInt16 × Bool
  /-- Beats, negative without a song. -/
  position : Float
  /-- Beats. -/
  duration : Float
  voices : Nat
  racks : Nat
  playbacks : Nat
  rate : UInt32
  loudness : Loudness

namespace Transport

def ofSynth (s : Synth) (last : Block) : Transport :=
  { song := s.songInfo
    position := s.position 0
    duration := s.duration
    voices := s.voices.live
    racks := s.racks.live
    playbacks := s.playbacks.live
    rate := s.format.rate
    loudness := .ofBlock last }

def songText (t : Transport) : String :=
  let (qualifier, id, repeats) := t.song
  let mark := if repeats then " ⟳" else ""
  s!"Song {qualifier.toNat}:{id.toNat}{mark}  "

def positionText (t : Transport) : String :=
  "Beat " ++ Places.ofDouble 2 t.position ++ "/" ++ Places.ofDouble 2 t.duration ++ "  "

def countsText (t : Transport) : String :=
  "V " ++ Places.column 2 t.voices ++ "  FX " ++ Places.column 2 t.racks ++ "  PCM "
    ++ Places.column 2 t.playbacks ++ "  "

def rateText (t : Transport) : String :=
  Places.ofSingle 1 (t.rate.toFloat32 / 1000) ++ "kHz  "

def loudnessText (t : Transport) : String :=
  "Peak: " ++ Places.ofSingle 2 t.loudness.peak ++ "  RMS: " ++ Places.ofSingle 2 t.loudness.rms

def text (t : Transport) : String :=
  let playing := 0 ≤ t.position
  (if playing then t.songText else "No song  ")
    ++ (if playing then t.positionText else "--  ")
    ++ t.countsText ++ t.rateText ++ t.loudnessText

/-- The line in a frame of the given width: what fits between its borders, without spaces at the
end. -/
def framed (t : Transport) (width : Nat) : String :=
  let shown := t.text.toList.take (width - 2)
  String.ofList (shown.reverse.dropWhile (· == ' ')).reverse

end Transport

end Tonewheel
