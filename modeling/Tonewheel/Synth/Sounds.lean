import Tonewheel.Synth.State

/-!
# Playing sounds (SPEC_FULL, section 4.6)

A sound is printed when it is first played; later it is played from the cache. A sound that its
qualifier does not have is taken from qualifier zero. Data that cannot be decoded changes nothing.
-/

namespace Tonewheel.Synth

/-- Sets a printer to work on a new buffer. In the middle of an update it catches up with it at
once. -/
def startPrinter (s : Synth) (bytes : Bytes) : Option PcmId × Synth :=
  match Sound.Printer.make s.format.rate bytes with
  | .error _ => (none, s)
  | .ok printer =>
    let (printer, buffer) :=
      if 0 < s.updating then printer.update printer.emptyBuffer s.updating
      else (printer, printer.emptyBuffer)
    let (pcm, shelf) := s.shelf.add buffer
    (some pcm, { s with shelf, printers := s.printers ++ [{ pcm, printer }] })

def startPlayback (s : Synth) (pcm : PcmId) (trim : Float32) : Synth :=
  { s with playbacks := (s.playbacks.insert (.ofBuffer s.shelf pcm trim)).2 }

def soundBytes? (s : Synth) (key : SoundKey) : Option Bytes :=
  match s.lookup ⟨.sound, key.qualifier, key.id⟩ with
  | some [] => none
  | found => found

def knowsSound (s : Synth) (key : SoundKey) : Bool :=
  (s.cache.find? key).isSome || (s.soundBytes? key).isSome

/-- The key under which a sound is known, which can be that of qualifier zero. -/
def resolveSound (s : Synth) (key : SoundKey) : Option SoundKey :=
  let common : SoundKey := { key with qualifier := 0 }
  if s.knowsSound key then some key
  else if s.knowsSound common then some common
  else none

def obtainSound (s : Synth) (key : SoundKey) : Option PcmId × Synth :=
  match s.cache.find? key with
  | some pcm => (some pcm, s)
  | none =>
    match s.soundBytes? key with
    | none => (none, s)
    | some bytes =>
      match s.startPrinter bytes with
      | (some pcm, s) => (some pcm, { s with cache := s.cache.add key pcm })
      | (none, s) => (none, s)

def playObtained (trim : Float32) : Option PcmId × Synth → Synth
  | (some pcm, s) => s.startPlayback pcm trim
  | (none, s) => s

/-- Plays a sound. Nothing is audible at a trim that is not positive. -/
def playSound (s : Synth) (key : SoundKey) (trim : Float32) : Synth :=
  if trim ≤ 0 then s
  else
    match s.resolveSound key with
    | some key => playObtained trim (s.obtainSound key)
    | none => s

/-- Plays a sound from its binary form. It is never cached. -/
def playSoundBytes (s : Synth) (bytes : Bytes) (trim : Float32) : Synth :=
  if trim ≤ 0 ∨ bytes.isEmpty then s else playObtained trim (s.startPrinter bytes)

def clearCache (s : Synth) : Synth :=
  { s with playbacks := s.playbacks.clear, printers := [], cache := {}, shelf := {} }

/-- Lets all printers make `frames` more samples; those that finish are dropped. -/
def runPrinters (frames : Nat) : List PrintJob → Shelf → List PrintJob × Shelf
  | [], shelf => ([], shelf)
  | job :: jobs, shelf =>
    let (buffer, shelf) := shelf.take job.pcm
    let (printer, buffer) := job.printer.update buffer frames
    let (jobs, shelf) := runPrinters frames jobs (shelf.write job.pcm buffer)
    if printer.isFinished then (jobs, shelf) else ({ job with printer } :: jobs, shelf)

end Tonewheel.Synth
