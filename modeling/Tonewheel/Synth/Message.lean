import Tonewheel.Synth.Render

/-!
# Messages and calls (SPEC_FULL, sections 5 and 6)

A message is a request that a caller queues; messages are carried out in order. A call is anything
a caller does to a synthesizer, so that a list of calls is a history of it.
-/

namespace Tonewheel

inductive Message where
  | event (event : Event)
  | playSong (id : ResourceId) (force repeats : Bool)
  | playSound (key : SoundKey) (trim : Float32)
  | seek (beats : Float)
  /-- Lets all notes on all channels go. -/
  | allNotesOff

namespace Synth

def releaseAll (s : Synth) : Synth :=
  { s with voices := s.voices.map Voice.release, racks := s.racks.map Rack.releaseNotes }

def handle (s : Synth) : Message → Synth
  | .event e => s.dispatch e
  | .playSong id force repeats => s.playSong id force repeats
  | .playSound key trim => s.playSound key trim
  | .seek beats => s.seek beats
  | .allNotesOff => s.releaseAll

def drain (s : Synth) (messages : List Message) : Nat × Synth :=
  (messages.length, messages.foldl handle s)

inductive Call where
  | message (message : Message)
  | playSongBytes (bytes : Bytes) (repeats : Bool)
  | playSoundBytes (bytes : Bytes) (trim : Float32)
  | clearCache
  | setCustom (custom : Option Definition)
  | setResources (store : Store)
  /-- An update of some samples. -/
  | render (samples : Nat)
  /-- An update of some samples as words. -/
  | renderWords (samples : Nat)

def apply (s : Synth) : Call → Synth
  | .message m => s.handle m
  | .playSongBytes bytes repeats => s.playSongBytes bytes repeats
  | .playSoundBytes bytes trim => s.playSoundBytes bytes trim
  | .clearCache => s.clearCache
  | .setCustom custom => s.setCustom custom
  | .setResources store => s.setResources store
  | .render samples => (s.render samples).2
  | .renderWords samples => (s.renderWords samples).2

end Synth

end Tonewheel
