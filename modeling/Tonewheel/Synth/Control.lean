import Tonewheel.Synth.Sounds

/-!
# Events (SPEC_FULL, section 4.5)

Songs and callers act on the synthesizer by events. A channel is made when an event first needs it,
from its program and bank at that time. Events on channels past the sixteenth are ignored.
-/

namespace Tonewheel.Synth

/-! ### Channels -/

/-- Makes a channel of its program, and its rack if it is in effect mode. A program without a
channel leaves all as it is. -/
def instantiate (s : Synth) (i : Fin channelCount) : Synth :=
  match Channel.make i.val.toUInt8 (s.programs.get i) s.format.rate s.notes s.custom with
  | none => s
  | some c =>
    let racks :=
      match c.patch with
      | .effect params =>
        (s.racks.insert (Rack.make c params s.format.rate s.framesPerBeat s.framesMade)).2
      | _ => s.racks
    { s with racks, channels := s.channels.set i (some c) i.isLt }

def ensureChannel (s : Synth) (i : Fin channelCount) : Synth :=
  match s.channels.get i with
  | some _ => s
  | none => s.instantiate i

/-- Changes the rack of a channel, the first one that has not faded out. -/
def updateRack (s : Synth) (channel : UInt8) (f : Rack → Rack) : Synth :=
  { s with racks := s.racks.update (fun r => !r.isDefunct && r.channel == channel) f }

def dropChannel (s : Synth) (i : Fin channelCount) : Synth :=
  { s with
    voices := s.voices.retain fun v => v.channel != i.val.toUInt8
    racks := s.racks.retain fun r => r.channel != i.val.toUInt8
    channels := s.channels.set i none i.isLt }

/-! ### Notes -/

def playDrum (s : Synth) (c : Channel) (base : UInt16) (note velocity : UInt8) : Synth :=
  s.playSound ⟨0, base + note.toUInt16⟩ (c.drumTrim velocity)

def startNote (s : Synth) (c : Channel) (note velocity : UInt8) (duration : Int) : Synth :=
  match c.patch with
  | .drum base => s.playDrum c base note velocity
  | .effect _ =>
    s.updateRack c.id fun r => r.noteOnce s.notes note velocity duration s.framesMade
  | _ =>
    match Voice.begin? c s.notes s.format.rate note velocity duration s.framesMade with
    | some v => { s with voices := (s.voices.insert v).2 }
    | none => s

/-- Lets a note of a channel that is made go. A drum plays on. -/
def stopNote (s : Synth) (c : Channel) (note : UInt8) : Synth :=
  match c.patch with
  | .drum _ => s
  | .effect _ => s.updateRack c.id fun r => r.noteOff note
  | _ => { s with voices := s.voices.update (fun v => v.isNote c.id note) Voice.release }

/-! ### Controllers -/

def controlChannel (s : Synth) (i : Fin channelCount) (c : Channel) (key value : UInt8) : Synth :=
  let s := { s with channels := s.channels.set i (some (c.control key value)) i.isLt }
  match c.patch with
  | .effect _ => s.updateRack c.id fun r => r.control key value
  | _ => s

/-- Runs an operation on a channel, which is made first if it is not there and can be. -/
def withChannel (s : Synth) (i : Fin channelCount) (act : Synth → Channel → Synth) : Synth :=
  let s := s.ensureChannel i
  match s.channels.get i with
  | some c => act s c
  | none => s

def withHighBank (word : UInt32) (value : UInt8) : UInt32 :=
  (word &&& (0xffe03fff : UInt32)) ||| (value.toUInt32 <<< 14)

def withLowBank (word : UInt32) (value : UInt8) : UInt32 :=
  (word &&& (0xffffc07f : UInt32)) ||| (value.toUInt32 <<< 7)

def withProgram (word : UInt32) (number : UInt8) : UInt32 :=
  (word &&& (0xffffff80 : UInt32)) ||| (number &&& (0x7f : UInt8)).toUInt32

/-- A controller. Bank controllers take effect with the next program; the low halves of controllers
are ignored. -/
def control (s : Synth) (i : Fin channelCount) (key value : UInt8) : Synth :=
  if key = controlBankHigh then
    { s with programs := s.programs.set i (withHighBank (s.programs.get i) value) i.isLt }
  else if key = controlBankLow then
    { s with programs := s.programs.set i (withLowBank (s.programs.get i) value) i.isLt }
  else if 0x21 ≤ key ∧ key ≤ 0x3f then s
  else s.withChannel i fun s c => s.controlChannel i c key value

/-- A program change, which drops the channel. The next event that needs it makes it again. -/
def changeProgram (s : Synth) (i : Fin channelCount) (number : UInt8) : Synth :=
  let s := { s with programs := s.programs.set i (withProgram (s.programs.get i) number) i.isLt }
  match s.channels.get i with
  | some _ => s.dropChannel i
  | none => s

def bendVoices (s : Synth) (channel : UInt8) (bend : Float32) : Synth :=
  { s with
    voices := s.voices.map fun v =>
      if !v.isDefunct && v.channel == channel then v.setBend bend else v }

def moveWheel (s : Synth) (i : Fin channelCount) (c : Channel) (position : UInt16) : Synth :=
  if c.wheel = position then s
  else
    let (bend, moved) := c.setWheel position
    let s := { s with channels := s.channels.set i (some moved) i.isLt }
    match bend, c.patch with
    | some bend, _ => s.bendVoices c.id bend
    | none, .effect _ => s.updateRack c.id fun r => r.wheel position
    | none, _ => s

/-! ### Events -/

def allChannels : List (Fin channelCount) := List.finRange channelCount

/-- A reset: nothing on a channel of the song, a drop on one of the caller's, and a drop of all
channels past the sixteenth. -/
def reset (s : Synth) (channel : UInt8) : Synth :=
  match channelIndex? channel with
  | some i => if channel.toNat < songChannels then s else s.dropChannel i
  | none => allChannels.foldl dropChannel s

def onChannel (s : Synth) (channel : UInt8) (act : Fin channelCount → Synth) : Synth :=
  match channelIndex? channel with
  | some i => act i
  | none => s

def perform (s : Synth) (channel : UInt8) : Action → Synth
  | .noteOff note => s.onChannel channel fun i => s.withChannel i fun s c => s.stopNote c note
  | .noteOn note velocity =>
    s.onChannel channel fun i =>
      s.withChannel i fun s c => s.startNote c note velocity Envelope.held
  | .noteOnce note velocity duration =>
    s.onChannel channel fun i => s.withChannel i fun s c => s.startNote c note velocity duration
  | .control key value => s.onChannel channel fun i => s.control i key value
  | .program number => s.onChannel channel fun i => s.changeProgram i number
  | .wheel position =>
    s.onChannel channel fun i => s.withChannel i fun s c => s.moveWheel i c position
  | .reset => s.reset channel
  | .nothing => s

def dispatch (s : Synth) (e : Event) : Synth := s.perform e.channel e.action

/-- Replaces program zero, or restores it. All voices, racks and channels are dropped at once; songs
and playbacks go on. -/
def setCustom (s : Synth) (custom : Option Definition) : Synth :=
  { s with
    custom
    voices := s.voices.clear
    racks := s.racks.clear
    channels := Vector.replicate channelCount none }

end Tonewheel.Synth
