import Tonewheel.Proofs.Synth.Steps

/-!
# What events are made of

An event makes channels, drops them, or has one of four operations run on a channel that is made.
What these keep is kept by every event (`EventClosed`), and what all but the start of a note keep, by
every event that starts none and by setting a channel up for a song (`QuietClosed`). A sound changes
nothing but what is printed and played back (`SoundsOnly`), and most steps leave just that alone
(`Step.Quiet`).
-/

namespace Tonewheel.Synth

/-! ### Sounds -/

/-- Whether a synthesizer differs from another in what it prints and plays back only. -/
def SoundsOnly (s t : Synth) : Prop :=
  ∃ shelf cache printers playbacks, t = { s with shelf, cache, printers, playbacks }

theorem SoundsOnly.refl (s : Synth) : s.SoundsOnly s := ⟨_, _, _, _, rfl⟩

theorem startPrinter_sounds (s : Synth) (bytes : Bytes) :
    s.SoundsOnly (s.startPrinter bytes).2 := by
  unfold startPrinter
  split
  · exact .refl s
  · split
    exact ⟨_, _, _, _, rfl⟩

theorem obtainSound_sounds (s : Synth) (key : SoundKey) : s.SoundsOnly (s.obtainSound key).2 := by
  unfold obtainSound
  split
  · exact .refl s
  · split
    · exact .refl s
    next bytes _ =>
      have hprinter := s.startPrinter_sounds bytes
      generalize s.startPrinter bytes = started at hprinter
      obtain ⟨pcm, t⟩ := started
      obtain ⟨shelf, cache, printers, playbacks, rfl⟩ := hprinter
      cases pcm with
      | none => exact ⟨_, _, _, _, rfl⟩
      | some pcm => exact ⟨_, _, _, _, rfl⟩

theorem playObtained_sounds (trim : Float32) {s : Synth} {found : Option PcmId × Synth}
    (h : s.SoundsOnly found.2) : s.SoundsOnly (playObtained trim found) := by
  obtain ⟨pcm, t⟩ := found
  obtain ⟨shelf, cache, printers, playbacks, rfl⟩ := h
  cases pcm with
  | none => exact ⟨_, _, _, _, rfl⟩
  | some pcm => exact ⟨_, _, _, _, rfl⟩

theorem playSound_sounds (s : Synth) (key : SoundKey) (trim : Float32) :
    s.SoundsOnly (s.playSound key trim) := by
  unfold playSound
  split
  · exact .refl s
  · split
    · exact playObtained_sounds trim (s.obtainSound_sounds _)
    · exact .refl s

theorem playSoundBytes_sounds (s : Synth) (bytes : Bytes) (trim : Float32) :
    s.SoundsOnly (s.playSoundBytes bytes trim) := by
  unfold playSoundBytes
  split
  · exact .refl s
  · exact playObtained_sounds trim (s.startPrinter_sounds bytes)

/-! ### What plays -/

/-- Whether a synthesizer differs from another only in its channels and in what plays. -/
def PlaysOnly (s t : Synth) : Prop :=
  ∃ shelf cache printers voices racks playbacks channels,
    t = { s with shelf, cache, printers, voices, racks, playbacks, channels }

namespace PlaysOnly

theorem refl (s : Synth) : s.PlaysOnly s := ⟨_, _, _, _, _, _, _, rfl⟩

theorem trans {s t u : Synth} (h : s.PlaysOnly t) (h' : t.PlaysOnly u) : s.PlaysOnly u := by
  obtain ⟨_, _, _, _, _, _, _, rfl⟩ := h
  obtain ⟨_, _, _, _, _, _, _, rfl⟩ := h'
  exact ⟨_, _, _, _, _, _, _, rfl⟩

theorem of_sounds {s t : Synth} (h : s.SoundsOnly t) : s.PlaysOnly t := by
  obtain ⟨_, _, _, _, rfl⟩ := h
  exact ⟨_, _, _, _, _, _, _, rfl⟩

theorem programs {s t : Synth} (h : s.PlaysOnly t) : t.programs = s.programs := by
  obtain ⟨_, _, _, _, _, _, _, rfl⟩ := h
  rfl

theorem framesMade {s t : Synth} (h : s.PlaysOnly t) : t.framesMade = s.framesMade := by
  obtain ⟨_, _, _, _, _, _, _, rfl⟩ := h
  rfl

variable (s : Synth)

theorem instantiate (i : Fin channelCount) : s.PlaysOnly (s.instantiate i) := by
  unfold Synth.instantiate
  split
  · exact refl s
  · exact ⟨_, _, _, _, _, _, _, rfl⟩

theorem withChannel (i : Fin channelCount) {act : Synth → Channel → Synth}
    (h : ∀ (t : Synth) (c : Channel), t.PlaysOnly (act t c)) : s.PlaysOnly (s.withChannel i act) := by
  have hensure : s.PlaysOnly (s.ensureChannel i) := by
    unfold ensureChannel
    split
    · exact refl s
    · exact instantiate s i
  unfold Synth.withChannel
  dsimp only
  split
  · exact hensure.trans (h _ _)
  · exact hensure

theorem onChannel (channel : UInt8) {act : Fin channelCount → Synth}
    (h : ∀ i, s.PlaysOnly (act i)) : s.PlaysOnly (s.onChannel channel act) := by
  unfold Synth.onChannel
  split
  next i _ => exact h i
  next => exact refl s

theorem dropChannel (i : Fin channelCount) : s.PlaysOnly (s.dropChannel i) :=
  ⟨_, _, _, _, _, _, _, rfl⟩

theorem startNote (c : Channel) (note velocity : UInt8) (duration : Int) :
    s.PlaysOnly (s.startNote c note velocity duration) := by
  unfold Synth.startNote
  split
  · exact of_sounds (s.playSound_sounds _ _)
  · exact ⟨_, _, _, _, _, _, _, rfl⟩
  · split
    · exact ⟨_, _, _, _, _, _, _, rfl⟩
    · exact refl s

theorem stopNote (c : Channel) (note : UInt8) : s.PlaysOnly (s.stopNote c note) := by
  unfold Synth.stopNote
  split
  · exact refl s
  · exact ⟨_, _, _, _, _, _, _, rfl⟩
  · exact ⟨_, _, _, _, _, _, _, rfl⟩

theorem controlChannel (i : Fin channelCount) (c : Channel) (key value : UInt8) :
    s.PlaysOnly (s.controlChannel i c key value) := by
  unfold Synth.controlChannel
  dsimp only
  split <;> exact ⟨_, _, _, _, _, _, _, rfl⟩

theorem moveWheel (i : Fin channelCount) (c : Channel) (position : UInt16) :
    s.PlaysOnly (s.moveWheel i c position) := by
  unfold Synth.moveWheel
  split
  · exact refl s
  · generalize c.setWheel position = moved
    obtain ⟨bend, moved⟩ := moved
    dsimp only
    split <;> exact ⟨_, _, _, _, _, _, _, rfl⟩

theorem reset (channel : UInt8) : s.PlaysOnly (s.reset channel) := by
  unfold Synth.reset
  split
  · split
    · exact refl s
    · exact dropChannel s _
  · generalize allChannels = is
    induction is generalizing s with
    | nil => exact refl s
    | cons i is ih => exact (dropChannel s i).trans (ih _)

end PlaysOnly

/-! ### Operations on channels -/

/-- Whether all that events are made of keeps a property, but for the start of a note. -/
structure QuietClosed (motive : Synth → Prop) : Prop where
  programs : ∀ s programs, motive s → motive { s with programs }
  ensure : ∀ s i, motive s → motive (s.ensureChannel i)
  drop : ∀ s i, motive s → motive (s.dropChannel i)
  stop : ∀ s i c note, motive s → s.channels.get i = some c → motive (s.stopNote c note)
  control : ∀ s i c key value, motive s → s.channels.get i = some c →
    motive (s.controlChannel i c key value)
  wheel : ∀ s i c position, motive s → s.channels.get i = some c →
    motive (s.moveWheel i c position)

structure EventClosed (motive : Synth → Prop) : Prop extends QuietClosed motive where
  start : ∀ s i c note velocity duration, motive s → s.channels.get i = some c →
    motive (s.startNote c note velocity duration)

namespace QuietClosed

variable {motive : Synth → Prop} {s : Synth} {i : Fin channelCount}

theorem withChannel (h : QuietClosed motive) (hs : motive s) {act : Synth → Channel → Synth}
    (hact : ∀ t c, motive t → t.channels.get i = some c → motive (act t c)) :
    motive (s.withChannel i act) := by
  have hmade := h.ensure s i hs
  unfold Synth.withChannel
  dsimp only
  split
  next c hc => exact hact _ c hmade hc
  next => exact hmade

theorem onChannel (hs : motive s) (channel : UInt8) {act : Fin channelCount → Synth}
    (hact : ∀ i, motive (act i)) : motive (s.onChannel channel act) := by
  unfold Synth.onChannel
  split
  next i _ => exact hact i
  next => exact hs

theorem changeProgram (h : QuietClosed motive) (hs : motive s) (i : Fin channelCount)
    (number : UInt8) : motive (s.changeProgram i number) := by
  have hprograms := h.programs s
    (s.programs.set i (withProgram (s.programs.get i) number) i.isLt) hs
  unfold Synth.changeProgram
  dsimp only
  split
  · exact h.drop _ i hprograms
  · exact hprograms

theorem controlEvent (h : QuietClosed motive) (hs : motive s) (i : Fin channelCount)
    (key value : UInt8) : motive (s.control i key value) := by
  unfold Synth.control
  split
  · exact h.programs s _ hs
  · split
    · exact h.programs s _ hs
    · split
      · exact hs
      · exact h.withChannel hs fun t c ht hc => h.control t i c key value ht hc

theorem dropChannels (h : QuietClosed motive) (hs : motive s) (is : List (Fin channelCount)) :
    motive (is.foldl Synth.dropChannel s) := by
  induction is generalizing s with
  | nil => exact hs
  | cons i is ih => exact ih (h.drop s i hs)

theorem reset (h : QuietClosed motive) (hs : motive s) (channel : UInt8) :
    motive (s.reset channel) := by
  unfold Synth.reset
  split
  next i _ =>
    split
    · exact hs
    · exact h.drop s i hs
  · exact h.dropChannels hs allChannels

theorem perform (h : QuietClosed motive) (hs : motive s) (channel : UInt8) {a : Action}
    (hon : ∀ note velocity, a ≠ .noteOn note velocity)
    (honce : ∀ note velocity duration, a ≠ .noteOnce note velocity duration) :
    motive (s.perform channel a) := by
  cases a with
  | noteOff note =>
    exact onChannel hs _ fun i => h.withChannel hs fun t c ht hc => h.stop t i c note ht hc
  | noteOn note velocity => exact absurd rfl (hon note velocity)
  | noteOnce note velocity duration => exact absurd rfl (honce note velocity duration)
  | control key value => exact onChannel hs _ fun i => h.controlEvent hs i key value
  | program number => exact onChannel hs _ fun i => h.changeProgram hs i number
  | wheel position =>
    exact onChannel hs _ fun i =>
      h.withChannel hs fun t c ht hc => h.wheel t i c position ht hc
  | reset => exact h.reset hs channel
  | nothing => exact hs

theorem headerControl (h : QuietClosed motive) (hs : motive s) (i : Fin channelCount)
    (key value : UInt8) : motive (s.headerControl i key value) :=
  h.withChannel hs fun t c ht hc => h.control t i c key value ht hc

theorem setUpChannel (h : QuietClosed motive) (hs : motive s) (hfree : s.channels.get i = none)
    (r : ChannelRecord) : motive (s.setUpChannel i r) := by
  have hprograms := h.programs s (s.programs.set i r.program.toUInt32 i.isLt) hs
  have hmade := h.ensure _ i hprograms
  rw [ensureChannel, hfree] at hmade
  unfold Synth.setUpChannel
  dsimp only
  split
  · exact hprograms
  · exact h.headerControl (h.headerControl hmade i _ _) i _ _

end QuietClosed

theorem EventClosed.dispatch {motive : Synth → Prop} {s : Synth} (h : EventClosed motive)
    (hs : motive s) (e : Event) : motive (s.dispatch e) := by
  unfold Synth.dispatch
  cases e.action with
  | noteOn note velocity =>
    exact QuietClosed.onChannel hs _ fun i =>
      h.withChannel hs fun t c ht hc => h.start t i c note velocity _ ht hc
  | noteOnce note velocity duration =>
    exact QuietClosed.onChannel hs _ fun i =>
      h.withChannel hs fun t c ht hc => h.start t i c note velocity duration ht hc
  | _ => exact h.perform hs _ (by simp) (by simp)

/-! ### What leaves sounds alone -/

/-- All that printing and playing back goes by. -/
def soundSide (s : Synth) : Format × Shelf × Cache × List PrintJob × Pool Playback × Nat :=
  (s.format, s.shelf, s.cache, s.printers, s.playbacks, s.updating)

theorem quietClosed_of_soundSide {motive : Synth → Prop}
    (hsame : ∀ s t, t.soundSide = s.soundSide → motive s → motive t) : QuietClosed motive where
  programs s _ h := hsame s _ rfl h
  ensure s i h := by
    refine hsame s _ ?_ h
    unfold ensureChannel instantiate
    split
    · rfl
    · split <;> rfl
  drop s _ h := hsame s _ rfl h
  stop s _ c note h _ := by
    refine hsame s _ ?_ h
    unfold stopNote
    split <;> rfl
  control s i c key value h _ := by
    refine hsame s _ ?_ h
    unfold controlChannel
    dsimp only
    split <;> rfl
  wheel s i c position h _ := by
    refine hsame s _ ?_ h
    unfold moveWheel
    split
    · rfl
    · generalize c.setWheel position = moved
      obtain ⟨bend, c'⟩ := moved
      dsimp only
      split <;> rfl

theorem eventClosed_of_soundSide {motive : Synth → Prop}
    (hsame : ∀ s t, t.soundSide = s.soundSide → motive s → motive t)
    (hplay : ∀ s key trim, motive s → motive (s.playSound key trim)) : EventClosed motive where
  toQuietClosed := quietClosed_of_soundSide hsame
  start s _ c note velocity duration h _ := by
    unfold startNote
    split
    · exact hplay s _ _ h
    · exact hsame s _ rfl h
    · split
      · exact hsame s _ rfl h
      · exact h

def Step.Quiet : Step → Prop
  | .setCustom _ => True
  | .setResources _ => True
  | .seek _ => True
  | .releaseAll => True
  | .wait _ => True
  | .endSong => True
  | .takeOver _ => True
  | .turn => True
  | .advance _ => True
  | _ => False

theorem Step.Quiet.soundSide {σ : Step} (h : σ.Quiet) (s : Synth) :
    (σ.run s).soundSide = s.soundSide := by
  cases σ with
  | seek beats =>
    show (s.seek beats).soundSide = s.soundSide
    unfold Synth.seek
    split <;> rfl
  | endSong =>
    show s.endSong.soundSide = s.soundSide
    unfold Synth.endSong
    split <;> rfl
  | setCustom | setResources | releaseAll | wait | takeOver | turn | advance => rfl
  | _ => cases h

theorem Step.Quiet.leaves {σ : Step} (h : σ.Quiet) (left : Nat) : σ.leaves left = left := by
  cases σ with
  | begin | stretch => cases h
  | _ => rfl

end Tonewheel.Synth
