import Tonewheel.Proofs.Song.Playing
import Tonewheel.Proofs.Synth.Confinement
import Tonewheel.Proofs.Synth.Lengths

/-!
# The signal of a synthesizer

How many channels a synthesizer has and what the clocks of its songs show is nothing that is heard.
Without these (`Synth.mono`) it takes the same steps (`mono_run`), and synthesizers that are the same
without them make the same mono signal (`renderMono_congr`).
-/

namespace Tonewheel

def Player.unclocked (p : Player) : Player := { p with clock := 0, clockAfterDelay := none }

namespace Player

theorem SamePlace.of_unclocked (p : Player) : SamePlace p p.unclocked := ⟨rfl, rfl, rfl, rfl, rfl⟩

theorem SamePlace.unclocked_eq {p q : Player} (h : SamePlace p q) : p.unclocked = q.unclocked := by
  obtain ⟨song, repeats, framesPerMs, offset, delay, clock, clockAfterDelay⟩ := p
  obtain ⟨song', repeats', framesPerMs', offset', delay', clock', clockAfterDelay'⟩ := q
  obtain ⟨rfl, rfl, rfl, rfl, rfl⟩ := h
  rfl

theorem unclocked_update (p : Player) :
    (p.update false).1 = (p.unclocked.update false).1
      ∧ (p.update false).2.unclocked = (p.unclocked.update false).2.unclocked := by
  obtain ⟨harrival, hplace⟩ := update_same (SamePlace.of_unclocked p)
  exact ⟨harrival, hplace.unclocked_eq⟩

theorem unclocked_advance (p : Player) (n : Nat) :
    (p.advance n).unclocked = (p.unclocked.advance n).unclocked :=
  (advance_same (SamePlace.of_unclocked p) n).unclocked_eq

end Player

def Format.mono (f : Format) : Format :=
  { f with
    channels := 1
    channels_pos := Nat.one_pos
    channels_le := Nat.succ_le_succ (Nat.zero_le 7) }

namespace Synth

/-- A synthesizer for one channel whose songs have not kept their time, and that is in the same state
otherwise. -/
def mono (s : Synth) : Synth :=
  { s with
    format := s.format.mono
    song := s.song.map Player.unclocked
    pending := s.pending.map Player.unclocked }

variable (s : Synth)

theorem mono_mono : s.mono.mono = s.mono := by
  unfold mono
  dsimp only
  rw [Option.map_map, Option.map_map]
  rfl

theorem framesPerBeat_mono : s.mono.framesPerBeat = s.framesPerBeat := by
  unfold framesPerBeat mono
  cases s.song <;> rfl

/-! ### Sounds -/

theorem startPrinter_mono (bytes : Bytes) :
    s.mono.startPrinter bytes = ((s.startPrinter bytes).1, (s.startPrinter bytes).2.mono) := by
  have hrate : s.mono.format.rate = s.format.rate := rfl
  unfold startPrinter
  rw [hrate]
  cases Sound.Printer.make s.format.rate bytes <;> rfl

theorem obtainSound_mono (key : SoundKey) :
    s.mono.obtainSound key = ((s.obtainSound key).1, (s.obtainSound key).2.mono) := by
  have hcache : s.mono.cache.find? key = s.cache.find? key := rfl
  have hbytes : s.mono.soundBytes? key = s.soundBytes? key := rfl
  unfold obtainSound
  rw [hcache, hbytes]
  cases s.cache.find? key with
  | some pcm => rfl
  | none =>
    cases s.soundBytes? key with
    | none => rfl
    | some bytes =>
      dsimp only
      rw [startPrinter_mono]
      generalize s.startPrinter bytes = started
      obtain ⟨pcm, t⟩ := started
      cases pcm <;> rfl

theorem playObtained_mono (trim : Float32) (found : Option PcmId × Synth) :
    playObtained trim (found.1, found.2.mono) = (playObtained trim found).mono := by
  obtain ⟨pcm, t⟩ := found
  cases pcm <;> rfl

theorem playSound_mono (key : SoundKey) (trim : Float32) :
    s.mono.playSound key trim = (s.playSound key trim).mono := by
  have hresolve : s.mono.resolveSound key = s.resolveSound key := rfl
  unfold playSound
  rw [hresolve]
  split
  · rfl
  · cases s.resolveSound key with
    | none => rfl
    | some found =>
      dsimp only
      rw [obtainSound_mono, playObtained_mono]

theorem playSoundBytes_mono (bytes : Bytes) (trim : Float32) :
    s.mono.playSoundBytes bytes trim = (s.playSoundBytes bytes trim).mono := by
  unfold playSoundBytes
  rw [startPrinter_mono, playObtained_mono]
  split <;> rfl

/-! ### Events -/

theorem instantiate_mono (i : Fin channelCount) :
    s.mono.instantiate i = (s.instantiate i).mono := by
  have hmake : Channel.make i.val.toUInt8 (s.mono.programs.get i) s.mono.format.rate s.mono.notes
        s.mono.custom
      = Channel.make i.val.toUInt8 (s.programs.get i) s.format.rate s.notes s.custom := rfl
  unfold instantiate
  rw [hmake, framesPerBeat_mono]
  cases Channel.make i.val.toUInt8 (s.programs.get i) s.format.rate s.notes s.custom with
  | none => rfl
  | some c =>
    dsimp only
    cases c.patch <;> rfl

theorem withChannel_mono (i : Fin channelCount) {act : Synth → Channel → Synth}
    (hact : ∀ s c, act s.mono c = (act s c).mono) :
    s.mono.withChannel i act = (s.withChannel i act).mono := by
  have hensure : s.mono.ensureChannel i = (s.ensureChannel i).mono := by
    have hchannel : s.mono.channels.get i = s.channels.get i := rfl
    unfold ensureChannel
    rw [hchannel, instantiate_mono]
    cases s.channels.get i <;> rfl
  unfold withChannel
  rw [hensure]
  have hchannel : (s.ensureChannel i).mono.channels.get i = (s.ensureChannel i).channels.get i := rfl
  dsimp only
  rw [hchannel]
  cases (s.ensureChannel i).channels.get i with
  | none => rfl
  | some c => exact hact _ c

theorem startNote_mono (c : Channel) (note velocity : UInt8) (duration : Int) :
    s.mono.startNote c note velocity duration = (s.startNote c note velocity duration).mono := by
  have hbegin : Voice.begin? c s.mono.notes s.mono.format.rate note velocity duration
        s.mono.framesMade
      = Voice.begin? c s.notes s.format.rate note velocity duration s.framesMade := rfl
  unfold startNote
  rw [hbegin]
  generalize Voice.begin? c s.notes s.format.rate note velocity duration s.framesMade = voice
  cases c.patch with
  | drum base => exact s.playSound_mono _ _
  | effect params => rfl
  | _ => cases voice <;> rfl

theorem stopNote_mono (c : Channel) (note : UInt8) :
    s.mono.stopNote c note = (s.stopNote c note).mono := by
  unfold stopNote
  cases c.patch <;> rfl

theorem controlChannel_mono (i : Fin channelCount) (c : Channel) (key value : UInt8) :
    s.mono.controlChannel i c key value = (s.controlChannel i c key value).mono := by
  unfold controlChannel
  cases c.patch <;> rfl

theorem moveWheel_mono (i : Fin channelCount) (c : Channel) (position : UInt16) :
    s.mono.moveWheel i c position = (s.moveWheel i c position).mono := by
  unfold moveWheel
  split
  · rfl
  · generalize c.setWheel position = moved
    obtain ⟨bend, moved⟩ := moved
    dsimp only
    cases bend with
    | some bend => rfl
    | none => cases c.patch <;> rfl

theorem control_mono (i : Fin channelCount) (key value : UInt8) :
    s.mono.control i key value = (s.control i key value).mono := by
  unfold control
  rw [withChannel_mono s i fun s c => controlChannel_mono s i c key value]
  split
  · rfl
  · split
    · rfl
    · split <;> rfl

theorem changeProgram_mono (i : Fin channelCount) (number : UInt8) :
    s.mono.changeProgram i number = (s.changeProgram i number).mono := by
  have hchannel : s.mono.channels.get i = s.channels.get i := rfl
  unfold changeProgram
  dsimp only
  rw [hchannel]
  cases s.channels.get i <;> rfl

theorem reset_mono (channel : UInt8) : s.mono.reset channel = (s.reset channel).mono := by
  have hall : ∀ is : List (Fin channelCount), ∀ s : Synth,
      is.foldl dropChannel s.mono = (is.foldl dropChannel s).mono := by
    intro is
    induction is with
    | nil => exact fun s => rfl
    | cons i is ih => exact fun s => ih (s.dropChannel i)
  unfold reset
  split
  · split <;> rfl
  · exact hall allChannels s

theorem dispatch_mono (e : Event) : s.mono.dispatch e = (s.dispatch e).mono := by
  have hon : ∀ {act act' : Fin channelCount → Synth}, (∀ i, act i = (act' i).mono) →
      s.mono.onChannel e.channel act = (s.onChannel e.channel act').mono := by
    intro act act' hact
    unfold onChannel
    cases channelIndex? e.channel with
    | none => rfl
    | some i => exact hact i
  unfold dispatch
  cases e.action with
  | noteOff note => exact hon fun i => s.withChannel_mono i fun s c => s.stopNote_mono c note
  | noteOn note velocity =>
    exact hon fun i => s.withChannel_mono i fun s c => s.startNote_mono c note velocity _
  | noteOnce note velocity duration =>
    exact hon fun i => s.withChannel_mono i fun s c => s.startNote_mono c note velocity duration
  | control key value => exact hon fun i => s.control_mono i key value
  | program number => exact hon fun i => s.changeProgram_mono i number
  | wheel position =>
    exact hon fun i => s.withChannel_mono i fun s c => s.moveWheel_mono i c position
  | reset => exact s.reset_mono e.channel
  | nothing => rfl

/-! ### Songs -/

theorem setUpChannel_mono (i : Fin channelCount) (r : ChannelRecord) :
    s.mono.setUpChannel i r = (s.setUpChannel i r).mono := by
  have hheader : ∀ (s : Synth) (key value : UInt8),
      s.mono.headerControl i key value = (s.headerControl i key value).mono := fun s key value =>
    s.withChannel_mono i fun s c => s.controlChannel_mono i c key value
  have hmade := instantiate_mono { s with programs := s.programs.set i r.program.toUInt32 i.isLt } i
  unfold setUpChannel
  split
  · rfl
  · rw [← hheader, ← hheader, ← hmade]
    rfl

theorem endSong_mono : s.mono.endSong = s.endSong.mono := by
  have hsong : s.mono.song = s.song.map Player.unclocked := rfl
  unfold endSong
  rw [hsong]
  cases s.song <;> rfl

/-! ### Steps -/

theorem unclocked_mono (song : Option Player) :
    (song.map Player.unclocked).map Player.unclocked = song.map Player.unclocked := by
  rw [Option.map_map]
  rfl

/-- Other songs are the same for both if they differ in their clocks only. -/
theorem mono_songs {song song' pending pending' : Option Player}
    (hsong : song.map Player.unclocked = song'.map Player.unclocked)
    (hpending : pending.map Player.unclocked = pending'.map Player.unclocked) :
    mono { s with song, pending } = mono { s.mono with song := song', pending := pending' } := by
  unfold mono
  dsimp only
  rw [hsong, hpending]
  rfl

theorem mono_turn : (Step.turn.run s).mono = (Step.turn.run s.mono).mono := by
  refine s.mono_songs ?_ (unclocked_mono s.pending).symm
  show _ = ((s.song.map Player.unclocked).map _).map _
  cases s.song with
  | none => rfl
  | some p => exact congrArg some p.unclocked_update.2

theorem mono_advanceSong (frames : Nat) :
    (s.advanceSong frames).mono = (s.mono.advanceSong frames).mono := by
  refine s.mono_songs ?_ (unclocked_mono s.pending).symm
  show _ = ((s.song.map Player.unclocked).map _).map _
  cases s.song with
  | none => rfl
  | some p => exact congrArg some (p.unclocked_advance frames)

theorem mono_seek (beats : Float) : (s.seek beats).mono = (s.mono.seek beats).mono := by
  have hpending : s.mono.pending = s.pending.map Player.unclocked := rfl
  have hsong : s.mono.song = s.song.map Player.unclocked := rfl
  unfold seek
  rw [hpending, hsong]
  cases s.pending with
  | some p => exact s.mono_songs (unclocked_mono s.song).symm rfl
  | none =>
    cases s.song with
    | some p =>
      exact mono_songs { s with voices := s.voices.map Voice.release } rfl rfl
    | none => exact s.mono_mono.symm

theorem mono_run (σ : Step) : (σ.run s).mono = (σ.run s.mono).mono := by
  have hsame : ∀ {t t' : Synth}, t' = t.mono → t.mono = t'.mono := by
    rintro t _ rfl
    exact t.mono_mono.symm
  cases σ with
  | event e => exact hsame (s.dispatch_mono e)
  | playSound key trim => exact hsame (s.playSound_mono key trim)
  | playSoundBytes bytes trim => exact hsame (s.playSoundBytes_mono bytes trim)
  | setUp i record => exact hsame (s.setUpChannel_mono i record)
  | endSong => exact hsame s.endSong_mono
  | clearCache => exact hsame rfl
  | setCustom custom => exact hsame rfl
  | setResources store => exact hsame rfl
  | releaseAll => exact hsame rfl
  | begin frames => exact hsame rfl
  | stretch frames => exact hsame rfl
  | finish => exact hsame rfl
  | seek beats => exact s.mono_seek beats
  | wait song => exact s.mono_songs (unclocked_mono s.song).symm rfl
  | takeOver song => rfl
  | turn => exact s.mono_turn
  | advance frames => exact s.mono_advanceSong frames

theorem mono_takes (steps : List Step) (s : Synth) (left : Nat) :
    ((Moment.mk s left).takes steps).synth.mono
      = ((Moment.mk s.mono left).takes steps).synth.mono := by
  induction steps generalizing s left with
  | nil => exact s.mono_mono.symm
  | cons σ steps ih =>
    have hfirst := ih (σ.run s) (σ.leaves left)
    have hsecond := ih (σ.run s.mono) (σ.leaves left)
    rw [← s.mono_run σ] at hsecond
    exact hfirst.trans hsecond.symm

/-! ### Calls -/

theorem installSteps_mono (song : Option Player) :
    s.mono.installSteps song = s.installSteps song := by
  have hsong : s.mono.song.isNone = s.song.isNone := Option.isNone_map
  have hpending : s.mono.pending.isNone = s.pending.isNone := Option.isNone_map
  have hvoices : s.mono.hasSongVoices = s.hasSongVoices := rfl
  unfold installSteps
  rw [hsong, hpending, hvoices]

theorem playSongSteps_mono (id : ResourceId) (force repeats : Bool) :
    s.mono.playSongSteps id force repeats = s.playSongSteps id force repeats := by
  have hplays : s.mono.upcoming.any (·.isResource id) = s.upcoming.any (·.isResource id) := by
    unfold upcoming mono
    cases s.pending with
    | some p => rfl
    | none => cases s.song <;> rfl
  have hlookup : s.mono.lookup ⟨.song, id.1, id.2⟩ = s.lookup ⟨.song, id.1, id.2⟩ := rfl
  have hrate : s.mono.format.rate = s.format.rate := rfl
  unfold playSongSteps
  rw [hplays, hlookup, hrate]
  simp only [installSteps_mono]

theorem playSongBytesSteps_mono (bytes : Bytes) (repeats : Bool) :
    s.mono.playSongBytesSteps bytes repeats = s.playSongBytesSteps bytes repeats := by
  have hrate : s.mono.format.rate = s.format.rate := rfl
  unfold playSongBytesSteps
  rw [hrate]
  simp only [installSteps_mono]

theorem steps_mono {c : Call} (hc : ¬c.IsUpdate) : s.mono.steps c = s.steps c := by
  cases c with
  | message m =>
    cases m with
    | playSong id force repeats => exact s.playSongSteps_mono id force repeats
    | _ => rfl
  | playSongBytes bytes repeats => exact s.playSongBytesSteps_mono bytes repeats
  | render samples => exact absurd trivial hc
  | renderWords samples => exact absurd trivial hc
  | _ => rfl

/-- Calls other than updates lead to the same state. -/
theorem mono_apply {c : Call} (hc : ¬c.IsUpdate) : (s.apply c).mono = (s.mono.apply c).mono := by
  have hcall := (passage_steps s c).eq_takes
  have hcall' := (passage_steps s.mono c).eq_takes
  rw [s.steps_mono hc] at hcall'
  have hsynth := congrArg Moment.synth hcall
  have hsynth' := congrArg Moment.synth hcall'
  dsimp only at hsynth hsynth'
  rw [hsynth, hsynth']
  exact mono_takes (s.steps c) s 0

/-! ### Stretches -/

theorem mono_takeOver (song : Option Player) (left : Nat) :
    ((Moment.mk s left).takes (takeOverSteps song)).synth.mono
      = ((Moment.mk s.mono left).takes (takeOverSteps (song.map Player.unclocked))).synth.mono := by
  have hfirst : (Step.run s (.takeOver song)).mono
      = (Step.run s.mono (.takeOver (song.map Player.unclocked))).mono :=
    mono_songs s.clearSongChannels (unclocked_mono song).symm rfl
  have hrest : ∃ rest, takeOverSteps song = .takeOver song :: rest
      ∧ takeOverSteps (song.map Player.unclocked) = .takeOver (song.map Player.unclocked) :: rest := by
    cases song with
    | none => exact ⟨_, rfl, rfl⟩
    | some p => exact ⟨_, rfl, rfl⟩
  obtain ⟨rest, hsteps, hsteps'⟩ := hrest
  have hplain := mono_takes rest (Step.run s (.takeOver song)) left
  have hmono := mono_takes rest (Step.run s.mono (.takeOver (song.map Player.unclocked))) left
  rw [← hfirst] at hmono
  rw [hsteps, hsteps']
  exact hplain.trans hmono.symm

theorem prepareStretch_frames_mono (n : SomeFrames) :
    (s.mono.prepareStretch n).1 = (s.prepareStretch n).1 := by
  have hsong : s.mono.song = s.song.map Player.unclocked := rfl
  have hpending : s.mono.pending = s.pending.map Player.unclocked := rfl
  have hvoices : s.mono.hasSongVoices = s.hasSongVoices := rfl
  unfold prepareStretch
  cases hplaying : s.song with
  | some p =>
    rw [hplaying] at hsong
    rw [hsong]
    dsimp only [Option.map_some]
    rw [runSong_eq hsong, runSong_eq hplaying, ← p.unclocked_update.1]
    generalize (p.update false).1.outcome = outcome
    cases outcome with
    | error e => rfl
    | ok frames => cases frames <;> rfl
  | none =>
    rw [hsong, hplaying, hpending, hvoices]
    cases s.pending with
    | none => rfl
    | some p =>
      dsimp only [Option.map_some, Option.map_none]
      split <;> rfl

theorem mono_prepareStretch (n : SomeFrames) :
    (s.prepareStretch n).2.mono = (s.mono.prepareStretch n).2.mono := by
  have hstate := congrArg Moment.synth (passage_turn s n 0).eq_takes
  have hstate' := congrArg Moment.synth (passage_turn s.mono n 0).eq_takes
  dsimp only at hstate hstate'
  rw [hstate, hstate']
  have hsong : s.mono.song = s.song.map Player.unclocked := rfl
  have hpending : s.mono.pending = s.pending.map Player.unclocked := rfl
  have hvoices : s.mono.hasSongVoices = s.hasSongVoices := rfl
  unfold turnSteps
  rw [hsong, hpending, hvoices]
  cases s.song with
  | some p =>
    dsimp only [Option.map_some]
    rw [← p.unclocked_update.1]
    exact mono_takes _ s 0
  | none =>
    cases s.pending with
    | none => exact s.mono_mono.symm
    | some p =>
      dsimp only [Option.map_some, Option.map_none]
      split
      · exact s.mono_mono.symm
      · exact s.mono_takeOver (some p) 0

/-! ### The signal -/

variable {s} {t : Synth}

theorem renderStretch_congr (h : s.mono = t.mono) (n : Nat) :
    (s.renderStretch n).1 = (t.renderStretch n).1
      ∧ (s.renderStretch n).2.mono = (t.renderStretch n).2.mono := by
  have hstretch : s.mono.renderStretch n = t.mono.renderStretch n := by rw [h]
  have hblock : ∀ u : Synth, (u.mono.renderStretch n).1 = (u.renderStretch n).1 := fun _ => rfl
  have hstate : ∀ u : Synth, (u.renderStretch n).2.mono = (u.mono.renderStretch n).2.mono :=
    fun u => u.mono_run (.stretch n)
  rw [← hblock s, ← hblock t, hstate s, hstate t, hstretch]
  exact ⟨rfl, rfl⟩

theorem prepareStretch_congr (h : s.mono = t.mono) (n : SomeFrames) :
    (s.prepareStretch n).1 = (t.prepareStretch n).1
      ∧ (s.prepareStretch n).2.mono = (t.prepareStretch n).2.mono := by
  rw [← s.prepareStretch_frames_mono, ← t.prepareStretch_frames_mono, s.mono_prepareStretch,
    t.mono_prepareStretch, h]
  exact ⟨rfl, rfl⟩

theorem renderMono_congr (h : s.mono = t.mono) (n : Nat) (out : Block) :
    (s.renderMono n out).1 = (t.renderMono n out).1
      ∧ (s.renderMono n out).2.mono = (t.renderMono n out).2.mono := by
  fun_induction renderMono s n out generalizing t with
  | case1 s n out hn len u hprepare block v hstretch ih =>
    obtain ⟨hlen, hu⟩ := prepareStretch_congr h ⟨n, hn⟩
    rw [renderMono.eq_1 t, dif_pos hn]
    generalize t.prepareStretch ⟨n, hn⟩ = prepared at hlen hu
    obtain ⟨len', u'⟩ := prepared
    rw [hprepare] at hlen hu
    obtain rfl : len = len' := hlen
    obtain ⟨hblock, hv⟩ := renderStretch_congr hu len.val
    dsimp only at hblock hv ⊢
    rw [hstretch] at hblock hv
    rw [← hblock]
    exact ih hv
  | case2 s n out hn =>
    unfold renderMono
    rw [dif_neg hn]
    exact ⟨rfl, h⟩

end Synth

end Tonewheel
