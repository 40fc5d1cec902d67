import Tonewheel.Synth.Message

/-!
# What calls do to the songs

Most of what a synthesizer does leaves alone its format, the song that plays and the one that waits
(`Synth.tracks`); events in particular do. No call ever makes a song play and another one wait for
it at the same time (`Reachable.alone`).
-/

namespace Tonewheel.Synth

def tracks (s : Synth) : Format × Option Player × Option Player := (s.format, s.song, s.pending)

theorem tracks_foldl {α : Type} (f : Synth → α → Synth) (h : ∀ s a, (f s a).tracks = s.tracks)
    (as : List α) (s : Synth) : (as.foldl f s).tracks = s.tracks := by
  induction as generalizing s with
  | nil => rfl
  | cons a as ih => rw [List.foldl_cons, ih, h]

/-! ### Sounds -/

theorem tracks_startPrinter (s : Synth) (bytes : Bytes) :
    (s.startPrinter bytes).2.tracks = s.tracks := by
  unfold startPrinter
  split
  · rfl
  · split
    rfl

theorem tracks_obtainSound (s : Synth) (key : SoundKey) :
    (s.obtainSound key).2.tracks = s.tracks := by
  unfold obtainSound
  split
  · rfl
  · split
    · rfl
    next bytes _ =>
      have hprinter := tracks_startPrinter s bytes
      split
      next hstart =>
        rw [hstart] at hprinter
        exact hprinter
      next hstart =>
        rw [hstart] at hprinter
        exact hprinter

theorem tracks_playObtained (trim : Float32) (found : Option PcmId × Synth) :
    (playObtained trim found).tracks = found.2.tracks := by
  obtain ⟨pcm, s⟩ := found
  cases pcm <;> rfl

theorem tracks_playSound (s : Synth) (key : SoundKey) (trim : Float32) :
    (s.playSound key trim).tracks = s.tracks := by
  unfold playSound
  split
  · rfl
  · split
    · rw [tracks_playObtained, tracks_obtainSound]
    · rfl

theorem tracks_playSoundBytes (s : Synth) (bytes : Bytes) (trim : Float32) :
    (s.playSoundBytes bytes trim).tracks = s.tracks := by
  unfold playSoundBytes
  split
  · rfl
  · rw [tracks_playObtained, tracks_startPrinter]

/-! ### Channels -/

theorem tracks_instantiate (s : Synth) (i : Fin channelCount) :
    (s.instantiate i).tracks = s.tracks := by
  unfold instantiate
  split <;> rfl

theorem tracks_ensureChannel (s : Synth) (i : Fin channelCount) :
    (s.ensureChannel i).tracks = s.tracks := by
  unfold ensureChannel
  split
  · rfl
  · exact tracks_instantiate s i

theorem tracks_withChannel (s : Synth) (i : Fin channelCount) (act : Synth → Channel → Synth)
    (h : ∀ s c, (act s c).tracks = s.tracks) : (s.withChannel i act).tracks = s.tracks := by
  unfold withChannel
  dsimp only
  split
  · rw [h, tracks_ensureChannel]
  · exact tracks_ensureChannel s i

theorem tracks_startNote (s : Synth) (c : Channel) (note velocity : UInt8) (duration : Int) :
    (s.startNote c note velocity duration).tracks = s.tracks := by
  unfold startNote
  split
  · exact tracks_playSound _ _ _
  · rfl
  · split <;> rfl

theorem tracks_stopNote (s : Synth) (c : Channel) (note : UInt8) :
    (s.stopNote c note).tracks = s.tracks := by
  unfold stopNote
  split <;> rfl

theorem tracks_controlChannel (s : Synth) (i : Fin channelCount) (c : Channel)
    (key value : UInt8) : (s.controlChannel i c key value).tracks = s.tracks := by
  unfold controlChannel
  dsimp only
  split <;> rfl

theorem tracks_control (s : Synth) (i : Fin channelCount) (key value : UInt8) :
    (s.control i key value).tracks = s.tracks := by
  unfold control
  split
  · rfl
  · split
    · rfl
    · split
      · rfl
      · exact tracks_withChannel s i _ fun s c => tracks_controlChannel s i c key value

theorem tracks_changeProgram (s : Synth) (i : Fin channelCount) (number : UInt8) :
    (s.changeProgram i number).tracks = s.tracks := by
  unfold changeProgram
  dsimp only
  split <;> rfl

theorem tracks_moveWheel (s : Synth) (i : Fin channelCount) (c : Channel) (position : UInt16) :
    (s.moveWheel i c position).tracks = s.tracks := by
  unfold moveWheel
  split
  · rfl
  · generalize c.setWheel position = moved
    obtain ⟨bend, moved⟩ := moved
    dsimp only
    split <;> rfl

theorem tracks_dropChannel (s : Synth) (i : Fin channelCount) :
    (s.dropChannel i).tracks = s.tracks := rfl

theorem tracks_reset (s : Synth) (channel : UInt8) : (s.reset channel).tracks = s.tracks := by
  unfold reset
  split
  · split
    · rfl
    · exact tracks_dropChannel s _
  · exact tracks_foldl dropChannel tracks_dropChannel allChannels s

/-! ### Events -/

theorem tracks_onChannel (s : Synth) (channel : UInt8) (act : Fin channelCount → Synth)
    (h : ∀ i, (act i).tracks = s.tracks) : (s.onChannel channel act).tracks = s.tracks := by
  unfold onChannel
  split
  · exact h _
  · rfl

theorem tracks_dispatch (s : Synth) (e : Event) : (s.dispatch e).tracks = s.tracks := by
  unfold dispatch
  cases e.action with
  | noteOff note =>
    exact tracks_onChannel s _ _ fun i =>
      tracks_withChannel s i _ fun s c => tracks_stopNote s c note
  | noteOn note velocity =>
    exact tracks_onChannel s _ _ fun i =>
      tracks_withChannel s i _ fun s c => tracks_startNote s c note velocity Envelope.held
  | noteOnce note velocity duration =>
    exact tracks_onChannel s _ _ fun i =>
      tracks_withChannel s i _ fun s c => tracks_startNote s c note velocity duration
  | control key value => exact tracks_onChannel s _ _ fun i => tracks_control s i key value
  | program number => exact tracks_onChannel s _ _ fun i => tracks_changeProgram s i number
  | wheel position =>
    exact tracks_onChannel s _ _ fun i =>
      tracks_withChannel s i _ fun s c => tracks_moveWheel s i c position
  | reset => exact tracks_reset s _
  | nothing => rfl

/-! ### Songs -/

theorem tracks_setUpChannel (s : Synth) (i : Fin channelCount) (r : ChannelRecord) :
    (s.setUpChannel i r).tracks = s.tracks := by
  have hheader : ∀ (s : Synth) (key value : UInt8),
      (s.headerControl i key value).tracks = s.tracks := fun s key value =>
    tracks_withChannel s i _ fun s c => tracks_controlChannel s i c key value
  unfold setUpChannel
  dsimp only
  split
  · rfl
  · rw [hheader, hheader, tracks_instantiate]
    rfl

theorem tracks_welcomeSong (s : Synth) : s.welcomeSong.tracks = s.tracks := by
  unfold welcomeSong
  dsimp only
  split
  · rfl
  next p _ =>
    exact tracks_foldl (fun s i => s.setUpChannel i (p.song.record i.val))
      (fun s i => tracks_setUpChannel s i _) songIndices s.clearSongChannels

theorem tracks_endSong (s : Synth) : s.endSong.tracks = (s.format, none, s.pending) := by
  unfold endSong
  split
  next hsong => rw [tracks, hsong]
  next => rfl

theorem tracks_renderStretch (s : Synth) (n : Nat) : (s.renderStretch n).2.tracks = s.tracks := rfl

/-- What a song's turn leaves: the same song further on, and the song that waits. -/
theorem tracks_runSong (s : Synth) (p : Player) :
    (s.runSong p).2.tracks = (s.format, some (p.update false).2, s.pending) := by
  have hdispatch := tracks_foldl dispatch tracks_dispatch (p.update false).1.events
    { s with song := some (p.update false).2 }
  unfold runSong
  dsimp only
  split <;> exact hdispatch

theorem format_of_tracks {s : Synth} {tracks : Format × Option Player × Option Player}
    (h : s.tracks = tracks) : s.format = tracks.1 :=
  congrArg Prod.fst h

theorem song_of_tracks {s : Synth} {tracks : Format × Option Player × Option Player}
    (h : s.tracks = tracks) : s.song = tracks.2.1 :=
  congrArg (fun tracks => tracks.2.1) h

theorem pending_of_tracks {s : Synth} {tracks : Format × Option Player × Option Player}
    (h : s.tracks = tracks) : s.pending = tracks.2.2 :=
  congrArg (fun tracks => tracks.2.2) h

/-! ### One song at a time -/

def Alone (s : Synth) : Prop := s.song = none ∨ s.pending = none

theorem Alone.of_tracks {s t : Synth} (h : t.tracks = s.tracks) (hs : s.Alone) : t.Alone := by
  have hsong : t.song = s.song := song_of_tracks h
  have hpending : t.pending = s.pending := pending_of_tracks h
  unfold Alone
  rw [hsong, hpending]
  exact hs

theorem alone_endSong (s : Synth) : s.endSong.Alone :=
  .inl (song_of_tracks (tracks_endSong s))

theorem alone_installSong (s : Synth) (song : Option Player) : (s.installSong song).Alone := by
  unfold installSong
  split
  next hfree =>
    simp only [Bool.and_eq_true] at hfree
    have hpending : s.pending = none := Option.isNone_iff_eq_none.mp hfree.1.2
    exact Alone.of_tracks (tracks_welcomeSong _) (.inr hpending)
  next => exact alone_endSong _

theorem Alone.playSong {s : Synth} (hs : s.Alone) (id : ResourceId) (force repeats : Bool) :
    (s.playSong id force repeats).Alone := by
  unfold Synth.playSong
  split
  · exact hs
  · split
    · exact alone_installSong _ _
    · exact alone_installSong _ _
    · split
      · exact alone_installSong _ _
      · exact hs

theorem Alone.playSongBytes {s : Synth} (hs : s.Alone) (bytes : Bytes) (repeats : Bool) :
    (s.playSongBytes bytes repeats).Alone := by
  unfold Synth.playSongBytes
  split
  · exact alone_endSong _
  · split
    · exact alone_installSong _ _
    · exact hs

theorem Alone.seek {s : Synth} (hs : s.Alone) (beats : Float) : (s.seek beats).Alone := by
  unfold Synth.seek
  split
  next hpending =>
    rcases hs with hs | hs
    · exact .inl hs
    · rw [hs] at hpending
      cases hpending
  next hpending _ => exact .inr hpending
  next => exact hs

theorem Alone.handle {s : Synth} (hs : s.Alone) (m : Message) : (s.handle m).Alone := by
  cases m with
  | event e => exact Alone.of_tracks (tracks_dispatch s e) hs
  | playSong id force repeats => exact hs.playSong id force repeats
  | playSound key trim => exact Alone.of_tracks (tracks_playSound s key trim) hs
  | seek beats => exact hs.seek beats
  | allNotesOff => exact hs

theorem Alone.prepareStretch {s : Synth} (hs : s.Alone) (n : SomeFrames) :
    (s.prepareStretch n).2.Alone := by
  unfold Synth.prepareStretch
  split
  next p hsong =>
    have hpending : s.pending = none := by
      rcases hs with hs | hs
      · rw [hs] at hsong
        cases hsong
      · exact hs
    have hturn := pending_of_tracks (tracks_runSong s p)
    split
    next delay t hrun =>
      rw [hrun] at hturn
      exact .inr (hturn.trans hpending)
    next t hrun => exact alone_endSong t
  next =>
    split
    · split
      · exact hs
      · exact Alone.of_tracks (tracks_welcomeSong _) (.inr rfl)
    · exact hs

theorem Alone.renderMono {s : Synth} (hs : s.Alone) (n : Nat) (out : Block) :
    (s.renderMono n out).2.Alone := by
  fun_induction Synth.renderMono s n out with
  | case1 s n out h len t hprepare block u hstretch ih =>
    have ht := hs.prepareStretch ⟨n, h⟩
    rw [hprepare] at ht
    have hu := tracks_renderStretch t len.val
    rw [hstretch] at hu
    exact ih (Alone.of_tracks hu ht)
  | case2 s n out h => exact hs

theorem Alone.renderPasses {s : Synth} (hs : s.Alone) (limit : SomeFrames) (samples : Nat)
    (out : Block) : (Synth.renderPasses limit s samples out).2.Alone := by
  fun_induction Synth.renderPasses limit s samples out with
  | case1 s samples out h n block t hpass ih =>
    have ht : (s.renderPass n).2.Alone := hs.renderMono _ _
    rw [hpass] at ht
    exact ih ht
  | case2 s samples out h => exact hs

theorem Alone.render {s : Synth} (hs : s.Alone) (samples : Nat) : (s.render samples).2.Alone :=
  Alone.renderPasses (s := s.beginUpdate (samples / s.format.channels)) hs s.passLength samples #[]

theorem Alone.renderWordPasses {s : Synth} (hs : s.Alone) (limit : SomeFrames) (samples : Nat)
    (out : Array Int) : (Synth.renderWordPasses limit s samples out).2.Alone := by
  fun_induction Synth.renderWordPasses limit s samples out with
  | case1 s samples out h n block t hrender ih =>
    have ht := hs.render n
    rw [hrender] at ht
    exact ih ht
  | case2 s samples out h => exact hs

theorem Alone.apply {s : Synth} (hs : s.Alone) (c : Call) : (s.apply c).Alone := by
  cases c with
  | message m => exact hs.handle m
  | playSongBytes bytes repeats => exact hs.playSongBytes bytes repeats
  | playSoundBytes bytes trim => exact Alone.of_tracks (tracks_playSoundBytes s bytes trim) hs
  | clearCache => exact hs
  | setCustom custom => exact hs
  | setResources store => exact hs
  | render samples => exact hs.render samples
  | renderWords samples => exact hs.renderWordPasses _ samples #[]

/-- Whether some calls lead to a synthesizer from the start. -/
def Reachable (s : Synth) : Prop :=
  ∃ (format : Format) (calls : List Call), s = calls.foldl apply (ofFormat format)

theorem Reachable.alone {s : Synth} (h : s.Reachable) : s.Alone := by
  obtain ⟨format, calls, rfl⟩ := h
  have hall : ∀ s : Synth, s.Alone → (calls.foldl apply s).Alone := by
    induction calls with
    | nil => exact fun s hs => hs
    | cons c calls ih => exact fun s hs => ih (s.apply c) (hs.apply c)
  exact hall _ (.inl rfl)

end Tonewheel.Synth
