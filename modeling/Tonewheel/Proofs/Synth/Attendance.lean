import Tonewheel.Proofs.Synth.EnsembleSteps

/-!
# Channels in effect mode and their racks (SPEC_FULL, sections 4.4 and 4.6)

A channel in effect mode is attended if a rack of it plays and is not let fade; a note on it then
starts a voice of that rack. All steps keep a channel attended but one: the end of a song lets the
racks of all channels fade, while the channels stay. So a channel is attended as long as no song has
ended since its place was last free (`effect_channel_attended`), and can be left with no rack at all
after that (`song_end_orphans_channel`).
-/

namespace Tonewheel

theorem Rack.Steady.of_fade {r r' : Rack} (h : r.Steady) (hfade : r'.fade = r.fade) :
    r'.Steady where
  live := by
    show r'.fade.isOver = false
    rw [hfade]
    exact h.live
  still := by
    rw [hfade]
    exact h.still

theorem Rack.control_fade (r : Rack) (key value : UInt8) :
    (r.control key value).fade = r.fade := by
  unfold control
  split <;> rfl

theorem Rack.noteOnce_voice (r : Rack) (notes : NoteTable) (note velocity : UInt8) (duration : Int)
    (born : Nat) : ∃ v ∈ (r.noteOnce notes note velocity duration born).voices,
      v.note = note ∧ v.born = born ∧ v.level = .ofNote r.level velocity duration := by
  rw [voices_noteOnce]
  exact ⟨_, Pool.self_mem_place (by decide) r.voices _, rfl, rfl, rfl⟩

namespace Synth

/-- Whether a rack plays for a channel, and is not let fade, if the channel is in effect mode. -/
def Attended (s : Synth) (i : Fin channelCount) : Prop :=
  ∀ c, s.channels.get i = some c → c.mode = .effect →
    ∃ r ∈ s.racks.entries, r.Steady ∧ r.channel = i.val.toUInt8

namespace Attended

variable {s t : Synth} {i j : Fin channelCount}

theorem of_free (h : s.channels.get i = none) : s.Attended i := by
  intro c hc
  rw [h] at hc
  cases hc

/-- What a change has to leave alone: the patch of the channel and the fade of its rack. -/
theorem change (h : s.Attended i)
    (hchannels : ∀ c, t.channels.get i = some c →
      ∃ d, s.channels.get i = some d ∧ c.patch = d.patch)
    (hracks : ∀ r ∈ s.racks.entries, r.Steady → r.channel = i.val.toUInt8 →
      ∃ r' ∈ t.racks.entries, r'.Steady ∧ r'.channel = i.val.toUInt8) : t.Attended i := by
  intro c hc heffect
  obtain ⟨d, hd, hpatch⟩ := hchannels c hc
  have hmode : d.mode = .effect := by
    rw [Channel.mode, ← hpatch]
    exact heffect
  obtain ⟨r, hr, hsteady, hchannel⟩ := h d hd hmode
  exact hracks r hr hsteady hchannel

theorem of_same (h : s.Attended i) (hchannels : t.channels = s.channels)
    (hracks : t.racks = s.racks) : t.Attended i :=
  h.change (fun c hc => ⟨c, hchannels ▸ hc, rfl⟩)
    fun r hr hsteady hchannel => ⟨r, hracks ▸ hr, hsteady, hchannel⟩

theorem of_sounds (h : s.Attended i) (hsounds : s.SoundsOnly t) : t.Attended i := by
  obtain ⟨shelf, cache, printers, playbacks, rfl⟩ := hsounds
  exact h.of_same rfl rfl

/-! ### Racks -/

theorem map_racks (h : s.Attended i) (f : Rack → Rack) (hsteady : ∀ r : Rack, r.Steady → (f r).Steady)
    (hchannel : ∀ r : Rack, (f r).channel = r.channel) :
    { s with racks := s.racks.map f }.Attended i :=
  h.change (fun c hc => ⟨c, hc, rfl⟩) fun r hr hr' hi =>
    ⟨f r, List.mem_map_of_mem hr, hsteady r hr', (hchannel r).trans hi⟩

theorem updateRack (h : s.Attended i) (channel : UInt8) (f : Rack → Rack)
    (hfade : ∀ r : Rack, (f r).fade = r.fade) (hchannel : ∀ r : Rack, (f r).channel = r.channel) :
    (s.updateRack channel f).Attended i := by
  refine h.change (fun c hc => ⟨c, hc, rfl⟩) fun r hr hsteady hi => ?_
  rcases Pool.mem_modifyFirst_image f hr with hmem | hmem
  · exact ⟨r, hmem, hsteady, hi⟩
  · exact ⟨f r, hmem, hsteady.of_fade (hfade r), (hchannel r).trans hi⟩

/-! ### Channels -/

theorem set_channel (h : s.Attended i) {c c' : Channel} (hc : s.channels.get j = some c)
    (hpatch : c'.patch = c.patch) :
    { s with channels := s.channels.set j (some c') j.isLt }.Attended i := by
  refine h.change (fun d hd => ?_) fun r hr hsteady hi => ⟨r, hr, hsteady, hi⟩
  by_cases hij : i = j
  · subst hij
    rw [get_set_self, Option.some.injEq] at hd
    exact ⟨c, hc, hd ▸ hpatch⟩
  · rw [get_set_ne _ _ hij] at hd
    exact ⟨d, hd, rfl⟩

theorem instantiate (h : s.Attended i) (hs : s.Ensemble) (hfree : s.channels.get j = none) :
    (s.instantiate j).Attended i := by
  by_cases hij : i = j
  · subst hij
    -- The rack that is made with the channel is the one that plays.
    unfold Synth.instantiate
    split
    · exact h
    next c hmake =>
      intro d hd heffect
      rw [get_set_self, Option.some.injEq] at hd
      subst hd
      obtain ⟨params, hpatch⟩ := Channel.patch_of_effect heffect
      have hcapacity : 0 < s.racks.capacity := by rw [hs.capacity]; decide
      refine ⟨Rack.make c params s.format.rate s.framesPerBeat s.framesMade, ?_, ?_,
        Channel.make_id hmake⟩
      · rw [hpatch]
        exact Pool.self_mem_place hcapacity _ _
      · exact ⟨rfl, Int.le_refl 0⟩
  · refine h.change (fun c hc => ⟨c, ?_, rfl⟩) fun r hr hsteady hi =>
      ⟨r, hs.mem_instantiate hfree hr hsteady.live, hsteady, hi⟩
    rw [channels_instantiate_ne s hij] at hc
    exact hc

theorem ensureChannel (h : s.Attended i) (hs : s.Ensemble) (j : Fin channelCount) :
    (s.ensureChannel j).Attended i := by
  unfold Synth.ensureChannel
  split
  · exact h
  next hfree => exact h.instantiate hs hfree

theorem dropChannel (h : s.Attended i) (j : Fin channelCount) : (s.dropChannel j).Attended i := by
  by_cases hij : i = j
  · subst hij
    exact of_free (get_set_self _ _ _)
  · refine h.change (fun c hc => ⟨c, ?_, rfl⟩) fun r hr hsteady hi =>
      ⟨r, List.mem_filter.mpr ⟨hr, ?_⟩, hsteady, hi⟩
    · rw [Synth.dropChannel, get_set_ne _ _ hij] at hc
      exact hc
    · simp only [hi, bne_iff_ne, ne_eq]
      exact fun hsame => hij (channelId_inj hsame)

/-! ### Events -/

theorem startNote (h : s.Attended i) (c : Channel) (note velocity : UInt8) (duration : Int) :
    (s.startNote c note velocity duration).Attended i := by
  unfold Synth.startNote
  split
  · exact h.of_sounds (playSound_sounds s _ _)
  · exact h.updateRack c.id _ (fun r => rfl) fun r => rfl
  · split
    · exact h.of_same rfl rfl
    · exact h

theorem stopNote (h : s.Attended i) (c : Channel) (note : UInt8) :
    (s.stopNote c note).Attended i := by
  unfold Synth.stopNote
  split
  · exact h
  · exact h.updateRack c.id _ (fun r => rfl) fun r => rfl
  · exact h.of_same rfl rfl

theorem controlChannel (h : s.Attended i) {c : Channel} (hc : s.channels.get j = some c)
    (key value : UInt8) : (s.controlChannel j c key value).Attended i := by
  have hset := h.set_channel hc (c.control_patch key value)
  unfold Synth.controlChannel
  dsimp only
  split
  · exact hset.updateRack c.id _ (fun r => r.control_fade key value)
      fun r => (r.later_control key value).channel
  · exact hset

theorem moveWheel (h : s.Attended i) {c : Channel} (hc : s.channels.get j = some c)
    (position : UInt16) : (s.moveWheel j c position).Attended i := by
  have hset := h.set_channel hc (c.setWheel_patch position)
  unfold Synth.moveWheel
  split
  · exact h
  · generalize c.setWheel position = moved at hset
    obtain ⟨bend, c'⟩ := moved
    dsimp only at hset ⊢
    split
    · exact hset.of_same rfl rfl
    · exact hset.updateRack c.id _ (fun r => rfl) fun r => rfl
    · exact hset

theorem eventClosed (i : Fin channelCount) :
    EventClosed fun s => s.Ensemble ∧ s.Attended i where
  programs _ _ h := ⟨h.1.of_same rfl rfl rfl, h.2.of_same rfl rfl⟩
  ensure _ j h := ⟨h.1.ensureChannel j, h.2.ensureChannel h.1 j⟩
  drop _ j h := ⟨h.1.dropChannel j, h.2.dropChannel j⟩
  start _ _ c _ _ _ h hc := ⟨h.1.startNote hc _ _ _, h.2.startNote c _ _ _⟩
  stop _ _ c note h _ := ⟨h.1.stopNote c note, h.2.stopNote c note⟩
  control _ _ _ _ _ h hc := ⟨h.1.controlChannel hc _ _, h.2.controlChannel hc _ _⟩
  wheel _ _ _ _ h hc := ⟨h.1.moveWheel hc _, h.2.moveWheel hc _⟩

/-! ### Runs -/

theorem run (h : s.Attended i) (hs : s.Ensemble) {σ : Step} {left : Nat}
    (allowed : σ.Allowed ⟨s, left⟩) (hplays : s.song.isSome = true → (σ.run s).song.isSome = true) :
    (σ.run s).Attended i := by
  cases σ with
  | event e => exact ((eventClosed i).dispatch ⟨hs, h⟩ e).2
  | playSound key trim => exact h.of_sounds (s.playSound_sounds key trim)
  | playSoundBytes bytes trim => exact h.of_sounds (s.playSoundBytes_sounds bytes trim)
  | setCustom custom => exact of_free (Vector.getElem_replicate i.isLt)
  | seek beats =>
    show (s.seek beats).Attended i
    unfold Synth.seek
    split
    · exact h.of_same rfl rfl
    · exact h.of_same rfl rfl
    · exact h
  | releaseAll =>
    have hracks := h.map_racks Rack.releaseNotes (fun r hr => hr.of_fade rfl) fun r => rfl
    exact hracks.of_same rfl rfl
  | endSong =>
    cases hsong : s.song with
    | none =>
      have hsame : s.endSong = s := by rw [Synth.endSong, hsong]
      show s.endSong.Attended i
      rw [hsame]
      exact h
    | some p =>
      have hends : s.endSong.song = none := by rw [Synth.endSong, hsong]
      have hstill : s.endSong.song.isSome = true := hplays (by rw [hsong]; rfl)
      rw [hends] at hstill
      cases hstill
  | takeOver song =>
    refine h.change (fun c hc => ⟨c, ?_, rfl⟩) fun r hr hsteady hi => ⟨r, hr, hsteady, hi⟩
    have hcleared := channels_clearSongChannels { s with song, pending := none } i
    rw [Step.run, hcleared] at hc
    split at hc
    · cases hc
    · exact hc
  | setUp j record => exact ((eventClosed i).setUpChannel ⟨hs, h⟩ allowed record).2
  | stretch frames =>
    have hracks := h.map_racks (fun r => (r.render s.notes.sine frames).2)
      (fun r hr => hr.render _ _) fun r => (r.render_same _ _).1
    exact hracks.of_same rfl (Ensemble.racks_renderStretch s frames)
  | finish =>
    exact h.change (fun c hc => ⟨c, hc, rfl⟩) fun r hr hsteady hi =>
      ⟨r, Pool.mem_trimDefunct_of_live hr hsteady.live, hsteady, hi⟩
  | clearCache => exact h.of_same rfl rfl
  | setResources store => exact h.of_same rfl rfl
  | wait song => exact h.of_same rfl rfl
  | begin frames => exact h.of_same rfl rfl
  | turn => exact h.of_same rfl rfl
  | advance frames => exact h.of_same rfl rfl

/-- From a moment at which its place is free a channel is attended until a song ends. -/
theorem after {format : Format} {calls : List Call} {j k : Nat} (hjk : j ≤ k)
    (hfree : (Moment.after format calls j).synth.channels.get i = none)
    (hplays : ∀ x, j ≤ x → x < k → (Moment.after format calls x).synth.song.isSome = true →
      (Moment.after format calls (x + 1)).synth.song.isSome = true) :
    (Moment.after format calls k).synth.Attended i := by
  induction k, hjk using Nat.le_induction with
  | base => exact of_free hfree
  | succ k hjk ih =>
    have hbefore := ih fun x hj hk => hplays x hj (Nat.lt_succ_of_lt hk)
    have hnow := hplays k hjk (Nat.lt_succ_self k)
    cases hnext : ((ofFormat format).history calls)[k]? with
    | some σ =>
      obtain ⟨allowed, htake⟩ := Moment.after_succ hnext
      rw [htake] at hnow ⊢
      exact hbefore.run (Ensemble.after format calls k) allowed hnow
    | none =>
      rw [Moment.after_end hnext]
      exact hbefore

end Attended

/-! ### Notes -/

/-- A note on a channel in effect mode goes to the rack of the channel. -/
theorem Ensemble.noteOnce_mem_dispatch {s : Synth} {i : Fin channelCount} (h : s.Ensemble)
    {c : Channel} (hc : s.channels.get i = some c) (heffect : c.mode = .effect) {r : Rack}
    (hr : r ∈ s.racks.entries) (hlive : r.isDefunct = false) (hchannel : r.channel = i.val.toUInt8)
    {e : Event} (hslot : e.channel = i.val.toUInt8) {note velocity : UInt8} {duration : Int}
    (haction : e.action = .noteOn note velocity ∧ duration = Envelope.held
      ∨ e.action = .noteOnce note velocity duration) :
    r.noteOnce s.notes note velocity duration s.framesMade ∈ (s.dispatch e).racks.entries := by
  obtain ⟨params, hpatch⟩ := Channel.patch_of_effect heffect
  have hstart : s.dispatch e = s.startNote c note velocity duration := by
    have hwith : ∀ act : Synth → Channel → Synth, s.withChannel i act = act s c := by
      intro act
      rw [withChannel, Synth.ensureChannel, hc]
      dsimp only
      rw [hc]
    rw [dispatch, hslot]
    rcases haction with ⟨hon, rfl⟩ | honce
    · rw [hon, perform, onChannel, channelIndex?_slot]
      exact hwith _
    · rw [honce, perform, onChannel, channelIndex?_slot]
      exact hwith _
  rw [hstart, Synth.startNote, hpatch]
  refine Pool.map_mem_modifyFirst _ (h.unique c.id) hr ?_
  rw [hlive, hchannel, h.ids i c hc]
  simp

/-- A channel in effect mode has a rack that plays, as long as no song has ended since a moment at
which its place was free. Each note on it then reaches that rack and starts a voice there. -/
theorem effect_channel_attended {format : Format} {calls : List Call} {j k : Nat} (hjk : j ≤ k)
    {i : Fin channelCount} (hfree : (Moment.after format calls j).synth.channels.get i = none)
    (hplays : ∀ x, j ≤ x → x < k → (Moment.after format calls x).synth.song.isSome = true →
      (Moment.after format calls (x + 1)).synth.song.isSome = true)
    {c : Channel} (hc : (Moment.after format calls k).synth.channels.get i = some c)
    (heffect : c.mode = .effect) :
    let s := (Moment.after format calls k).synth
    ∃ r ∈ s.racks.entries, r.isDefunct = false ∧ r.channel = i.val.toUInt8
      ∧ ∀ (e : Event) (note velocity : UInt8) (duration : Int), e.channel = i.val.toUInt8 →
        (e.action = .noteOn note velocity ∧ duration = Envelope.held
          ∨ e.action = .noteOnce note velocity duration) →
        ∃ r' ∈ (s.dispatch e).racks.entries, r'.isDefunct = false ∧ r'.channel = i.val.toUInt8
          ∧ r' = r.noteOnce s.notes note velocity duration s.framesMade
          ∧ ∃ v ∈ r'.voices, v.note = note ∧ v.born = s.framesMade
            ∧ v.level = .ofNote r.level velocity duration := by
  intro s
  have h : s.Ensemble := Ensemble.after format calls k
  obtain ⟨r, hr, hsteady, hchannel⟩ := Attended.after hjk hfree hplays c hc heffect
  refine ⟨r, hr, hsteady.live, hchannel, fun e note velocity duration hslot haction => ?_⟩
  have hmem := h.noteOnce_mem_dispatch hc heffect hr hsteady.live hchannel hslot haction
  exact ⟨_, hmem, hsteady.live, hchannel, rfl, r.noteOnce_voice _ _ _ _ _⟩

theorem slow_legal : Rate.isLegal 200 = true := rfl

theorem slow_channels_le : 1 ≤ 8 := by decide

/-- A format in which a second is short. -/
def slow : Format where
  rate := 200
  channels := 1
  rate_legal := slow_legal
  channels_pos := Nat.one_pos
  channels_le := slow_channels_le

/-- A guitar on a channel of the caller. -/
def guitarCalls : List Call :=
  [.message (.event { channel := 9, opcode := Event.opProgram, a := 25, b := 0, duration := 0 }),
    .message (.event { channel := 9, opcode := Event.opControl, a := 7, b := 127, duration := 0 })]

theorem effect_channel_attended_guitar :
    ∃ r ∈ (Moment.after slow guitarCalls 2).synth.racks.entries,
      r.isDefunct = false ∧ r.channel = 9 := by
  have hmode : ((Moment.after slow guitarCalls 2).synth.channels.get 9).map Channel.mode
      = some .effect := by
    decide +kernel
  obtain ⟨c, hc, heffect⟩ := Option.map_eq_some_iff.mp hmode
  have hplays : ∀ x, 0 ≤ x → x < 2 → (Moment.after slow guitarCalls x).synth.song.isSome = true →
      (Moment.after slow guitarCalls (x + 1)).synth.song.isSome = true := by
    decide +kernel
  obtain ⟨r, hr, hlive, hchannel, -⟩ :=
    effect_channel_attended (Nat.zero_le 2) (Vector.getElem_replicate _) hplays hc heffect
  exact ⟨r, hr, hlive, hchannel⟩

/-! ### After a song -/

/-- Without a song, a mono update of one pass is a single stretch. -/
theorem render_quiet {s : Synth} {samples : Nat} (hsong : s.song = none)
    (hpending : s.pending = none) (hmono : s.format.channels = 1) (hpos : 0 < samples)
    (hpass : samples ≤ passSamples) :
    (s.render samples).2 = ((s.beginUpdate samples).renderStretch samples).2.endUpdate := by
  have hstretch : ∀ (t : Synth) (n : Nat) (out : Block), t.song = none → t.pending = none → 0 < n →
      (t.renderMono n out).2 = (t.renderStretch n).2 := by
    intro t n out ht ht' hn
    have hprepare : t.prepareStretch ⟨n, hn⟩ = (⟨n, hn⟩, t) := by
      rw [prepareStretch, ht]
      dsimp only
      rw [ht']
    rw [renderMono, dif_pos hn, hprepare]
    dsimp only
    rw [Nat.sub_self, renderMono, dif_neg (Nat.lt_irrefl 0)]
  have hlimit : s.passLength.val = passSamples := by
    show passSamples / s.format.channels * s.format.channels = passSamples
    rw [hmono]
    rfl
  have hframes : samples / s.format.channels = samples := by rw [hmono, Nat.div_one]
  have hpasses : (renderPasses s.passLength (s.beginUpdate samples) samples #[]).2
      = ((s.beginUpdate samples).renderMono (samples / s.format.channels) #[]).2 := by
    rw [renderPasses, dif_pos hpos, hlimit, Nat.min_eq_left hpass]
    dsimp only
    rw [Nat.sub_self, renderPasses, dif_neg (Nat.lt_irrefl 0)]
    rfl
  show (renderPasses s.passLength (s.beginUpdate (samples / s.format.channels)) samples
    #[]).2.endUpdate = _
  rw [hframes, hpasses, hframes]
  exact congrArg endUpdate (hstretch (s.beginUpdate samples) samples #[] hsong hpending hpos)

/-- A stretch that is longer than what is left of all fades leaves the channels without a rack that
plays. -/
theorem racks_over_of_faded {s : Synth} {samples : Nat} (hsong : s.song = none)
    (hpending : s.pending = none) (hmono : s.format.channels = 1) (hpos : 0 < samples)
    (hpass : samples ≤ passSamples)
    (hfades : ∀ r ∈ s.racks.entries, r.isDefunct = false ∧ 0 < r.fade.left ∧ r.fade.left < samples) :
    (s.render samples).2.channels = s.channels
      ∧ ∀ r ∈ (s.render samples).2.racks.entries, r.isDefunct = true := by
  rw [render_quiet hsong hpending hmono hpos hpass]
  refine ⟨rfl, fun r hr => ?_⟩
  have hmem := (Pool.trimDefunct_prefix _).subset hr
  rw [Ensemble.racks_renderStretch] at hmem
  obtain ⟨q, hq, rfl⟩ := List.mem_map.mp hmem
  obtain ⟨hplaying, hleft, hshort⟩ := hfades q hq
  exact (Rack.render_fade _ q samples hpass hplaying hleft).2.mpr hshort

def endedSongCalls : List Call :=
  guitarCalls ++ [.playSongBytes wheelSong false, .playSongBytes [] false]

def orphaningCalls : List Call := endedSongCalls ++ [.render 201]

/-- The channel of the caller loses its rack a second after the end of the song. -/
theorem song_end_orphans_channel :
    ¬ ∀ (format : Format) (calls : List Call) (i : Fin channelCount) (c : Channel),
      songChannels ≤ i.val → (calls.foldl apply (ofFormat format)).channels.get i = some c →
        c.mode = .effect →
        ∃ r ∈ (calls.foldl apply (ofFormat format)).racks.entries,
          r.isDefunct = false ∧ r.channel = i.val.toUInt8 := by
  intro hall
  have hcalls : orphaningCalls.foldl apply (ofFormat slow)
      = ((endedSongCalls.foldl apply (ofFormat slow)).render 201).2 := by
    rw [orphaningCalls, List.foldl_append, List.foldl_cons, List.foldl_nil, apply]
  have horphan := hall slow orphaningCalls 9
  rw [hcalls] at horphan
  have hquiet : (endedSongCalls.foldl apply (ofFormat slow)).song.isNone = true
      ∧ (endedSongCalls.foldl apply (ofFormat slow)).pending.isNone = true
      ∧ (endedSongCalls.foldl apply (ofFormat slow)).format.channels = 1 := by
    decide +kernel
  have hmode : ((endedSongCalls.foldl apply (ofFormat slow)).channels.get 9).map Channel.mode
      = some .effect := by
    decide +kernel
  have hfades : ∀ r ∈ (endedSongCalls.foldl apply (ofFormat slow)).racks.entries,
      r.isDefunct = false ∧ 0 < r.fade.left ∧ r.fade.left < (201 : Nat) := by
    decide +kernel
  generalize endedSongCalls.foldl apply (ofFormat slow) = s at horphan hquiet hmode hfades
  obtain ⟨c, hc, heffect⟩ := Option.map_eq_some_iff.mp hmode
  simp only [Option.isNone_iff_eq_none] at hquiet
  obtain ⟨hchannels, hover⟩ :=
    racks_over_of_faded hquiet.1 hquiet.2.1 hquiet.2.2 (by decide) (by decide) hfades
  obtain ⟨r, hr, hlive, -⟩ := horphan c (by decide) (hchannels ▸ hc) heffect
  have hdefunct := hover r hr
  rw [hlive] at hdefunct
  cases hdefunct

end Synth

end Tonewheel
