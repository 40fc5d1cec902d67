import Tonewheel.Proofs.Synth.Ensemble
import Tonewheel.Proofs.Synth.Events

/-!
# Every step keeps the ensemble

Notes, controllers, programs, songs and rendering all keep the ensemble, so it is there at every
moment of every history, inside the calls as well as between them (`Ensemble.after`). Two things
follow. There is at most one rack that plays for a channel, and always room for one more
(`one_rack_per_channel`). And the copies of a channel's bend and volume that its voices and racks
keep are the same as the channel's (`copies_agree`).
-/

namespace Tonewheel.Synth

namespace Ensemble

variable {s t : Synth} {i : Fin channelCount}

theorem of_sounds (h : s.Ensemble) (hsounds : s.SoundsOnly t) : t.Ensemble := by
  obtain ⟨shelf, cache, printers, playbacks, rfl⟩ := hsounds
  exact h.of_same rfl rfl rfl

/-! ### Notes -/

theorem startNote (h : s.Ensemble) {c : Channel} (hc : s.channels.get i = some c)
    (note velocity : UInt8) (duration : Int) : (s.startNote c note velocity duration).Ensemble := by
  unfold Synth.startNote
  split
  next base _ => exact h.of_sounds (playSound_sounds s _ _)
  next params _ =>
    exact h.updateRack c.id _ (fun r => r.later_noteOnce _ _ _ _ _) fun r => rfl
  next =>
    split
    next v hbegin =>
      refine h.with_voices _ fun w hw => ?_
      rcases Pool.mem_place hw with hw | rfl
      · exact h.voices w hw
      · obtain ⟨hfollows, horigin⟩ := Voice.begin_follows hbegin
        exact ⟨horigin, fun _ => ⟨i, c, hc, hfollows⟩⟩
    next => exact h

theorem stopNote (h : s.Ensemble) (c : Channel) (note : UInt8) : (s.stopNote c note).Ensemble := by
  unfold Synth.stopNote
  split
  · exact h
  · exact h.updateRack c.id _ (fun r => r.later_noteOff note) fun r => rfl
  · refine h.with_voices _ fun v hv => ?_
    rcases Pool.mem_modifyFirst hv with hv | ⟨w, hw, -, rfl⟩
    · exact h.voices v hv
    · exact (h.voices w hw).later w.later_release

/-! ### Controllers -/

theorem unique (h : s.Ensemble) (id : UInt8) :
    s.racks.entries.Pairwise fun a b =>
      (!a.isDefunct && a.channel == id) = true → (!b.isDefunct && b.channel == id) = false := by
  refine h.apart.imp fun {a b} hapart hcalled => ?_
  simp only [Bool.and_eq_true, Bool.not_eq_true', beq_iff_eq] at hcalled
  refine Bool.eq_false_iff.mpr fun hother => ?_
  simp only [Bool.and_eq_true, Bool.not_eq_true', beq_iff_eq] at hother
  exact hapart hcalled.1 hother.1 (hcalled.2.trans hother.2.symm)

theorem retune (h : s.Ensemble) {c c' : Channel} (hc : s.channels.get i = some c)
    (hid : c'.id = c.id) (voices : Pool Voice) (racks : Pool Rack)
    (hvoices : ∀ v' ∈ voices.entries, ∃ v ∈ s.voices.entries, v.Retuned c c' v')
    (hcapacity : racks.capacity = s.racks.capacity)
    (hracks : ∀ r' ∈ racks.entries, ∃ r ∈ s.racks.entries, r.Retuned c c' r')
    (hapart : racks.entries.Pairwise Rack.Apart) :
    { s with voices, racks, channels := s.channels.set i (some c') i.isLt }.Ensemble where
  ids j d hd := by
    by_cases hji : j = i
    · subst hji
      rw [get_set_self, Option.some.injEq] at hd
      rw [← hd, hid]
      exact h.ids j c hc
    · rw [get_set_ne _ _ hji] at hd
      exact h.ids j d hd
  voices v' hv' := by
    obtain ⟨v, hv, hretuned⟩ := hvoices v' hv'
    refine ⟨by rw [hretuned.origin, hretuned.channel, (h.voices v hv).origin], fun hlive' => ?_⟩
    refine ((h.voices v hv).follows (hretuned.live hlive')).set ?_ ?_
    · intro j d hji hd hfollows
      exact hretuned.others d (fun hsame => hji (h.slot_eq hc hd hsame)) hfollows
    · intro d hd hfollows
      rw [hc, Option.some.injEq] at hd
      exact ⟨c', rfl, hretuned.here hlive' (hd ▸ hfollows)⟩
  racks r' hr' := by
    obtain ⟨r, hr, hretuned⟩ := hracks r' hr'
    refine ⟨by rw [hretuned.origin, hretuned.channel, (h.racks r hr).origin],
      hretuned.inTune (h.racks r hr).inTune, fun hlive' => ?_⟩
    refine ((h.racks r hr).serves (hretuned.live hlive')).set ?_ ?_
    · intro j d hji hd hserves
      exact hretuned.others d (fun hsame => hji (h.slot_eq hc hd hsame)) hserves
    · intro d hd hserves
      rw [hc, Option.some.injEq] at hd
      exact ⟨c', rfl, hretuned.here hlive' (hd ▸ hserves)⟩
  apart := hapart
  capacity := hcapacity.trans h.capacity

theorem controlChannel (h : s.Ensemble) {c : Channel} (hc : s.channels.get i = some c)
    (key value : UInt8) : (s.controlChannel i c key value).Ensemble := by
  have hvoices : ∀ v ∈ s.voices.entries, ∃ w ∈ s.voices.entries,
      w.Retuned c (c.control key value) v :=
    fun v hv => ⟨v, hv, (Voice.Later.refl v).retuned (by simp) (by simp) (by simp)⟩
  unfold Synth.controlChannel
  dsimp only
  split
  next params hpatch =>
    refine h.retune hc (c.control_id key value) _ _ hvoices rfl (fun r' hr' => ?_) ?_
    · rcases Pool.mem_modifyFirst_of_unique (h.unique c.id) hr' with ⟨hr, hnot⟩ | ⟨r, hr, hcalled, rfl⟩
      · refine ⟨r', hr, rfl, rfl, id, id, fun hlive hserves => ?_, fun d _ hserves => hserves⟩
        rw [hlive, hserves.channel] at hnot
        simp at hnot
      · simp only [Bool.and_eq_true, Bool.not_eq_true', beq_iff_eq] at hcalled
        have hlater := r.later_control key value
        refine ⟨r, hr, hlater.channel, hlater.origin, hlater.live, hlater.inTune, ?_, ?_⟩
        · intro _ hserves
          exact ⟨by rw [hlater.channel, hserves.channel, Channel.control_id],
            by rw [Channel.mode, Channel.control_patch]; exact hserves.effect,
            Rack.control_trim hserves.trim key value⟩
        · intro d hd hserves
          exact absurd (hserves.channel.symm.trans hcalled.2) hd
    · exact Pool.pairwise_modifyFirst h.apart fun a b hapart =>
        ⟨hapart.later (a.later_control key value) (.refl b),
          hapart.later (.refl a) (b.later_control key value)⟩
  next hpatch =>
    refine h.retune hc (c.control_id key value) _ _ hvoices rfl (fun r hr => ?_) h.apart
    refine ⟨r, hr, rfl, rfl, id, id, fun _ hserves => ?_, fun d _ hserves => hserves⟩
    obtain ⟨params, heffect⟩ := Channel.patch_of_effect hserves.effect
    exact absurd heffect (hpatch params)

theorem moveWheel (h : s.Ensemble) {c : Channel} (hc : s.channels.get i = some c)
    (position : UInt16) : (s.moveWheel i c position).Ensemble := by
  have hid := c.setWheel_id position
  have hpatch := c.setWheel_patch position
  have hracks : ∀ r ∈ s.racks.entries, ∃ q ∈ s.racks.entries,
      q.Retuned c (c.setWheel position).2 r :=
    fun r hr => ⟨r, hr, (Rack.Later.refl r).retuned rfl hid hpatch (c.setWheel_trim position)⟩
  unfold Synth.moveWheel
  split
  · exact h
  · have hbend := c.setWheel_bend position
    generalize c.setWheel position = moved at hid hpatch hracks hbend
    obtain ⟨bend, c'⟩ := moved
    dsimp only at hid hpatch hracks hbend ⊢
    have hvoices (hsame : c'.bend = c.bend) : ∀ v ∈ s.voices.entries, ∃ w ∈ s.voices.entries,
        w.Retuned c c' v :=
      fun v hv => ⟨v, hv, (Voice.Later.refl v).retuned hid hpatch hsame⟩
    split
    next bend _ =>
      obtain ⟨hnone, -⟩ | hnew := hbend
      · cases hnone
      rw [Option.some.injEq] at hnew
      refine h.retune hc hid _ _ (fun v hv => ?_) rfl hracks h.apart
      obtain ⟨w, hw, rfl⟩ := List.mem_map.mp hv
      rw [hnew]
      exact ⟨w, hw, Voice.retuned_bend w hid hpatch⟩
    next params _ =>
      obtain ⟨-, hsame⟩ | hnew := hbend
      · refine (h.retune hc hid _ _ (hvoices hsame) rfl hracks h.apart).updateRack c.id _ ?_ ?_
        · exact fun r => r.later_wheel position
        · exact fun r => rfl
      · cases hnew
    next =>
      obtain ⟨-, hsame⟩ | hnew := hbend
      · exact h.retune hc hid _ _ (hvoices hsame) rfl hracks h.apart
      · cases hnew

theorem eventClosed : EventClosed Ensemble where
  programs _ _ h := h.of_same rfl rfl rfl
  ensure _ i h := h.ensureChannel i
  drop _ i h := h.dropChannel i
  start _ _ _ _ _ _ h hc := h.startNote hc _ _ _
  stop _ _ c note h _ := h.stopNote c note
  control _ _ _ _ _ h hc := h.controlChannel hc _ _
  wheel _ _ _ _ h hc := h.moveWheel hc _

/-! ### Songs -/

theorem endSong (h : s.Ensemble) : s.endSong.Ensemble := by
  unfold Synth.endSong
  split
  · exact h
  · have hvoices := h.map_voices _ Voice.later_release
    exact (hvoices.map_racks _ Rack.later_release fun r => rfl).of_same rfl rfl rfl

/-- When no song sounds, the first channels can go without their voices and racks. -/
theorem clearSongChannels (h : s.Ensemble) (hquiet : s.hasSongVoices = false) :
    s.clearSongChannels.Ensemble := by
  obtain ⟨hvoices, hracks⟩ := Bool.or_eq_false_iff.mp hquiet
  have hstays {j : Fin channelCount} {c : Channel} (hc : s.channels.get j = some c)
      (hcaller : Origin.ofChannel j.val.toUInt8 ≠ .song) :
      s.clearSongChannels.channels.get j = some c := by
    have hhigh : ¬ j.val < songChannels := fun hlow =>
      hcaller (if_pos (by rw [toNat_slot]; exact hlow))
    rw [channels_clearSongChannels, if_neg hhigh, hc]
  refine ⟨fun j c hc => ?_, fun v hv => ?_, fun r hr => ?_, h.apart, h.capacity⟩
  · rw [channels_clearSongChannels] at hc
    split at hc
    · cases hc
    · exact h.ids j c hc
  · refine ⟨(h.voices v hv).origin, fun hlive => ?_⟩
    obtain ⟨j, c, hc, hchannel, hfollows⟩ := h.voice_channel hv hlive
    refine ⟨j, c, hstays hc fun hsong => ?_, hfollows⟩
    have hnot := List.any_eq_false.mp hvoices v hv
    rw [Voice.isSong, hlive, (h.voices v hv).origin, hchannel, hsong] at hnot
    exact hnot rfl
  · refine ⟨(h.racks r hr).origin, (h.racks r hr).inTune, fun hlive => ?_⟩
    obtain ⟨j, c, hc, hchannel, hserves⟩ := h.rack_channel hr hlive
    refine ⟨j, c, hstays hc fun hsong => ?_, hserves⟩
    have hnot := List.any_eq_false.mp hracks r hr
    rw [Rack.isSong, hlive, (h.racks r hr).origin, hchannel, hsong] at hnot
    exact hnot rfl

theorem seek (h : s.Ensemble) (beats : Float) : (s.seek beats).Ensemble := by
  unfold Synth.seek
  split
  · exact h.of_same rfl rfl rfl
  · exact (h.map_voices _ Voice.later_release).of_same rfl rfl rfl
  · exact h

/-! ### Rendering -/

theorem later_of_mem_renderVoices {sine : Wave} {n : Nat} {vs : List Voice} {noise : Noise}
    {mixed : Block} {v' : Voice} (h : v' ∈ (renderVoices sine n vs noise mixed).2.1) :
    ∃ v ∈ vs, v.Later v' := by
  induction vs generalizing noise mixed with
  | nil => cases h
  | cons v vs ih =>
    rw [renderVoices] at h
    rcases List.mem_cons.mp h with rfl | h
    · exact ⟨v, List.mem_cons_self, v.later_render sine noise n⟩
    · obtain ⟨w, hw, hlater⟩ := ih h
      exact ⟨w, List.mem_cons_of_mem v hw, hlater⟩

theorem renderRacks_eq_map (sine : Wave) (n : Nat) (rs : List Rack) (mixed : Block) :
    (renderRacks sine n rs mixed).2 = rs.map fun r => (r.render sine n).2 := by
  induction rs generalizing mixed with
  | nil => rfl
  | cons r rs ih =>
    rw [renderRacks, List.map_cons]
    exact congrArg _ (ih _)

theorem racks_renderStretch (s : Synth) (n : Nat) :
    (s.renderStretch n).2.racks = s.racks.map fun r => (r.render s.notes.sine n).2 := by
  simp only [Synth.renderStretch, renderRacks_eq_map]
  rfl

theorem renderStretch (h : s.Ensemble) (n : Nat) : (s.renderStretch n).2.Ensemble := by
  have hvoices := h.with_voices
    { s.voices with
      entries := (renderVoices s.notes.sine n s.voices.entries s.noise (.silence n)).2.1 }
    fun v hv => by
      obtain ⟨w, hw, hlater⟩ := later_of_mem_renderVoices hv
      exact (h.voices w hw).later hlater
  have hracks := hvoices.map_racks (fun r => (r.render s.notes.sine n).2)
    (fun r => r.later_render _ n) fun r => (r.render_same _ n).2.2.1
  exact hracks.of_same rfl (racks_renderStretch s n) rfl

theorem endUpdate (h : s.Ensemble) : s.endUpdate.Ensemble := by
  have hvoices := h.with_voices s.voices.reap fun v hv =>
    h.voices v ((Pool.trimDefunct_prefix _).subset hv)
  have hracks := hvoices.with_racks s.racks.reap rfl
    (fun r hr => h.racks r ((Pool.trimDefunct_prefix _).subset hr))
    (h.apart.sublist (Pool.trimDefunct_prefix _).sublist)
  exact hracks.of_same rfl rfl rfl

/-! ### Steps -/

theorem run (h : s.Ensemble) {σ : Step} {left : Nat} (allowed : σ.Allowed ⟨s, left⟩) :
    (σ.run s).Ensemble := by
  cases σ with
  | event e => exact eventClosed.dispatch h e
  | playSound key trim => exact h.of_sounds (s.playSound_sounds key trim)
  | playSoundBytes bytes trim => exact h.of_sounds (s.playSoundBytes_sounds bytes trim)
  | setCustom custom => exact h.clear custom
  | seek beats => exact h.seek beats
  | releaseAll =>
    have hvoices := h.map_voices _ Voice.later_release
    exact hvoices.map_racks _ Rack.later_releaseNotes fun r => rfl
  | endSong => exact h.endSong
  | takeOver song =>
    have hsong : { s with song, pending := none }.Ensemble := h.of_same rfl rfl rfl
    exact hsong.clearSongChannels allowed.2
  | setUp i record => exact eventClosed.setUpChannel h allowed record
  | stretch frames => exact h.renderStretch frames
  | finish => exact h.endUpdate
  | clearCache => exact h.of_same rfl rfl rfl
  | setResources store => exact h.of_same rfl rfl rfl
  | wait song => exact h.of_same rfl rfl rfl
  | begin frames => exact h.of_same rfl rfl rfl
  | turn => exact h.of_same rfl rfl rfl
  | advance frames => exact h.of_same rfl rfl rfl

theorem after (format : Format) (calls : List Call) (k : Nat) :
    (Moment.after format calls k).synth.Ensemble :=
  Moment.after_invariant (motive := fun m => m.synth.Ensemble) (ofFormat format)
    (fun _ _ allowed h => h.run allowed) calls k

end Ensemble

/-! ### Channels by number -/

theorem channelIndex?_slot (i : Fin channelCount) : channelIndex? i.val.toUInt8 = some i := by
  have hlt : i.val.toUInt8.toNat < channelCount := by
    rw [toNat_slot]
    exact i.isLt
  rw [channelIndex?, dif_pos hlt]
  exact congrArg some (Fin.ext (toNat_slot i))

theorem toUInt8_of_channelIndex? {channel : UInt8} {i : Fin channelCount}
    (h : channelIndex? channel = some i) : i.val.toUInt8 = channel := by
  unfold channelIndex? at h
  split at h
  · cases h
    exact UInt8.ofNat_toNat
  · cases h

theorem channelMode_slot {s : Synth} {i : Fin channelCount} {c : Channel}
    (hc : s.channels.get i = some c) : s.channelMode i.val.toUInt8 = some c.mode := by
  rw [channelMode, channelIndex?_slot]
  exact congrArg (Option.map Channel.mode) hc

namespace Ensemble

variable {s : Synth} {i : Fin channelCount}

theorem count_le_one (h : s.Ensemble) (id : UInt8) :
    (s.racks.entries.countP fun r => !r.isDefunct && r.channel == id) ≤ 1 := by
  have hcount := List.nodup_iff_count_le_one.mp h.nodup_live id
  rw [List.count, List.countP_map, List.countP_filter] at hcount
  refine Nat.le_trans (Nat.le_of_eq (List.countP_congr fun r _ => ?_)) hcount
  simp [and_comm]

theorem live_le_rackLimit (h : s.Ensemble) : s.racks.live ≤ rackLimit :=
  h.live_le [] .nil fun i hi => by cases hi

/-- A rack that is made for a free channel takes the place of none that plays. -/
theorem mem_instantiate (h : s.Ensemble) (hfree : s.channels.get i = none) {r : Rack}
    (hr : r ∈ s.racks.entries) (hlive : r.isDefunct = false) :
    r ∈ (s.instantiate i).racks.entries := by
  unfold Synth.instantiate
  split
  · exact hr
  · dsimp only
    split
    · exact Pool.mem_place_of_live (h.room hfree) _ hr hlive
    · exact hr

theorem mem_ensureChannel (h : s.Ensemble) (i : Fin channelCount) {r : Rack}
    (hr : r ∈ s.racks.entries) (hlive : r.isDefunct = false) :
    r ∈ (s.ensureChannel i).racks.entries := by
  unfold Synth.ensureChannel
  split
  · exact hr
  next hfree => exact h.mem_instantiate hfree hr hlive

theorem mem_headerControl (h : s.Ensemble) (i : Fin channelCount) (key value : UInt8) {r : Rack}
    (hr : r ∈ s.racks.entries) (hlive : r.isDefunct = false) (hother : r.channel ≠ i.val.toUInt8) :
    r ∈ (s.headerControl i key value).racks.entries := by
  have hmem := h.mem_ensureChannel i hr hlive
  unfold Synth.headerControl Synth.withChannel
  dsimp only
  split
  next c hc =>
    have hid := (h.ensureChannel i).ids i c hc
    unfold Synth.controlChannel
    dsimp only
    split
    · refine Pool.mem_modifyFirst_of_not hmem ?_
      rw [hid]
      simp [hother]
    · exact hmem
  · exact hmem

theorem mem_setUpChannel (h : s.Ensemble) (hfree : s.channels.get i = none) (record : ChannelRecord)
    {r : Rack} (hr : r ∈ s.racks.entries) (hlive : r.isDefunct = false) :
    r ∈ (s.setUpChannel i record).racks.entries := by
  have hprograms : { s with
      programs := s.programs.set i record.program.toUInt32 i.isLt }.Ensemble :=
    h.of_same rfl rfl rfl
  have hother := h.ne_of_free hfree hr hlive
  have hmade := hprograms.instantiate hfree
  have hvolume := hmade.mem_headerControl i controlVolume (record.volume >>> 1)
    (hprograms.mem_instantiate hfree hr hlive) hlive hother
  unfold Synth.setUpChannel
  dsimp only
  split
  · exact hr
  · exact (eventClosed.headerControl hmade i _ _).mem_headerControl i _ _ hvolume hlive hother

end Ensemble

/-! ### What every moment shows -/

/-- At every moment there is at most one rack that plays for a channel, and the channel is then in
effect mode; voices sound for channels in modes with voices only. So there are never more than
sixteen racks that play, and where a channel is made, for an event or for a song, its new rack takes
the place of none of them. -/
theorem one_rack_per_channel (format : Format) (calls : List Call) (k : Nat) :
    let s := (Moment.after format calls k).synth
    (∀ id : UInt8, (s.racks.entries.countP fun r => !r.isDefunct && r.channel == id) ≤ 1)
      ∧ (∀ r ∈ s.racks.entries, r.isDefunct = false → s.channelMode r.channel = some .effect)
      ∧ (∀ v ∈ s.voices.entries, v.isDefunct = false →
          ∃ mode, s.channelMode v.channel = some mode ∧ mode ≠ .drum ∧ mode ≠ .effect)
      ∧ s.racks.live ≤ 16
      ∧ (∀ i, ∀ r ∈ s.racks.entries, r.isDefunct = false → r ∈ (s.ensureChannel i).racks.entries)
      ∧ ∀ i record, ((ofFormat format).history calls)[k]? = some (.setUp i record) →
          ∀ r ∈ s.racks.entries, r.isDefunct = false →
            r ∈ (s.setUpChannel i record).racks.entries := by
  intro s
  have h : s.Ensemble := Ensemble.after format calls k
  refine ⟨h.count_le_one, fun r hr hlive => ?_, fun v hv hlive => ?_, h.live_le_rackLimit,
    fun i r hr hlive => h.mem_ensureChannel i hr hlive, fun i record hnext r hr hlive => ?_⟩
  · obtain ⟨i, c, hc, hchannel, hserves⟩ := h.rack_channel hr hlive
    rw [hchannel, channelMode_slot hc, hserves.effect]
  · obtain ⟨i, c, hc, hchannel, hfollows⟩ := h.voice_channel hv hlive
    rw [hchannel, channelMode_slot hc]
    exact ⟨c.mode, rfl, Channel.mode_of_bends hfollows.bends⟩
  · obtain ⟨hfree, -⟩ := Moment.after_succ hnext
    exact h.mem_setUpChannel hfree record hr hlive

/-- At every moment the copies of what a channel keeps agree with it: the strides of its voices with
its bend, the trim of its rack with its trim, and in a rack the strides of the voices with the bend
and the ratio of the rack. -/
theorem copies_agree (format : Format) (calls : List Call) (k : Nat) :
    let s := (Moment.after format calls k).synth
    (∀ v ∈ s.voices.entries, v.isDefunct = false →
        ∃ i c, channelIndex? v.channel = some i ∧ s.channels.get i = some c
          ∧ v.stride = (v.baseStride.toFloat32 * c.bend).toUInt32)
      ∧ (∀ r ∈ s.racks.entries, r.isDefunct = false →
          ∃ i c, channelIndex? r.channel = some i ∧ s.channels.get i = some c ∧ r.trim = c.trim)
      ∧ ∀ r ∈ s.racks.entries, ∀ v ∈ r.voices,
          v.carrierStride = v.baseStride * r.bend ∧ v.modulatorStride = v.carrierStride * r.ratio := by
  intro s
  have h : s.Ensemble := Ensemble.after format calls k
  refine ⟨fun v hv hlive => ?_, fun r hr hlive => ?_, fun r hr v hv => ?_⟩
  · obtain ⟨i, c, hc, hchannel, hfollows⟩ := h.voice_channel hv hlive
    exact ⟨i, c, by rw [hchannel, channelIndex?_slot], hc, hfollows.stride⟩
  · obtain ⟨i, c, hc, hchannel, hserves⟩ := h.rack_channel hr hlive
    exact ⟨i, c, by rw [hchannel, channelIndex?_slot], hc, hserves.trim⟩
  · have htune := (h.racks r hr).inTune v hv
    exact ⟨htune.carrier, htune.modulator⟩

end Tonewheel.Synth
