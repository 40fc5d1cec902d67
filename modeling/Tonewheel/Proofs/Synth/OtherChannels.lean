import Tonewheel.Proofs.Synth.LookUps
import Tonewheel.Proofs.Synth.VoicePool

/-!
# Events and the other channels

An event acts on one channel. The programs and channels of the others stay, and so do their voices
and racks, but for one that a new voice or rack may take the slot of; a rack makes room only when it
is defunct (`SparesOthers`). Songs, time and noise are not an event's to change
(`other_channels_untouched`).
-/

namespace Tonewheel

/-! ### Entries of others -/

namespace Pool

variable {α : Type} {other : α → Bool}

/-- Whether an entry of others is overwritten in its slot, and no more of theirs changes. -/
structure Overwrites (other : α → Bool) (before after : List α) (slot : Nat) (old : α) : Prop where
  here : before[slot]? = some old
  isOther : other old = true
  new : ∃ new, after[slot]? = some new ∧ other new = false
  rest : after.filter other = (before.eraseIdx slot).filter other

/-- Whether the entries of others stay as they are, and all other slots stay of their kind. -/
structure Keeps (other : α → Bool) (before after : List α) : Prop where
  others : after.filter other = before.filter other
  own : ∀ (slot : Nat) e, before[slot]? = some e → other e = false →
    ∃ e', after[slot]? = some e' ∧ other e' = false

theorem Keeps.refl (entries : List α) : Keeps other entries entries :=
  ⟨rfl, fun _ e he hown => ⟨e, he, hown⟩⟩

theorem Overwrites.trans {before after later : List α} {slot : Nat} {old : α}
    (h : Overwrites other before after slot old) (hkeeps : Keeps other after later) :
    Overwrites other before later slot old := by
  obtain ⟨new, hnew, hown⟩ := h.new
  exact ⟨h.here, h.isOther, hkeeps.own slot new hnew hown, hkeeps.others.trans h.rest⟩

theorem filter_set {entries : List α} {slot : Nat} (hslot : slot < entries.length) {entry : α}
    (hentry : other entry = false) :
    (entries.set slot entry).filter other = (entries.eraseIdx slot).filter other := by
  rw [List.set_eq_take_append_cons_drop, if_pos hslot, List.eraseIdx_eq_take_drop_succ,
    List.filter_append, List.filter_append, List.filter_cons_of_neg (by simp [hentry])]

theorem filter_eraseIdx {entries : List α} {slot : Nat} {old : α}
    (hold : entries[slot]? = some old) (hown : other old = false) :
    (entries.eraseIdx slot).filter other = entries.filter other := by
  obtain ⟨hslot, rfl⟩ := List.getElem?_eq_some_iff.mp hold
  have hsame := filter_set hslot hown
  rw [List.set_getElem_self] at hsame
  exact hsame.symm

theorem keeps_modifyFirst {test : α → Bool} {f : α → α}
    (htest : ∀ e, test e = true → other e = false) (hf : ∀ e, other (f e) = other e)
    (entries : List α) : Keeps other entries (modifyFirst test f entries) := by
  induction entries with
  | nil => exact .refl []
  | cons e es ih =>
    rw [modifyFirst]
    split
    next hpass =>
      have hown := htest e hpass
      refine ⟨?_, fun slot d hd hother => ?_⟩
      · rw [List.filter_cons_of_neg (by simp [hf, hown]), List.filter_cons_of_neg (by simp [hown])]
      · cases slot with
        | zero => exact ⟨f e, rfl, (hf e).trans hown⟩
        | succ slot => exact ⟨d, hd, hother⟩
    next =>
      refine ⟨?_, fun slot d hd hother => ?_⟩
      · rw [List.filter_cons, List.filter_cons, ih.others]
      · cases slot with
        | zero => exact ⟨d, hd, hother⟩
        | succ slot => exact ih.own slot d hd hother

theorem filter_map_own {f : α → α} (hf : ∀ e, other e = true → f e = e)
    (hown : ∀ e, other (f e) = other e) (entries : List α) :
    (entries.map f).filter other = entries.filter other := by
  induction entries with
  | nil => rfl
  | cons e es ih =>
    rw [List.map_cons, List.filter_cons, List.filter_cons, hown, ih]
    split
    next hother => rw [hf e hother]
    next => rfl

/-- A new entry takes over the slot of an entry of others, or none of theirs changes. -/
theorem place_others [PoolEntry α] (other : α → Bool) (capacity : Nat) (entries : List α) {entry : α}
    (hentry : other entry = false) :
    (place capacity entries entry).2.filter other = entries.filter other
      ∨ ∃ slot old, ¬entries.length < capacity ∧ victim entries = some slot
        ∧ Overwrites other entries (place capacity entries entry).2 slot old := by
  unfold place
  split
  · left
    rw [List.filter_append, List.filter_cons_of_neg (by simp [hentry]), List.filter_nil,
      List.append_nil]
  next hfull =>
    split
    next slot hvictim =>
      have hslot := victim_lt hvictim
      have hold := List.getElem?_eq_getElem hslot
      have hset := filter_set hslot hentry
      cases hother : other entries[slot] with
      | false => exact .inl (hset.trans (filter_eraseIdx hold hother))
      | true =>
        refine .inr ⟨slot, entries[slot], hfull, hvictim, hold, hother, ⟨entry, ?_, hentry⟩, hset⟩
        exact List.getElem?_set_self hslot
    next => exact .inl rfl

/-- While there is a finished entry, a pool gives up a finished one. -/
theorem isDefunct_victim [PoolEntry α] {entries : List α} {slot : Nat} {e : α}
    (hsome : ∃ d ∈ entries, PoolEntry.isDefunct d = true) (hvictim : victim entries = some slot)
    (he : entries[slot]? = some e) : PoolEntry.isDefunct e = true := by
  unfold victim at hvictim
  split at hvictim
  next found hfound =>
    cases hvictim
    obtain ⟨hslot, hover, -⟩ := List.findIdx?_eq_some_iff_getElem.mp hfound
    rw [List.getElem?_eq_getElem hslot, Option.some.injEq] at he
    rwa [← he]
  next hnone =>
    obtain ⟨d, hd, hover⟩ := hsome
    rw [List.findIdx?_eq_none_iff.mp hnone d hd] at hover
    cases hover

end Pool

namespace Synth

/-- What an event on a channel may do to the voices and racks of the others. -/
inductive SparesOthers (channel : UInt8) (s t : Synth) : Prop where
  | all (voices : t.voices.entries.filter (·.channel != channel)
      = s.voices.entries.filter (·.channel != channel))
    (racks : t.racks.entries.filter (·.channel != channel)
      = s.racks.entries.filter (·.channel != channel))
  | voice (slot : Nat) (old : Voice)
    (voices : Pool.Overwrites (·.channel != channel) s.voices.entries t.voices.entries slot old)
    (racks : t.racks.entries.filter (·.channel != channel)
      = s.racks.entries.filter (·.channel != channel))
  | rack (slot : Nat) (old : Rack) (defunct : old.isDefunct = true)
    (voices : t.voices.entries.filter (·.channel != channel)
      = s.voices.entries.filter (·.channel != channel))
    (racks : Pool.Overwrites (·.channel != channel) s.racks.entries t.racks.entries slot old)

/-! ### Channels that are made -/

theorem voices_ensureChannel (s : Synth) (i : Fin channelCount) :
    (s.ensureChannel i).voices = s.voices := by
  obtain ⟨racks, channels, hensure⟩ := s.exists_ensureChannel i
  rw [hensure]

theorem racks_ensureChannel {s : Synth} (h : s.Ensemble) (i : Fin channelCount) :
    (s.ensureChannel i).racks.entries.filter (·.channel != i.val.toUInt8)
        = s.racks.entries.filter (·.channel != i.val.toUInt8)
      ∨ ∃ slot old, old.isDefunct = true
        ∧ Pool.Overwrites (·.channel != i.val.toUInt8) s.racks.entries
          (s.ensureChannel i).racks.entries slot old
        ∧ ∃ c, (s.ensureChannel i).channels.get i = some c ∧ c.mode = .effect := by
  unfold ensureChannel
  cases hfree : s.channels.get i with
  | some c => exact .inl rfl
  | none =>
    dsimp only
    unfold instantiate
    cases hmake : Channel.make i.val.toUInt8 (s.programs.get i) s.format.rate s.notes s.custom with
    | none => exact .inl rfl
    | some c =>
      dsimp only
      cases hpatch : c.patch with
      | effect params =>
        have hown : ((Rack.make c params s.format.rate s.framesPerBeat s.framesMade).channel
            != i.val.toUInt8) = false := by
          rw [show (Rack.make c params _ _ _).channel = c.id from rfl, Channel.make_id hmake]
          exact bne_self_eq_false _
        rcases Pool.place_others (·.channel != i.val.toUInt8) s.racks.capacity s.racks.entries
          hown with hsame | ⟨slot, old, hfull, hvictim, hover⟩
        · exact .inl hsame
        · refine .inr ⟨slot, old, ?_, hover, c, get_set_self _ _ _, ?_⟩
          · exact Pool.isDefunct_victim ((h.room hfree).resolve_left hfull) hvictim hover.here
          · rw [Channel.mode, hpatch]
            rfl
      | _ => exact .inl rfl

/-! ### What is done to a channel -/

/-- What an operation on a channel that is made may do: change its own voices and racks, or, unless
the channel is in effect mode, add a voice. -/
inductive ActsOn (channel : UInt8) (c : Channel) (s t : Synth) : Prop where
  | own (voices : t.voices.entries.filter (·.channel != channel)
      = s.voices.entries.filter (·.channel != channel))
    (racks : Pool.Keeps (·.channel != channel) s.racks.entries t.racks.entries)
  | voice (slot : Nat) (old : Voice) (notEffect : c.mode ≠ .effect)
    (voices : Pool.Overwrites (·.channel != channel) s.voices.entries t.voices.entries slot old)
    (racks : t.racks = s.racks)

theorem ActsOn.refl (channel : UInt8) (c : Channel) (s : Synth) : ActsOn channel c s s :=
  .own rfl (.refl _)

theorem keeps_updateRack (s : Synth) (channel : UInt8) {f : Rack → Rack}
    (hf : ∀ r : Rack, (f r).channel = r.channel) :
    Pool.Keeps (·.channel != channel) s.racks.entries (s.updateRack channel f).racks.entries := by
  refine Pool.keeps_modifyFirst (fun r hr => ?_) (fun r => by rw [hf]) _
  rw [Bool.and_eq_true] at hr
  rw [bne, hr.2, Bool.not_true]

theorem actsOn_startNote (s : Synth) (c : Channel) (note velocity : UInt8) (duration : Int) :
    ActsOn c.id c s (s.startNote c note velocity duration) := by
  unfold startNote
  split
  next base hpatch =>
    obtain ⟨shelf, cache, printers, playbacks, hsounds⟩ :=
      s.playSound_sounds ⟨0, base + note.toUInt16⟩ (c.drumTrim velocity)
    rw [playDrum, hsounds]
    exact .own rfl (.refl _)
  next params hpatch => exact .own rfl (s.keeps_updateRack c.id fun r => rfl)
  next hdrum heffect =>
    split
    next v hbegin =>
      have hown : (v.channel != c.id) = false := by
        rw [(Voice.begin_follows hbegin).1.channel]
        exact bne_self_eq_false _
      have hmode : c.mode ≠ .effect := by
        intro hmode
        obtain ⟨params, hpatch⟩ := Channel.patch_of_effect hmode
        exact heffect params hpatch
      rcases Pool.place_others (·.channel != c.id) s.voices.capacity s.voices.entries hown with
        hsame | ⟨slot, old, -, -, hover⟩
      · exact .own hsame (.refl _)
      · exact .voice slot old hmode hover rfl
    next => exact .refl c.id c s

theorem actsOn_stopNote (s : Synth) (c : Channel) (note : UInt8) :
    ActsOn c.id c s (s.stopNote c note) := by
  unfold stopNote
  split
  · exact .refl c.id c s
  · exact .own rfl (s.keeps_updateRack c.id fun r => rfl)
  · refine .own ?_ (.refl _)
    refine (Pool.keeps_modifyFirst (f := Voice.release) (fun v hv => ?_) (fun v => rfl) _).others
    simp only [Voice.isNote, Bool.and_eq_true] at hv
    rw [bne, hv.1.2, Bool.not_true]

theorem actsOn_controlChannel (s : Synth) (i : Fin channelCount) (c : Channel) (key value : UInt8) :
    ActsOn c.id c s (s.controlChannel i c key value) := by
  unfold controlChannel
  dsimp only
  split
  · exact .own rfl (keeps_updateRack _ c.id fun r => (r.later_control key value).channel)
  · exact .own rfl (.refl _)

theorem actsOn_moveWheel (s : Synth) (i : Fin channelCount) (c : Channel) (position : UInt16) :
    ActsOn c.id c s (s.moveWheel i c position) := by
  unfold moveWheel
  split
  · exact .refl c.id c s
  · generalize c.setWheel position = moved
    obtain ⟨bend, moved⟩ := moved
    dsimp only
    split
    · refine .own (Pool.filter_map_own (fun v hother => ?_) (fun v => ?_) _) (.refl _)
      · rw [if_neg]
        simp only [bne_iff_ne, ne_eq] at hother
        simp [hother]
      · split <;> rfl
    · exact .own rfl (keeps_updateRack _ c.id fun r => rfl)
    · exact .own rfl (.refl _)

/-- An operation on a channel and the making of it never both take a slot from others. -/
theorem sparesOthers_withChannel {s : Synth} (h : s.Ensemble) (i : Fin channelCount)
    {act : Synth → Channel → Synth} (hact : ∀ t c, ActsOn c.id c t (act t c)) :
    SparesOthers i.val.toUInt8 s (s.withChannel i act) := by
  have hvoices := s.voices_ensureChannel i
  have hids := (h.ensureChannel i).ids i
  have hmade := racks_ensureChannel h i
  unfold withChannel
  dsimp only
  generalize s.ensureChannel i = t at hvoices hids hmade
  cases hc : t.channels.get i with
  | none =>
    rcases hmade with hracks | ⟨slot, old, -, -, c, hsome, -⟩
    · exact .all (by rw [hvoices]) hracks
    · rw [hc] at hsome
      cases hsome
  | some c =>
    have hacts := hact t c
    rw [hids c hc] at hacts
    rcases hmade with hracks | ⟨slot, old, hdefunct, hover, d, hd, heffect⟩
    · cases hacts with
      | own voices keeps => exact .all (by rw [voices, hvoices]) (keeps.others.trans hracks)
      | voice slot old notEffect voices racks =>
        exact .voice slot old (hvoices ▸ voices) (by rw [racks, hracks])
    · rw [hc, Option.some.injEq] at hd
      subst hd
      cases hacts with
      | own voices keeps =>
        exact .rack slot old hdefunct (by rw [voices, hvoices]) (hover.trans keeps)
      | voice slot old notEffect => exact absurd heffect notEffect

/-! ### What is left alone -/

/-- Whether an operation on a channel leaves alone what is not its own. -/
structure ConfinedTo (i : Fin channelCount) (s t : Synth) : Prop where
  programs : ∀ j, j ≠ i → t.programs.get j = s.programs.get j
  channels : ∀ j, j ≠ i → t.channels.get j = s.channels.get j
  sounding : SparesOthers i.val.toUInt8 s t
  song : t.song = s.song
  pending : t.pending = s.pending
  framesMade : t.framesMade = s.framesMade
  custom : t.custom = s.custom
  noise : t.noise = s.noise

theorem ConfinedTo.refl (i : Fin channelCount) (s : Synth) : s.ConfinedTo i s :=
  ⟨fun _ _ => rfl, fun _ _ => rfl, .all rfl rfl, rfl, rfl, rfl, rfl, rfl⟩

theorem ConfinedTo.of_playsOnly {i : Fin channelCount} {s t : Synth} (h : s.PlaysOnly t)
    (channels : ∀ j, j ≠ i → t.channels.get j = s.channels.get j)
    (sounding : SparesOthers i.val.toUInt8 s t) : s.ConfinedTo i t := by
  refine ⟨fun j _ => by rw [h.programs], channels, sounding, ?_, ?_, h.framesMade, ?_, ?_⟩
  all_goals
    obtain ⟨_, _, _, _, _, _, _, rfl⟩ := h
    rfl

theorem channels_ensureChannel_ne (s : Synth) {i j : Fin channelCount} (h : j ≠ i) :
    (s.ensureChannel i).channels.get j = s.channels.get j := by
  unfold ensureChannel
  split
  · rfl
  · exact channels_instantiate_ne s h

theorem confined_withChannel {s : Synth} (h : s.Ensemble) (i : Fin channelCount)
    {act : Synth → Channel → Synth} (hplays : ∀ (t : Synth) c, t.PlaysOnly (act t c))
    (hchannels : ∀ t c j, j ≠ i → (act t c).channels.get j = t.channels.get j)
    (hact : ∀ t c, ActsOn c.id c t (act t c)) : s.ConfinedTo i (s.withChannel i act) := by
  refine .of_playsOnly (PlaysOnly.withChannel s i hplays) (fun j hj => ?_)
    (sparesOthers_withChannel h i hact)
  unfold withChannel
  dsimp only
  split
  · rw [hchannels _ _ j hj, channels_ensureChannel_ne s hj]
  · exact channels_ensureChannel_ne s hj

theorem channels_startNote (s : Synth) (c : Channel) (note velocity : UInt8) (duration : Int) :
    (s.startNote c note velocity duration).channels = s.channels := by
  unfold startNote
  split
  next base _ =>
    obtain ⟨_, _, _, _, hsounds⟩ :=
      s.playSound_sounds ⟨0, base + note.toUInt16⟩ (c.drumTrim velocity)
    rw [playDrum, hsounds]
  next => rfl
  next => split <;> rfl

theorem channels_stopNote (s : Synth) (c : Channel) (note : UInt8) :
    (s.stopNote c note).channels = s.channels := by
  unfold stopNote
  split <;> rfl

theorem channels_controlChannel_ne (s : Synth) {i j : Fin channelCount} (h : j ≠ i) (c : Channel)
    (key value : UInt8) : (s.controlChannel i c key value).channels.get j = s.channels.get j := by
  unfold controlChannel
  dsimp only
  split <;> exact get_set_ne _ _ h

theorem channels_moveWheel_ne (s : Synth) {i j : Fin channelCount} (h : j ≠ i) (c : Channel)
    (position : UInt16) : (s.moveWheel i c position).channels.get j = s.channels.get j := by
  unfold moveWheel
  split
  · rfl
  · generalize c.setWheel position = moved
    obtain ⟨bend, moved⟩ := moved
    dsimp only
    split <;> exact get_set_ne _ _ h

theorem others_dropChannel (s : Synth) (i : Fin channelCount) :
    (s.dropChannel i).voices.entries.filter (·.channel != i.val.toUInt8)
        = s.voices.entries.filter (·.channel != i.val.toUInt8)
      ∧ (s.dropChannel i).racks.entries.filter (·.channel != i.val.toUInt8)
        = s.racks.entries.filter (·.channel != i.val.toUInt8) := by
  simp [dropChannel, Pool.retain]

theorem confined_dropChannel (s : Synth) (i : Fin channelCount) :
    s.ConfinedTo i (s.dropChannel i) := by
  obtain ⟨hvoices, hracks⟩ := s.others_dropChannel i
  exact .of_playsOnly (PlaysOnly.dropChannel s i) (fun j hj => get_set_ne _ _ hj)
    (.all hvoices hracks)

theorem ConfinedTo.of_program {i : Fin channelCount} {s t : Synth} {word : UInt32}
    (h : { s with programs := s.programs.set i word i.isLt }.ConfinedTo i t) : s.ConfinedTo i t where
  programs j hj := (h.programs j hj).trans (get_set_ne _ _ hj)
  channels := h.channels
  sounding := by
    cases h.sounding with
    | all voices racks => exact .all voices racks
    | voice slot old voices racks => exact .voice slot old voices racks
    | rack slot old defunct voices racks => exact .rack slot old defunct voices racks
  song := h.song
  pending := h.pending
  framesMade := h.framesMade
  custom := h.custom
  noise := h.noise

theorem confined_control {s : Synth} (h : s.Ensemble) (i : Fin channelCount) (key value : UInt8) :
    s.ConfinedTo i (s.control i key value) := by
  unfold control
  split
  · exact .of_program (.refl i _)
  · split
    · exact .of_program (.refl i _)
    · split
      · exact .refl i s
      · exact confined_withChannel h i (fun t c => PlaysOnly.controlChannel t i c key value)
          (fun t c j hj => channels_controlChannel_ne t hj c key value)
          fun t c => actsOn_controlChannel t i c key value

theorem confined_changeProgram (s : Synth) (i : Fin channelCount) (number : UInt8) :
    s.ConfinedTo i (s.changeProgram i number) := by
  unfold changeProgram
  dsimp only
  split
  · exact .of_program (confined_dropChannel _ i)
  · exact .of_program (.refl i _)

theorem confined_perform {s : Synth} (h : s.Ensemble) (i : Fin channelCount) {a : Action}
    (hreset : a ≠ .reset) : s.ConfinedTo i (s.perform i.val.toUInt8 a) := by
  have hslot := channelIndex?_slot i
  have hstart (note velocity : UInt8) (duration : Int) :
      s.ConfinedTo i (s.withChannel i fun s c => s.startNote c note velocity duration) :=
    confined_withChannel h i (fun t c => PlaysOnly.startNote t c note velocity duration)
      (fun t c j _ => by rw [channels_startNote])
      fun t c => actsOn_startNote t c note velocity duration
  cases a with
  | noteOff note =>
    simp only [perform, onChannel, hslot]
    exact confined_withChannel h i (fun t c => PlaysOnly.stopNote t c note)
      (fun t c j _ => by rw [channels_stopNote]) fun t c => actsOn_stopNote t c note
  | noteOn note velocity =>
    simp only [perform, onChannel, hslot]
    exact hstart note velocity _
  | noteOnce note velocity duration =>
    simp only [perform, onChannel, hslot]
    exact hstart note velocity duration
  | control key value =>
    simp only [perform, onChannel, hslot]
    exact confined_control h i key value
  | program number =>
    simp only [perform, onChannel, hslot]
    exact confined_changeProgram s i number
  | wheel position =>
    simp only [perform, onChannel, hslot]
    exact confined_withChannel h i (fun t c => PlaysOnly.moveWheel t i c position)
      (fun t c j hj => channels_moveWheel_ne t hj c position)
      fun t c => actsOn_moveWheel t i c position
  | reset => exact absurd rfl hreset
  | nothing => exact .refl i s

/-- Past the last channel there is nothing for an action to act on, unless it is a reset. -/
theorem perform_of_none {channel : UInt8} (h : channelIndex? channel = none) (s : Synth) {a : Action}
    (hreset : a ≠ .reset) : s.perform channel a = s := by
  cases a with
  | reset => exact absurd rfl hreset
  | nothing => rfl
  | _ => simp only [perform, onChannel, h]

theorem action_eq_reset {e : Event} : e.action = .reset ↔ e.opcode = Event.opReset := by
  unfold Event.action
  constructor
  · intro h
    -- All codes before that of a reset stand for something else.
    iterate 6
      split at h
      · cases h
    split at h
    next hopcode => exact hopcode
    next => cases h
  · intro h
    rw [h]
    rfl

/-- An event acts on its channel only: on the other channels it costs one voice or one defunct rack at
most, of which it takes the slot, and past the last channel it does nothing. A reset changes nothing
on the channels of songs, and on those of callers only what is theirs. In no event does a look-up by
number go past the end of its table. -/
theorem other_channels_untouched (format : Format) (calls : List Call) (k : Nat) (e : Event) :
    let s := (Moment.after format calls k).synth
    let t := s.dispatch e
    (e.opcode ≠ Event.opReset →
        (channelCount ≤ e.channel.toNat → t = s)
        ∧ ∀ i : Fin channelCount, i.val = e.channel.toNat → s.ConfinedTo i t)
      ∧ (e.opcode = Event.opReset →
        (e.channel.toNat < songChannels → t = s)
        ∧ ∀ i : Fin channelCount, i.val = e.channel.toNat → songChannels ≤ i.val →
          (∃ voices racks channels, t = { s with voices, racks, channels })
          ∧ (∀ j, j ≠ i → t.channels.get j = s.channels.get j)
          ∧ t.voices.entries.filter (·.channel != e.channel)
            = s.voices.entries.filter (·.channel != e.channel)
          ∧ t.racks.entries.filter (·.channel != e.channel)
            = s.racks.entries.filter (·.channel != e.channel))
      ∧ s.dispatch? e = some t := by
  intro s t
  have h : s.Ensemble := Ensemble.after format calls k
  have hslot {i : Fin channelCount} (hi : i.val = e.channel.toNat) : i.val.toUInt8 = e.channel := by
    rw [hi]
    exact UInt8.ofNat_toNat
  refine ⟨fun hopcode => ⟨fun hhigh => ?_, fun i hi => ?_⟩,
    fun hopcode => ⟨fun hlow => ?_, fun i hi hcaller => ?_⟩, dispatch?_eq e⟩
  · have hnone : channelIndex? e.channel = none := dif_neg (Nat.not_lt.mpr hhigh)
    exact perform_of_none hnone s (mt action_eq_reset.mp hopcode)
  · have hconfined := confined_perform h i (mt action_eq_reset.mp hopcode)
    rw [hslot hi] at hconfined
    exact hconfined
  · have hsome : channelIndex? e.channel = some ⟨e.channel.toNat, Nat.lt_trans hlow (by decide)⟩ :=
      dif_pos _
    show s.perform e.channel e.action = s
    rw [action_eq_reset.mpr hopcode, perform, reset, hsome]
    exact if_pos hlow
  · have hdrop : t = s.dropChannel i := by
      show s.perform e.channel e.action = _
      rw [action_eq_reset.mpr hopcode, perform, reset, ← hslot hi, channelIndex?_slot, toNat_slot]
      exact if_neg (Nat.not_lt.mpr hcaller)
    obtain ⟨hvoices, hracks⟩ := s.others_dropChannel i
    rw [hdrop, ← hslot hi]
    exact ⟨⟨_, _, _, rfl⟩, fun j hj => get_set_ne _ _ hj, hvoices, hracks⟩

end Synth

end Tonewheel
