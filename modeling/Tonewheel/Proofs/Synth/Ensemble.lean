import Mathlib.Data.List.Nodup
import Mathlib.Data.List.Perm.Subperm
import Tonewheel.Proofs.Sounding.Tuning
import Tonewheel.Proofs.Synth.Steps

/-!
# Voices, racks and their channels (SPEC_FULL, section 4.4)

What sounds belongs to a channel that is made: a voice to one in a mode with voices, at the stride
of its bend, and a rack to one in effect mode, at its trim, where no other rack plays. All steps of a
synthesizer keep this ensemble. Songs may clear their channels because nothing of the last one
sounds then, and a rack is made only for a channel that has none, so there is always room for it.
-/

namespace Tonewheel

abbrev ChannelTable : Type := Vector (Option Channel) channelCount

def Somewhere (channels : ChannelTable) (P : Channel → Prop) : Prop :=
  ∃ i c, channels.get i = some c ∧ P c

theorem Somewhere.imp {channels : ChannelTable} {P Q : Channel → Prop} (h : Somewhere channels P)
    (himp : ∀ c, P c → Q c) : Somewhere channels Q := by
  obtain ⟨i, c, hc, hP⟩ := h
  exact ⟨i, c, hc, himp c hP⟩

theorem Somewhere.set {channels : ChannelTable} {P Q : Channel → Prop} {i : Fin channelCount}
    {x : Option Channel} (h : Somewhere channels P)
    (others : ∀ j c, j ≠ i → channels.get j = some c → P c → Q c)
    (here : ∀ c, channels.get i = some c → P c → ∃ c', x = some c' ∧ Q c') :
    Somewhere (channels.set i x i.isLt) Q := by
  obtain ⟨j, c, hc, hP⟩ := h
  by_cases hji : j = i
  · subst hji
    obtain ⟨c', hx, hQ⟩ := here c hc hP
    exact ⟨j, c', by rw [Synth.get_set_self, hx], hQ⟩
  · exact ⟨j, c, by rw [Synth.get_set_ne channels x hji, hc], others j c hji hc hP⟩

/-- What is true of a voice on the channels of a table. -/
structure Voice.Placed (v : Voice) (channels : ChannelTable) : Prop where
  origin : v.origin = .ofChannel v.channel
  follows : v.isDefunct = false → Somewhere channels v.Follows

/-- What is true of a rack on the channels of a table. -/
structure Rack.Placed (r : Rack) (channels : ChannelTable) : Prop where
  origin : r.origin = .ofChannel r.channel
  inTune : r.InTune
  serves : r.isDefunct = false → Somewhere channels r.Serves

theorem Voice.Placed.later {v v' : Voice} {channels : ChannelTable} (h : v.Placed channels)
    (hlater : v.Later v') : v'.Placed channels where
  origin := by rw [hlater.origin, hlater.channel, h.origin]
  follows hlive := (h.follows (hlater.live hlive)).imp fun _ hc => hc.later hlater

theorem Rack.Placed.later {r r' : Rack} {channels : ChannelTable} (h : r.Placed channels)
    (hlater : r.Later r') (htrim : r'.trim = r.trim) : r'.Placed channels where
  origin := by rw [hlater.origin, hlater.channel, h.origin]
  inTune := hlater.inTune h.inTune
  serves hlive := (h.serves (hlater.live hlive)).imp fun _ hc =>
    ⟨hlater.channel.trans hc.channel, hc.effect, htrim.trans hc.trim⟩

/-- Whether two racks do not both play on one channel. -/
def Rack.Apart (r r' : Rack) : Prop :=
  r.isDefunct = false → r'.isDefunct = false → r.channel ≠ r'.channel

theorem Rack.Apart.later {r r' t t' : Rack} (h : r.Apart r') (hr : r.Later t) (hr' : r'.Later t') :
    t.Apart t' := by
  intro hlive hlive'
  rw [hr.channel, hr'.channel]
  exact h (hr.live hlive) (hr'.live hlive')

/-! ### Changes of a channel -/

/-- What becomes of a voice when a channel does: it keeps to the channel as it is now, or to
another one as before. -/
structure Voice.Retuned (v : Voice) (c c' : Channel) (v' : Voice) : Prop where
  channel : v'.channel = v.channel
  origin : v'.origin = v.origin
  live : v'.isDefunct = false → v.isDefunct = false
  here : v'.isDefunct = false → v.Follows c → v'.Follows c'
  others : ∀ d : Channel, d.id ≠ c.id → v.Follows d → v'.Follows d

structure Rack.Retuned (r : Rack) (c c' : Channel) (r' : Rack) : Prop where
  channel : r'.channel = r.channel
  origin : r'.origin = r.origin
  live : r'.isDefunct = false → r.isDefunct = false
  inTune : r.InTune → r'.InTune
  here : r'.isDefunct = false → r.Serves c → r'.Serves c'
  others : ∀ d : Channel, d.id ≠ c.id → r.Serves d → r'.Serves d

theorem Voice.Later.retuned {v v' : Voice} {c c' : Channel} (h : v.Later v') (hid : c'.id = c.id)
    (hpatch : c'.patch = c.patch) (hbend : c'.bend = c.bend) : v.Retuned c c' v' where
  channel := h.channel
  origin := h.origin
  live := h.live
  here _ hfollows :=
    ⟨by rw [h.channel, hfollows.channel, hid],
      (Channel.bendsVoices_congr hpatch).trans hfollows.bends,
      by rw [h.stride, h.baseStride, hbend, hfollows.stride]⟩
  others _ _ hfollows := hfollows.later h

theorem Rack.Later.retuned {r r' : Rack} {c c' : Channel} (h : r.Later r')
    (htrim : r'.trim = r.trim) (hid : c'.id = c.id) (hpatch : c'.patch = c.patch)
    (hchannel : c'.trim = c.trim) : r.Retuned c c' r' where
  channel := h.channel
  origin := h.origin
  live := h.live
  inTune := h.inTune
  here _ hserves :=
    ⟨by rw [h.channel, hserves.channel, hid],
      by rw [Channel.mode, hpatch]; exact hserves.effect,
      by rw [htrim, hserves.trim, hchannel]⟩
  others _ _ hserves :=
    ⟨h.channel.trans hserves.channel, hserves.effect, htrim.trans hserves.trim⟩

theorem Voice.retuned_bend (v : Voice) {c c' : Channel} (hid : c'.id = c.id)
    (hpatch : c'.patch = c.patch) :
    v.Retuned c c' (if !v.isDefunct && v.channel == c.id then v.setBend c'.bend else v) := by
  split
  next hcalled =>
    simp only [Bool.and_eq_true, Bool.not_eq_true', beq_iff_eq] at hcalled
    refine ⟨rfl, rfl, id, fun _ hfollows => ?_, fun d hd hfollows => ?_⟩
    · exact Voice.follows_setBend hfollows hid (Channel.bendsVoices_congr hpatch)
    · exact absurd (hfollows.channel.symm.trans hcalled.2) hd
  next hnot =>
    refine ⟨rfl, rfl, id, fun hlive hfollows => ?_, fun d _ hfollows => hfollows⟩
    rw [hlive, hfollows.channel] at hnot
    simp at hnot

namespace Synth

theorem toNat_slot (i : Fin channelCount) : i.val.toUInt8.toNat = i.val := by
  have hi : i.val < 16 := i.isLt
  simp only [Nat.toUInt8, UInt8.toNat_ofNat']
  omega

theorem channelId_inj {i j : Fin channelCount} (h : i.val.toUInt8 = j.val.toUInt8) : i = j := by
  have hnat := congrArg UInt8.toNat h
  rw [toNat_slot, toNat_slot] at hnat
  exact Fin.ext hnat

/-! ### The ensemble -/

/-- The voices and racks that sound are those of the channels. -/
structure Ensemble (s : Synth) : Prop where
  ids : ∀ i c, s.channels.get i = some c → c.id = i.val.toUInt8
  voices : ∀ v ∈ s.voices.entries, v.Placed s.channels
  racks : ∀ r ∈ s.racks.entries, r.Placed s.channels
  apart : s.racks.entries.Pairwise Rack.Apart
  capacity : s.racks.capacity = rackLimit

namespace Ensemble

variable {s t : Synth} {i : Fin channelCount}

theorem ofFormat (format : Format) : Ensemble (ofFormat format) where
  ids i c h := by
    have hnone : (Synth.ofFormat format).channels.get i = none := Vector.getElem_replicate i.isLt
    rw [hnone] at h
    cases h
  voices v hv := by cases hv
  racks r hr := by cases hr
  apart := .nil
  capacity := rfl

theorem of_same (h : s.Ensemble) (hvoices : t.voices = s.voices) (hracks : t.racks = s.racks)
    (hchannels : t.channels = s.channels) : t.Ensemble where
  ids := hchannels ▸ h.ids
  voices := hvoices ▸ hchannels ▸ h.voices
  racks := hracks ▸ hchannels ▸ h.racks
  apart := hracks ▸ h.apart
  capacity := hracks ▸ h.capacity

theorem rack_channel (h : s.Ensemble) {r : Rack} (hr : r ∈ s.racks.entries)
    (hlive : r.isDefunct = false) :
    ∃ i c, s.channels.get i = some c ∧ r.channel = i.val.toUInt8 ∧ r.Serves c := by
  obtain ⟨i, c, hc, hserves⟩ := (h.racks r hr).serves hlive
  exact ⟨i, c, hc, hserves.channel.trans (h.ids i c hc), hserves⟩

theorem voice_channel (h : s.Ensemble) {v : Voice} (hv : v ∈ s.voices.entries)
    (hlive : v.isDefunct = false) :
    ∃ i c, s.channels.get i = some c ∧ v.channel = i.val.toUInt8 ∧ v.Follows c := by
  obtain ⟨i, c, hc, hfollows⟩ := (h.voices v hv).follows hlive
  exact ⟨i, c, hc, hfollows.channel.trans (h.ids i c hc), hfollows⟩

theorem nodup_live (h : s.Ensemble) :
    ((s.racks.entries.filter fun r => !r.isDefunct).map Rack.channel).Nodup := by
  rw [List.nodup_iff_pairwise_ne, List.pairwise_map, List.pairwise_filter]
  refine h.apart.imp fun hapart hr hr' => ?_
  simp only [Bool.not_eq_true'] at hr hr'
  exact hapart hr hr'

theorem live_le (h : s.Ensemble) (free : List (Fin channelCount)) (hdistinct : free.Nodup)
    (hfree : ∀ i ∈ free, s.channels.get i = none) :
    s.racks.live + free.length ≤ channelCount := by
  have hsub : (free.map fun i => i.val.toUInt8)
        ++ (s.racks.entries.filter fun r => !r.isDefunct).map Rack.channel
      ⊆ allChannels.map fun i => i.val.toUInt8 := by
    intro x hx
    rcases List.mem_append.mp hx with hx | hx
    · obtain ⟨i, -, rfl⟩ := List.mem_map.mp hx
      exact List.mem_map.mpr ⟨i, List.mem_finRange i, rfl⟩
    · obtain ⟨r, hr, rfl⟩ := List.mem_map.mp hx
      obtain ⟨hmem, hlive⟩ := List.mem_filter.mp hr
      obtain ⟨i, c, -, hchannel, -⟩ := h.rack_channel hmem (by simpa using hlive)
      exact List.mem_map.mpr ⟨i, List.mem_finRange i, hchannel.symm⟩
  have hnodup : ((free.map fun i => i.val.toUInt8)
      ++ (s.racks.entries.filter fun r => !r.isDefunct).map Rack.channel).Nodup := by
    refine List.nodup_append.mpr ⟨?_, h.nodup_live, ?_⟩
    · exact hdistinct.map fun _ _ hid => channelId_inj hid
    · intro x hx y hy
      obtain ⟨i, hi, rfl⟩ := List.mem_map.mp hx
      obtain ⟨r, hr, rfl⟩ := List.mem_map.mp hy
      obtain ⟨hmem, hlive⟩ := List.mem_filter.mp hr
      obtain ⟨j, c, hc, hchannel, -⟩ := h.rack_channel hmem (by simpa using hlive)
      rw [hchannel]
      intro hij
      rw [← channelId_inj hij, hfree i hi] at hc
      cases hc
  have hle := (List.subperm_of_subset hnodup hsub).length_le
  have hlive : s.racks.live = (s.racks.entries.filter fun r => !r.isDefunct).length :=
    List.countP_eq_length_filter
  simp only [List.length_append, List.length_map] at hle
  have hall : allChannels.length = channelCount := List.length_finRange
  omega

/-- While a channel is free, a new rack finds room or a finished one to replace. -/
theorem room (h : s.Ensemble) (hfree : s.channels.get i = none) :
    s.racks.entries.length < s.racks.capacity
      ∨ ∃ r ∈ s.racks.entries, PoolEntry.isDefunct r = true := by
  by_cases hall : ∃ r ∈ s.racks.entries, PoolEntry.isDefunct r = true
  · exact .inr hall
  · left
    have hlive : s.racks.live = s.racks.entries.length := by
      refine List.countP_eq_length.mpr fun r hr => ?_
      simp only [Bool.not_eq_true']
      exact Bool.eq_false_iff.mpr fun hdefunct => hall ⟨r, hr, hdefunct⟩
    have hle := h.live_le [i] (by simp) (by simpa using hfree)
    rw [h.capacity, ← hlive]
    exact hle

/-! ### Voices -/

theorem with_voices (h : s.Ensemble) (voices : Pool Voice)
    (hvoices : ∀ v ∈ voices.entries, v.Placed s.channels) : { s with voices }.Ensemble where
  ids := h.ids
  voices := hvoices
  racks := h.racks
  apart := h.apart
  capacity := h.capacity

theorem map_voices (h : s.Ensemble) (f : Voice → Voice) (hf : ∀ v : Voice, v.Later (f v)) :
    { s with voices := s.voices.map f }.Ensemble := by
  refine h.with_voices _ fun v hv => ?_
  obtain ⟨w, hw, rfl⟩ := List.mem_map.mp hv
  exact (h.voices w hw).later (hf w)

/-! ### Racks -/

theorem with_racks (h : s.Ensemble) (racks : Pool Rack)
    (hcapacity : racks.capacity = s.racks.capacity)
    (hracks : ∀ r ∈ racks.entries, r.Placed s.channels)
    (hapart : racks.entries.Pairwise Rack.Apart) : { s with racks }.Ensemble where
  ids := h.ids
  voices := h.voices
  racks := hracks
  apart := hapart
  capacity := hcapacity.trans h.capacity

theorem map_racks (h : s.Ensemble) (f : Rack → Rack) (hf : ∀ r : Rack, r.Later (f r))
    (htrim : ∀ r : Rack, (f r).trim = r.trim) : { s with racks := s.racks.map f }.Ensemble := by
  refine h.with_racks _ rfl (fun r hr => ?_) ?_
  · obtain ⟨q, hq, rfl⟩ := List.mem_map.mp hr
    exact (h.racks q hq).later (hf q) (htrim q)
  · exact List.pairwise_map.mpr (h.apart.imp fun hapart => hapart.later (hf _) (hf _))

theorem updateRack (h : s.Ensemble) (channel : UInt8) (f : Rack → Rack)
    (hf : ∀ r : Rack, r.Later (f r)) (htrim : ∀ r : Rack, (f r).trim = r.trim) :
    (s.updateRack channel f).Ensemble := by
  refine h.with_racks _ rfl (fun r hr => ?_) ?_
  · rcases Pool.mem_modifyFirst hr with hr | ⟨q, hq, -, rfl⟩
    · exact h.racks r hr
    · exact (h.racks q hq).later (hf q) (htrim q)
  · exact Pool.pairwise_modifyFirst h.apart fun a b hapart =>
      ⟨hapart.later (hf a) (.refl b), hapart.later (.refl a) (hf b)⟩

theorem insert_rack (h : s.Ensemble) {r : Rack} (hr : r.Placed s.channels)
    (hapart : ∀ q ∈ s.racks.entries, q.isDefunct = false → q.channel ≠ r.channel) :
    { s with racks := (s.racks.insert r).2 }.Ensemble := by
  have hcapacity : 0 < s.racks.capacity := by rw [h.capacity]; decide
  refine h.with_racks _ rfl (fun q hq => ?_) ?_
  · rcases Pool.mem_place hq with hq | rfl
    · exact h.racks q hq
    · exact hr
  · refine Pool.pairwise_place hcapacity h.apart r fun q hq => ⟨?_, ?_⟩
    · intro hlive _
      exact hapart q hq hlive
    · intro _ hlive
      exact (hapart q hq hlive).symm

/-! ### Channels -/

theorem set_free (h : s.Ensemble) (hfree : s.channels.get i = none) {c : Channel}
    (hid : c.id = i.val.toUInt8) :
    { s with channels := s.channels.set i (some c) i.isLt }.Ensemble where
  ids j d hd := by
    by_cases hji : j = i
    · subst hji
      rw [get_set_self, Option.some.injEq] at hd
      rw [← hd, hid]
    · rw [get_set_ne _ _ hji] at hd
      exact h.ids j d hd
  voices v hv :=
    ⟨(h.voices v hv).origin, fun hlive => ((h.voices v hv).follows hlive).set
      (fun _ _ _ _ hP => hP) fun d hd => by rw [hfree] at hd; cases hd⟩
  racks r hr :=
    ⟨(h.racks r hr).origin, (h.racks r hr).inTune, fun hlive => ((h.racks r hr).serves hlive).set
      (fun _ _ _ _ hP => hP) fun d hd => by rw [hfree] at hd; cases hd⟩
  apart := h.apart
  capacity := h.capacity

theorem ne_of_free (h : s.Ensemble) (hfree : s.channels.get i = none) {r : Rack}
    (hr : r ∈ s.racks.entries) (hlive : r.isDefunct = false) : r.channel ≠ i.val.toUInt8 := by
  obtain ⟨j, c, hc, hchannel, -⟩ := h.rack_channel hr hlive
  intro hi
  rw [channelId_inj (hchannel.symm.trans hi), hfree] at hc
  cases hc

theorem instantiate (h : s.Ensemble) (hfree : s.channels.get i = none) :
    (s.instantiate i).Ensemble := by
  unfold Synth.instantiate
  split
  · exact h
  next c hmake =>
    have hid := Channel.make_id hmake
    have hset := h.set_free hfree hid
    dsimp only
    cases hpatch : c.patch with
    | effect params =>
      refine hset.insert_rack ⟨rfl, Rack.make_inTune _ _ _ _ _, fun _ => ⟨i, c, ?_, ?_⟩⟩ ?_
      · exact get_set_self _ _ _
      · exact ⟨rfl, by rw [Channel.mode, hpatch, Patch.mode], rfl⟩
      · intro q hq hlive
        show q.channel ≠ c.id
        rw [hid]
        exact h.ne_of_free hfree hq hlive
    | _ => exact hset

theorem ensureChannel (h : s.Ensemble) (i : Fin channelCount) : (s.ensureChannel i).Ensemble := by
  unfold Synth.ensureChannel
  split
  · exact h
  next hfree => exact h.instantiate hfree

theorem dropChannel (h : s.Ensemble) (i : Fin channelCount) : (s.dropChannel i).Ensemble where
  ids j c hc := by
    by_cases hji : j = i
    · subst hji
      rw [Synth.dropChannel, get_set_self] at hc
      cases hc
    · rw [Synth.dropChannel, get_set_ne _ _ hji] at hc
      exact h.ids j c hc
  voices v hv := by
    obtain ⟨hmem, hother⟩ := List.mem_filter.mp hv
    refine ⟨(h.voices v hmem).origin, fun hlive => ((h.voices v hmem).follows hlive).set
      (fun _ _ _ _ hP => hP) fun c hc hfollows => ?_⟩
    rw [hfollows.channel, h.ids i c hc] at hother
    simp at hother
  racks r hr := by
    obtain ⟨hmem, hother⟩ := List.mem_filter.mp hr
    refine ⟨(h.racks r hmem).origin, (h.racks r hmem).inTune,
      fun hlive => ((h.racks r hmem).serves hlive).set
        (fun _ _ _ _ hP => hP) fun c hc hserves => ?_⟩
    rw [hserves.channel, h.ids i c hc] at hother
    simp at hother
  apart := h.apart.filter _
  capacity := h.capacity

theorem clear (h : s.Ensemble) (custom : Option Definition) : (s.setCustom custom).Ensemble where
  ids j c hc := by
    have hnone : (s.setCustom custom).channels.get j = none := Vector.getElem_replicate j.isLt
    rw [hnone] at hc
    cases hc
  voices v hv := by cases hv
  racks r hr := by cases hr
  apart := .nil
  capacity := h.capacity

theorem slot_eq (h : s.Ensemble) {c : Channel} (hc : s.channels.get i = some c)
    {j : Fin channelCount} {d : Channel} (hd : s.channels.get j = some d) (hid : d.id = c.id) :
    j = i := by
  rw [h.ids i c hc, h.ids j d hd] at hid
  exact channelId_inj hid

end Ensemble

end Synth

end Tonewheel
