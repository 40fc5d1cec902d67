import Tonewheel.Proofs.Sounding.Slots
import Tonewheel.Proofs.Synth.Confinement
import Tonewheel.Proofs.Synth.Heard
import Tonewheel.Proofs.Synth.Playbacks
import Tonewheel.Proofs.Synth.SamePrints

/-!
# Synthesizers that sound alike

Two synthesizers sound alike if they are in the same state but for what cannot be heard: finished
entries of their pools, the dates of what began after some frame, and how far the same sounds are
printed (`Alike`). What an update does keeps this, with one exception: a note that starts in a full
pool replaces the oldest entry. So the pools must not be full, or be full of live entries of which
one is older than that frame (`Roomy`).
-/

namespace Tonewheel

/-! ### Room -/

/-- Whether a rack has room for a note, or an entry to replace that is the same however the frames
after `since` are counted. -/
def Rack.Roomy (since : Nat) (r : Rack) : Prop :=
  r.voices.length < Rack.voiceLimit
    ∨ (∃ v ∈ r.voices, v.level.isFinished = true) ∨ ∃ v ∈ r.voices, v.born ≤ since

namespace Synth

/-- Whether a note finds room, or an entry to replace that is the same however the frames after
`since` are counted. -/
structure NoteRoom (since : Nat) (s : Synth) : Prop where
  voices : s.voices.entries.length < s.voices.capacity
    ∨ (∀ v ∈ s.voices.entries, v.isDefunct = false) ∧ ∃ v ∈ s.voices.entries, v.born ≤ since
  playbacks : s.playbacks.entries.length < s.playbacks.capacity
    ∨ ∀ p ∈ s.playbacks.entries, p.isDefunct = false
  notes : ∀ r ∈ s.racks.entries, r.Roomy since

/-- The same for notes and for channels that are made. -/
structure Roomy (since : Nat) (s : Synth) : Prop extends NoteRoom since s where
  racks : s.racks.entries.length < s.racks.capacity
    ∨ (∀ r ∈ s.racks.entries, r.isDefunct = false) ∧ ∃ r ∈ s.racks.entries, r.born ≤ since

variable {since : Nat} {s t : Synth}

instance (r : Rack) : Decidable (r.Roomy since) :=
  inferInstanceAs (Decidable (r.voices.length < Rack.voiceLimit
    ∨ (∃ v ∈ r.voices, v.level.isFinished = true) ∨ ∃ v ∈ r.voices, v.born ≤ since))

instance (s : Synth) : Decidable (s.Roomy since) :=
  decidable_of_iff
    (((s.voices.entries.length < s.voices.capacity
          ∨ (∀ v ∈ s.voices.entries, v.isDefunct = false) ∧ ∃ v ∈ s.voices.entries, v.born ≤ since)
        ∧ (s.playbacks.entries.length < s.playbacks.capacity
          ∨ ∀ p ∈ s.playbacks.entries, p.isDefunct = false)
        ∧ ∀ r ∈ s.racks.entries, r.Roomy since)
      ∧ (s.racks.entries.length < s.racks.capacity
        ∨ (∀ r ∈ s.racks.entries, r.isDefunct = false) ∧ ∃ r ∈ s.racks.entries, r.born ≤ since))
    ⟨fun ⟨⟨hvoices, hplaybacks, hnotes⟩, hracks⟩ => ⟨⟨hvoices, hplaybacks, hnotes⟩, hracks⟩,
      fun h => ⟨⟨h.voices, h.playbacks, h.notes⟩, h.racks⟩⟩

theorem NoteRoom.settled_playbacks (h : s.NoteRoom since) :
    Pool.Settled id s.playbacks.capacity s.playbacks.entries :=
  h.playbacks.imp_right fun hlive => ⟨hlive, fun others hlook => by
    rw [List.map_id, List.map_id] at hlook
    rw [hlook]⟩

theorem NoteRoom.instantiate (h : s.NoteRoom since) (i : Fin channelCount) :
    (s.instantiate i).NoteRoom since := by
  unfold Synth.instantiate
  split
  · exact h
  next c _ =>
    refine ⟨h.voices, h.playbacks, fun r hr => ?_⟩
    dsimp only at hr
    split at hr
    · rcases Pool.mem_place hr with hr | rfl
      · exact h.notes r hr
      · exact .inl (show 0 < Rack.voiceLimit by decide)
    · exact h.notes r hr

theorem NoteRoom.obtainSound (h : s.NoteRoom since) (key : SoundKey) :
    (s.obtainSound key).2.NoteRoom since := by
  have hsame := playbacks_obtainSound s key
  obtain ⟨shelf, cache, printers, playbacks, hsounds⟩ := s.obtainSound_sounds key
  rw [hsounds] at hsame ⊢
  obtain rfl : playbacks = s.playbacks := hsame
  exact ⟨h.voices, h.playbacks, h.notes⟩

end Synth

/-! ### Racks -/

namespace Rack

variable {since : Nat}

theorem Roomy.of_settle {r r' : Rack} (h : r.Roomy since) (hsame : r.settle since = r'.settle since) :
    r'.Roomy since := by
  have hvoices : r.voices.map (EffectVoice.settle since) = r'.voices.map (EffectVoice.settle since) :=
    congrArg Rack.voices hsame
  have hlength := congrArg List.length hvoices
  rw [List.length_map, List.length_map] at hlength
  have hmem : ∀ v ∈ r.voices, ∃ v' ∈ r'.voices, v'.settle since = v.settle since := fun v hv => by
    have hv' := List.mem_map_of_mem (f := EffectVoice.settle since) hv
    rw [hvoices] at hv'
    exact List.mem_map.mp hv'
  rcases h with hroom | ⟨v, hv, hfinished⟩ | ⟨v, hv, hold⟩
  · exact .inl (hlength ▸ hroom)
  · obtain ⟨v', hv', hsettle⟩ := hmem v hv
    have hlevel := congrArg EffectVoice.level hsettle
    exact .inr (.inl ⟨v', hv', (congrArg Envelope.isFinished hlevel).trans hfinished⟩)
  · obtain ⟨v', hv', hsettle⟩ := hmem v hv
    have hborn : settleDate since v'.born = settleDate since v.born :=
      congrArg EffectVoice.born hsettle
    unfold settleDate at hborn
    exact .inr (.inr ⟨v', hv', by omega⟩)

theorem settle_noteOnce {r : Rack} (hroom : r.Roomy since) (notes : NoteTable)
    (note velocity : UInt8) (duration : Int) {born : Nat} (hborn : since < born) :
    (r.noteOnce notes note velocity duration born).settle since
      = (r.settle since).noteOnce notes note velocity duration (since + 1) := by
  have hplace : ∀ v v' : EffectVoice, v.settle since = v' →
      (Pool.place voiceLimit r.voices v).2.map (EffectVoice.settle since)
        = (Pool.place voiceLimit (r.voices.map (EffectVoice.settle since)) v').2 := by
    rintro v _ rfl
    rw [Pool.place, Pool.place, List.length_map]
    split
    · rw [List.map_append, List.map_singleton]
    next hfull =>
      rw [(EffectVoice.dated since).victim (hroom.resolve_left hfull)]
      split
      · rw [List.map_set]
      · rfl
  unfold noteOnce settle voiceOf
  dsimp only
  rw [addVoice_eq, addVoice_eq, hplace _ _ rfl]
  unfold EffectVoice.settle
  dsimp only
  rw [settleDate_late hborn]

theorem settle_control (r : Rack) (key value : UInt8) :
    (r.control key value).settle since = (r.settle since).control key value := by
  unfold control
  split <;> rfl

theorem settle_wheel (r : Rack) (position : UInt16) :
    (r.wheel position).settle since = (r.settle since).wheel position := by
  unfold wheel settle
  simp only [List.map_map]
  rfl

theorem settle_release (r : Rack) : r.release.settle since = (r.settle since).release := by
  unfold release releaseNotes settle
  simp only [List.map_map]
  rfl

end Rack

namespace Synth

/-- Whether two synthesizers are in the same state but for what cannot be heard, the second of which
may have dropped more finished entries. -/
structure Alike (since : Nat) (s t : Synth) : Prop where
  format : s.format = t.format
  notes : s.notes = t.notes
  resources : s.resources = t.resources
  cache : s.cache = t.cache
  channels : s.channels = t.channels
  programs : s.programs = t.programs
  song : s.song = t.song
  pending : s.pending = t.pending
  custom : s.custom = t.custom
  noise : s.noise = t.noise
  voices : s.voices.Alike (Voice.settle since) t.voices
  racks : s.racks.Alike (Rack.settle since) t.racks
  playbacks : s.playbacks.Alike id t.playbacks
  buffers : s.shelf.buffers.size = t.shelf.buffers.size
  sounds : ∀ pcm : PcmId, pcm.index < s.shelf.buffers.size → s.SameSound t pcm
  late : since < s.framesMade
  late' : since < t.framesMade

namespace Alike

variable {since : Nat} {s t : Synth} {i : Fin channelCount}

/-! ### Channels -/

theorem framesPerBeat (h : s.Alike since t) : s.framesPerBeat = t.framesPerBeat := by
  rw [Synth.framesPerBeat, Synth.framesPerBeat, h.song, h.format]

theorem set_channel (h : s.Alike since t) (i : Fin channelCount) (c : Option Channel) :
    Alike since { s with channels := s.channels.set i c i.isLt }
      { t with channels := t.channels.set i c i.isLt } :=
  { h with channels := by rw [h.channels] }

theorem set_program (h : s.Alike since t) (i : Fin channelCount) (word : UInt32) :
    Alike since { s with programs := s.programs.set i word i.isLt }
      { t with programs := t.programs.set i word i.isLt } :=
  { h with programs := by rw [h.programs] }

theorem insert_rack (h : s.Alike since t)
    (hroom : s.racks.entries.length < s.racks.capacity
      ∨ (∀ r ∈ s.racks.entries, r.isDefunct = false) ∧ ∃ r ∈ s.racks.entries, r.born ≤ since)
    {r r' : Rack} (hnew : r.settle since = r'.settle since) :
    Alike since { s with racks := (s.racks.insert r).2 } { t with racks := (t.racks.insert r').2 } :=
  { h with
    racks := h.racks.insert (fun _ => rfl) ((Rack.dated since).settledList hroom) hnew }

theorem insert_voice (h : s.Alike since t) (hroom : s.NoteRoom since) {v v' : Voice}
    (hnew : v.settle since = v'.settle since) :
    Alike since { s with voices := (s.voices.insert v).2 }
      { t with voices := (t.voices.insert v').2 } :=
  { h with
    voices := h.voices.insert (fun _ => rfl) ((Voice.dated since).settledList hroom.voices) hnew }

theorem instantiate (h : s.Alike since t) (hroom : s.Roomy since) (i : Fin channelCount) :
    (s.instantiate i).Alike since (t.instantiate i) := by
  have hmake : Channel.make i.val.toUInt8 (s.programs.get i) s.format.rate s.notes s.custom
      = Channel.make i.val.toUInt8 (t.programs.get i) t.format.rate t.notes t.custom := by
    rw [h.programs, h.format, h.notes, h.custom]
  unfold Synth.instantiate
  rw [hmake]
  cases Channel.make i.val.toUInt8 (t.programs.get i) t.format.rate t.notes t.custom with
  | none => exact h
  | some c =>
    have hset := h.set_channel i (some c)
    dsimp only
    cases c.patch with
    | effect params =>
      refine hset.insert_rack hroom.racks ?_
      rw [h.format, h.framesPerBeat]
      unfold Rack.settle Rack.make
      dsimp only
      rw [settleDate_late h.late, settleDate_late h.late']
    | _ => exact hset

theorem ensureChannel (h : s.Alike since t) (hroom : s.Roomy since) (i : Fin channelCount) :
    (s.ensureChannel i).Alike since (t.ensureChannel i)
      ∧ (s.ensureChannel i).NoteRoom since := by
  unfold Synth.ensureChannel
  rw [h.channels]
  cases t.channels.get i with
  | some c => exact ⟨h, hroom.toNoteRoom⟩
  | none => exact ⟨h.instantiate hroom i, hroom.toNoteRoom.instantiate i⟩

theorem withChannel (h : (s.ensureChannel i).Alike since (t.ensureChannel i))
    {act : Synth → Channel → Synth}
    (hact : ∀ c, s.withChannel i act = act (s.ensureChannel i) c →
      (act (s.ensureChannel i) c).Alike since (act (t.ensureChannel i) c)) :
    (s.withChannel i act).Alike since (t.withChannel i act) := by
  have hmade : ∀ c, (s.ensureChannel i).channels.get i = some c →
      s.withChannel i act = act (s.ensureChannel i) c := by
    intro c hc
    unfold Synth.withChannel
    dsimp only
    rw [hc]
  have hchannels := h.channels
  cases hc : (s.ensureChannel i).channels.get i with
  | some c =>
    have hc' : (t.ensureChannel i).channels.get i = some c := hchannels ▸ hc
    rw [hmade c hc]
    unfold Synth.withChannel
    dsimp only
    rw [hc']
    exact hact c (hmade c hc)
  | none =>
    have hc' : (t.ensureChannel i).channels.get i = none := hchannels ▸ hc
    unfold Synth.withChannel
    dsimp only
    rw [hc, hc']
    exact h

theorem updateRack (h : s.Alike since t) (channel : UInt8) {f f' : Rack → Rack} (g : Rack → Rack)
    (hover : ∀ r, (g r).isDefunct = r.isDefunct)
    (hs : ∀ r ∈ s.racks.entries, r.isDefunct = false → (f r).settle since = g (r.settle since))
    (ht : ∀ r ∈ t.racks.entries, r.isDefunct = false → (f' r).settle since = g (r.settle since)) :
    (s.updateRack channel f).Alike since (t.updateRack channel f') := by
  have hlive : ∀ r : Rack, (!r.isDefunct && r.channel == channel) = true → r.isDefunct = false := by
    intro r htest
    rw [Bool.and_eq_true, Bool.not_eq_true'] at htest
    exact htest.1
  exact
    { h with
      racks := h.racks.update hover (fun _ => rfl) hlive
        (fun r hr htest => hs r hr (hlive r htest)) fun r hr htest => ht r hr (hlive r htest) }

theorem controlChannel (h : s.Alike since t) (i : Fin channelCount) (c : Channel)
    (key value : UInt8) : (s.controlChannel i c key value).Alike since
      (t.controlChannel i c key value) := by
  have hset := h.set_channel i (some (c.control key value))
  have hfade : ∀ r : Rack, (r.control key value).isDefunct = r.isDefunct := by
    intro r
    unfold Rack.control
    split <;> rfl
  unfold Synth.controlChannel
  dsimp only
  cases c.patch with
  | effect params =>
    exact hset.updateRack c.id _ hfade (fun r _ _ => r.settle_control key value) fun r _ _ =>
      r.settle_control key value
  | _ => exact hset

theorem moveWheel (h : s.Alike since t) (i : Fin channelCount) (c : Channel) (position : UInt16) :
    (s.moveWheel i c position).Alike since (t.moveWheel i c position) := by
  unfold Synth.moveWheel
  split
  · exact h
  · generalize c.setWheel position = moved
    obtain ⟨bend, moved⟩ := moved
    have hset := h.set_channel i (some moved)
    dsimp only
    cases bend with
    | some bend =>
      have hbend : ∀ v : Voice,
          Voice.settle since (if !v.isDefunct && v.channel == c.id then v.setBend bend else v)
            = if !(v.settle since).isDefunct && (v.settle since).channel == c.id then
                (v.settle since).setBend bend
              else v.settle since := by
        intro v
        show _ = if (!v.isDefunct && v.channel == c.id) = true then _ else _
        split <;> rfl
      have hover : ∀ v : Voice,
          (if !v.isDefunct && v.channel == c.id then v.setBend bend else v).isDefunct
            = v.isDefunct := by
        intro v
        split <;> rfl
      have hvoices := hset.voices.map hbend hover
      exact { hset with voices := hvoices }
    | none =>
      cases c.patch with
      | effect params =>
        have hfade : ∀ r : Rack, (r.wheel position).isDefunct = r.isDefunct := fun _ => rfl
        exact hset.updateRack c.id _ hfade (fun r _ _ => r.settle_wheel position) fun r _ _ =>
          r.settle_wheel position
      | _ => exact hset

/-! ### Sounds -/

theorem length_read (h : s.Alike since t) (pcm : PcmId) : s.shelf.length pcm = t.shelf.length pcm := by
  by_cases hheld : pcm.index < s.shelf.buffers.size
  · exact (h.sounds pcm hheld).length
  · have hnone : s.shelf.read pcm = #[] := by
      rw [Shelf.read, Array.getD_eq_getD_getElem?, Array.getElem?_eq_none (Nat.not_lt.mp hheld)]
      rfl
    have hnone' : t.shelf.read pcm = #[] := by
      rw [h.buffers] at hheld
      rw [Shelf.read, Array.getD_eq_getD_getElem?, Array.getElem?_eq_none (Nat.not_lt.mp hheld)]
      rfl
    rw [Shelf.length, Shelf.length, hnone, hnone']

theorem startPlayback (h : s.Alike since t) (hroom : s.NoteRoom since) (pcm : PcmId)
    (trim : Float32) : (s.startPlayback pcm trim).Alike since (t.startPlayback pcm trim) := by
  have hnew : id (Playback.ofBuffer s.shelf pcm trim) = id (Playback.ofBuffer t.shelf pcm trim) := by
    rw [id_eq, id_eq, Playback.ofBuffer, Playback.ofBuffer, h.length_read]
  exact
    { h with playbacks := h.playbacks.insert (fun _ => rfl) hroom.settled_playbacks hnew }

theorem withPrinter (h : s.Alike since t) {left left' : Nat} (hs : s.PrintsAhead left)
    (ht : t.PrintsAhead left') {first : Sound.Printer} (hfresh : first.cursor = 0)
    (hnoise : Sound.noiseVoices first.voices ≤ 1) (calls calls' : List Nat) :
    (s.withPrinter first calls).Alike since (t.withPrinter first calls') := by
  have hsize : (s.withPrinter first calls).shelf.buffers.size = s.shelf.buffers.size + 1 :=
    s.shelf.size_add _
  have hsize' : (t.withPrinter first calls').shelf.buffers.size = t.shelf.buffers.size + 1 :=
    t.shelf.size_add _
  refine { h with
    buffers := by rw [hsize, hsize', h.buffers]
    sounds := fun pcm hpcm => ?_ }
  by_cases hheld : pcm.index < s.shelf.buffers.size
  · have hheld' : pcm.index < t.shelf.buffers.size := h.buffers ▸ hheld
    exact (h.sounds pcm hheld).of_same (withPrinter_read hheld calls)
      (withPrinter_read hheld' calls') (withPrinter_jobs hheld calls) (withPrinter_jobs hheld' calls')
  · have hlast : pcm.index < s.shelf.buffers.size + 1 := hsize ▸ hpcm
    obtain rfl : pcm = ⟨s.shelf.buffers.size⟩ := congrArg PcmId.mk (by omega)
    have hprints' : (t.withPrinter first calls').Prints first ⟨t.shelf.buffers.size⟩ :=
      withPrinter_prints ht calls'
    rw [← h.buffers] at hprints'
    exact .inr ⟨first, hfresh, hnoise, withPrinter_prints hs calls, hprints'⟩

theorem startPrinter (h : s.Alike since t) {left left' : Nat} (hs : s.PrintsAhead left)
    (ht : t.PrintsAhead left') (bytes : Bytes)
    (hnoise : ∀ job ∈ (s.startPrinter bytes).2.printers,
      Sound.noiseVoices job.printer.voices ≤ 1) :
    (s.startPrinter bytes).1 = (t.startPrinter bytes).1
      ∧ (s.startPrinter bytes).2.Alike since (t.startPrinter bytes).2 := by
  cases hmake : Sound.Printer.make s.format.rate bytes with
  | error e =>
    have hmake' : Sound.Printer.make t.format.rate bytes = .error e := h.format ▸ hmake
    rw [startPrinter_error hmake, startPrinter_error hmake']
    exact ⟨rfl, h⟩
  | ok first =>
    have hmake' : Sound.Printer.make t.format.rate bytes = .ok first := h.format ▸ hmake
    obtain ⟨calls, hstart⟩ := startPrinter_ok hmake
    obtain ⟨calls', hstart'⟩ := startPrinter_ok hmake'
    rw [hstart] at hnoise
    have hlast := hnoise _ (List.mem_append_right _ List.mem_cons_self)
    rw [first.printed_noiseVoices] at hlast
    rw [hstart, hstart', h.buffers]
    exact ⟨rfl, h.withPrinter hs ht (Sound.Printer.make_fresh hmake).1 hlast calls calls'⟩

theorem obtainSound (h : s.Alike since t) {left left' : Nat} (hs : s.PrintsAhead left)
    (ht : t.PrintsAhead left') (key : SoundKey)
    (hnoise : ∀ job ∈ (s.obtainSound key).2.printers, Sound.noiseVoices job.printer.voices ≤ 1) :
    (s.obtainSound key).1 = (t.obtainSound key).1
      ∧ (s.obtainSound key).2.Alike since (t.obtainSound key).2 := by
  have hbytes : s.soundBytes? key = t.soundBytes? key := by
    rw [soundBytes?, soundBytes?, lookup, lookup, h.resources]
  revert hnoise
  unfold Synth.obtainSound
  rw [h.cache, hbytes]
  cases t.cache.find? key with
  | some pcm => exact fun _ => ⟨rfl, h⟩
  | none =>
    cases t.soundBytes? key with
    | none => exact fun _ => ⟨rfl, h⟩
    | some bytes =>
      have hstart := h.startPrinter hs ht bytes
      dsimp only
      generalize s.startPrinter bytes = started at hstart
      generalize t.startPrinter bytes = started' at hstart
      obtain ⟨pcm, u⟩ := started
      obtain ⟨pcm', u'⟩ := started'
      intro hnoise
      have hjobs : ∀ job ∈ u.printers, Sound.noiseVoices job.printer.voices ≤ 1 := by
        cases pcm <;> exact hnoise
      obtain ⟨rfl, halike⟩ := hstart hjobs
      cases pcm with
      | none => exact ⟨rfl, halike⟩
      | some found =>
        have hcache : u.cache.add key found = u'.cache.add key found := by rw [halike.cache]
        exact ⟨rfl, { halike with cache := hcache }⟩

theorem playSound (h : s.Alike since t) (hroom : s.NoteRoom since) {left left' : Nat}
    (hs : s.PrintsAhead left) (ht : t.PrintsAhead left') (key : SoundKey) (trim : Float32)
    (hnoise : ∀ job ∈ (s.playSound key trim).printers, Sound.noiseVoices job.printer.voices ≤ 1) :
    (s.playSound key trim).Alike since (t.playSound key trim) := by
  have hknows : s.knowsSound = t.knowsSound := by
    funext key
    rw [knowsSound, knowsSound, soundBytes?, soundBytes?, lookup, lookup, h.resources, h.cache]
  have hresolve : s.resolveSound key = t.resolveSound key := by
    rw [resolveSound, resolveSound, hknows]
  revert hnoise
  unfold Synth.playSound
  rw [hresolve]
  split
  · exact fun _ => h
  · cases t.resolveSound key with
    | none => exact fun _ => h
    | some found =>
      have hobtain := h.obtainSound hs ht found
      have hkept := hroom.obtainSound found
      dsimp only
      generalize s.obtainSound found = obtained at hobtain hkept
      generalize t.obtainSound found = obtained' at hobtain
      obtain ⟨pcm, u⟩ := obtained
      obtain ⟨pcm', u'⟩ := obtained'
      intro hnoise
      have hjobs : ∀ job ∈ u.printers, Sound.noiseVoices job.printer.voices ≤ 1 := by
        cases pcm <;> exact hnoise
      obtain ⟨rfl, halike⟩ := hobtain hjobs
      cases pcm with
      | none => exact halike
      | some pcm => exact halike.startPlayback hkept pcm trim

/-! ### Notes -/

theorem startVoice (h : s.Alike since t) (hroom : s.NoteRoom since) (v v' : Option Voice) :
    v.map (Voice.settle since) = v'.map (Voice.settle since) →
    Alike since
      (match v with
        | some v => { s with voices := (s.voices.insert v).2 }
        | none => s)
      (match v' with
        | some v => { t with voices := (t.voices.insert v).2 }
        | none => t) := by
  intro hnew
  cases v with
  | none =>
    rw [Option.map_eq_none_iff.mp hnew.symm]
    exact h
  | some v =>
    obtain ⟨w, rfl, hsame⟩ := Option.map_eq_some_iff.mp hnew.symm
    exact h.insert_voice hroom hsame.symm

theorem startNote (h : s.Alike since t) (hroom : s.NoteRoom since) {left left' : Nat}
    (hs : s.PrintsAhead left) (ht : t.PrintsAhead left') (c : Channel) (note velocity : UInt8)
    (duration : Int)
    (hnoise : ∀ job ∈ (s.startNote c note velocity duration).printers,
      Sound.noiseVoices job.printer.voices ≤ 1) :
    (s.startNote c note velocity duration).Alike since (t.startNote c note velocity duration) := by
  have hbegin : (Voice.begin? c s.notes s.format.rate note velocity duration s.framesMade).map
        (Voice.settle since)
      = (Voice.begin? c t.notes t.format.rate note velocity duration t.framesMade).map
        (Voice.settle since) := by
    rw [h.notes, h.format]
    unfold Voice.begin?
    split
    · rfl
    · rw [Option.map_map, Option.map_map]
      unfold Function.comp Voice.settle
      dsimp only
      rw [settleDate_late h.late, settleDate_late h.late']
  have hvoice := h.startVoice hroom _ _ hbegin
  revert hnoise
  unfold Synth.startNote
  cases c.patch with
  | drum base => exact h.playSound hroom hs ht _ _
  | effect params =>
    intro _
    refine h.updateRack c.id
      (fun r => r.noteOnce t.notes note velocity duration (since + 1)) (fun _ => rfl)
      (fun r hr _ => ?_) fun r hr hlive => Rack.settle_noteOnce ?_ _ _ _ _ h.late'
    · rw [h.notes]
      exact Rack.settle_noteOnce (hroom.notes r hr) _ _ _ _ h.late
    · obtain ⟨d, hd, hsame⟩ := h.racks.mem hr hlive
      exact (hroom.notes d hd).of_settle hsame
  | _ => exact fun _ => hvoice

theorem dispatch (h : s.Alike since t) (hroom : s.Roomy since) {left left' : Nat}
    (hs : s.PrintsAhead left) (ht : t.PrintsAhead left') {e : Event} (he : e.OfSong)
    (hnoise : ∀ job ∈ (s.dispatch e).printers, Sound.noiseVoices job.printer.voices ≤ 1) :
    (s.dispatch e).Alike since (t.dispatch e) := by
  revert hnoise
  unfold Synth.dispatch
  rcases he.action with haction | haction
  · rw [haction]
    unfold perform onChannel
    cases channelIndex? e.channel with
    | none => exact fun _ => h
    | some i =>
      intro hnoise
      obtain ⟨hensure, hnotes⟩ := h.ensureChannel hroom i
      refine hensure.withChannel fun c hmade => hensure.startNote hnotes
        ((PrintsAhead.eventClosed left).ensure s i hs)
        ((PrintsAhead.eventClosed left').ensure t i ht) c e.a e.b e.duration fun job hjob => ?_
      rw [← hmade] at hjob
      exact hnoise job hjob
  · rw [haction]
    unfold perform onChannel
    cases channelIndex? e.channel with
    | none => exact fun _ => h
    | some i =>
      exact fun _ => (h.ensureChannel hroom i).1.withChannel fun c _ =>
        (h.ensureChannel hroom i).1.moveWheel i c _

/-! ### Songs -/

theorem hasSongVoices (h : s.Alike since t) : s.hasSongVoices = t.hasSongVoices := by
  have hvoice : ∀ v : Voice, (v.settle since).isSong = v.isSong := fun _ => rfl
  have hrack : ∀ r : Rack, (r.settle since).isSong = r.isSong := fun _ => rfl
  have hvoiceLive : ∀ v : Voice, v.isSong = true → PoolEntry.isDefunct (v.settle since) = false := by
    intro v hv
    unfold Voice.isSong at hv
    rw [Bool.and_eq_true, Bool.not_eq_true'] at hv
    exact hv.1
  have hrackLive : ∀ r : Rack, r.isSong = true → PoolEntry.isDefunct (r.settle since) = false := by
    intro r hr
    unfold Rack.isSong at hr
    rw [Bool.and_eq_true, Bool.not_eq_true'] at hr
    exact hr.1
  have hvoices := congrArg (List.any · Voice.isSong) h.voices.heard
  have hracks := congrArg (List.any · Rack.isSong) h.racks.heard
  rw [Pool.any_heard hvoice hvoiceLive, Pool.any_heard hvoice hvoiceLive] at hvoices
  rw [Pool.any_heard hrack hrackLive, Pool.any_heard hrack hrackLive] at hracks
  unfold Synth.hasSongVoices
  rw [hvoices, hracks]

theorem endSong (h : s.Alike since t) : s.endSong.Alike since t.endSong := by
  unfold Synth.endSong
  rw [h.song]
  cases t.song with
  | none => exact h
  | some p =>
    have hvoices := h.voices.map (g := Voice.release) (fun _ => rfl) fun _ => rfl
    have hracks := h.racks.map (g := Rack.release) Rack.settle_release fun _ => rfl
    have hprograms := congrArg
      (fun ws => ws.mapIdx fun (i : Nat) (word : UInt32) => if i < songChannels then 0 else word)
      h.programs
    exact { h with song := rfl, voices := hvoices, racks := hracks, programs := hprograms }

theorem takeOver (h : s.Alike since t) (song : Option Player) :
    (Step.run s (.takeOver song)).Alike since (Step.run t (.takeOver song)) := by
  have hchannels := congrArg
    (fun cs => cs.mapIdx fun (i : Nat) (c : Option Channel) => if i < songChannels then none else c)
    h.channels
  exact { h with song := rfl, pending := rfl, channels := hchannels }

theorem ensureChannel_instantiate (s : Synth) (i : Fin channelCount) :
    (s.instantiate i).ensureChannel i = s.instantiate i := by
  cases hmake : Channel.make i.val.toUInt8 (s.programs.get i) s.format.rate s.notes s.custom with
  | none =>
    have hsame : s.instantiate i = s := by
      unfold Synth.instantiate
      rw [hmake]
    rw [hsame]
    unfold Synth.ensureChannel
    split
    · rfl
    · exact hsame
  | some c =>
    have hmade : (s.instantiate i).channels.get i = some c := by
      unfold Synth.instantiate
      rw [hmake]
      exact get_set_self _ _ _
    unfold Synth.ensureChannel
    rw [hmade]

theorem ensureChannel_headerControl {s : Synth} (hs : s.ensureChannel i = s) (key value : UInt8) :
    (s.headerControl i key value).ensureChannel i = s.headerControl i key value := by
  unfold Synth.headerControl Synth.withChannel
  rw [hs]
  dsimp only
  cases hc : s.channels.get i with
  | none => exact hs
  | some c =>
    have hmade : (s.controlChannel i c key value).channels.get i = some (c.control key value) := by
      unfold Synth.controlChannel
      dsimp only
      split
      · exact get_set_self _ _ _
      · exact get_set_self _ _ _
    dsimp only
    rw [Synth.ensureChannel, hmade]

theorem headerControl (h : s.Alike since t) (hs : s.ensureChannel i = s)
    (ht : t.ensureChannel i = t) (key value : UInt8) :
    (s.headerControl i key value).Alike since (t.headerControl i key value) := by
  have hensure : (s.ensureChannel i).Alike since (t.ensureChannel i) := by
    rw [hs, ht]
    exact h
  exact hensure.withChannel fun c _ => hensure.controlChannel i c key value

theorem setUpChannel (h : s.Alike since t) (hroom : s.Roomy since) (i : Fin channelCount)
    (r : ChannelRecord) : (s.setUpChannel i r).Alike since (t.setUpChannel i r) := by
  have hprogram := h.set_program i r.program.toUInt32
  have hroom' : Roomy since
      { s with programs := s.programs.set i r.program.toUInt32 i.isLt } :=
    ⟨⟨hroom.voices, hroom.playbacks, hroom.notes⟩, hroom.racks⟩
  have hmade := hprogram.instantiate hroom' i
  have hs := ensureChannel_instantiate
    { s with programs := s.programs.set i r.program.toUInt32 i.isLt } i
  have ht := ensureChannel_instantiate
    { t with programs := t.programs.set i r.program.toUInt32 i.isLt } i
  have hvolume := hmade.headerControl hs ht controlVolume (r.volume >>> 1)
  unfold Synth.setUpChannel
  split
  · exact hprogram
  · exact hvolume.headerControl (ensureChannel_headerControl hs _ _)
      (ensureChannel_headerControl ht _ _) _ _

theorem turn (h : s.Alike since t) : (Step.run s .turn).Alike since (Step.run t .turn) := by
  have hsong := congrArg (Option.map fun p : Player => (p.update false).2) h.song
  exact { h with song := hsong }

theorem advanceSong (h : s.Alike since t) (frames : Nat) :
    (s.advanceSong frames).Alike since (t.advanceSong frames) := by
  have hsong := congrArg (Option.map fun p : Player => p.advance frames) h.song
  exact { h with song := hsong }

end Alike

end Synth

end Tonewheel
