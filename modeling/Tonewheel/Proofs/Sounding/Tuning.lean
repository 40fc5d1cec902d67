import Tonewheel.Proofs.Sounding.Fade
import Tonewheel.Proofs.Sounding.Slots

/-!
# Voices and racks in tune with their channels

A voice takes its stride from the bend of its channel, a rack its trim from the channel's, and the
voices of a rack take their strides from the bend of the rack. What happens to a voice or a rack
later, apart from a move of the wheel or of the volume, leaves all this alone (`Voice.Later`,
`Rack.Later`). A rack is steady while it plays and no fade was started.
-/

namespace Tonewheel

theorem Block.scan_invariant {σ : Type} {motive : σ → Prop} {step : σ → Float32 → Float32 × σ}
    (keep : ∀ s x, motive s → motive (step s x).2) (s : σ) (block : Block) (start : motive s) :
    motive (Block.scan step s block).2 := by
  induction block using Block.front_induction generalizing s with
  | empty => exact start
  | front x rest ih =>
    rw [Block.scan_front]
    exact ih (step s x).2 (keep s x start)

/-! ### Voices -/

namespace Voice

/-- Whether a voice is one of a channel, in a mode with voices and at the stride of its bend. -/
structure Follows (v : Voice) (c : Channel) : Prop where
  channel : v.channel = c.id
  bends : c.bendsVoices = true
  stride : v.stride = (v.baseStride.toFloat32 * c.bend).toUInt32

/-- What stays of a voice, and that it never comes back to life. -/
structure Later (v v' : Voice) : Prop where
  channel : v'.channel = v.channel
  origin : v'.origin = v.origin
  baseStride : v'.baseStride = v.baseStride
  stride : v'.stride = v.stride
  live : v'.isDefunct = false → v.isDefunct = false

theorem Follows.later {v v' : Voice} {c : Channel} (h : v.Follows c) (hlater : v.Later v') :
    v'.Follows c where
  channel := hlater.channel.trans h.channel
  bends := h.bends
  stride := by rw [hlater.stride, hlater.baseStride, h.stride]

theorem Later.refl (v : Voice) : v.Later v := ⟨rfl, rfl, rfl, rfl, id⟩

theorem later_release (v : Voice) : v.Later v.release := ⟨rfl, rfl, rfl, rfl, id⟩

theorem later_render (sine : Wave) (v : Voice) (noise : Noise) (n : Nat) :
    v.Later (v.render sine noise n).2.1 := by
  unfold render
  split
  · exact ⟨rfl, rfl, rfl, rfl, id⟩
  next hlive => exact ⟨rfl, rfl, rfl, rfl, fun _ => Bool.eq_false_iff.mpr hlive⟩

theorem follows_setBend {v : Voice} {c c' : Channel} (h : v.Follows c) (hid : c'.id = c.id)
    (hbends : c'.bendsVoices = c.bendsVoices) : (v.setBend c'.bend).Follows c' where
  channel := h.channel.trans hid.symm
  bends := hbends.trans h.bends
  stride := rfl

theorem begin_follows {c : Channel} {notes : NoteTable} {rate : UInt32} {note velocity : UInt8}
    {duration : Int} {born : Nat} {v : Voice}
    (h : begin? c notes rate note velocity duration born = some v) :
    v.Follows c ∧ v.origin = .ofChannel v.channel := by
  unfold begin? at h
  split at h
  · cases h
  · obtain ⟨tone, htone, rfl⟩ := Option.map_eq_some_iff.mp h
    refine ⟨⟨rfl, ?_, rfl⟩, rfl⟩
    unfold Tone.ofNote at htone
    unfold Channel.bendsVoices
    split at htone <;> simp_all

end Voice

/-! ### Channels -/

namespace Channel

theorem make_id {id : UInt8} {program rate : UInt32} {notes : NoteTable}
    {custom : Option Definition} {c : Channel} (h : make id program rate notes custom = some c) :
    c.id = id := by
  unfold make at h
  split at h
  · cases hdefinition : Bank.resolve custom program.toUInt8 with
    | none => simp [hdefinition] at h
    | some definition =>
      cases hpatch : Patch.ofDefinition rate notes definition with
      | none => simp [hdefinition, hpatch] at h
      | some patch =>
        simp only [hdefinition, hpatch, Option.bind_eq_bind, Option.bind_some, Option.pure_def,
          Option.some.injEq] at h
        rw [← h]
  · split at h
    · cases h
      rfl
    · cases h

@[simp]
theorem control_id (c : Channel) (key value : UInt8) : (c.control key value).id = c.id := by
  unfold control
  split
  · rfl
  · split <;> rfl

@[simp]
theorem control_patch (c : Channel) (key value : UInt8) :
    (c.control key value).patch = c.patch := by
  unfold control
  split
  · rfl
  · split <;> rfl

@[simp]
theorem control_bend (c : Channel) (key value : UInt8) : (c.control key value).bend = c.bend := by
  unfold control
  split
  · rfl
  · split <;> rfl

@[simp]
theorem setWheel_id (c : Channel) (position : UInt16) : (c.setWheel position).2.id = c.id := by
  unfold setWheel
  split
  · rfl
  · split <;> rfl

@[simp]
theorem setWheel_patch (c : Channel) (position : UInt16) :
    (c.setWheel position).2.patch = c.patch := by
  unfold setWheel
  split
  · rfl
  · split <;> rfl

@[simp]
theorem setWheel_trim (c : Channel) (position : UInt16) :
    (c.setWheel position).2.trim = c.trim := by
  unfold setWheel
  split
  · rfl
  · split <;> rfl

theorem setWheel_bend (c : Channel) (position : UInt16) :
    ((c.setWheel position).1 = none ∧ (c.setWheel position).2.bend = c.bend)
      ∨ (c.setWheel position).1 = some (c.setWheel position).2.bend := by
  unfold setWheel
  split
  · exact .inl ⟨rfl, rfl⟩
  · split
    · exact .inr rfl
    · exact .inl ⟨rfl, rfl⟩

theorem bendsVoices_congr {c c' : Channel} (h : c'.patch = c.patch) :
    c'.bendsVoices = c.bendsVoices := by
  unfold bendsVoices
  rw [h]

theorem patch_of_effect {c : Channel} (h : c.mode = .effect) : ∃ params, c.patch = .effect params := by
  unfold mode at h
  cases hpatch : c.patch <;> simp_all [Patch.mode]

theorem mode_of_bends {c : Channel} (h : c.bendsVoices = true) :
    c.mode ≠ .drum ∧ c.mode ≠ .effect := by
  unfold bendsVoices at h
  unfold mode
  cases hpatch : c.patch <;> simp_all [Patch.mode]

end Channel

/-! ### Racks -/

namespace EffectVoice

structure InTune (v : EffectVoice) (bend ratio : Float32) : Prop where
  carrier : v.carrierStride = v.baseStride * bend
  modulator : v.modulatorStride = v.carrierStride * ratio

theorem inTune_setBend (v : EffectVoice) (bend ratio : Float32) :
    (v.setBend bend ratio).InTune bend ratio := ⟨rfl, rfl⟩

theorem InTune.release {v : EffectVoice} {bend ratio : Float32} (h : v.InTune bend ratio) :
    v.release.InTune bend ratio := ⟨h.carrier, h.modulator⟩

theorem InTune.step {v : EffectVoice} {bend ratio : Float32} (h : v.InTune bend ratio)
    (swing : Float32) : (v.step swing).2.InTune bend ratio := ⟨h.carrier, h.modulator⟩

end EffectVoice

namespace Rack

/-- Whether a rack is one of a channel in effect mode, at its trim. -/
structure Serves (r : Rack) (c : Channel) : Prop where
  channel : r.channel = c.id
  effect : c.mode = .effect
  trim : r.trim = c.trim

def InTune (r : Rack) : Prop := ∀ v ∈ r.voices, v.InTune r.bend r.ratio

/-- Whether a rack plays and nothing is let fade. -/
structure Steady (r : Rack) : Prop where
  live : r.isDefunct = false
  still : r.fade.left ≤ 0

/-- What stays of a rack, and that it never comes back to life. -/
structure Later (r r' : Rack) : Prop where
  channel : r'.channel = r.channel
  origin : r'.origin = r.origin
  live : r'.isDefunct = false → r.isDefunct = false
  inTune : r.InTune → r'.InTune

theorem Later.refl (r : Rack) : r.Later r := ⟨rfl, rfl, id, id⟩

theorem make_inTune (c : Channel) (params : EffectParams) (rate framesPerBeat : UInt32)
    (born : Nat) : (make c params rate framesPerBeat born).InTune := by
  intro v hv
  cases hv

theorem later_noteOnce (r : Rack) (notes : NoteTable) (note velocity : UInt8) (duration : Int)
    (born : Nat) : r.Later (r.noteOnce notes note velocity duration born) where
  channel := rfl
  origin := rfl
  live := id
  inTune h v hv := by
    rw [voices_noteOnce] at hv
    rcases Pool.mem_place hv with hv | rfl
    · exact h v hv
    · exact ⟨rfl, rfl⟩

theorem later_map (r : Rack) (f : EffectVoice → EffectVoice)
    (h : ∀ v, v.InTune r.bend r.ratio → (f v).InTune r.bend r.ratio) :
    r.Later { r with voices := r.voices.map f } where
  channel := rfl
  origin := rfl
  live := id
  inTune htune v hv := by
    obtain ⟨w, hw, rfl⟩ := List.mem_map.mp hv
    exact h w (htune w hw)

theorem later_noteOff (r : Rack) (note : UInt8) : r.Later (r.noteOff note) := by
  refine later_map r _ fun v hv => ?_
  split
  · exact hv.release
  · exact hv

theorem later_releaseNotes (r : Rack) : r.Later r.releaseNotes :=
  later_map r _ fun _ hv => hv.release

theorem later_release (r : Rack) : r.Later r.release :=
  ⟨rfl, rfl, id, r.later_releaseNotes.inTune⟩

theorem later_wheel (r : Rack) (position : UInt16) : r.Later (r.wheel position) where
  channel := rfl
  origin := rfl
  live := id
  inTune _ v hv := by
    obtain ⟨w, -, rfl⟩ := List.mem_map.mp hv
    exact w.inTune_setBend _ _

theorem later_control (r : Rack) (key value : UInt8) : r.Later (r.control key value) := by
  unfold control
  split
  · exact ⟨rfl, rfl, id, id⟩
  · exact ⟨rfl, rfl, id, id⟩

/-- A volume moves the trims of a channel and of its rack alike. -/
theorem control_trim {r : Rack} {c : Channel} (h : r.trim = c.trim) (key value : UInt8) :
    (r.control key value).trim = (c.control key value).trim := by
  unfold control Channel.control
  split
  · rfl
  · split <;> exact h

/-! ### Rendering -/

theorem inTune_renderVoices {bend ratio : Float32} (swing : Block) (vs : List EffectVoice)
    (mixed : Block) (h : ∀ v ∈ vs, v.InTune bend ratio) :
    ∀ v ∈ (renderVoices swing vs mixed).2, v.InTune bend ratio := by
  induction vs generalizing mixed with
  | nil => exact h
  | cons v vs ih =>
    have hv := h v List.mem_cons_self
    have hvs : ∀ w ∈ vs, w.InTune bend ratio := fun w hw => h w (List.mem_cons_of_mem v hw)
    intro w hw
    rw [renderVoices] at hw
    split at hw
    · rcases List.mem_cons.mp hw with rfl | hw
      · exact hv
      · exact ih _ hvs w hw
    · rcases List.mem_cons.mp hw with rfl | hw
      · exact Block.scan_invariant (motive := fun v => v.InTune bend ratio)
          (fun _ x hstep => hstep.step x) v swing hv
      · exact ih _ hvs w hw

theorem render_voices (sine : Wave) (r : Rack) (n : Nat) (h : r.isDefunct = false) :
    (r.render sine n).2.voices
      = Pool.trimDefunct (renderVoices (renderSwing sine r.swing (min n passSamples)).1 r.voices
          (.silence (min n passSamples))).2 := by
  rw [render, h, if_neg Bool.false_ne_true]

theorem render_same (sine : Wave) (r : Rack) (n : Nat) :
    (r.render sine n).2.channel = r.channel ∧ (r.render sine n).2.origin = r.origin
      ∧ (r.render sine n).2.trim = r.trim ∧ (r.render sine n).2.bend = r.bend
      ∧ (r.render sine n).2.ratio = r.ratio := by
  unfold render
  split
  · exact ⟨rfl, rfl, rfl, rfl, rfl⟩
  · exact ⟨rfl, rfl, rfl, rfl, rfl⟩

theorem later_render (sine : Wave) (r : Rack) (n : Nat) : r.Later (r.render sine n).2 := by
  obtain ⟨hchannel, horigin, -, hbend, hratio⟩ := render_same sine r n
  cases hdefunct : r.isDefunct with
  | true =>
    rw [render_defunct sine r n hdefunct]
    exact ⟨rfl, rfl, id, id⟩
  | false =>
    refine ⟨hchannel, horigin, fun _ => hdefunct, fun htune v hv => ?_⟩
    rw [hbend, hratio]
    rw [render_voices sine r n hdefunct] at hv
    exact inTune_renderVoices _ _ _ htune v ((Pool.trimDefunct_prefix _).subset hv)

theorem Steady.render {r : Rack} (h : r.Steady) (sine : Wave) (n : Nat) :
    (r.render sine n).2.Steady := by
  have hfade := render_still sine r n h.live h.still
  refine ⟨?_, ?_⟩
  · show (r.render sine n).2.fade.isOver = false
    rw [hfade]
    exact h.live
  · rw [hfade]
    exact h.still

end Rack

end Tonewheel
