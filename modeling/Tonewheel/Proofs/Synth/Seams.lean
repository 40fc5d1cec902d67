import Tonewheel.Proofs.Sounding.Parts
import Tonewheel.Proofs.Synth.Lengths

/-!
# Stretches in two parts

A stretch of frames looks only at its end which voices are over, and has its voices draw their noise
one after another. If none ends before and no two draw noise (`Seamless`), it can be made in two
parts (`Seamless.renderStretch_add`).
-/

namespace Tonewheel.Synth

/-- Whether a stretch of so many frames can be cut anywhere: no voice or rack ends in it, and no two
voices draw noise. -/
structure Seamless (s : Synth) (n : Nat) : Prop where
  voices : ∀ v ∈ s.voices.entries, v.Lasts n
  racks : ∀ r ∈ s.racks.entries, r.Lasts n
  noise : s.voices.entries.Pairwise fun v w => v.drawsNoise = false ∨ w.drawsNoise = false

instance (s : Synth) (n : Nat) : Decidable (s.Seamless n) :=
  decidable_of_iff ((∀ v ∈ s.voices.entries, v.Lasts n) ∧ (∀ r ∈ s.racks.entries, r.Lasts n)
      ∧ s.voices.entries.Pairwise fun v w => v.drawsNoise = false ∨ w.drawsNoise = false)
    ⟨fun ⟨voices, racks, noise⟩ => ⟨voices, racks, noise⟩,
      fun ⟨voices, racks, noise⟩ => ⟨voices, racks, noise⟩⟩

/-! ### Parts of a stretch -/

variable (sine : Wave) {j k : Nat} {a b : Block}

theorem renderVoices_noise (n : Nat) {vs : List Voice} (h : ∀ v ∈ vs, v.drawsNoise = false)
    (noise noise' : Noise) (mixed : Block) :
    renderVoices sine n vs noise mixed
      = ((renderVoices sine n vs noise' mixed).1, (renderVoices sine n vs noise' mixed).2.1,
          noise) := by
  induction vs generalizing mixed with
  | nil => rfl
  | cons v vs ih =>
    have hrest := ih fun w hw => h w (List.mem_cons_of_mem v hw)
    have hquiet := h v List.mem_cons_self
    rw [renderVoices, renderVoices, Voice.render_noise sine noise hquiet n noise']
    dsimp only
    rw [Voice.noise_render sine noise' hquiet n, hrest]

theorem renderVoices_quiet (n : Nat) {vs : List Voice} (h : ∀ v ∈ vs, v.drawsNoise = false)
    (noise : Noise) (mixed : Block) :
    ∀ v ∈ (renderVoices sine n vs noise mixed).2.1, v.drawsNoise = false := by
  induction vs generalizing noise mixed with
  | nil => exact h
  | cons v vs ih =>
    have hquiet := h v List.mem_cons_self
    rw [renderVoices]
    exact List.forall_mem_cons.mpr ⟨Voice.drawsNoise_render sine noise hquiet n,
      ih (fun w hw => h w (List.mem_cons_of_mem v hw)) _ _⟩

theorem renderVoices_add (hk : 0 < k) (ha : a.size = j) (hb : b.size = k) {vs : List Voice}
    (hlasts : ∀ v ∈ vs, v.Lasts (j + k))
    (hnoise : vs.Pairwise fun v w => v.drawsNoise = false ∨ w.drawsNoise = false) (noise : Noise) :
    renderVoices sine (j + k) vs noise (a ++ b)
      = ((renderVoices sine j vs noise a).1
          ++ (renderVoices sine k (renderVoices sine j vs noise a).2.1
            (renderVoices sine j vs noise a).2.2 b).1,
        (renderVoices sine k (renderVoices sine j vs noise a).2.1
          (renderVoices sine j vs noise a).2.2 b).2) := by
  induction vs generalizing noise a b with
  | nil => rfl
  | cons v vs ih =>
    obtain ⟨hothers, hnoise'⟩ := List.pairwise_cons.mp hnoise
    have hrest := fun w hw => hlasts w (List.mem_cons_of_mem v hw)
    obtain ⟨hmix, ha', hb'⟩ := Block.mix_cut ha hb (Voice.cut_render sine noise j k)
      (Voice.size_render sine (Voice.render sine v noise j).2.1 (Voice.render sine v noise j).2.2 k)
    rw [renderVoices, renderVoices]
    dsimp only
    rw [renderVoices, Voice.render_add sine noise hk (hlasts v List.mem_cons_self)]
    dsimp only
    rw [hmix, ih ha' hb' hrest hnoise']
    cases hdraws : v.drawsNoise with
    | false =>
      have hquiet := Voice.drawsNoise_render sine noise hdraws j
      rw [Voice.noise_render sine noise hdraws, Voice.noise_render sine noise hquiet,
        Voice.render_noise sine (renderVoices sine j vs noise _).2.2 hquiet k noise]
    | true =>
      -- The others neither go by the noise nor use it up, so it does not matter when they come.
      have hquiet : ∀ w ∈ vs, w.drawsNoise = false := fun w hw =>
        (hothers w hw).resolve_left (ne_false_of_eq_true hdraws)
      rw [renderVoices_noise sine j hquiet _ (Voice.render sine v noise j).2.2,
        congrArg (fun r => r.2.2) (renderVoices_noise sine j hquiet (Voice.render sine v noise j).2.2
          (Voice.render sine v noise j).2.2 _)]

theorem renderRacks_add (hk : 0 < k) (hpass : j + k ≤ passSamples) (ha : a.size = j)
    (hb : b.size = k) {rs : List Rack} (hlasts : ∀ r ∈ rs, r.Lasts (j + k)) :
    renderRacks sine (j + k) rs (a ++ b)
      = ((renderRacks sine j rs a).1 ++ (renderRacks sine k (renderRacks sine j rs a).2 b).1,
          (renderRacks sine k (renderRacks sine j rs a).2 b).2) := by
  induction rs generalizing a b with
  | nil => rfl
  | cons r rs ih =>
    have hrest := fun w hw => hlasts w (List.mem_cons_of_mem r hw)
    obtain ⟨hmix, ha', hb'⟩ := Block.mix_cut ha hb (Rack.cut_render sine r (by omega) k)
      (Rack.size_render_le sine (Rack.render sine r j).2 k)
    rw [renderRacks, renderRacks]
    dsimp only
    rw [renderRacks, Rack.render_add sine hk hpass (hlasts r List.mem_cons_self)]
    dsimp only
    rw [hmix, ih ha' hb' hrest]

theorem renderPlaybacks_add (shelf : Shelf) (ha : a.size = j) (hb : b.size = k)
    (ps : List Playback) :
    renderPlaybacks shelf (j + k) ps (a ++ b)
      = ((renderPlaybacks shelf j ps a).1
          ++ (renderPlaybacks shelf k (renderPlaybacks shelf j ps a).2 b).1,
        (renderPlaybacks shelf k (renderPlaybacks shelf j ps a).2 b).2) := by
  induction ps generalizing a b with
  | nil => rfl
  | cons p ps ih =>
    obtain ⟨hmix, ha', hb'⟩ := Block.mix_cut ha hb (Playback.cut_render shelf p j k)
      (Playback.size_render shelf (Playback.render shelf p j).2 k)
    rw [renderPlaybacks, renderPlaybacks]
    dsimp only
    rw [renderPlaybacks, Playback.render_add]
    dsimp only
    rw [hmix, ih ha' hb']

/-! ### What is left of a stretch -/

theorem renderVoices_lasts {vs : List Voice} (h : ∀ v ∈ vs, v.Lasts (j + k)) (noise : Noise)
    (mixed : Block) : ∀ v ∈ (renderVoices sine j vs noise mixed).2.1, v.Lasts k := by
  induction vs generalizing noise mixed with
  | nil => exact fun v hv => absurd hv List.not_mem_nil
  | cons v vs ih =>
    rw [renderVoices]
    exact List.forall_mem_cons.mpr ⟨(h v List.mem_cons_self).render sine noise,
      ih (fun w hw => h w (List.mem_cons_of_mem v hw)) _ _⟩

theorem renderVoices_pairwise (n : Nat) {vs : List Voice}
    (h : vs.Pairwise fun v w => v.drawsNoise = false ∨ w.drawsNoise = false) (noise : Noise)
    (mixed : Block) :
    (renderVoices sine n vs noise mixed).2.1.Pairwise
      fun v w => v.drawsNoise = false ∨ w.drawsNoise = false := by
  induction vs generalizing noise mixed with
  | nil => exact .nil
  | cons v vs ih =>
    obtain ⟨hothers, hrest⟩ := List.pairwise_cons.mp h
    rw [renderVoices]
    refine List.pairwise_cons.mpr ⟨?_, ih hrest _ _⟩
    cases hdraws : v.drawsNoise with
    | false => exact fun w _ => .inl (Voice.drawsNoise_render sine noise hdraws n)
    | true =>
      have hquiet : ∀ w ∈ vs, w.drawsNoise = false := fun w hw =>
        (hothers w hw).resolve_left (ne_false_of_eq_true hdraws)
      exact fun w hw => .inr (renderVoices_quiet sine n hquiet _ _ w hw)

theorem renderRacks_lasts (hpass : j + k ≤ passSamples) {rs : List Rack}
    (h : ∀ r ∈ rs, r.Lasts (j + k)) (mixed : Block) :
    ∀ r ∈ (renderRacks sine j rs mixed).2, r.Lasts k := by
  induction rs generalizing mixed with
  | nil => exact fun r hr => absurd hr List.not_mem_nil
  | cons r rs ih =>
    rw [renderRacks]
    exact List.forall_mem_cons.mpr ⟨(h r List.mem_cons_self).render sine hpass,
      ih (fun w hw => h w (List.mem_cons_of_mem r hw)) _⟩

theorem Seamless.renderStretch {s : Synth} (hpass : j + k ≤ passSamples) (h : s.Seamless (j + k)) :
    (s.renderStretch j).2.Seamless k :=
  ⟨renderVoices_lasts s.notes.sine h.voices s.noise (.silence j),
    renderRacks_lasts s.notes.sine hpass h.racks _,
    renderVoices_pairwise s.notes.sine j h.noise s.noise (.silence j)⟩

theorem Seamless.renderStretch_add {s : Synth} (hk : 0 < k) (hpass : j + k ≤ passSamples)
    (h : s.Seamless (j + k)) :
    s.renderStretch (j + k)
      = ((s.renderStretch j).1 ++ ((s.renderStretch j).2.renderStretch k).1,
          ((s.renderStretch j).2.renderStretch k).2) := by
  have hvoices := renderVoices_add s.notes.sine hk (Block.size_silence j) (Block.size_silence k)
    h.voices h.noise s.noise
  have hj := size_renderVoices s.notes.sine s.voices.entries s.noise (Block.size_silence j)
  have hk' := size_renderVoices s.notes.sine
    (renderVoices s.notes.sine j s.voices.entries s.noise (.silence j)).2.1
    (renderVoices s.notes.sine j s.voices.entries s.noise (.silence j)).2.2 (Block.size_silence k)
  unfold Synth.renderStretch
  dsimp only
  rw [Block.silence_add, hvoices]
  dsimp only
  rw [renderRacks_add s.notes.sine hk hpass hj hk' h.racks]
  dsimp only
  rw [renderPlaybacks_add s.shelf (size_renderRacks _ _ hj) (size_renderRacks _ _ hk')]

end Tonewheel.Synth
