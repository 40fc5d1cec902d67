import Tonewheel.Proofs.Signal.Spreading
import Tonewheel.Proofs.Sounding.Fade
import Tonewheel.Proofs.Synth.Printers
import Tonewheel.Proofs.Synth.Steps

/-!
# How much an update makes

Whatever a synthesizer plays, a stretch has as many samples as it has frames, and an update makes as
many samples as it is asked for (`Synth.size_render`): what stops in the middle of a stretch adds fewer
samples, and none adds more.
-/

namespace Tonewheel

theorem Voice.size_render (sine : Wave) (v : Voice) (noise : Noise) (n : Nat) :
    (Voice.render sine v noise n).1.size ≤ n := by
  unfold Voice.render
  split
  · exact Nat.zero_le n
  · have hreach : Voice.reach v.tone n ≤ n := by
      unfold Voice.reach
      split
      · exact Nat.min_le_left _ _
      · exact Nat.le_refl n
    dsimp only
    rw [Block.size_generate]
    exact hreach

theorem Rack.size_render_le (sine : Wave) (r : Rack) (n : Nat) :
    (Rack.render sine r n).1.size ≤ n := by
  cases hover : r.isDefunct with
  | true =>
    rw [render_defunct sine r n hover]
    exact Nat.zero_le n
  | false =>
    rw [(render_playing sine r n hover).1, Fade.size_run, size_unfaded]
    exact Nat.min_le_left n passSamples

theorem Playback.size_render (shelf : Shelf) (p : Playback) (n : Nat) :
    (Playback.render shelf p n).1.size ≤ n := by
  simp [Playback.render]
  omega

namespace Synth

theorem size_renderVoices {n : Nat} (sine : Wave) (vs : List Voice) (noise : Noise) {mixed : Block}
    (h : mixed.size = n) : (renderVoices sine n vs noise mixed).1.size = n := by
  induction vs generalizing noise mixed with
  | nil => exact h
  | cons v vs ih =>
    have hmade := Voice.size_render sine v noise n
    have hmix := Block.size_mix mixed _ (Nat.le_trans hmade (Nat.le_of_eq h.symm))
    rw [renderVoices]
    exact ih _ (hmix.trans h)

theorem size_renderRacks {n : Nat} (sine : Wave) (rs : List Rack) {mixed : Block}
    (h : mixed.size = n) : (renderRacks sine n rs mixed).1.size = n := by
  induction rs generalizing mixed with
  | nil => exact h
  | cons r rs ih =>
    have hmade := Rack.size_render_le sine r n
    have hmix := Block.size_mix mixed _ (Nat.le_trans hmade (Nat.le_of_eq h.symm))
    rw [renderRacks]
    exact ih (hmix.trans h)

theorem size_renderPlaybacks {n : Nat} (shelf : Shelf) (ps : List Playback) {mixed : Block}
    (h : mixed.size = n) : (renderPlaybacks shelf n ps mixed).1.size = n := by
  induction ps generalizing mixed with
  | nil => exact h
  | cons p ps ih =>
    have hmade := Playback.size_render shelf p n
    have hmix := Block.size_mix mixed _ (Nat.le_trans hmade (Nat.le_of_eq h.symm))
    rw [renderPlaybacks]
    exact ih (hmix.trans h)

theorem size_renderStretch (s : Synth) (n : Nat) : (s.renderStretch n).1.size = n :=
  size_renderPlaybacks s.shelf s.playbacks.entries
    (size_renderRacks s.notes.sine s.racks.entries
      (size_renderVoices s.notes.sine s.voices.entries s.noise (Block.size_silence n)))

theorem size_renderMono (s : Synth) (n : Nat) (out : Block) :
    (s.renderMono n out).1.size = out.size + n := by
  fun_induction renderMono s n out with
  | case1 s n out h len t hprepare block u hstretch ih =>
    have hlen := s.prepareStretch_le ⟨n, h⟩
    have hblock := t.size_renderStretch len.val
    rw [hprepare] at hlen
    rw [hstretch] at hblock
    dsimp only at hlen hblock
    rw [ih, Array.size_append, hblock]
    omega
  | case2 s n out h =>
    dsimp only
    omega

theorem size_renderPass (s : Synth) (samples : Nat) : (s.renderPass samples).1.size = samples := by
  have hframes := Nat.div_le_self samples s.format.channels
  have hmono := s.size_renderMono (samples / s.format.channels) #[]
  have hempty : (#[] : Block).size = 0 := rfl
  have hsize : ((s.renderMono (samples / s.format.channels) #[]).1
      ++ Block.silence (samples - samples / s.format.channels)).size = samples := by
    rw [Array.size_append, hmono, Block.size_silence]
    omega
  exact (Block.size_spread _ _ _).trans hsize

theorem size_renderPasses (limit : SomeFrames) (s : Synth) (samples : Nat) (out : Block) :
    (renderPasses limit s samples out).1.size = out.size + samples := by
  fun_induction renderPasses limit s samples out with
  | case1 s samples out h n block t hpass ih =>
    have hblock := s.size_renderPass n
    rw [hpass] at hblock
    dsimp only at hblock
    rw [ih, Array.size_append, hblock]
    omega
  | case2 s samples out h =>
    dsimp only
    omega

theorem size_render (s : Synth) (samples : Nat) : (s.render samples).1.size = samples := by
  have hsize :=
    size_renderPasses s.passLength (s.beginUpdate (samples / s.format.channels)) samples #[]
  exact hsize.trans (Nat.zero_add samples)

end Synth

end Tonewheel
