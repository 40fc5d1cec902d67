import Tonewheel.Proofs.Synth.Lengths

/-!
# What an update makes of a mono signal

A pass makes some mono samples and spreads them over the channels, and the samples that make no whole
frame stay silent (`renderPass_eq`). Since a pass that is as long as can be has whole frames only, an
update of any length is one mono signal (`monoUpdate`) with each sample of it once for each channel,
and silence after it (`render_eq`): no pass shifts the channels of the next one.
-/

namespace Tonewheel.Synth

def passFrames (s : Synth) : SomeFrames :=
  ⟨passSamples / s.format.channels,
    Nat.div_pos (Nat.le_trans s.format.channels_le (by decide)) s.format.channels_pos⟩

/-- Appends the next `frames` mono samples to a block, pass by pass. -/
def monoPasses (limit : SomeFrames) (s : Synth) (frames : Nat) (out : Block) : Block × Synth :=
  if _h : 0 < frames then
    let n := min frames limit.val
    let (out, s) := s.renderMono n out
    monoPasses limit s (frames - n) out
  else (out, s)
  termination_by frames
  decreasing_by
    have := limit.property
    omega

def monoUpdate (s : Synth) (frames : Nat) : Block × Synth :=
  monoPasses s.passFrames (s.beginUpdate frames) frames #[]

/-! ### The mono signal -/

theorem renderMono_out (s : Synth) (n : Nat) (out : Block) :
    s.renderMono n out = (out ++ (s.renderMono n #[]).1, (s.renderMono n #[]).2) := by
  fun_induction monoSteps s n generalizing out with
  | case1 s n hn len t hprepare ih =>
    rw [renderMono.eq_1 s n out, renderMono.eq_1 s n #[], dif_pos hn, dif_pos hn, hprepare]
    dsimp only
    rw [ih (out ++ _), ih (#[] ++ _), Array.empty_append, Array.append_assoc]
  | case2 s n hn =>
    rw [renderMono.eq_1 s n out, renderMono.eq_1 s n #[], dif_neg hn, dif_neg hn, Array.append_empty]

theorem format_renderMono (s : Synth) (n : Nat) (out : Block) :
    (s.renderMono n out).2.format = s.format := by
  have hformat := Moment.format_takes ⟨s, n + 0⟩ (s.monoSteps n)
  rw [← (passage_mono s n 0 out).eq_takes] at hformat
  exact hformat

theorem monoPasses_short {k : SomeFrames} {frames : Nat} (h : frames ≤ k.val) (s : Synth)
    (out : Block) :
    monoPasses k s frames out = s.renderMono frames out := by
  rw [monoPasses]
  split
  next =>
    rw [Nat.min_eq_left h]
    dsimp only
    rw [Nat.sub_self, monoPasses, dif_neg (Nat.lt_irrefl 0)]
  next hnone =>
    rw [renderMono, dif_neg hnone]

theorem monoPasses_long {k : SomeFrames} {frames : Nat} (h : k.val ≤ frames) (s : Synth)
    (out : Block) :
    monoPasses k s frames out
      = monoPasses k (s.renderMono k.val out).2 (frames - k.val) (s.renderMono k.val out).1 := by
  rw [monoPasses, dif_pos (Nat.lt_of_lt_of_le k.property h), Nat.min_eq_right h]

theorem size_monoPasses (k : SomeFrames) (s : Synth) (frames : Nat) (out : Block) :
    (monoPasses k s frames out).1.size = out.size + frames := by
  fun_induction monoPasses k s frames out with
  | case1 s frames out hframes n mono t hmono ih =>
    have hsize := s.size_renderMono n out
    rw [hmono] at hsize
    dsimp only at hsize
    rw [ih, hsize]
    omega
  | case2 s frames out hnone =>
    dsimp only
    omega

theorem size_monoUpdate (s : Synth) (frames : Nat) : (s.monoUpdate frames).1.size = frames :=
  (size_monoPasses s.passFrames _ frames #[]).trans (Nat.zero_add frames)

/-! ### Passes -/

theorem renderPass_eq (s : Synth) (samples : Nat) :
    s.renderPass samples
      = ((s.renderMono (samples / s.format.channels) #[]).1.flatMap
            (Array.replicate s.format.channels)
          ++ Block.silence (samples % s.format.channels),
          (s.renderMono (samples / s.format.channels) #[]).2) := by
  have hmono := s.size_renderMono (samples / s.format.channels) #[]
  rw [show (#[] : Block).size = 0 from rfl, Nat.zero_add] at hmono
  have hcut := Nat.div_add_mod' samples s.format.channels
  have hrest : samples - samples / s.format.channels * s.format.channels
      = samples % s.format.channels := by omega
  have hspread := Block.spread_padded (s.renderMono (samples / s.format.channels) #[]).1 samples
    s.format.channels_pos (by rw [hmono]; omega)
  rw [hmono, hrest] at hspread
  exact Prod.ext hspread rfl

theorem renderPass_frames (s : Synth) (frames : Nat) :
    s.renderPass (frames * s.format.channels)
      = ((s.renderMono frames #[]).1.flatMap (Array.replicate s.format.channels),
          (s.renderMono frames #[]).2) := by
  have hpass := s.renderPass_eq (frames * s.format.channels)
  rw [Nat.mul_div_cancel frames s.format.channels_pos, Nat.mul_mod_left] at hpass
  exact hpass.trans (Prod.ext (Array.append_empty ..) rfl)

theorem renderPasses_short {limit : SomeFrames} {samples : Nat} (h : samples ≤ limit.val) (s : Synth)
    (out : Block) :
    renderPasses limit s samples out = (out ++ (s.renderPass samples).1, (s.renderPass samples).2) := by
  rw [renderPasses]
  split
  next =>
    rw [Nat.min_eq_left h]
    dsimp only
    rw [Nat.sub_self, renderPasses, dif_neg (Nat.lt_irrefl 0)]
  next hnone =>
    obtain rfl : samples = 0 := Nat.eq_zero_of_not_pos hnone
    have hempty : (s.renderPass 0).1 = #[] := Array.eq_empty_of_size_eq_zero (s.size_renderPass 0)
    rw [hempty, Array.append_empty, renderPass_eq, Nat.zero_div, renderMono,
      dif_neg (Nat.lt_irrefl 0)]

theorem renderPasses_long {limit : SomeFrames} {samples : Nat} (h : limit.val ≤ samples) (s : Synth)
    (out : Block) :
    renderPasses limit s samples out
      = renderPasses limit (s.renderPass limit.val).2 (samples - limit.val)
          (out ++ (s.renderPass limit.val).1) := by
  rw [renderPasses, dif_pos (Nat.lt_of_lt_of_le limit.property h), Nat.min_eq_right h]

/-- Passes of at most a whole number of frames keep to the frames of the mono signal. -/
theorem renderPasses_eq {limit k : SomeFrames} {s : Synth}
    (hlimit : limit.val = k.val * s.format.channels) (samples : Nat) (out : Block) :
    renderPasses limit s samples (out.flatMap (Array.replicate s.format.channels))
      = ((monoPasses k s (samples / s.format.channels) out).1.flatMap
            (Array.replicate s.format.channels)
          ++ Block.silence (samples % s.format.channels),
          (monoPasses k s (samples / s.format.channels) out).2) := by
  induction samples using Nat.strongRecOn generalizing s out with
  | ind samples ih =>
    have hpos := s.format.channels_pos
    rcases Nat.lt_or_ge samples limit.val with hlast | hmore
    · have hshort : samples / s.format.channels ≤ k.val :=
        Nat.le_of_lt ((Nat.div_lt_iff_lt_mul hpos).mpr (hlimit ▸ hlast))
      rw [monoPasses_short hshort, renderMono_out s _ out, renderPasses_short (Nat.le_of_lt hlast),
        renderPass_eq]
      dsimp only
      rw [Array.flatMap_append, Array.append_assoc]
    · -- A whole pass ends with a frame, so as many samples are over after it as before.
      have hlong : k.val ≤ samples / s.format.channels :=
        (Nat.le_div_iff_mul_le hpos).mpr (hlimit ▸ hmore)
      have hfit : s.format.channels * k.val ≤ samples := by
        rw [Nat.mul_comm, ← hlimit]
        exact hmore
      have hframes : (samples - k.val * s.format.channels) / s.format.channels
          = samples / s.format.channels - k.val := by
        rw [Nat.mul_comm k.val, Nat.sub_mul_div]
      have hover : (samples - k.val * s.format.channels) % s.format.channels
          = samples % s.format.channels := by
        rw [Nat.mul_comm k.val, Nat.sub_mul_mod hfit]
      have hformat := s.format_renderMono k.val #[]
      have hfewer : samples - k.val * s.format.channels < samples := by
        have := limit.property
        omega
      have hrest := ih _ hfewer (s := (s.renderMono k.val #[]).2) (by rw [hformat]; exact hlimit)
        (out ++ (s.renderMono k.val #[]).1)
      rw [hformat, hframes, hover, Array.flatMap_append] at hrest
      rw [monoPasses_long hlong, renderMono_out s k.val out, renderPasses_long hmore, hlimit,
        renderPass_frames]
      exact hrest

/-! ### Updates -/

/-- An update has each sample of its mono signal once for each channel, and then silence. -/
theorem render_eq (s : Synth) (samples : Nat) :
    s.render samples
      = ((s.monoUpdate (samples / s.format.channels)).1.flatMap
            (Array.replicate s.format.channels)
          ++ Block.silence (samples % s.format.channels),
          (s.monoUpdate (samples / s.format.channels)).2.endUpdate) := by
  have hpasses : renderPasses s.passLength (s.beginUpdate (samples / s.format.channels)) samples
        ((#[] : Block).flatMap (Array.replicate s.format.channels))
      = ((s.monoUpdate (samples / s.format.channels)).1.flatMap
            (Array.replicate s.format.channels)
          ++ Block.silence (samples % s.format.channels),
          (s.monoUpdate (samples / s.format.channels)).2) :=
    renderPasses_eq rfl samples #[]
  rw [Array.flatMap_empty] at hpasses
  unfold render
  dsimp only
  rw [hpasses]

/-- An update of whole frames has each mono sample once for each channel. -/
theorem render_frames (s : Synth) (frames : Nat) :
    s.render (frames * s.format.channels)
      = ((s.monoUpdate frames).1.flatMap (Array.replicate s.format.channels),
          (s.monoUpdate frames).2.endUpdate) := by
  have hrender := s.render_eq (frames * s.format.channels)
  rw [Nat.mul_div_cancel frames s.format.channels_pos, Nat.mul_mod_left] at hrender
  exact hrender.trans (Prod.ext (Array.append_empty ..) rfl)

/-! ### Sample by sample -/

/-- Interleaved audio of an update: in each whole frame the samples of all channels are alike and
carry the mono signal on, and the samples past the last whole frame are silent. -/
structure Interleaves (s : Synth) (samples : Nat) (out : Block) : Prop where
  size_eq : out.size = samples
  alike : ∀ i < samples / s.format.channels, ∀ j < s.format.channels, ∀ l < s.format.channels,
    out[i * s.format.channels + j]? = out[i * s.format.channels + l]?
  carried : ∀ i < samples / s.format.channels,
    out[i * s.format.channels]? = (s.monoUpdate (samples / s.format.channels)).1[i]?
  silent : ∀ k, samples / s.format.channels * s.format.channels ≤ k → k < samples →
    out[k]? = some 0

theorem getElem?_render_frame (s : Synth) {samples i j : Nat}
    (hi : i < samples / s.format.channels) (hj : j < s.format.channels) :
    (s.render samples).1[i * s.format.channels + j]?
      = (s.monoUpdate (samples / s.format.channels)).1[i]? := by
  have hsize := Block.size_flatMap_replicate (s.monoUpdate (samples / s.format.channels)).1
    s.format.channels
  have hwithin : i * s.format.channels + s.format.channels
      ≤ samples / s.format.channels * s.format.channels := by
    rw [← Nat.succ_mul]
    exact Nat.mul_le_mul_right _ hi
  rw [size_monoUpdate] at hsize
  rw [render_eq]
  dsimp only
  rw [Array.getElem?_append_left (by omega), Block.getElem?_flatMap_frame _ hj]

theorem getElem?_render_rest (s : Synth) {samples k : Nat}
    (hk : samples / s.format.channels * s.format.channels ≤ k) (hlast : k < samples) :
    (s.render samples).1[k]? = some 0 := by
  have hsize := Block.size_flatMap_replicate (s.monoUpdate (samples / s.format.channels)).1
    s.format.channels
  have hcut := Nat.div_add_mod' samples s.format.channels
  rw [size_monoUpdate] at hsize
  rw [render_eq]
  dsimp only
  rw [Array.getElem?_append_right (by omega), hsize, Block.silence, Array.getElem?_replicate,
    if_pos (by omega)]

theorem interleaves_render (s : Synth) (samples : Nat) :
    s.Interleaves samples (s.render samples).1 where
  size_eq := s.size_render samples
  alike _ hi _ hj _ hl := (s.getElem?_render_frame hi hj).trans (s.getElem?_render_frame hi hl).symm
  carried _ hi := s.getElem?_render_frame hi s.format.channels_pos
  silent _ hk hlast := s.getElem?_render_rest hk hlast

/-- A buffer that has room for its frames is spread in place without a loss: each sample comes to all
places of its frame, and the rest stays as it was. So all channels of an update are alike, and what
makes no whole frame at its end is silent. -/
theorem spreading_loses_nothing :
    (∀ (buffer : Block) (frames channels : Nat), 0 < channels → frames * channels ≤ buffer.size →
      buffer.spread? frames channels = some (buffer.spread frames channels)
        ∧ (buffer.spread frames channels).size = buffer.size
        ∧ (∀ i < frames, ∀ j < channels,
          (buffer.spread frames channels)[i * channels + j]? = buffer[i]?)
        ∧ ∀ k, frames * channels ≤ k → (buffer.spread frames channels)[k]? = buffer[k]?)
      ∧ ∀ (s : Synth) (samples : Nat), s.Interleaves samples (s.render samples).1 := by
  refine ⟨fun buffer frames channels hpos hfit => ?_, interleaves_render⟩
  have hspread := Block.spread_spreading hpos hfit
  exact ⟨Block.spread?_eq hpos hfit, hspread.size_eq, fun i hi => hspread.done i (Nat.zero_le i) hi,
    hspread.behind⟩

/-- Three samples to be spread over two channels, and one past their frames. -/
def threeFrames : Block := #[1, 2, 3, 0, 0, 0, 9]

theorem spreading_loses_nothing_threeFrames :
    0 < 2 ∧ 3 * 2 ≤ threeFrames.size
      ∧ threeFrames.spread? 3 2 = some (threeFrames.spread 3 2)
      ∧ (threeFrames.spread 3 2)[1 * 2 + 1]? = some 2
      ∧ (threeFrames.spread 3 2)[2 * 2 + 0]? = some 3
      ∧ (threeFrames.spread 3 2)[6]? = some 9
      ∧ (ofFormat .standard).Interleaves 1029 ((ofFormat .standard).render 1029).1 := by
  have hfit : 3 * 2 ≤ threeFrames.size := by decide
  obtain ⟨hwithin, -, hframe, hrest⟩ :=
    spreading_loses_nothing.1 threeFrames 3 2 Nat.two_pos hfit
  exact ⟨Nat.two_pos, hfit, hwithin, hframe 1 (by decide) 1 (by decide),
    hframe 2 (by decide) 0 (by decide), hrest 6 (by decide),
    spreading_loses_nothing.2 (ofFormat .standard) 1029⟩

end Tonewheel.Synth
