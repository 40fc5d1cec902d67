import Tonewheel.Proofs.Synth.FrameByFrame
import Tonewheel.Proofs.Synth.Interleaving
import Tonewheel.Proofs.Synth.Words

/-!
# One signal on all channels (SPEC_FULL, section 4.6)

An update of whole frames makes a mono signal and has each of its samples once for each channel
(`render_frames`). The more channels there are, the fewer frames a pass has; but an update that is one
pass for all channels, or in which nothing goes by passes (`Steady`), makes the signal that it makes
on one channel (`channels_carry_signal`).
-/

namespace Tonewheel.Synth

/-! ### Passes -/

theorem Steady.monoPasses {limit k : SomeFrames} {s : Synth}
    (hlimit : limit.val = k.val * s.format.channels) (hk : k.val ≤ passSamples) {frames : Nat}
    (h : s.Steady (passesSteps limit s (frames * s.format.channels))) (out : Block) :
    signalState (Synth.monoPasses k s frames out) = signalState (playFrame^[frames] (out, s)) := by
  induction frames using Nat.strongRecOn generalizing s out with
  | ind frames ih =>
    have hpos := s.format.channels_pos
    rw [Synth.monoPasses]
    rcases Nat.eq_zero_or_pos frames with rfl | hframes
    · rw [dif_neg (Nat.lt_irrefl 0)]
      rfl
    · have hmin : min (frames * s.format.channels) limit.val
          = min frames k.val * s.format.channels := by
        rw [hlimit, Nat.mul_min_mul_right]
      have hrest : frames * s.format.channels - min frames k.val * s.format.channels
          = (frames - min frames k.val) * s.format.channels := (Nat.sub_mul _ _ _).symm
      rw [passesSteps, dif_pos (Nat.mul_pos hframes hpos), hmin] at h
      dsimp only at h
      rw [Nat.mul_div_cancel _ hpos, renderPass_frames, hrest] at h
      obtain ⟨hfirst, hothers⟩ := Along.split h (min frames k.val + 0)
      rw [← (passage_mono s (min frames k.val) 0 #[]).eq_takes] at hothers
      have hformat := s.format_renderMono (min frames k.val) #[]
      have hpass : min frames k.val ≤ passSamples := Nat.le_trans (Nat.min_le_right _ _) hk
      have hmade := Steady.renderMono hfirst hpass out
      have hfewer : frames - min frames k.val < frames := by
        have := k.property
        omega
      have hwhole : frames = (frames - min frames k.val) + min frames k.val := by omega
      dsimp only at hothers
      rw [← hformat] at hothers
      rw [dif_pos hframes]
      dsimp only
      rw [renderMono_out s (min frames k.val) out]
      dsimp only
      rw [ih _ hfewer (by rw [hformat]; exact hlimit) hothers]
      -- The first pass and its frames one by one leave the same, so what comes after is the same.
      rw [renderMono_out] at hmade
      conv_rhs => rw [hwhole, Function.iterate_add_apply]
      exact playFrame_signalState hmade (frames - min frames k.val)

/-! ### Updates -/

theorem passFrames_le (s : Synth) : s.passFrames.val ≤ passSamples := Nat.div_le_self _ _

variable {s t : Synth}

theorem beginUpdate_signalState (h : s.mono = t.mono) (frames : Nat) :
    signalState (#[], s.beginUpdate frames) = signalState (#[], t.beginUpdate frames) := by
  have hstep : ∀ u : Synth, (u.beginUpdate frames).mono = (u.mono.beginUpdate frames).mono :=
    fun u => u.mono_run (.begin frames)
  have hstate : (s.beginUpdate frames).mono = (t.beginUpdate frames).mono := by
    rw [hstep s, hstep t, h]
  exact congrArg (Prod.mk #[]) hstate

theorem endUpdate_mono (h : s.mono = t.mono) : s.endUpdate.mono = t.endUpdate.mono := by
  have hstep : ∀ u : Synth, u.endUpdate.mono = u.mono.endUpdate.mono := fun u => u.mono_run .finish
  rw [hstep s, hstep t, h]

theorem monoUpdate_short (h : s.mono = t.mono) {frames : Nat} (hs : frames ≤ s.passFrames.val)
    (ht : frames ≤ t.passFrames.val) :
    signalState (s.monoUpdate frames) = signalState (t.monoUpdate frames) := by
  unfold monoUpdate
  rw [monoPasses_short hs, monoPasses_short ht]
  exact renderMono_signalState (beginUpdate_signalState h frames) frames

theorem Steady.monoUpdate {frames : Nat}
    (h : s.Steady (s.renderSteps (frames * s.format.channels))) :
    signalState (s.monoUpdate frames)
      = signalState (playFrame^[frames] (#[], s.beginUpdate frames)) := by
  obtain ⟨-, -, hrest⟩ := h
  rw [Nat.mul_div_cancel frames s.format.channels_pos] at hrest
  exact Steady.monoPasses rfl s.passFrames_le (Along.split hrest frames).1 #[]

theorem monoUpdate_steady (h : s.mono = t.mono) {frames : Nat}
    (hs : s.Steady (s.renderSteps (frames * s.format.channels)))
    (ht : t.Steady (t.renderSteps (frames * t.format.channels))) :
    signalState (s.monoUpdate frames) = signalState (t.monoUpdate frames) := by
  rw [hs.monoUpdate, ht.monoUpdate]
  exact playFrame_signalState (beginUpdate_signalState h frames) frames

/-! ### Calls -/

def made (s : Synth) : Call → Block
  | .render samples => (s.render samples).1
  | _ => #[]

def signal (s : Synth) : List Call → Block
  | [] => #[]
  | c :: calls => s.made c ++ signal (s.apply c) calls

namespace Call

/-- For a call for one channel, the call for so many channels that makes as many frames. -/
def onChannels (channels : Nat) : Call → Call
  | .render samples => .render (samples * channels)
  | c => c

def renders? : Call → Option Nat
  | .render samples => some samples
  | _ => none

end Call

/-- Whether an update of some frames is a single pass for two synthesizers, or steady for both. -/
def SeamlessUpdate (s t : Synth) (frames : Nat) : Prop :=
  frames ≤ s.passFrames.val ∧ frames ≤ t.passFrames.val
    ∨ s.Steady (s.renderSteps (frames * s.format.channels))
      ∧ t.Steady (t.renderSteps (frames * t.format.channels))

instance (s t : Synth) (frames : Nat) : Decidable (SeamlessUpdate s t frames) :=
  inferInstanceAs (Decidable (_ ∧ _ ∨ _ ∧ _))

/-- Whether all updates of some calls are seamless for two synthesizers, each on its own channels. -/
def SeamlessUpdates : Synth → Synth → List Call → Prop
  | _, _, [] => True
  | s, t, c :: calls =>
    (∀ frames ∈ c.renders?, SeamlessUpdate s t frames)
      ∧ SeamlessUpdates (s.apply (c.onChannels s.format.channels))
        (t.apply (c.onChannels t.format.channels)) calls

instance SeamlessUpdates.decide : (s t : Synth) → (calls : List Call) →
    Decidable (SeamlessUpdates s t calls)
  | _, _, [] => inferInstanceAs (Decidable True)
  | s, t, c :: calls =>
    have := decide (s.apply (c.onChannels s.format.channels))
      (t.apply (c.onChannels t.format.channels)) calls
    inferInstanceAs (Decidable ((∀ frames ∈ c.renders?, SeamlessUpdate s t frames)
      ∧ SeamlessUpdates (s.apply (c.onChannels s.format.channels))
        (t.apply (c.onChannels t.format.channels)) calls))

theorem format_apply (s : Synth) (c : Call) : (s.apply c).format = s.format := by
  have hformat := Moment.format_takes ⟨s, 0⟩ (s.steps c)
  rw [← (passage_steps s c).eq_takes] at hformat
  exact hformat

/-- An update of the same frames, on whatever channels, makes the same signal. -/
theorem SeamlessUpdate.render {frames : Nat} (hupdate : SeamlessUpdate s t frames)
    (h : s.mono = t.mono) :
    ∃ block : Block,
      (s.render (frames * s.format.channels)).1
          = block.flatMap (Array.replicate s.format.channels)
        ∧ (t.render (frames * t.format.channels)).1
          = block.flatMap (Array.replicate t.format.channels)
        ∧ (s.render (frames * s.format.channels)).2.mono
          = (t.render (frames * t.format.channels)).2.mono := by
  have hsame : signalState (s.monoUpdate frames) = signalState (t.monoUpdate frames) := by
    rcases hupdate with ⟨hs, ht⟩ | ⟨hs, ht⟩
    · exact monoUpdate_short h hs ht
    · exact monoUpdate_steady h hs ht
  obtain ⟨hblock, hstate⟩ := Prod.ext_iff.mp hsame
  have hblock' : (s.monoUpdate frames).1 = (t.monoUpdate frames).1 := hblock
  rw [render_frames, render_frames]
  refine ⟨(s.monoUpdate frames).1, rfl, ?_, endUpdate_mono hstate⟩
  rw [hblock']

theorem apply_congr (h : s.mono = t.mono) {c : Call} (hc : ¬c.IsUpdate) :
    (s.apply c).mono = (t.apply c).mono := by
  rw [mono_apply s hc, mono_apply t hc, h]

theorem signal_channels {calls : List Call} (hwords : ∀ samples, .renderWords samples ∉ calls)
    (hseamless : SeamlessUpdates s t calls) (h : s.mono = t.mono) :
    ∃ block : Block,
      s.signal (calls.map (Call.onChannels s.format.channels))
          = block.flatMap (Array.replicate s.format.channels)
        ∧ t.signal (calls.map (Call.onChannels t.format.channels))
          = block.flatMap (Array.replicate t.format.channels) := by
  induction calls generalizing s t with
  | nil => exact ⟨#[], rfl, rfl⟩
  | cons c calls ih =>
    obtain ⟨hupdate, hrest⟩ := hseamless
    have hformat := format_apply s (c.onChannels s.format.channels)
    have hformat' := format_apply t (c.onChannels t.format.channels)
    have hothers := fun samples hin => hwords samples (List.mem_cons_of_mem c hin)
    have hfirst : ∃ block : Block,
        s.made (c.onChannels s.format.channels) = block.flatMap (Array.replicate s.format.channels)
          ∧ t.made (c.onChannels t.format.channels)
            = block.flatMap (Array.replicate t.format.channels)
          ∧ (s.apply (c.onChannels s.format.channels)).mono
            = (t.apply (c.onChannels t.format.channels)).mono := by
      cases c with
      | render frames => exact (hupdate frames rfl).render h
      | renderWords samples => exact absurd List.mem_cons_self (hwords samples)
      | _ => exact ⟨#[], rfl, rfl, apply_congr h id⟩
    obtain ⟨block, hmade, hmade', hstate⟩ := hfirst
    obtain ⟨rest, hsignal, hsignal'⟩ := ih hothers hrest hstate
    rw [hformat] at hsignal
    rw [hformat'] at hsignal'
    refine ⟨block ++ rest, ?_, ?_⟩
    · rw [List.map_cons, signal, hmade, hsignal, Array.flatMap_append]
    · rw [List.map_cons, signal, hmade', hsignal', Array.flatMap_append]

theorem map_onChannels_one (calls : List Call) : calls.map (Call.onChannels 1) = calls := by
  refine (List.map_congr_left fun c _ => ?_).trans calls.map_id
  cases c with
  | render samples => exact congrArg Call.render (Nat.mul_one samples)
  | _ => rfl

/-- Calls with seamless updates make the same signal on any channels as on one: each sample of it
comes once for each channel. -/
theorem channels_carry_signal (f : Format) (calls : List Call)
    (hwords : ∀ samples, .renderWords samples ∉ calls)
    (hseamless : SeamlessUpdates (ofFormat f) (ofFormat f.mono) calls) :
    (ofFormat f).signal (calls.map (Call.onChannels f.channels))
      = ((ofFormat f.mono).signal calls).flatMap (Array.replicate f.channels) := by
  obtain ⟨block, hmany, hone⟩ := signal_channels hwords hseamless rfl
  have hone' := hone.trans (Array.flatMap_singleton' block)
  rw [show (ofFormat f.mono).format.channels = 1 from rfl, map_onChannels_one] at hone'
  rw [hone']
  exact hmany

/-- A song of blips, in an update that is one pass on each channel and one that is two on many. -/
def blipCalls : List Call := [.playSongBytes (blipSong 2 1 1) false, .render 10, .render 140]

theorem channels_carry_signal_blips :
    (∀ samples, .renderWords samples ∉ blipCalls)
      ∧ SeamlessUpdates (ofFormat wide) (ofFormat wide.mono) blipCalls
      ∧ (ofFormat wide).signal (blipCalls.map (Call.onChannels wide.channels))
        = ((ofFormat wide.mono).signal blipCalls).flatMap (Array.replicate wide.channels) := by
  have hwords : ∀ samples, .renderWords samples ∉ blipCalls := by
    intro samples
    simp [blipCalls]
  have hseamless : SeamlessUpdates (ofFormat wide) (ofFormat wide.mono) blipCalls := by
    decide +kernel
  exact ⟨hwords, hseamless, channels_carry_signal wide blipCalls hwords hseamless⟩

/-! ### A song that waits -/

/-- One song, another in its place, and so many frames. -/
def songAfterSong (frames : Nat) : List Call :=
  [.playSongBytes (blipSong 0 0 0) false, .playSongBytes (blipSong 1 0 0) false, .render frames]

def afterSongs (f : Format) : Synth :=
  ((ofFormat f).apply (.playSongBytes (blipSong 0 0 0) false)).apply
    (.playSongBytes (blipSong 1 0 0) false)

theorem signal_songAfterSong (f : Format) (frames : Nat) :
    (ofFormat f).signal ((songAfterSong frames).map (Call.onChannels f.channels))
      = ((afterSongs f).monoUpdate frames).1.flatMap (Array.replicate f.channels) := by
  have hformat : (afterSongs f).format = f := (format_apply _ _).trans (format_apply _ _)
  have hrender := congrArg Prod.fst (render_frames (afterSongs f) frames)
  rw [hformat] at hrender
  simp only [songAfterSong, List.map_cons, List.map_nil, signal, Array.append_empty]
  exact (Array.empty_append.trans Array.empty_append).trans hrender

/-- A song that has to wait begins with the pass in which the last one is over, and is asked for its
first events when the next pass begins, which is sooner on more channels. -/
theorem channels_miss_song :
    ¬ ∀ (f : Format) (calls : List Call), (∀ samples, .renderWords samples ∉ calls) →
      (ofFormat f).signal (calls.map (Call.onChannels f.channels))
        = ((ofFormat f.mono).signal calls).flatMap (Array.replicate f.channels) := by
  intro hall
  have hsame := hall wide (songAfterSong 129) (fun samples => by simp [songAfterSong])
  have hone := (signal_songAfterSong wide.mono 129).trans (Array.flatMap_singleton' _)
  rw [show wide.mono.channels = 1 from rfl, map_onChannels_one] at hone
  rw [signal_songAfterSong, hone] at hsame
  have hsample := congrArg (fun samples => samples[128 * wide.channels]?) hsame
  rw [Block.getElem?_flatMap_replicate _ wide.channels_pos,
    Block.getElem?_flatMap_replicate _ wide.channels_pos] at hsample
  have hmany : (((afterSongs wide).monoUpdate 129).1[128]?).map wordOfSample = some (-1168) := by
    decide +kernel
  have hsilent : (((afterSongs wide.mono).monoUpdate 129).1[128]?).map wordOfSample = some 0 := by
    decide +kernel
  rw [hsample, hsilent] at hmany
  exact absurd hmany (by decide)

end Tonewheel.Synth
