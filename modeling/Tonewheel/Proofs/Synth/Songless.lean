import Tonewheel.Proofs.Synth.Attendance

/-!
# Without songs

As long as no call brings a song, an update only begins, mixes stretches and is finished, and all
events are the caller's own (`Songless.steps`). No rack is let fade then, so every rack plays
(`Songless.steady`).
-/

namespace Tonewheel.Synth

/-- Whether a call brings no song. With no song there is nothing to seek in. -/
def Call.isSongFree : Call → Bool
  | .message (.playSong _ _ _) | .playSongBytes _ _ => false
  | _ => true

/-- Whether a step is neither an event nor one of a song. -/
def Step.Idle : Step → Prop
  | .event _ | .wait _ | .endSong | .takeOver _ | .setUp _ _ | .turn | .advance _ => False
  | _ => True

structure Songless (s : Synth) : Prop where
  song : s.song = none
  pending : s.pending = none
  ensemble : s.Ensemble
  steady : ∀ r ∈ s.racks.entries, r.Steady

/-! ### Steady racks -/

/-- Whether no rack fades and none is defunct. -/
def AllSteady (s : Synth) : Prop := ∀ r ∈ s.racks.entries, r.Steady

namespace AllSteady

variable {s : Synth}

theorem map_racks (h : s.AllSteady) {f : Rack → Rack} (hf : ∀ r : Rack, r.Steady → (f r).Steady) :
    ∀ r ∈ (s.racks.map f).entries, r.Steady := by
  intro r hr
  obtain ⟨q, hq, rfl⟩ := List.mem_map.mp hr
  exact hf q (h q hq)

theorem updateRack (h : s.AllSteady) (channel : UInt8) {f : Rack → Rack}
    (hf : ∀ r : Rack, (f r).fade = r.fade) : (s.updateRack channel f).AllSteady := by
  intro r hr
  rcases Pool.mem_modifyFirst hr with hr | ⟨q, hq, -, rfl⟩
  · exact h r hr
  · exact (h q hq).of_fade (hf q)

theorem of_sounds {t : Synth} (h : s.AllSteady) (hsounds : s.SoundsOnly t) : t.AllSteady := by
  obtain ⟨shelf, cache, printers, playbacks, rfl⟩ := hsounds
  exact h

theorem instantiate (h : s.AllSteady) (i : Fin channelCount) : (s.instantiate i).AllSteady := by
  unfold Synth.instantiate
  split
  · exact h
  · intro r hr
    dsimp only at hr
    split at hr
    · rcases Pool.mem_place hr with hr | rfl
      · exact h r hr
      · exact ⟨rfl, Int.le_refl 0⟩
    · exact h r hr

theorem eventClosed : EventClosed AllSteady where
  programs _ _ h := h
  ensure s i h := by
    unfold ensureChannel
    split
    · exact h
    · exact h.instantiate i
  drop _ _ h r hr := h r (List.mem_of_mem_filter hr)
  start s _ c note velocity duration h _ := by
    unfold startNote
    split
    · exact h.of_sounds (s.playSound_sounds _ _)
    · exact h.updateRack c.id fun r => rfl
    · split <;> exact h
  stop s _ c note h _ := by
    unfold stopNote
    split
    · exact h
    · exact h.updateRack c.id fun r => rfl
    · exact h
  control s i c key value h _ := by
    have hset : AllSteady
        { s with channels := s.channels.set i (some (c.control key value)) i.isLt } := h
    unfold controlChannel
    dsimp only
    split
    · exact hset.updateRack c.id fun r => r.control_fade key value
    · exact h
  wheel s i c position h _ := by
    unfold moveWheel
    split
    · exact h
    · generalize c.setWheel position = moved
      obtain ⟨bend, c'⟩ := moved
      have hset : { s with channels := s.channels.set i (some c') i.isLt }.AllSteady := h
      dsimp only
      split
      · exact h
      · exact hset.updateRack c.id fun r => rfl
      · exact h

end AllSteady

/-! ### Steps -/

namespace Songless

variable {s : Synth}

theorem ofFormat (format : Format) : Songless (ofFormat format) where
  song := rfl
  pending := rfl
  ensemble := .ofFormat format
  steady r hr := by cases hr

theorem dispatch (h : s.Songless) (e : Event) : (s.dispatch e).Songless where
  song := (song_of_tracks (tracks_dispatch s e)).trans h.song
  pending := (pending_of_tracks (tracks_dispatch s e)).trans h.pending
  ensemble := Ensemble.eventClosed.dispatch h.ensemble e
  steady := AllSteady.eventClosed.dispatch h.steady e

theorem seek (h : s.Songless) (beats : Float) : s.seek beats = s := by
  rw [Synth.seek, h.song, h.pending]

theorem idle (h : s.Songless) {σ : Step} (hidle : σ.Idle) {left : Nat}
    (allowed : σ.Allowed ⟨s, left⟩) : (σ.run s).Songless := by
  have hensemble := h.ensemble.run allowed
  cases σ with
  | playSound key trim =>
    have htracks := tracks_playSound s key trim
    exact ⟨(song_of_tracks htracks).trans h.song, (pending_of_tracks htracks).trans h.pending,
      hensemble, AllSteady.of_sounds h.steady (s.playSound_sounds key trim)⟩
  | playSoundBytes bytes trim =>
    have htracks := tracks_playSoundBytes s bytes trim
    exact ⟨(song_of_tracks htracks).trans h.song, (pending_of_tracks htracks).trans h.pending,
      hensemble, AllSteady.of_sounds h.steady (s.playSoundBytes_sounds bytes trim)⟩
  | setCustom custom => exact ⟨h.song, h.pending, hensemble, fun r hr => by cases hr⟩
  | seek beats =>
    show (s.seek beats).Songless
    rwa [h.seek]
  | releaseAll =>
    exact ⟨h.song, h.pending, hensemble, AllSteady.map_racks h.steady fun r hr => hr.of_fade rfl⟩
  | stretch frames =>
    refine ⟨h.song, h.pending, hensemble, ?_⟩
    show ∀ r ∈ (s.renderStretch frames).2.racks.entries, r.Steady
    rw [Ensemble.racks_renderStretch]
    exact AllSteady.map_racks h.steady fun r hr => hr.render _ _
  | finish =>
    exact ⟨h.song, h.pending, hensemble,
      fun r hr => h.steady r ((Pool.trimDefunct_prefix _).subset hr)⟩
  | clearCache | setResources | begin => exact ⟨h.song, h.pending, hensemble, h.steady⟩
  | _ => cases hidle

theorem passage {m m' : Moment} {steps : List Step} (h : m.synth.Songless)
    (hpassage : Passage m steps m') (hidle : ∀ σ ∈ steps, σ.Idle) : m'.synth.Songless := by
  induction hpassage with
  | nil => exact h
  | cons allowed _ ih =>
    exact ih (h.idle (hidle _ List.mem_cons_self) allowed)
      fun σ hσ => hidle σ (List.mem_cons_of_mem _ hσ)

/-! ### Updates -/

theorem monoSteps (h : s.Songless) (n : Nat) : ∀ σ ∈ s.monoSteps n, σ.Idle := by
  intro σ hσ
  rw [Synth.monoSteps] at hσ
  split at hσ
  next hpos =>
    have hprepare : s.prepareStretch ⟨n, hpos⟩ = (⟨n, hpos⟩, s) := by
      rw [prepareStretch, h.song]
      dsimp only
      rw [h.pending]
    have hturn : s.turnSteps ⟨n, hpos⟩ = [] := by
      rw [turnSteps, h.song]
      dsimp only
      rw [h.pending]
    rw [hprepare, hturn] at hσ
    dsimp only at hσ
    rw [Nat.sub_self, Synth.monoSteps, dif_neg (Nat.lt_irrefl 0)] at hσ
    obtain rfl := List.mem_singleton.mp hσ
    trivial
  next => cases hσ

theorem renderPass (h : s.Songless) (samples : Nat) : (s.renderPass samples).2.Songless :=
  h.passage (passage_mono s (samples / s.format.channels) 0 #[]) (h.monoSteps _)

theorem passesSteps (h : s.Songless) (limit : SomeFrames) (samples : Nat) :
    ∀ σ ∈ passesSteps limit s samples, σ.Idle := by
  fun_induction Synth.passesSteps limit s samples with
  | case1 s samples hpos n ih =>
    intro σ hσ
    rcases List.mem_append.mp hσ with hσ | hσ
    · exact h.monoSteps _ σ hσ
    · exact ih (h.renderPass n) σ hσ
  | case2 s samples hzero => exact List.forall_mem_nil _

theorem renderSteps (h : s.Songless) (samples : Nat) : ∀ σ ∈ s.renderSteps samples, σ.Idle := by
  have hbegun : (s.beginUpdate (samples / s.format.channels)).Songless :=
    ⟨h.song, h.pending, h.ensemble.of_same rfl rfl rfl, h.steady⟩
  intro σ hσ
  rcases List.mem_cons.mp hσ with rfl | hσ
  · trivial
  · rcases List.mem_append.mp hσ with hσ | hσ
    · exact hbegun.passesSteps _ samples σ hσ
    · obtain rfl := List.mem_singleton.mp hσ
      trivial

theorem render (h : s.Songless) (samples : Nat) : (s.render samples).2.Songless :=
  h.passage (passage_render s samples) (h.renderSteps samples)

theorem wordPassesSteps (h : s.Songless) (limit : SomeFrames) (samples : Nat) :
    ∀ σ ∈ wordPassesSteps limit s samples, σ.Idle := by
  fun_induction Synth.wordPassesSteps limit s samples with
  | case1 s samples hpos n ih =>
    intro σ hσ
    rcases List.mem_append.mp hσ with hσ | hσ
    · exact h.renderSteps n σ hσ
    · exact ih (h.render n) σ hσ
  | case2 s samples hzero => exact List.forall_mem_nil _

/-! ### Calls -/

/-- Without songs the only events are those of the caller. -/
theorem steps (h : s.Songless) {c : Call} (hfree : c.isSongFree = true) :
    (∃ e, c = .message (.event e)) ∨ ∀ σ ∈ s.steps c, σ.Idle := by
  cases c with
  | message m =>
    cases m with
    | event e => exact .inl ⟨e, rfl⟩
    | playSong id force repeats => cases hfree
    | playSound key trim => exact .inr (List.forall_mem_singleton.mpr trivial)
    | seek beats => exact .inr (List.forall_mem_singleton.mpr trivial)
    | allNotesOff => exact .inr (List.forall_mem_singleton.mpr trivial)
  | playSongBytes bytes repeats => cases hfree
  | render samples => exact .inr (h.renderSteps samples)
  | renderWords samples => exact .inr (h.wordPassesSteps s.passLength samples)
  | _ => exact .inr (List.forall_mem_singleton.mpr trivial)

theorem apply (h : s.Songless) {c : Call} (hfree : c.isSongFree = true) : (s.apply c).Songless := by
  rcases h.steps hfree with ⟨e, rfl⟩ | hidle
  · exact h.dispatch e
  · exact h.passage (passage_steps s c) hidle

theorem applies (h : s.Songless) {calls : List Call} (hfree : ∀ c ∈ calls, c.isSongFree = true) :
    (calls.foldl Synth.apply s).Songless := by
  induction calls generalizing s with
  | nil => exact h
  | cons c calls ih =>
    exact ih (h.apply (hfree c List.mem_cons_self)) fun d hd => hfree d (List.mem_cons_of_mem c hd)

end Songless

end Tonewheel.Synth
