import Tonewheel.Proofs.Synth.Alike
import Tonewheel.Proofs.Synth.Attendance
import Tonewheel.Proofs.Synth.Interleaving

/-!
# Words and samples (SPEC_FULL, section 4.6)

The word output is made update by update, each no longer than a pass, where the sample output makes
one update of the whole length. The passes are the same, so the two can differ only in what goes by
updates: the dates of what begins, what is dropped of what has finished, and how far sounds are
printed ahead. Synthesizers that differ in no more than these sound alike and go on to do so
(`Alike.renderMono`), unless a note starts where there is no room for it (`Careful`); so the words
are the samples in 16 bits (`words_quantize`).
-/

namespace Tonewheel.Synth

/-- Whether no sound that is being printed has more than one voice of noise. -/
def FewNoises (s : Synth) : Prop :=
  ∀ job ∈ s.printers, Sound.noiseVoices job.printer.voices ≤ 1

def Step.needsRoom : Step → Bool
  | .event _ | .setUp _ _ => true
  | _ => false

/-- Whether some steps find room wherever they need it, and print no sound with more than one voice
of noise. -/
def Careful (since : Nat) : Synth → List Step → Prop :=
  Along FewNoises fun s σ => σ.needsRoom = true → s.Roomy since

instance (s : Synth) : Decidable s.FewNoises :=
  inferInstanceAs (Decidable (∀ job ∈ s.printers, Sound.noiseVoices job.printer.voices ≤ 1))

instance (since : Nat) (s : Synth) (steps : List Step) : Decidable (Careful since s steps) :=
  Along.decide s steps

theorem PrintsAhead.passage {m m' : Moment} {steps : List Step} (h : m.synth.PrintsAhead m.left)
    (hpassage : Passage m steps m') : m'.synth.PrintsAhead m'.left := by
  induction hpassage with
  | nil => exact h
  | cons allowed _ ih => exact ih (h.run allowed)

namespace Alike

variable {since : Nat} {s t : Synth} {left left' : Nat}

/-! ### Stretches -/

theorem renderStretch (h : s.Alike since t) (hs : s.PrintsAhead left) (ht : t.PrintsAhead left')
    {n : Nat} (hn : n ≤ left) (hn' : n ≤ left') :
    (s.renderStretch n).1 = (t.renderStretch n).1
      ∧ (s.renderStretch n).2.Alike since (t.renderStretch n).2 := by
  have hvoicesSame : renderVoices s.notes.sine n s.voices.entries s.noise (.silence n)
      = renderVoices t.notes.sine n s.voices.entries t.noise (.silence n) := by
    rw [h.notes, h.noise]
  have hracksSame : ∀ mixed, renderRacks s.notes.sine n s.racks.entries mixed
      = renderRacks t.notes.sine n s.racks.entries mixed := by
    intro mixed
    rw [h.notes]
  have hread : ∀ p ∈ t.playbacks.entries, p.isDefunct = false →
      (t.shelf.read p.pcm).extract p.position (p.position + n)
        = (s.shelf.read p.pcm).extract p.position (p.position + n) := by
    intro p hp hlive
    obtain ⟨p', hp', hsame⟩ := h.playbacks.mem hp hlive
    obtain rfl : p' = p := hsame
    have hcovered := hs.playbacks p' hp'
    exact ((h.sounds p'.pcm hcovered.held).extract hcovered (ht.playbacks p' hp) hn hn').symm
  obtain ⟨hmixed, hvoices, hnoise⟩ :=
    alike_renderVoices h.voices t.notes.sine n t.noise (.silence n)
  unfold Synth.renderStretch
  dsimp only
  rw [hvoicesSame, hmixed, hracksSame]
  generalize (renderVoices t.notes.sine n t.voices.entries t.noise (.silence n)).1 = mixed
  obtain ⟨hmixed', hracks⟩ := alike_renderRacks h.racks t.notes.sine n mixed
  rw [hmixed']
  obtain ⟨hblock, hplaybacks⟩ := alike_renderPlaybacks h.playbacks n
    (renderRacks t.notes.sine n t.racks.entries mixed).1
    (fun p hp _ => (hs.playbacks p hp).length) (fun p hp _ => (ht.playbacks p hp).length) hread
  exact ⟨hblock,
    { h with voices := hvoices, racks := hracks, playbacks := hplaybacks, noise := hnoise }⟩

/-! ### Updates -/

theorem beginUpdates (hs : s.PrintsAhead 0) (hnoises : s.FewNoises) {frames frames' : Nat}
    (hframes : 0 < frames) (hframes' : 0 < frames') :
    (s.beginUpdate frames).Alike s.framesMade (s.beginUpdate frames') := by
  have hsize : ∀ frames, (s.beginUpdate frames).shelf.buffers.size = s.shelf.buffers.size :=
    fun frames => runPrinters_size frames s.printers s.shelf
  refine
    { format := rfl, notes := rfl, resources := rfl, cache := rfl, channels := rfl, programs := rfl
      song := rfl, pending := rfl, custom := rfl, noise := rfl, voices := .refl _ _
      racks := .refl _ _, playbacks := .refl _ _, buffers := ?_, sounds := fun pcm _ => ?_
      late := Nat.lt_add_of_pos_right hframes, late' := Nat.lt_add_of_pos_right hframes' }
  · rw [hsize, hsize]
  · by_cases hidle : s.Idle pcm
    · obtain ⟨hidle₁, hread₁⟩ := hidle.beginUpdate hs frames
      obtain ⟨hidle₂, hread₂⟩ := hidle.beginUpdate hs frames'
      exact .inl ⟨hidle₁, hidle₂, hread₁.trans hread₂.symm⟩
    · obtain ⟨job, hjob, rfl⟩ := s.exists_of_not_idle hidle
      obtain ⟨first, hfresh, hsame, hprints⟩ := hs.prints hjob
      exact .inr ⟨first, hfresh, hsame ▸ hnoises job hjob, hprints.beginUpdate hs frames,
        hprints.beginUpdate hs frames'⟩

/-- Where one update goes on, another can end and a new one begin. -/
theorem nextUpdate (h : s.Alike since t) (ht : t.PrintsAhead 0) (frames : Nat) :
    s.Alike since (t.endUpdate.beginUpdate frames) := by
  have hended := ht.endUpdate
  have hsize : (t.endUpdate.beginUpdate frames).shelf.buffers.size = t.shelf.buffers.size :=
    runPrinters_size frames t.printers t.shelf
  refine { h with
    voices := h.voices.reap fun _ => rfl
    racks := h.racks.reap fun _ => rfl
    playbacks := h.playbacks.reap fun _ => rfl
    buffers := h.buffers.trans hsize.symm
    sounds := fun pcm hheld => ?_
    late' := Nat.lt_of_lt_of_le h.late' (Nat.le_add_right _ _) }
  rcases h.sounds pcm hheld with ⟨hidle, hidle', hread⟩ | ⟨first, hfresh, hnoise, hprints, hprints'⟩
  · have hidleEnded : t.endUpdate.Idle pcm := hidle'
    obtain ⟨hidleNext, hreadNext⟩ := hidleEnded.beginUpdate hended frames
    exact .inl ⟨hidle, hidleNext, hread.trans hreadNext.symm⟩
  · have hprintsEnded : t.endUpdate.Prints first pcm := hprints'
    exact .inr ⟨first, hfresh, hnoise, hprints, hprintsEnded.beginUpdate hended frames⟩

/-! ### Turns -/

theorem turnSteps (h : s.Alike since t) (n : SomeFrames) : s.turnSteps n = t.turnSteps n := by
  unfold Synth.turnSteps
  rw [h.song, h.pending, h.hasSongVoices]

theorem prepareStretch_frames (h : s.Alike since t) (n : SomeFrames) :
    (s.prepareStretch n).1 = (t.prepareStretch n).1 := by
  unfold Synth.prepareStretch
  rw [h.song, h.pending, h.hasSongVoices]
  cases hsong : t.song with
  | some p =>
    dsimp only
    rw [runSong_eq (h.song.trans hsong), runSong_eq hsong]
    generalize (p.update false).1.outcome = outcome
    cases outcome with
    | error e => rfl
    | ok frames =>
      cases frames with
      | none => rfl
      | some frames => rfl
  | none =>
    cases t.pending with
    | none => rfl
    | some p =>
      dsimp only
      split
      · rfl
      · rfl

theorem run (h : s.Alike since t) (hs : s.PrintsAhead left) (ht : t.PrintsAhead left') {σ : Step}
    (hσ : σ.OfTurn) (hroom : σ.needsRoom = true → s.Roomy since) (hnoises : (σ.run s).FewNoises) :
    (σ.run s).Alike since (σ.run t) := by
  cases σ with
  | event e => exact h.dispatch (hroom rfl) hs ht hσ hnoises
  | setUp i record => exact h.setUpChannel (hroom rfl) i record
  | endSong => exact h.endSong
  | takeOver song => exact h.takeOver song
  | turn => exact h.turn
  | advance frames => exact h.advanceSong frames
  | _ => cases hσ

theorem passage {steps : List Step} {m m' : Moment} (h : s.Alike since t) (hs : s.PrintsAhead left)
    (ht : t.PrintsAhead left') (hsteps : ∀ σ ∈ steps, σ.OfTurn) (hcareful : Careful since s steps)
    (hpassage : Passage ⟨s, left⟩ steps m) (hpassage' : Passage ⟨t, left'⟩ steps m') :
    m.synth.Alike since m'.synth := by
  induction steps generalizing s t left left' with
  | nil =>
    cases hpassage
    cases hpassage'
    exact h
  | cons σ steps ih =>
    obtain ⟨-, hroom, hrest⟩ := hcareful
    cases hpassage with
    | cons allowed rest =>
      cases hpassage' with
      | cons allowed' rest' =>
        have hnext := h.run hs ht (hsteps σ List.mem_cons_self) hroom hrest.here
        exact ih hnext (hs.run allowed) (ht.run allowed')
          (fun τ hτ => hsteps τ (List.mem_cons_of_mem σ hτ)) hrest rest rest'

theorem prepareStretch (h : s.Alike since t) (hs : s.PrintsAhead left) (ht : t.PrintsAhead left')
    {n : SomeFrames} (hcareful : Careful since s (s.turnSteps n)) :
    (s.prepareStretch n).2.Alike since (t.prepareStretch n).2 := by
  have hpassage' := passage_turn t n left'
  rw [← h.turnSteps n] at hpassage'
  exact h.passage hs ht (s.ofTurn_turn n) hcareful (passage_turn s n left) hpassage'

/-! ### Passes -/

theorem renderMono {n : Nat} (h : s.Alike since t) (hs : s.PrintsAhead (n + left))
    (ht : t.PrintsAhead (n + left')) (hcareful : Careful since s (s.monoSteps n)) (out : Block) :
    (s.renderMono n out).1 = (t.renderMono n out).1
      ∧ (s.renderMono n out).2.Alike since (t.renderMono n out).2 := by
  fun_induction monoSteps s n generalizing t out with
  | case1 s n hn len u hprepare ih =>
    obtain ⟨hturn, hmix⟩ := hcareful.split (n + left)
    have hlen := prepareStretch_le s ⟨n, hn⟩
    have hlen' := h.prepareStretch_frames ⟨n, hn⟩
    have halike := h.prepareStretch hs ht hturn
    have hpassage := passage_turn s ⟨n, hn⟩ (n + left)
    have hu := hs.passage hpassage
    have hu' := ht.passage (passage_turn t ⟨n, hn⟩ (n + left'))
    rw [← hpassage.eq_takes] at hmix
    unfold Synth.renderMono
    rw [dif_pos hn, dif_pos hn]
    generalize t.prepareStretch ⟨n, hn⟩ = prepared at hlen' halike hu'
    obtain ⟨len', u'⟩ := prepared
    rw [hprepare] at hlen hlen' halike hmix hu
    obtain rfl : len = len' := hlen'
    rw [hprepare]
    dsimp only at hlen halike hmix hu hu'
    obtain ⟨hblock, hnext⟩ := halike.renderStretch hu hu' (n := len.val) (by omega) (by omega)
    dsimp only
    rw [hblock]
    have hleft : n + left - len.val = n - len.val + left := by omega
    have hleft' : n + left' - len.val = n - len.val + left' := by omega
    exact ih hnext (hleft ▸ hu.renderStretch (by omega)) (hleft' ▸ hu'.renderStretch (by omega))
      hmix.2.2 _
  | case2 s n hn =>
    unfold Synth.renderMono
    rw [dif_neg hn, dif_neg hn]
    exact ⟨rfl, h⟩

theorem renderPass {samples : Nat} (h : s.Alike since t)
    (hs : s.PrintsAhead (samples / s.format.channels + left))
    (ht : t.PrintsAhead (samples / s.format.channels + left'))
    (hcareful : Careful since s (s.monoSteps (samples / s.format.channels))) :
    (s.renderPass samples).1 = (t.renderPass samples).1
      ∧ (s.renderPass samples).2.Alike since (t.renderPass samples).2 := by
  obtain ⟨hblock, hnext⟩ := h.renderMono hs ht hcareful #[]
  unfold Synth.renderPass
  rw [← h.format]
  dsimp only
  rw [hblock]
  exact ⟨rfl, hnext⟩

end Alike

theorem PrintsAhead.renderPass {s : Synth} {samples left : Nat}
    (h : s.PrintsAhead (samples / s.format.channels + left)) :
    (s.renderPass samples).2.PrintsAhead left :=
  h.passage (passage_mono s (samples / s.format.channels) left #[])

/-- A pass without a whole frame goes by nothing but the format. -/
theorem renderPass_frameless {s t : Synth} (hformat : t.format = s.format) {samples : Nat}
    (h : samples / s.format.channels = 0) : (s.renderPass samples).1 = (t.renderPass samples).1 := by
  have hnone : ∀ u : Synth, u.renderMono 0 #[] = (#[], u) := by
    intro u
    unfold renderMono
    rw [dif_neg (Nat.lt_irrefl 0)]
  unfold Synth.renderPass
  dsimp only
  rw [hformat, h, hnone, hnone]

theorem render_short (s : Synth) {samples : Nat} (hpos : 0 < samples)
    (hshort : samples ≤ s.passLength.val) :
    s.render samples
      = (((s.beginUpdate (samples / s.format.channels)).renderPass samples).1,
          ((s.beginUpdate (samples / s.format.channels)).renderPass samples).2.endUpdate) := by
  unfold render
  dsimp only
  rw [renderPasses, dif_pos hpos, Nat.min_eq_left hshort]
  dsimp only
  rw [Nat.sub_self, renderPasses, dif_neg (Nat.lt_irrefl 0), Array.empty_append]

/-- Whether a synthesizer between two updates sounds alike to one inside an update, once it begins a
new one. -/
structure Between (since : Nat) (s t : Synth) : Prop where
  format : t.format = s.format
  ahead : t.PrintsAhead 0
  alike : ∀ frames, 0 < frames → s.Alike since (t.beginUpdate frames)

/-- Where one makes a pass, the other makes an update. -/
theorem Between.renderPass {since n left : Nat} {s t : Synth} (h : Between since s t)
    (hs : s.PrintsAhead (n / s.format.channels + left)) (hpos : 0 < n)
    (hshort : n ≤ t.passLength.val)
    (hcareful : Careful since s (s.monoSteps (n / s.format.channels))) :
    (s.renderPass n).1 = (t.render n).1
      ∧ (0 < n / s.format.channels → Between since (s.renderPass n).2 (t.render n).2) := by
  have hformat : (t.beginUpdate (n / s.format.channels)).format = s.format := h.format
  have hbegun : (t.beginUpdate (n / s.format.channels)).PrintsAhead (n / s.format.channels + 0) :=
    h.ahead.beginUpdate (n / s.format.channels)
  have hended : ((t.beginUpdate (n / s.format.channels)).renderPass n).2.PrintsAhead 0 :=
    PrintsAhead.renderPass (hformat.symm ▸ hbegun)
  have hpass (hwhole : 0 < n / s.format.channels) :=
    (h.alike _ hwhole).renderPass hs hbegun hcareful
  rw [t.render_short hpos hshort, h.format]
  refine ⟨?_, fun hwhole => ⟨?_, ?_, fun frames _ => ?_⟩⟩
  · rcases Nat.eq_zero_or_pos (n / s.format.channels) with hnone | hwhole
    · exact renderPass_frameless hformat hnone
    · exact (hpass hwhole).1
  · show ((t.beginUpdate (n / s.format.channels)).renderPass n).2.format = _
    rw [format_renderPass, format_renderPass, hformat]
  · exact hended.endUpdate
  · exact (hpass hwhole).2.nextUpdate hended frames

theorem passLength_eq {s t : Synth} (h : t.format = s.format) : t.passLength = s.passLength :=
  Subtype.ext (congrArg Format.passLimit h)

theorem Between.renderWordPasses {since samples : Nat} {s t : Synth} {limit : SomeFrames}
    (h : Between since s t) (hlimit : limit = s.passLength)
    (hs : s.PrintsAhead (samples / s.format.channels))
    (hcareful : Careful since s (passesSteps limit s samples)) (out : Block) :
    (renderWordPasses limit t samples (out.map wordOfSample)).1
      = (renderPasses limit s samples out).1.map wordOfSample := by
  induction samples using Nat.strongRecOn generalizing s t out with
  | ind samples ih =>
    rw [passesSteps] at hcareful
    rw [Synth.renderWordPasses, renderPasses]
    by_cases hmore : 0 < samples
    · have hdvd : s.format.channels ∣ limit.val := hlimit ▸ Nat.dvd_mul_left _ _
      have hsplit : min samples limit.val / s.format.channels
            + (samples - min samples limit.val) / s.format.channels
          = samples / s.format.channels :=
        Recording.frames_split s.format.channels_pos hdvd
      have hshort : min samples limit.val ≤ t.passLength.val := by
        rw [passLength_eq h.format, ← hlimit]
        exact Nat.min_le_right _ _
      have hpos : 0 < min samples limit.val := Nat.lt_min.mpr ⟨hmore, limit.property⟩
      rw [dif_pos hmore] at hcareful
      rw [dif_pos hmore, dif_pos hmore]
      dsimp only at hcareful ⊢
      generalize hn : min samples limit.val = n at hsplit hshort hpos hcareful ⊢
      obtain ⟨hmono, hrest⟩ := hcareful.split (samples / s.format.channels)
      rw [← hsplit] at hs hrest
      rw [← (passage_mono s (n / s.format.channels) _ #[]).eq_takes] at hrest
      obtain ⟨hblock, hnext⟩ := h.renderPass hs hpos hshort hmono
      rw [← hblock, ← Array.map_append]
      rcases Nat.eq_zero_or_pos (samples - n) with hlast | hrestPos
      · rw [hlast, Synth.renderWordPasses, renderPasses, dif_neg (Nat.lt_irrefl 0),
          dif_neg (Nat.lt_irrefl 0)]
      · have hwhole : 0 < n / s.format.channels := by
          have hfull : n = limit.val := by omega
          rw [hfull]
          exact Nat.div_pos (Nat.le_of_dvd limit.property hdvd) s.format.channels_pos
        have hformat := format_renderPass s n
        refine ih _ (by omega) (hnext hwhole) (hlimit.trans (passLength_eq hformat).symm) ?_ hrest _
        rw [hformat]
        exact hs.renderPass
    · rw [dif_neg hmore, dif_neg hmore]

theorem Reachable.printsAhead {s : Synth} (h : s.Reachable) : s.PrintsAhead 0 := by
  obtain ⟨format, calls, k, hmoment⟩ := h.moment
  have hahead := PrintsAhead.after format calls k
  rw [hmoment] at hahead
  exact hahead

theorem renderWords_short (s : Synth) {n : Nat} (hshort : n ≤ s.passLength.val) :
    (s.renderWords n).1 = (s.render n).1.map wordOfSample := by
  unfold renderWords
  rw [renderWordPasses]
  rcases Nat.eq_zero_or_pos n with rfl | hpos
  · unfold render
    dsimp only
    rw [dif_neg (Nat.lt_irrefl 0), renderPasses, dif_neg (Nat.lt_irrefl 0), Array.map_empty]
  · rw [dif_pos hpos, Nat.min_eq_left hshort]
    dsimp only
    rw [Nat.sub_self, renderWordPasses, dif_neg (Nat.lt_irrefl 0), Array.empty_append]

/-- The words of an update are its samples in 16 bits, if it is no longer than a pass or if all notes
that start in it find room and no sound that is being printed has more than one voice of noise. -/
theorem words_quantize (s : Synth) (hreach : s.Reachable) (n : Nat)
    (hcareful : n ≤ s.passLength.val ∨ Careful s.framesMade s (s.renderSteps n)) :
    (s.renderWords n).1 = (s.render n).1.map wordOfSample := by
  rcases Nat.lt_or_ge s.passLength.val n with hlong | hshort
  · have hahead := hreach.printsAhead
    have hwhole : 0 < n / s.format.channels := by
      have hframe : s.format.channels ≤ s.passLength.val :=
        Nat.le_of_dvd s.passLength.property (Nat.dvd_mul_left _ _)
      exact Nat.div_pos (by omega) s.format.channels_pos
    have hwords := hcareful.resolve_left (Nat.not_le.mpr hlong)
    have hbetween : Between s.framesMade (s.beginUpdate (n / s.format.channels)) s :=
      ⟨rfl, hahead, fun frames hframes =>
        Alike.beginUpdates hahead hwords.here hwhole hframes⟩
    obtain ⟨-, -, hrest⟩ := hwords
    have hpasses := hbetween.renderWordPasses rfl (hahead.beginUpdate _)
      (hrest.split (n / s.format.channels)).1 #[]
    rw [Array.map_empty] at hpasses
    exact hpasses
  · exact s.renderWords_short hshort

/-! ### A crowd -/

/-- Passes of 128 frames, at 200 frames a second. -/
def wide : Format where
  rate := 200
  channels := 8
  rate_legal := slow_legal
  channels_pos := Nat.succ_pos 7
  channels_le := Nat.le_refl 8

/-- A song of blips without settings for its channels: some at once, some after 116 frames and some
12 frames later, which is where the second pass begins. -/
def blipSong (atOnce middle late : Nat) : Bytes :=
  Song.signature ++ [0x01, 0xf4, 0x00, 0x2a, 0x00, 0x2a] ++ List.replicate 32 0x00
    ++ blips atOnce ++ [0x7f, 0x7f, 0x7f, 0x7f, 0x50] ++ blips middle ++ [0x3c] ++ blips late ++ [0x7f]
where
  blips (n : Nat) : Bytes := (List.replicate n [0x9c, 0x3c]).flatten

def blipSynth (atOnce middle late : Nat) : Synth :=
  [Call.playSongBytes (blipSong atOnce middle late) false].foldl apply (ofFormat wide)

theorem reachable_blipSynth (atOnce middle late : Nat) : (blipSynth atOnce middle late).Reachable :=
  ⟨_, _, rfl⟩

theorem words_quantize_blips :
    (blipSynth 1 0 2).passLength.val < 1032
      ∧ Careful (blipSynth 1 0 2).framesMade (blipSynth 1 0 2) ((blipSynth 1 0 2).renderSteps 1032)
      ∧ ((blipSynth 1 0 2).renderWords 1032).1
        = ((blipSynth 1 0 2).render 1032).1.map wordOfSample := by
  have hcareful : Careful (blipSynth 1 0 2).framesMade (blipSynth 1 0 2)
      ((blipSynth 1 0 2).renderSteps 1032) := by
    decide +kernel
  exact ⟨by decide +kernel, hcareful,
    words_quantize _ (reachable_blipSynth 1 0 2) 1032 (.inr hcareful)⟩

theorem render_two (s : Synth) {n : Nat} (hlong : s.passLength.val < n)
    (htwo : n ≤ s.passLength.val + s.passLength.val) :
    (s.render n).1
      = ((s.beginUpdate (n / s.format.channels)).renderPass s.passLength.val).1
        ++ (((s.beginUpdate (n / s.format.channels)).renderPass s.passLength.val).2.renderPass
          (n - s.passLength.val)).1 := by
  unfold render
  dsimp only
  rw [renderPasses_long (Nat.le_of_lt hlong), renderPasses_short (by omega), Array.empty_append]

theorem renderWords_two (s : Synth) {n : Nat} (hlong : s.passLength.val < n)
    (htwo : n ≤ s.passLength.val + s.passLength.val) :
    (s.renderWords n).1
      = (s.render s.passLength.val).1.map wordOfSample
        ++ ((s.render s.passLength.val).2.render (n - s.passLength.val)).1.map wordOfSample := by
  have hfirst : min n s.passLength.val = s.passLength.val := Nat.min_eq_right (by omega)
  have hsecond : min (n - s.passLength.val) s.passLength.val = n - s.passLength.val :=
    Nat.min_eq_left (by omega)
  unfold renderWords
  rw [renderWordPasses, dif_pos (by omega), hfirst]
  dsimp only
  rw [renderWordPasses, dif_pos (by omega), hsecond]
  dsimp only
  rw [Nat.sub_self, renderWordPasses, dif_neg (Nat.lt_irrefl 0), Array.empty_append]

/-- When all voices are taken by blips that began at once, each of two more takes the place of the
first of them in one update, so the second replaces the first; in two updates it replaces the next. -/
theorem words_miss_crowd :
    ¬ ∀ s : Synth, s.Reachable → ∀ n, (s.renderWords n).1 = (s.render n).1.map wordOfSample := by
  intro hall
  have hwords := hall (blipSynth 0 32 2) (reachable_blipSynth 0 32 2) 1032
  have hpass : (blipSynth 0 32 2).passLength.val = 1024 := by decide +kernel
  have hfloats := render_two (blipSynth 0 32 2) (n := 1032) (by omega) (by omega)
  have hints := renderWords_two (blipSynth 0 32 2) (n := 1032) (by omega) (by omega)
  rw [hfloats, hints, hpass, Array.map_append] at hwords
  have hsecond := Array.append_inj_right hwords (by
    rw [Array.size_map, Array.size_map, size_render, size_renderPass])
  have hsample := congrArg (·[0]?) hsecond
  rw [Array.getElem?_map, Array.getElem?_map] at hsample
  have hint : ((((blipSynth 0 32 2).render 1024).2.render (1032 - 1024)).1[0]?).map wordOfSample
      = some (-2336) := by
    decide +kernel
  have hfloat : (((((blipSynth 0 32 2).beginUpdate (1032 / (blipSynth 0 32 2).format.channels)
      ).renderPass 1024).2.renderPass (1032 - 1024)).1[0]?).map wordOfSample = some (-1168) := by
    decide +kernel
  have hsame := hint.symm.trans (hsample.trans hfloat)
  exact absurd hsame (by decide)

end Tonewheel.Synth
