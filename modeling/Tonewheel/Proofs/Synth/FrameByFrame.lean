import Mathlib.Logic.Function.Iterate
import Tonewheel.Proofs.Synth.Mono
import Tonewheel.Proofs.Synth.Seams

/-!
# Frame by frame

A pass asks only now and then which song plays, which voices are over and whose turn it is to draw
noise: at its start and where the song has events. If nothing changes there in between (`Steady`),
it comes to the same as its frames made one by one (`Steady.renderMono`).
-/

namespace Tonewheel.Synth

def playFrame (done : Block × Synth) : Block × Synth := done.2.renderMono 1 done.1

def signalState (done : Block × Synth) : Block × Synth := (done.1, done.2.mono)

theorem renderMono_signalState {done done' : Block × Synth}
    (h : signalState done = signalState done') (n : Nat) :
    signalState (done.2.renderMono n done.1) = signalState (done'.2.renderMono n done'.1) := by
  obtain ⟨hblock, hstate⟩ := Prod.ext_iff.mp h
  obtain ⟨hmade, hleft⟩ := renderMono_congr hstate n done.1
  have hblock' : done.1 = done'.1 := hblock
  rw [← hblock']
  exact Prod.ext hmade hleft

theorem playFrame_signalState {done done' : Block × Synth}
    (h : signalState done = signalState done') (n : Nat) :
    signalState (playFrame^[n] done) = signalState (playFrame^[n] done') := by
  induction n generalizing done done' with
  | zero => exact h
  | succ n ih =>
    rw [Function.iterate_succ_apply, Function.iterate_succ_apply]
    exact ih (renderMono_signalState h 1)

/-! ### Between two questions -/

/-- Whether the song has nothing to do for so many frames, and no other song waits. -/
def Sustains (s : Synth) (frames : Nat) : Prop :=
  s.pending = none ∧ ∀ p, s.song = some p → frames ≤ p.delay

theorem advanceSong_none {s : Synth} (h : s.song = none) (n : Nat) : s.advanceSong n = s := by
  unfold advanceSong
  rw [h, Option.map_none, ← h]

theorem Sustains.prepareStretch {s : Synth} {frames : Nat} (h : s.Sustains frames) {n : SomeFrames}
    (hn : n.val ≤ frames) : s.prepareStretch n = (n, s.advanceSong n.val) := by
  obtain ⟨hpending, hdelay⟩ := h
  unfold Synth.prepareStretch
  cases hsong : s.song with
  | none =>
    rw [hpending, advanceSong_none hsong]
  | some p =>
    have hlong := hdelay p hsong
    have hpositive : 0 < p.delay := Nat.lt_of_lt_of_le n.property (Nat.le_trans hn hlong)
    have hmin : min n.val p.delay = n.val := Nat.min_eq_left (Nat.le_trans hn hlong)
    have hrun : s.runSong p = (some ⟨p.delay, hpositive⟩, s) := by
      have hkept : ({ s with song := some p } : Synth) = s := by rw [← hsong]
      unfold runSong
      rw [Player.update_pending p hpositive]
      exact congrArg (Prod.mk _) hkept
    dsimp only
    rw [hrun]
    simp only [hmin]

theorem prepareStretch_end {s : Synth} {p : Player} (hsong : s.song = some p)
    (hnext : (s.runSong p).1 = none) (n : SomeFrames) :
    s.prepareStretch n = (n, (s.runSong p).2.endSong) := by
  unfold prepareStretch
  rw [hsong]
  dsimp only
  generalize s.runSong p = turned at hnext ⊢
  obtain ⟨frames, u⟩ := turned
  obtain rfl : frames = none := hnext
  rfl

theorem prepareStretch_delay {s : Synth} {p : Player} (hsong : s.song = some p)
    {delay : SomeFrames} (hnext : (s.runSong p).1 = some delay) (n : SomeFrames) :
    s.prepareStretch n
      = (⟨min n.val delay.val, Nat.lt_min.mpr ⟨n.property, delay.property⟩⟩,
          (s.runSong p).2.advanceSong (min n.val delay.val)) := by
  unfold prepareStretch
  rw [hsong]
  dsimp only
  generalize s.runSong p = turned at hnext ⊢
  obtain ⟨frames, u⟩ := turned
  obtain rfl : frames = some delay := hnext
  rfl

/-- Before a stretch the song does what it has to do, whatever the frames after it; then it has
nothing to do until it is asked again. -/
theorem exists_sustains {s : Synth} (hpending : s.pending = none) (n : SomeFrames) :
    ∃ u : Synth, u.Sustains (s.prepareStretch n).1.val
      ∧ (s.prepareStretch n).2 = u.advanceSong (s.prepareStretch n).1.val
      ∧ ∀ m : SomeFrames, m.val ≤ (s.prepareStretch n).1.val →
        s.prepareStretch m = (m, u.advanceSong m.val) := by
  have hidle : ∀ {u : Synth}, u.song = none → u.pending = none → u.Sustains n.val := by
    intro u hsong hpending
    refine ⟨hpending, fun p hp => ?_⟩
    rw [hsong] at hp
    cases hp
  cases hsong : s.song with
  | none =>
    have hprepare : ∀ m, s.prepareStretch m = (m, s) := by
      intro m
      unfold prepareStretch
      rw [hsong, hpending]
    rw [hprepare]
    exact ⟨s, hidle hsong hpending, (advanceSong_none hsong n.val).symm,
      fun m _ => by rw [hprepare, advanceSong_none hsong]⟩
  | some p =>
    have hturn := s.tracks_runSong p
    cases hnext : (s.runSong p).1 with
    | none =>
      have hend := tracks_endSong (s.runSong p).2
      have hended : (s.runSong p).2.endSong.song = none := song_of_tracks hend
      have hwaits : (s.runSong p).2.endSong.pending = none :=
        (pending_of_tracks hend).trans ((pending_of_tracks hturn).trans hpending)
      have hprepare := prepareStretch_end hsong hnext
      rw [hprepare]
      exact ⟨_, hidle hended hwaits, (advanceSong_none hended n.val).symm,
        fun m _ => by rw [hprepare, advanceSong_none hended]⟩
    | some delay =>
      have hdelay : (p.update false).2.delay = delay.val := by
        rw [runSong_eq hsong] at hnext
        cases houtcome : (p.update false).1.outcome with
        | error e =>
          rw [houtcome] at hnext
          cases hnext
        | ok frames =>
          rw [houtcome] at hnext
          obtain rfl : frames = some delay := hnext
          exact Player.update_delay houtcome
      have hprepare := prepareStretch_delay hsong hnext
      rw [hprepare]
      refine ⟨(s.runSong p).2, ⟨(pending_of_tracks hturn).trans hpending, fun q hq => ?_⟩, rfl,
        fun m hm => ?_⟩
      · obtain rfl : (p.update false).2 = q := Option.some.inj ((song_of_tracks hturn).symm.trans hq)
        rw [hdelay]
        exact Nat.min_le_right _ _
      · have hmin : min m.val delay.val = m.val :=
          Nat.min_eq_left (Nat.le_trans hm (Nat.min_le_right _ _))
        rw [hprepare]
        simp only [hmin]

theorem seamless_advanceSong {s : Synth} {m n : Nat} :
    (s.advanceSong m).Seamless n ↔ s.Seamless n :=
  ⟨fun h => ⟨h.voices, h.racks, h.noise⟩, fun h => ⟨h.voices, h.racks, h.noise⟩⟩

theorem advanceSong_add (s : Synth) (m n : Nat) :
    ((s.advanceSong m).advanceSong n).mono = (s.advanceSong (m + n)).mono := by
  have hsong : ((s.song.map fun p => p.advance m).map fun p => p.advance n).map Player.unclocked
      = (s.song.map fun p => p.advance (m + n)).map Player.unclocked := by
    cases s.song with
    | none => rfl
    | some p => exact congrArg some (p.advance_add m n).unclocked_eq
  exact (mono_songs s hsong rfl).trans (mono_songs s rfl rfl).symm

theorem Sustains.playFrame {s : Synth} {frames : Nat} (h : s.Sustains frames) (hframes : 0 < frames)
    (out : Block) :
    Synth.playFrame (out, s)
      = (out ++ (s.renderStretch 1).1, (s.renderStretch 1).2.advanceSong 1) := by
  unfold Synth.playFrame
  dsimp only
  rw [renderMono, dif_pos Nat.one_pos, h.prepareStretch (n := ⟨1, Nat.one_pos⟩) hframes]
  dsimp only
  rw [renderMono, dif_neg (Nat.lt_irrefl 0)]
  rfl

theorem Sustains.next {s : Synth} {frames : Nat} (h : s.Sustains (1 + frames)) :
    ((s.renderStretch 1).2.advanceSong 1).Sustains frames := by
  obtain ⟨hpending, hdelay⟩ := h
  refine ⟨hpending, fun q hq => ?_⟩
  obtain ⟨p, hp, rfl⟩ := Option.map_eq_some_iff.mp hq
  have hlong := hdelay p hp
  rw [Player.advance_delay]
  omega

theorem Sustains.frames {s : Synth} {n : Nat} (h : s.Sustains (n + 1))
    (hseamless : s.Seamless (n + 1)) (hpass : n + 1 ≤ passSamples) (out : Block) :
    signalState (Synth.playFrame^[n + 1] (out, s))
      = (out ++ (s.renderStretch (n + 1)).1,
          ((s.renderStretch (n + 1)).2.advanceSong (n + 1)).mono) := by
  induction n generalizing s out with
  | zero => rw [Function.iterate_one, h.playFrame Nat.one_pos]; rfl
  | succ n ih =>
    -- The song passes the frames one by one, which its clock may tell from all at once.
    rw [Nat.add_comm (n + 1) 1] at h hseamless hpass ⊢
    rw [Nat.add_comm 1 (n + 1), Function.iterate_succ_apply, h.playFrame (by omega),
      ih h.next (seamless_advanceSong.mpr (hseamless.renderStretch hpass)) (by omega),
      Nat.add_comm (n + 1) 1, hseamless.renderStretch_add (Nat.succ_pos n) hpass]
    exact Prod.ext Array.append_assoc
      (advanceSong_add ((s.renderStretch 1).2.renderStretch (n + 1)).2 1 (n + 1))

theorem frames_prepareStretch {s : Synth} (hpending : s.pending = none) {n len : SomeFrames}
    {t : Synth} (hprepare : s.prepareStretch n = (len, t)) (hseamless : t.Seamless len.val)
    (hpass : len.val ≤ passSamples) (out : Block) :
    signalState (playFrame^[len.val] (out, s))
      = signalState (out ++ (t.renderStretch len.val).1, (t.renderStretch len.val).2) := by
  obtain ⟨u, hsustains, hmade, hframes⟩ := exists_sustains hpending n
  rw [hprepare] at hsustains hmade hframes
  dsimp only at hsustains hmade hframes
  subst hmade
  -- Its first frame already leads to where all of them lead, the state after the song's turn.
  have hfirst : playFrame (out, s) = playFrame (out, u) := by
    unfold playFrame
    dsimp only
    rw [renderMono, dif_pos Nat.one_pos, renderMono, dif_pos Nat.one_pos,
      hframes ⟨1, Nat.one_pos⟩ len.property,
      hsustains.prepareStretch (n := ⟨1, Nat.one_pos⟩) len.property]
  obtain ⟨k, hk⟩ := Nat.exists_eq_succ_of_ne_zero (Nat.pos_iff_ne_zero.mp len.property)
  have hsame : playFrame^[len.val] (out, s) = playFrame^[len.val] (out, u) := by
    rw [hk, Function.iterate_succ_apply, Function.iterate_succ_apply, hfirst]
  rw [hsame]
  rw [hk] at hsustains hseamless hpass ⊢
  exact hsustains.frames (seamless_advanceSong.mp hseamless) hpass out

/-! ### Passes -/

def Step.makes? : Step → Option Nat
  | .stretch frames => some frames
  | _ => none

/-- Whether no song waits for another to die away in some steps, and all stretches they make can be
cut into frames. -/
def Steady : Synth → List Step → Prop :=
  Along (fun s => s.pending.isNone = true) fun s σ => ∀ frames ∈ σ.makes?, s.Seamless frames

instance (s : Synth) (steps : List Step) : Decidable (Steady s steps) :=
  Along.decide s steps

theorem Steady.renderMono {s : Synth} {n : Nat} (h : s.Steady (s.monoSteps n))
    (hpass : n ≤ passSamples) (out : Block) :
    signalState (s.renderMono n out) = signalState (playFrame^[n] (out, s)) := by
  fun_induction monoSteps s n generalizing out with
  | case1 s n hn len t hprepare ih =>
    obtain ⟨hturn, hmix⟩ := Along.split h n
    have hlen := s.prepareStretch_le ⟨n, hn⟩
    rw [← (passage_turn s ⟨n, hn⟩ n).eq_takes, hprepare] at hmix
    rw [hprepare] at hlen
    obtain ⟨-, hseamless, hrest⟩ := hmix
    have hfirst := frames_prepareStretch (Option.isNone_iff_eq_none.mp hturn.here) hprepare
      (hseamless _ rfl) (Nat.le_trans hlen hpass) out
    have hwhole : n = (n - len.val) + len.val := (Nat.sub_add_cancel hlen).symm
    rw [Synth.renderMono, dif_pos hn, hprepare]
    dsimp only
    rw [ih hrest (Nat.le_trans (Nat.sub_le n len.val) hpass)]
    conv_rhs => rw [hwhole, Function.iterate_add_apply]
    exact playFrame_signalState hfirst.symm (n - len.val)
  | case2 s n hn =>
    obtain rfl : n = 0 := Nat.eq_zero_of_not_pos hn
    rw [Synth.renderMono, dif_neg hn]
    rfl

end Tonewheel.Synth
