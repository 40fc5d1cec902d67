import Mathlib.Algebra.Ring.Nat
import Tonewheel.Proofs.Synth.Sequencing

/-!
# Calls as steps

A call is a list of small steps (`Synth.steps`), so that what holds inside a call can be said as
well as what holds after it: an update, for one, begins, lets the song take its turns, mixes one
stretch after another and is finished. A moment is a synthesizer between two steps. It keeps the
frames that the update in progress still has to make, all of which are mixed before the update is
finished. What the steps of a call may count on where they are taken is `Step.Allowed`; the steps of
all calls keep to it (`passage_history`), so what allowed steps keep holds at every moment of every
history (`Moment.after_invariant`).
-/

namespace Tonewheel.Synth

inductive Step where
  | event (event : Event)
  | playSound (key : SoundKey) (trim : Float32)
  | playSoundBytes (bytes : Bytes) (trim : Float32)
  | clearCache
  | setCustom (custom : Option Definition)
  | setResources (store : Store)
  | seek (beats : Float)
  | releaseAll
  /-- Another song waits, or none. -/
  | wait (song : Option Player)
  | endSong
  /-- A song, or nothing, takes the first channels for itself. -/
  | takeOver (song : Option Player)
  | setUp (i : Fin channelCount) (record : ChannelRecord)
  | begin (frames : Nat)
  /-- The song reads on to its next delay. -/
  | turn
  | advance (frames : Nat)
  | stretch (frames : Nat)
  | finish

namespace Step

def run (s : Synth) : Step → Synth
  | .event e => s.dispatch e
  | .playSound key trim => s.playSound key trim
  | .playSoundBytes bytes trim => s.playSoundBytes bytes trim
  | .clearCache => s.clearCache
  | .setCustom custom => s.setCustom custom
  | .setResources store => s.setResources store
  | .seek beats => s.seek beats
  | .releaseAll => s.releaseAll
  | .wait song => { s with pending := song }
  | .endSong => s.endSong
  | .takeOver song => { s with song, pending := none }.clearSongChannels
  | .setUp i record => s.setUpChannel i record
  | .begin frames => s.beginUpdate frames
  | .turn => { s with song := s.song.map fun p => (p.update false).2 }
  | .advance frames => s.advanceSong frames
  | .stretch frames => (s.renderStretch frames).2
  | .finish => s.endUpdate

/-- The frames that an update still has to make after a step. -/
def leaves (left : Nat) : Step → Nat
  | .begin frames => frames
  | .stretch frames => left - frames
  | _ => left

theorem format_run (s : Synth) (step : Step) : (step.run s).format = s.format := by
  cases step with
  | event e => exact format_of_tracks (tracks_dispatch s e)
  | playSound key trim => exact format_of_tracks (tracks_playSound s key trim)
  | playSoundBytes bytes trim => exact format_of_tracks (tracks_playSoundBytes s bytes trim)
  | seek beats =>
    show (s.seek beats).format = s.format
    unfold Synth.seek
    split <;> rfl
  | endSong => exact format_of_tracks (tracks_endSong s)
  | setUp i record => exact format_of_tracks (tracks_setUpChannel s i record)
  | _ => rfl

end Step

/-! ### Moments -/

/-- A synthesizer between two steps, and the frames its update in progress still has to make. -/
structure Moment where
  synth : Synth
  left : Nat := 0

namespace Moment

def take (m : Moment) (step : Step) : Moment :=
  { synth := step.run m.synth, left := step.leaves m.left }

def takes (m : Moment) (steps : List Step) : Moment := steps.foldl take m

theorem takes_append (m : Moment) (steps more : List Step) :
    m.takes (steps ++ more) = (m.takes steps).takes more :=
  List.foldl_append

theorem format_takes (m : Moment) (steps : List Step) :
    (m.takes steps).synth.format = m.synth.format := by
  induction steps generalizing m with
  | nil => rfl
  | cons step steps ih => exact (ih (m.take step)).trans (step.format_run m.synth)

end Moment

/-- What a step counts on. Songs change when nothing of the last one sounds; their channels are set
up where none is; updates do not overlap, and make all frames they began with and no more. -/
def Step.Allowed (m : Moment) : Step → Prop
  | .takeOver _ => m.synth.song = none ∧ m.synth.hasSongVoices = false
  | .setUp i _ => m.synth.channels.get i = none
  | .begin _ => m.left = 0
  | .stretch frames => frames ≤ m.left
  | .finish => m.left = 0
  | _ => True

inductive Passage : Moment → List Step → Moment → Prop where
  | nil (m : Moment) : Passage m [] m
  | cons {m m' : Moment} {step : Step} {steps : List Step} (allowed : step.Allowed m)
      (rest : Passage (m.take step) steps m') : Passage m (step :: steps) m'

namespace Passage

variable {m m' m'' : Moment} {steps more : List Step}

theorem one {step : Step} (allowed : step.Allowed m) : Passage m [step] (m.take step) :=
  .cons allowed (.nil _)

theorem append (first : Passage m steps m') (second : Passage m' more m'') :
    Passage m (steps ++ more) m'' := by
  induction first with
  | nil => exact second
  | cons allowed _ ih => exact .cons allowed (ih second)

theorem eq_takes (h : Passage m steps m') : m' = m.takes steps := by
  induction h with
  | nil => rfl
  | cons _ _ ih => exact ih

/-- A passage leads through the moment after any first part of its steps. -/
theorem split (h : Passage m (steps ++ more) m'') :
    Passage m steps (m.takes steps) ∧ Passage (m.takes steps) more m'' := by
  induction steps generalizing m with
  | nil => exact ⟨.nil m, h⟩
  | cons step steps ih =>
    cases h with
    | cons allowed rest =>
      obtain ⟨first, second⟩ := ih rest
      exact ⟨.cons allowed first, second⟩

end Passage

/-! ### What holds along some steps -/

/-- Whether some steps lead through states with a property only, and each is taken where it is good
to take. -/
def Along (holds : Synth → Prop) (good : Synth → Step → Prop) : Synth → List Step → Prop
  | s, [] => holds s
  | s, step :: steps => holds s ∧ good s step ∧ Along holds good (step.run s) steps

namespace Along

variable {holds : Synth → Prop} {good : Synth → Step → Prop} {s : Synth} {steps more : List Step}

instance decide [DecidablePred holds] [∀ s step, Decidable (good s step)] :
    (s : Synth) → (steps : List Step) → Decidable (Along holds good s steps)
  | s, [] => inferInstanceAs (Decidable (holds s))
  | s, step :: steps =>
    have := decide (step.run s) steps
    inferInstanceAs (Decidable (holds s ∧ good s step ∧ Along holds good (step.run s) steps))

theorem here (h : Along holds good s steps) : holds s := by
  cases steps with
  | nil => exact h
  | cons step steps => exact h.1

theorem split (h : Along holds good s (steps ++ more)) (left : Nat) :
    Along holds good s steps ∧ Along holds good ((Moment.mk s left).takes steps).synth more := by
  induction steps generalizing s left with
  | nil => exact ⟨h.here, h⟩
  | cons step steps ih =>
    obtain ⟨hhere, hgood, hrest⟩ := h
    obtain ⟨hfirst, hsecond⟩ := ih hrest (step.leaves left)
    exact ⟨⟨hhere, hgood, hfirst⟩, hsecond⟩

end Along

/-! ### The steps of a call -/

def takeOverSteps (song : Option Player) : List Step :=
  .takeOver song ::
    match song with
    | none => []
    | some p => songIndices.map fun i => .setUp i (p.song.record i.val)

def installSteps (s : Synth) (song : Option Player) : List Step :=
  if s.song.isNone && s.pending.isNone && !s.hasSongVoices then takeOverSteps song
  else [.wait song, .endSong]

def playSongSteps (s : Synth) (id : ResourceId) (force repeats : Bool) : List Step :=
  if !force && s.upcoming.any (·.isResource id) then []
  else
    match s.lookup ⟨.song, id.1, id.2⟩ with
    | none => s.installSteps none
    | some [] => s.installSteps none
    | some bytes =>
      match Player.make s.format.rate bytes repeats (some id) with
      | .ok p => s.installSteps (some p)
      | .error _ => []

def playSongBytesSteps (s : Synth) (bytes : Bytes) (repeats : Bool) : List Step :=
  if bytes.isEmpty then [.wait none, .endSong]
  else
    match Player.make s.format.rate bytes repeats none with
    | .ok p => s.installSteps (some p)
    | .error _ => []

def messageSteps (s : Synth) : Message → List Step
  | .event e => [.event e]
  | .playSong id force repeats => s.playSongSteps id force repeats
  | .playSound key trim => [.playSound key trim]
  | .seek beats => [.seek beats]
  | .allNotesOff => [.releaseAll]

/-- The song's turn before a stretch of at most `n` frames. -/
def turnSteps (s : Synth) (n : SomeFrames) : List Step :=
  match s.song with
  | some p =>
    .turn :: (p.update false).1.events.map .event ++
      match (p.update false).1.outcome with
      | .ok (some delay) => [.advance (min n.val delay.val)]
      | _ => [.endSong]
  | none =>
    match s.pending with
    | some p => if s.hasSongVoices then [] else takeOverSteps (some p)
    | none => []

def monoSteps (s : Synth) (n : Nat) : List Step :=
  if h : 0 < n then
    let (len, t) := s.prepareStretch ⟨n, h⟩
    s.turnSteps ⟨n, h⟩ ++ .stretch len.val :: (t.renderStretch len.val).2.monoSteps (n - len.val)
  else []
  termination_by n
  decreasing_by
    have := len.property
    omega

def passesSteps (limit : SomeFrames) (s : Synth) (samples : Nat) : List Step :=
  if _h : 0 < samples then
    let n := min samples limit.val
    s.monoSteps (n / s.format.channels) ++ passesSteps limit (s.renderPass n).2 (samples - n)
  else []
  termination_by samples
  decreasing_by
    have := limit.property
    omega

def renderSteps (s : Synth) (samples : Nat) : List Step :=
  let frames := samples / s.format.channels
  .begin frames :: passesSteps s.passLength (s.beginUpdate frames) samples ++ [.finish]

def wordPassesSteps (limit : SomeFrames) (s : Synth) (samples : Nat) : List Step :=
  if _h : 0 < samples then
    let n := min samples limit.val
    s.renderSteps n ++ wordPassesSteps limit (s.render n).2 (samples - n)
  else []
  termination_by samples
  decreasing_by
    have := limit.property
    omega

def steps (s : Synth) : Call → List Step
  | .message m => s.messageSteps m
  | .playSongBytes bytes repeats => s.playSongBytesSteps bytes repeats
  | .playSoundBytes bytes trim => [.playSoundBytes bytes trim]
  | .clearCache => [.clearCache]
  | .setCustom custom => [.setCustom custom]
  | .setResources store => [.setResources store]
  | .render samples => s.renderSteps samples
  | .renderWords samples => wordPassesSteps s.passLength s samples

def history (s : Synth) : List Call → List Step
  | [] => []
  | c :: calls => s.steps c ++ history (s.apply c) calls

/-! ### Steps of songs -/

theorem get_set_ne {α : Type} {n : Nat} (xs : Vector α n) {i j : Fin n} (x : α) (h : j ≠ i) :
    (xs.set i x i.isLt).get j = xs.get j :=
  Vector.getElem_set_ne i.isLt j.isLt fun hij => h (Fin.ext hij.symm)

theorem get_set_self {α : Type} {n : Nat} (xs : Vector α n) (i : Fin n) (x : α) :
    (xs.set i x i.isLt).get i = x :=
  Vector.getElem_set_self i.isLt

theorem channels_instantiate_ne (s : Synth) {i j : Fin channelCount} (h : j ≠ i) :
    (s.instantiate i).channels.get j = s.channels.get j := by
  unfold instantiate
  split
  · rfl
  · exact get_set_ne _ _ h

theorem channels_headerControl_ne (s : Synth) {i j : Fin channelCount} (h : j ≠ i)
    (key value : UInt8) : (s.headerControl i key value).channels.get j = s.channels.get j := by
  have hensure : (s.ensureChannel i).channels.get j = s.channels.get j := by
    unfold ensureChannel
    split
    · rfl
    · exact channels_instantiate_ne s h
  unfold headerControl withChannel
  dsimp only
  split
  · rw [← hensure]
    unfold controlChannel
    dsimp only
    split
    · exact get_set_ne _ _ h
    · exact get_set_ne _ _ h
  · exact hensure

theorem channels_setUpChannel_ne (s : Synth) {i j : Fin channelCount} (h : j ≠ i)
    (r : ChannelRecord) : (s.setUpChannel i r).channels.get j = s.channels.get j := by
  unfold setUpChannel
  dsimp only
  split
  · rfl
  · rw [channels_headerControl_ne _ h, channels_headerControl_ne _ h, channels_instantiate_ne _ h]

theorem channels_clearSongChannels (s : Synth) (i : Fin channelCount) :
    s.clearSongChannels.channels.get i
      = if i.val < songChannels then none else s.channels.get i :=
  Vector.getElem_mapIdx i.isLt

theorem passage_setUps (record : Fin channelCount → ChannelRecord) (left : Nat)
    (is : List (Fin channelCount)) (hdistinct : is.Nodup) (s : Synth)
    (hfree : ∀ i ∈ is, s.channels.get i = none) :
    Passage ⟨s, left⟩ (is.map fun i => .setUp i (record i))
      ⟨is.foldl (fun s i => s.setUpChannel i (record i)) s, left⟩ := by
  induction is generalizing s with
  | nil => exact .nil _
  | cons i is ih =>
    obtain ⟨hnot, hdistinct'⟩ := List.nodup_cons.mp hdistinct
    refine .cons (hfree i List.mem_cons_self) (ih hdistinct' (s.setUpChannel i (record i)) ?_)
    intro j hj
    have hne : j ≠ i := fun hji => hnot (hji ▸ hj)
    rw [channels_setUpChannel_ne s hne]
    exact hfree j (List.mem_cons_of_mem i hj)

theorem passage_takeOver (s : Synth) (left : Nat) (song : Option Player) (hsong : s.song = none)
    (hquiet : s.hasSongVoices = false) :
    Passage ⟨s, left⟩ (takeOverSteps song)
      ⟨{ s with song, pending := none }.welcomeSong, left⟩ := by
  refine .cons ⟨hsong, hquiet⟩ ?_
  cases song with
  | none => exact .nil _
  | some p =>
    refine passage_setUps (fun i => p.song.record i.val) left songIndices ?_ _ ?_
    · exact (List.nodup_finRange channelCount).filter _
    · intro i hi
      have hlow : i.val < songChannels := of_decide_eq_true (List.mem_filter.mp hi).2
      show ({ s with song := some p, pending := none } : Synth).clearSongChannels.channels.get i
        = none
      rw [channels_clearSongChannels, if_pos hlow]

theorem passage_install (s : Synth) (left : Nat) (song : Option Player) :
    Passage ⟨s, left⟩ (s.installSteps song) ⟨s.installSong song, left⟩ := by
  unfold installSteps installSong
  split
  next hfree =>
    simp only [Bool.and_eq_true, Bool.not_eq_true', Option.isNone_iff_eq_none] at hfree
    obtain ⟨⟨hsong, hpending⟩, hquiet⟩ := hfree
    have hsame : ({ s with song } : Synth) = { s with song, pending := none } := by
      rw [← hpending]
    rw [hsame]
    exact passage_takeOver s left song hsong hquiet
  next => exact .cons trivial (.one trivial)

theorem passage_playSong (s : Synth) (left : Nat) (id : ResourceId) (force repeats : Bool) :
    Passage ⟨s, left⟩ (s.playSongSteps id force repeats) ⟨s.playSong id force repeats, left⟩ := by
  unfold playSongSteps playSong
  split
  · exact .nil _
  · generalize s.lookup ⟨.song, id.1, id.2⟩ = found
    cases found with
    | none => exact passage_install s left none
    | some bytes =>
      cases bytes with
      | nil => exact passage_install s left none
      | cons b bytes =>
        dsimp only
        generalize Player.make s.format.rate (b :: bytes) repeats (some id) = made
        cases made with
        | error e => exact .nil _
        | ok p => exact passage_install s left (some p)

theorem passage_playSongBytes (s : Synth) (left : Nat) (bytes : Bytes) (repeats : Bool) :
    Passage ⟨s, left⟩ (s.playSongBytesSteps bytes repeats)
      ⟨s.playSongBytes bytes repeats, left⟩ := by
  unfold playSongBytesSteps playSongBytes
  split
  · exact .cons trivial (.one trivial)
  · generalize Player.make s.format.rate bytes repeats none = made
    cases made with
    | error e => exact .nil _
    | ok p => exact passage_install s left (some p)

theorem passage_message (s : Synth) (left : Nat) (m : Message) :
    Passage ⟨s, left⟩ (s.messageSteps m) ⟨s.handle m, left⟩ := by
  cases m with
  | event e => exact .one trivial
  | playSong id force repeats => exact passage_playSong s left id force repeats
  | playSound key trim => exact .one trivial
  | seek beats => exact .one trivial
  | allNotesOff => exact .one trivial

/-! ### Steps of updates -/

theorem passage_events (events : List Event) (s : Synth) (left : Nat) :
    Passage ⟨s, left⟩ (events.map .event) ⟨events.foldl dispatch s, left⟩ := by
  induction events generalizing s with
  | nil => exact .nil _
  | cons e events ih => exact .cons trivial (ih (s.dispatch e))

theorem runSong_eq {s : Synth} {p : Player} (hsong : s.song = some p) :
    s.runSong p
      = (match (p.update false).1.outcome with
          | .ok frames => frames
          | .error _ => none,
          (p.update false).1.events.foldl dispatch (Step.turn.run s)) := by
  have hturn : Step.turn.run s = { s with song := some (p.update false).2 } := by
    simp only [Step.run, hsong, Option.map_some]
  rw [hturn]
  unfold runSong
  dsimp only
  generalize (p.update false).1.outcome = outcome
  cases outcome <;> rfl

theorem passage_turn (s : Synth) (n : SomeFrames) (left : Nat) :
    Passage ⟨s, left⟩ (s.turnSteps n) ⟨(s.prepareStretch n).2, left⟩ := by
  rw [turnSteps, prepareStretch]
  cases hsong : s.song with
  | some p =>
    have hread : Passage ⟨s, left⟩ (.turn :: (p.update false).1.events.map .event)
        ⟨(p.update false).1.events.foldl dispatch (Step.turn.run s), left⟩ :=
      .cons trivial (passage_events _ (Step.turn.run s) left)
    dsimp only
    rw [runSong_eq hsong]
    refine hread.append ?_
    -- What the song came to decides the last step.
    generalize (p.update false).1.outcome = outcome
    cases outcome with
    | error e => exact .one trivial
    | ok frames =>
      cases frames with
      | none => exact .one trivial
      | some frames => exact .one trivial
  | none =>
    dsimp only
    cases s.pending with
    | none => exact .nil _
    | some p =>
      cases hquiet : s.hasSongVoices with
      | true => exact .nil _
      | false => exact passage_takeOver s left (some p) hsong hquiet

theorem prepareStretch_le (s : Synth) (n : SomeFrames) : (s.prepareStretch n).1.val ≤ n.val := by
  rw [← (Recording.synth_prepareStretch { synth := s } n).1]
  exact Recording.prepareStretch_le { synth := s } n

theorem passage_mono (s : Synth) (n left : Nat) (out : Block) :
    Passage ⟨s, n + left⟩ (s.monoSteps n) ⟨(s.renderMono n out).2, left⟩ := by
  fun_induction renderMono s n out with
  | case1 s n out h len t hprepare block u hstretch ih =>
    have hlen := prepareStretch_le s ⟨n, h⟩
    have hturn := passage_turn s ⟨n, h⟩ (n + left)
    rw [hprepare] at hlen hturn
    dsimp only at hlen hturn
    rw [monoSteps, dif_pos h, hprepare]
    dsimp only
    rw [hstretch]
    refine hturn.append (.cons (show len.val ≤ n + left by omega) ?_)
    have hleft : n + left - len.val = n - len.val + left := by omega
    have hstep : Moment.take ⟨t, n + left⟩ (.stretch len.val) = ⟨u, n - len.val + left⟩ := by
      show (⟨(t.renderStretch len.val).2, n + left - len.val⟩ : Moment) = _
      rw [hstretch, hleft]
    rw [hstep]
    exact ih
  | case2 s n out h =>
    rw [monoSteps, dif_neg h, Nat.eq_zero_of_not_pos h, Nat.zero_add]
    exact .nil _

theorem format_renderPass (s : Synth) (samples : Nat) :
    (s.renderPass samples).2.format = s.format := by
  have hmono := passage_mono s (samples / s.format.channels) 0 #[]
  have hformat := Moment.format_takes ⟨s, samples / s.format.channels + 0⟩
    (s.monoSteps (samples / s.format.channels))
  rw [← hmono.eq_takes] at hformat
  exact hformat

theorem passage_passes (limit : SomeFrames) (s : Synth) (samples left : Nat) (out : Block)
    (hlimit : s.format.channels ∣ limit.val) :
    Passage ⟨s, samples / s.format.channels + left⟩ (passesSteps limit s samples)
      ⟨(renderPasses limit s samples out).2, left⟩ := by
  fun_induction renderPasses limit s samples out with
  | case1 s samples out h n block t hpass ih =>
    have hformat := format_renderPass s n
    rw [hpass] at hformat
    have hframes : n / s.format.channels + (samples - n) / s.format.channels
        = samples / s.format.channels := Recording.frames_split s.format.channels_pos hlimit
    have hfirst := passage_mono s (n / s.format.channels)
      ((samples - n) / s.format.channels + left) #[]
    have hnext : (s.renderMono (n / s.format.channels) #[]).2 = t :=
      congrArg Prod.snd hpass
    have hrest := ih (by rw [hformat]; exact hlimit)
    rw [hnext, ← Nat.add_assoc, hframes] at hfirst
    rw [hformat] at hrest
    rw [passesSteps, dif_pos h]
    show Passage _ (s.monoSteps (n / s.format.channels)
      ++ passesSteps limit (s.renderPass n).2 (samples - n)) _
    rw [hpass]
    exact hfirst.append hrest
  | case2 s samples out h =>
    rw [passesSteps, dif_neg h, Nat.eq_zero_of_not_pos h, Nat.zero_div, Nat.zero_add]
    exact .nil _

theorem passage_render (s : Synth) (samples : Nat) :
    Passage ⟨s, 0⟩ (s.renderSteps samples) ⟨(s.render samples).2, 0⟩ := by
  have hpasses := passage_passes s.passLength (s.beginUpdate (samples / s.format.channels)) samples
    0 #[] (Nat.dvd_mul_left _ _)
  exact .cons rfl (hpasses.append (.one rfl))

theorem passage_wordPasses (limit : SomeFrames) (s : Synth) (samples : Nat) (out : Array Int) :
    Passage ⟨s, 0⟩ (wordPassesSteps limit s samples)
      ⟨(renderWordPasses limit s samples out).2, 0⟩ := by
  fun_induction renderWordPasses limit s samples out with
  | case1 s samples out h n block t hrender ih =>
    have hfirst := passage_render s n
    rw [hrender] at hfirst
    rw [wordPassesSteps, dif_pos h]
    show Passage _ (s.renderSteps n ++ wordPassesSteps limit (s.render n).2 (samples - n)) _
    rw [hrender]
    exact hfirst.append ih
  | case2 s samples out h =>
    rw [wordPassesSteps, dif_neg h]
    exact .nil _

/-! ### Histories -/

theorem passage_steps (s : Synth) (c : Call) : Passage ⟨s, 0⟩ (s.steps c) ⟨s.apply c, 0⟩ := by
  cases c with
  | message m => exact passage_message s 0 m
  | playSongBytes bytes repeats => exact passage_playSongBytes s 0 bytes repeats
  | playSoundBytes bytes trim => exact .one trivial
  | clearCache => exact .one trivial
  | setCustom custom => exact .one trivial
  | setResources store => exact .one trivial
  | render samples => exact passage_render s samples
  | renderWords samples => exact passage_wordPasses s.passLength s samples #[]

theorem passage_history (s : Synth) (calls : List Call) :
    Passage ⟨s, 0⟩ (s.history calls) ⟨calls.foldl apply s, 0⟩ := by
  induction calls generalizing s with
  | nil => exact .nil _
  | cons c calls ih => exact (passage_steps s c).append (ih (s.apply c))

namespace Moment

/-- The moment after the first `k` steps of some calls on a new synthesizer. -/
def after (format : Format) (calls : List Call) (k : Nat) : Moment :=
  takes { synth := ofFormat format } (((ofFormat format).history calls).take k)

variable {format : Format} {calls : List Call} {k : Nat}

/-- After all of its steps a history has led where its calls lead. -/
theorem after_all (h : ((ofFormat format).history calls).length ≤ k) :
    after format calls k = { synth := calls.foldl apply (ofFormat format) } := by
  rw [after, List.take_of_length_le h]
  exact (passage_history (ofFormat format) calls).eq_takes.symm

theorem after_succ {step : Step} (h : ((ofFormat format).history calls)[k]? = some step) :
    step.Allowed (after format calls k)
      ∧ after format calls (k + 1) = (after format calls k).take step := by
  have hall := passage_history (ofFormat format) calls
  obtain ⟨hk, hstep⟩ := List.getElem?_eq_some_iff.mp h
  have hrest : ((ofFormat format).history calls).drop k
      = step :: ((ofFormat format).history calls).drop (k + 1) := by
    rw [List.drop_eq_getElem_cons hk, hstep]
  rw [← List.take_append_drop k ((ofFormat format).history calls), hrest] at hall
  constructor
  · cases hall.split.2 with
    | cons allowed _ => exact allowed
  · rw [after, List.take_add_one, h, takes_append]
    rfl

/-- Past its last step a history stays where it is. -/
theorem after_end (h : ((ofFormat format).history calls)[k]? = none) :
    after format calls (k + 1) = after format calls k := by
  have hend := List.getElem?_eq_none_iff.mp h
  rw [after_all (Nat.le_succ_of_le hend), ← after_all hend]

/-- What holds at the start and is kept by all allowed steps holds at every moment. -/
theorem after_invariant {motive : Moment → Prop} (start : motive { synth := ofFormat format })
    (step : ∀ m (σ : Step), σ.Allowed m → motive m → motive (m.take σ)) (calls : List Call)
    (k : Nat) : motive (after format calls k) := by
  induction k with
  | zero => exact start
  | succ k ih =>
    cases hnext : ((ofFormat format).history calls)[k]? with
    | some σ =>
      obtain ⟨allowed, htake⟩ := after_succ hnext
      rw [htake]
      exact step _ σ allowed ih
    | none =>
      rw [after_end hnext]
      exact ih

end Moment

theorem Reachable.moment {s : Synth} (h : s.Reachable) :
    ∃ format calls k, Moment.after format calls k = { synth := s } := by
  obtain ⟨format, calls, rfl⟩ := h
  exact ⟨format, calls, _, Moment.after_all (Nat.le_refl _)⟩

end Tonewheel.Synth
