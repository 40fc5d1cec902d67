import Mathlib.Algebra.Ring.Nat
import Tonewheel.Proofs.Song.Playing
import Tonewheel.Proofs.Synth.Tracks

/-!
# When the events of a song are dispatched

A recording runs a synthesizer and notes down each event that the song dispatches, with the frames
made so far (`Recording`). Without its notes it is the synthesizer itself (`synth_renders`). Host
blocks, passes and the delays of the song cut a run in different places, and a delay can pass in
many parts. The notes are all the same those of the song played by itself, for as many frames as the
run makes (`song_keeps_time`).
-/

namespace Tonewheel

/-- A synthesizer, the frames made in a run, and the events dispatched by its song. -/
structure Recording where
  synth : Synth
  now : Nat := 0
  log : List (Nat × Event) := []

namespace Recording

/-! ### Running -/

def dispatch (r : Recording) (e : Event) : Recording :=
  { r with synth := r.synth.dispatch e, log := r.log ++ [(r.now, e)] }

def runSong (r : Recording) (p : Player) : Option SomeFrames × Recording :=
  let (arrival, p) := p.update false
  let r := arrival.events.foldl dispatch { r with synth := { r.synth with song := some p } }
  match arrival.outcome with
  | .ok frames => (frames, r)
  | .error _ => (none, r)

theorem cut_pos (n delay : SomeFrames) : 0 < min n.val delay.val :=
  Nat.lt_min.mpr ⟨n.property, delay.property⟩

def prepareStretch (r : Recording) (n : SomeFrames) : SomeFrames × Recording :=
  match r.synth.song with
  | some p =>
    match r.runSong p with
    | (some delay, r) =>
      let len := min n.val delay.val
      (⟨len, cut_pos n delay⟩, { r with synth := r.synth.advanceSong len })
    | (none, r) => (n, { r with synth := r.synth.endSong })
  | none => ((r.synth.prepareStretch n).1, { r with synth := (r.synth.prepareStretch n).2 })

def renderStretch (r : Recording) (n : Nat) : Recording :=
  { r with synth := (r.synth.renderStretch n).2, now := r.now + n }

def renderMono (r : Recording) (n : Nat) : Recording :=
  if h : 0 < n then
    let (len, r) := r.prepareStretch ⟨n, h⟩
    (r.renderStretch len.val).renderMono (n - len.val)
  else r
  termination_by n
  decreasing_by
    have := len.property
    omega

def renderPasses (limit : SomeFrames) (r : Recording) (samples : Nat) : Recording :=
  if _h : 0 < samples then
    let n := min samples limit.val
    (r.renderMono (n / r.synth.format.channels)).renderPasses limit (samples - n)
  else r
  termination_by samples
  decreasing_by
    have := limit.property
    omega

def render (r : Recording) (samples : Nat) : Recording :=
  let s := r.synth.beginUpdate (samples / r.synth.format.channels)
  let r := { r with synth := s }.renderPasses r.synth.passLength samples
  { r with synth := r.synth.endUpdate }

/-! ### A recording is a run of its synthesizer -/

theorem foldl_dispatch (r : Recording) (events : List Event) :
    events.foldl dispatch r
      = { synth := events.foldl Synth.dispatch r.synth
          now := r.now
          log := r.log ++ events.map fun e => (r.now, e) } := by
  induction events generalizing r with
  | nil => simp
  | cons e events ih =>
    rw [List.foldl_cons, ih, dispatch]
    simp

theorem runSong_eq (r : Recording) (p : Player) :
    r.runSong p
      = ((r.synth.runSong p).1,
          { synth := (r.synth.runSong p).2
            now := r.now
            log := r.log ++ (p.update false).1.events.map fun e => (r.now, e) }) := by
  unfold runSong Synth.runSong
  dsimp only
  rw [foldl_dispatch]
  cases (p.update false).1.outcome <;> rfl

theorem synth_prepareStretch (r : Recording) (n : SomeFrames) :
    (r.prepareStretch n).1 = (r.synth.prepareStretch n).1
      ∧ (r.prepareStretch n).2.synth = (r.synth.prepareStretch n).2 := by
  unfold prepareStretch
  split
  next p hsong =>
    rw [Synth.prepareStretch, hsong, runSong_eq]
    dsimp only
    obtain ⟨found, t⟩ := r.synth.runSong p
    cases found <;> exact ⟨rfl, rfl⟩
  next => exact ⟨rfl, rfl⟩

theorem prepareStretch_le (r : Recording) (n : SomeFrames) :
    (r.prepareStretch n).1.val ≤ n.val := by
  unfold prepareStretch
  split
  next p _ =>
    rw [runSong_eq]
    cases (r.synth.runSong p).1 with
    | none => exact Nat.le_refl _
    | some delay => exact Nat.min_le_left _ _
  next hsong =>
    rw [Synth.prepareStretch, hsong]
    cases r.synth.pending with
    | none => exact Nat.le_refl _
    | some p =>
      dsimp only
      split <;> exact Nat.le_refl _

theorem synth_renderMono (r : Recording) (n : Nat) (out : Block) :
    (r.renderMono n).synth = (r.synth.renderMono n out).2 := by
  induction n using Nat.strongRecOn generalizing r out with
  | ind n ih =>
    rw [renderMono, Synth.renderMono]
    split
    next h =>
      obtain ⟨hlen, hsynth⟩ := synth_prepareStretch r ⟨n, h⟩
      have hpositive := (r.prepareStretch ⟨n, h⟩).1.property
      have hrest := ih (n - (r.prepareStretch ⟨n, h⟩).1.val) (by omega)
        ((r.prepareStretch ⟨n, h⟩).2.renderStretch (r.prepareStretch ⟨n, h⟩).1.val)
      dsimp only
      rw [← hlen, ← hsynth]
      exact hrest _
    next => rfl

theorem synth_renderPasses (limit : SomeFrames) (r : Recording) (samples : Nat) (out : Block) :
    (r.renderPasses limit samples).synth = (Synth.renderPasses limit r.synth samples out).2 := by
  induction samples using Nat.strongRecOn generalizing r out with
  | ind samples ih =>
    rw [renderPasses, Synth.renderPasses]
    split
    next h =>
      have hlimit := limit.property
      have hmono := synth_renderMono r (min samples limit.val / r.synth.format.channels) #[]
      have hrest := ih (samples - min samples limit.val) (by omega)
        (r.renderMono (min samples limit.val / r.synth.format.channels))
      rw [hmono] at hrest
      exact hrest _
    next => rfl

theorem synth_render (r : Recording) (samples : Nat) :
    (r.render samples).synth = (r.synth.render samples).2 := by
  have hpasses := synth_renderPasses r.synth.passLength
    { r with synth := r.synth.beginUpdate (samples / r.synth.format.channels) } samples #[]
  exact congrArg Synth.endUpdate hpasses

def renders (r : Recording) (updates : List Nat) : Recording := updates.foldl render r

theorem synth_renders (r : Recording) (updates : List Nat) :
    (r.renders updates).synth = updates.foldl (fun s n => (s.render n).2) r.synth := by
  induction updates generalizing r with
  | nil => rfl
  | cons n updates ih =>
    have hrest := ih (r.render n)
    rw [synth_render] at hrest
    exact hrest

/-! ### The song in a recording -/

def songEvents (s : Synth) (limit now : Nat) : List (Nat × Event) :=
  match s.song with
  | some p => p.eventsFrom limit now
  | none => []

theorem songEvents_some {s : Synth} {p : Player} (h : s.song = some p) (limit now : Nat) :
    songEvents s limit now = p.eventsFrom limit now := by
  rw [songEvents, h]

theorem songEvents_none {s : Synth} (h : s.song = none) (limit now : Nat) :
    songEvents s limit now = [] := by
  rw [songEvents, h]

/-- Whether a recording goes on to another in some frames, with `part` the events noted down on the
way: they and the events of the song as it stands then are those that were to come. -/
structure Continues (r r' : Recording) (frames : Nat) (part : List (Nat × Event)) : Prop where
  log : r'.log = r.log ++ part
  now : r'.now = r.now + frames
  format : r'.synth.format = r.synth.format
  pending : r'.synth.pending = none
  events : ∀ limit, r.now + frames ≤ limit →
    songEvents r.synth limit r.now = part ++ songEvents r'.synth limit (r.now + frames)

theorem Continues.refl (r : Recording) (hpending : r.synth.pending = none) :
    Continues r r 0 [] where
  log := (List.append_nil _).symm
  now := rfl
  format := rfl
  pending := hpending
  events _ _ := rfl

theorem Continues.trans {r r' r'' : Recording} {m n : Nat} {a b : List (Nat × Event)}
    (h : Continues r r' m a) (h' : Continues r' r'' n b) : Continues r r'' (m + n) (a ++ b) where
  log := by rw [h'.log, h.log, List.append_assoc]
  now := by rw [h'.now, h.now, Nat.add_assoc]
  format := h'.format.trans h.format
  pending := h'.pending
  events limit hlimit := by
    have hnext := h'.events limit (by rw [h.now]; omega)
    rw [h.now] at hnext
    rw [h.events limit (by omega), hnext, List.append_assoc, Nat.add_assoc]

def framesOf (s : Synth) (updates : List Nat) : Nat :=
  (updates.map (· / s.format.channels)).sum

theorem runSong_delay {p : Player} {delay : SomeFrames}
    (h : (p.update false).1.outcome = .ok (some delay)) (s : Synth) :
    (s.runSong p).1 = some delay := by
  unfold Synth.runSong
  dsimp only
  rw [h]

theorem runSong_ended {p : Player} (h : p.EndsHere) (s : Synth) : (s.runSong p).1 = none := by
  unfold Synth.runSong
  dsimp only
  rcases h with h | ⟨e, h⟩
  · rw [h]
  · rw [h]

/-- The events of a song before the end of a delay that is cut after `n` frames. -/
theorem eventsFrom_cut {p : Player} {delay : SomeFrames}
    (h : (p.update false).1.outcome = .ok (some delay)) {n limit now : Nat} (hn : n ≤ delay.val)
    (hpositive : 0 < n) (hlimit : now + n ≤ limit) :
    p.eventsFrom limit now
      = (p.update false).1.events.map (fun e => (now, e))
        ++ ((p.update false).2.advance n).eventsFrom limit (now + n) := by
  have hdelay := Player.update_delay h
  rw [Player.eventsFrom_delay h (by omega)]
  rcases Nat.lt_or_eq_of_le hn with hlt | heq
  · rw [Player.eventsFrom_advance _ n limit now (by omega) hlimit, hdelay]
  · rw [heq]

/-- The song's turn and a stretch of `len` frames, at most those to its next event. -/
theorem continues_delay {r : Recording} {p : Player} (hsong : r.synth.song = some p)
    (hpending : r.synth.pending = none) {delay : SomeFrames}
    (houtcome : (p.update false).1.outcome = .ok (some delay)) {len : Nat} (hpositive : 0 < len)
    (hlen : len ≤ delay.val) :
    Continues r
      ({ (r.runSong p).2 with synth := (r.synth.runSong p).2.advanceSong len }.renderStretch len)
      len ((p.update false).1.events.map fun e => (r.now, e)) := by
  have hturn := Synth.tracks_runSong r.synth p
  rw [runSong_eq]
  refine ⟨rfl, rfl, ?_, ?_, ?_⟩
  · exact Synth.format_of_tracks hturn
  · exact (Synth.pending_of_tracks hturn).trans hpending
  · intro limit hlimit
    have hrest : (r.synth.runSong p).2.song = some (p.update false).2 :=
      Synth.song_of_tracks hturn
    have hafter : ((r.synth.runSong p).2.advanceSong len).song
        = some ((p.update false).2.advance len) := by
      rw [Synth.advanceSong, hrest]
      rfl
    rw [songEvents_some hsong, eventsFrom_cut houtcome hlen hpositive hlimit]
    exact congrArg _ (songEvents_some hafter limit (r.now + len)).symm

/-- The song's last turn and a stretch after it. -/
theorem continues_end {r : Recording} {p : Player} (hsong : r.synth.song = some p)
    (hpending : r.synth.pending = none) (hends : p.EndsHere) {len : Nat} (hpositive : 0 < len) :
    Continues r ({ (r.runSong p).2 with synth := (r.synth.runSong p).2.endSong }.renderStretch len)
      len ((p.update false).1.events.map fun e => (r.now, e)) := by
  have hturn := Synth.tracks_runSong r.synth p
  have hend := Synth.tracks_endSong (r.synth.runSong p).2
  rw [runSong_eq]
  refine ⟨rfl, rfl, ?_, ?_, ?_⟩
  · exact (Synth.format_of_tracks hend).trans (Synth.format_of_tracks hturn)
  · have hkept := (Synth.pending_of_tracks hend).trans (Synth.pending_of_tracks hturn)
    exact hkept.trans hpending
  · intro limit hlimit
    have hafter : (r.synth.runSong p).2.endSong.song = none := Synth.song_of_tracks hend
    rw [songEvents_some hsong, Player.eventsFrom_ended hends (by omega)]
    refine (List.append_nil _).symm.trans (congrArg _ ?_)
    exact (songEvents_none hafter limit _).symm

theorem continues_stretch (r : Recording) (n : SomeFrames) (hpending : r.synth.pending = none) :
    ∃ part, Continues r ((r.prepareStretch n).2.renderStretch (r.prepareStretch n).1.val)
      (r.prepareStretch n).1.val part := by
  unfold prepareStretch
  split
  next p hsong =>
    rcases p.delay_or_endsHere with ⟨delay, houtcome⟩ | hends
    · have hcut := continues_delay hsong hpending houtcome (cut_pos n delay)
        (Nat.min_le_right _ _)
      rw [runSong_eq] at hcut ⊢
      rw [runSong_delay houtcome]
      exact ⟨_, hcut⟩
    · have hlast := continues_end hsong hpending hends n.property
      rw [runSong_eq] at hlast ⊢
      rw [runSong_ended hends]
      exact ⟨_, hlast⟩
  next hsong =>
    have hidle : r.synth.prepareStretch n = (n, r.synth) := by
      rw [Synth.prepareStretch, hsong, hpending]
    rw [hidle]
    refine ⟨[], (List.append_nil _).symm, rfl, rfl, hpending, ?_⟩
    intro limit _
    rw [songEvents_none hsong, List.nil_append]
    exact (songEvents_none hsong limit _).symm

theorem continues_renderMono (r : Recording) (n : Nat) (hpending : r.synth.pending = none) :
    ∃ part, Continues r (r.renderMono n) n part := by
  induction n using Nat.strongRecOn generalizing r with
  | ind n ih =>
    rw [renderMono]
    split
    next h =>
      obtain ⟨part, hstretch⟩ := continues_stretch r ⟨n, h⟩ hpending
      have hcut := prepareStretch_le r ⟨n, h⟩
      have hpositive := (r.prepareStretch ⟨n, h⟩).1.property
      obtain ⟨rest, hrest⟩ := ih (n - (r.prepareStretch ⟨n, h⟩).1.val) (by omega) _
        hstretch.pending
      have hboth := hstretch.trans hrest
      rw [Nat.add_sub_cancel' hcut] at hboth
      exact ⟨_, hboth⟩
    next h =>
      rw [Nat.eq_zero_of_not_pos h]
      exact ⟨[], .refl r hpending⟩

/-- Passes of whole frames can be taken off a number of samples. -/
theorem frames_split {channels limit samples : Nat} (hchannels : 0 < channels)
    (hlimit : channels ∣ limit) :
    min samples limit / channels + (samples - min samples limit) / channels
      = samples / channels := by
  rcases Nat.le_total samples limit with hle | hle
  · rw [Nat.min_eq_left hle, Nat.sub_self, Nat.zero_div, Nat.add_zero]
  · obtain ⟨frames, rfl⟩ := hlimit
    have hrest : samples = samples - channels * frames + channels * frames :=
      (Nat.sub_add_cancel hle).symm
    rw [Nat.min_eq_right hle, Nat.mul_div_cancel_left frames hchannels, Nat.add_comm,
      ← Nat.add_mul_div_left _ frames hchannels, ← hrest]

theorem continues_renderPasses (limit : SomeFrames) (r : Recording) (samples : Nat)
    (hpending : r.synth.pending = none) (hlimit : r.synth.format.channels ∣ limit.val) :
    ∃ part, Continues r (r.renderPasses limit samples) (samples / r.synth.format.channels)
      part := by
  induction samples using Nat.strongRecOn generalizing r with
  | ind samples ih =>
    rw [renderPasses]
    split
    next h =>
      have hpositive := limit.property
      obtain ⟨part, hpass⟩ := continues_renderMono r
        (min samples limit.val / r.synth.format.channels) hpending
      obtain ⟨rest, hrest⟩ := ih (samples - min samples limit.val) (by omega) _ hpass.pending
        (by rw [hpass.format]; exact hlimit)
      rw [hpass.format] at hrest
      have hboth := hpass.trans hrest
      rw [frames_split r.synth.format.channels_pos hlimit] at hboth
      exact ⟨_, hboth⟩
    next h =>
      rw [Nat.eq_zero_of_not_pos h, Nat.zero_div]
      exact ⟨[], .refl r hpending⟩

/-- An update notes down the events that the song comes to in its frames. -/
theorem continues_render (r : Recording) (samples : Nat) (hpending : r.synth.pending = none) :
    ∃ part, Continues r (r.render samples) (samples / r.synth.format.channels) part := by
  obtain ⟨part, hpasses⟩ := continues_renderPasses r.synth.passLength
    { r with synth := r.synth.beginUpdate (samples / r.synth.format.channels) } samples hpending
    (Nat.dvd_mul_left _ _)
  exact ⟨part, hpasses.log, hpasses.now, hpasses.format, hpasses.pending, hpasses.events⟩

theorem continues_renders (r : Recording) (updates : List Nat) (hpending : r.synth.pending = none) :
    ∃ part, Continues r (r.renders updates) (framesOf r.synth updates) part := by
  induction updates generalizing r with
  | nil => exact ⟨[], .refl r hpending⟩
  | cons n updates ih =>
    obtain ⟨part, hupdate⟩ := continues_render r n hpending
    obtain ⟨rest, hrest⟩ := ih (r.render n) hupdate.pending
    rw [framesOf, hupdate.format] at hrest
    exact ⟨_, hupdate.trans hrest⟩

/-- A recording counts the frames of its updates, and notes down the events of its song before they
end. -/
theorem log_renders {s : Synth} {p : Player} (hsong : s.song = some p) (hpending : s.pending = none)
    (updates : List Nat) :
    (renders { synth := s } updates).now = framesOf s updates
      ∧ (renders { synth := s } updates).log = p.eventsFrom (framesOf s updates) 0 := by
  obtain ⟨part, hall⟩ := continues_renders { synth := s } updates hpending
  have hevents := hall.events (framesOf s updates) (Nat.le_of_eq (Nat.zero_add _))
  have hrest : ∀ t : Synth, songEvents t (framesOf s updates) (0 + framesOf s updates) = [] := by
    intro t
    unfold songEvents
    split
    · exact Player.eventsFrom_of_le _ (Nat.le_of_eq (Nat.zero_add _).symm)
    · rfl
  rw [hrest, List.append_nil, songEvents_some hsong] at hevents
  constructor
  · exact hall.now.trans (Nat.zero_add _)
  · rw [hall.log, List.nil_append, hevents]

end Recording

namespace Synth

open Recording (framesOf)

/-- Updates of as many frames dispatch the same events of a song at the same frames, however they
are cut: each one after the sum of the delays before it, the pending one included, and all that
come before the frames end. -/
theorem song_keeps_time (s : Synth) (p : Player) (hreach : s.Reachable) (hsong : s.song = some p)
    (calls others : List Nat) (hsum : framesOf s calls = framesOf s others) :
    let recording := Recording.renders { synth := s } calls
    recording.synth = calls.foldl (fun s n => (s.render n).2) s
      ∧ recording.now = framesOf s calls
      ∧ recording.log = (Recording.renders { synth := s } others).log
      ∧ ∃ steps q, Player.Trail p steps q
        ∧ recording.log = Player.timed 0 steps
        ∧ (∀ x ∈ recording.log, x.1 < framesOf s calls)
        ∧ (framesOf s calls ≤ Player.totalDelay steps ∨ q.HasEnded) := by
  have hpending : s.pending = none := by
    rcases hreach.alone with h | h
    · rw [h] at hsong
      cases hsong
    · exact h
  obtain ⟨hnow, hlog⟩ := Recording.log_renders hsong hpending calls
  obtain ⟨-, hother⟩ := Recording.log_renders hsong hpending others
  obtain ⟨steps, q, htrail, hevents, hbefore, hend⟩ :=
    Player.eventsFrom_trail p (framesOf s calls) 0
  rw [Nat.zero_add] at hend
  refine ⟨Recording.synth_renders { synth := s } calls, hnow, ?_, steps, q, htrail, ?_, ?_, hend⟩
  · rw [hlog, hother, hsum]
  · rw [hlog, hevents]
  · rw [hlog, hevents]
    exact hbefore

/-- A song that moves a wheel and then waits for 10 ms. -/
def wheelSong : Bytes :=
  Song.signature ++ [0x01, 0xf4, 0x00, 0x2a, 0x00, 0x2a] ++ List.replicate 32 0x00
    ++ [0xa0, 0x40, 0x0a]

/-- The same behind a wait of 1 ms. -/
def lateWheelSong : Bytes :=
  wheelSong.take Song.headerLength ++ 0x01 :: wheelSong.drop Song.headerLength

def lateWheelSynth : Synth :=
  [Call.playSongBytes lateWheelSong true].foldl apply (ofFormat .standard)

/-- The wheel moves after the 44 frames of the first delay, which the updates cut after 20 frames or
after 8. -/
theorem song_keeps_time_lateWheel :
    ∃ p, lateWheelSynth.song = some p
      ∧ framesOf lateWheelSynth [40, 60] = framesOf lateWheelSynth [16, 84]
      ∧ (Recording.renders { synth := lateWheelSynth } [40, 60]).log = [(44, .wheel 0 0x1000)]
      ∧ (Recording.renders { synth := lateWheelSynth } [16, 84]).log = [(44, .wheel 0 0x1000)]
      ∧ ∃ steps q, Player.Trail p steps q ∧ Player.timed 0 steps = [(44, .wheel 0 0x1000)] := by
  have hreach : lateWheelSynth.Reachable := ⟨_, _, rfl⟩
  have hsum : framesOf lateWheelSynth [40, 60] = framesOf lateWheelSynth [16, 84] := by
    decide +kernel
  have hfound : (Recording.renders { synth := lateWheelSynth } [40, 60]).log
      = [(44, .wheel 0 0x1000)] := by
    decide +kernel
  obtain ⟨p, hp⟩ : ∃ p, lateWheelSynth.song = some p := Option.isSome_iff_exists.mp (by decide +kernel)
  obtain ⟨-, -, hlogs, steps, q, htrail, hlog, -, -⟩ :=
    song_keeps_time lateWheelSynth p hreach hp [40, 60] [16, 84] hsum
  exact ⟨p, hp, hsum, hfound, hlogs ▸ hfound, steps, q, htrail, hlog ▸ hfound⟩

end Synth

end Tonewheel
