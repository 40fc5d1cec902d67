import Tonewheel.Song.Player

/-!
# The time of a song's events

Played on from some place, a song takes steps: events, and delays that are let pass as a whole
(`Trail`). The frame of an event is the sum of the delays before it (`timed`), and `Player.playFrom`
gives each event its frame (`eventsFrom_trail`). The clock of a player has no part in this, and a
delay that passes in two parts is one that passes at once (`eventsFrom_advance`).
-/

namespace Tonewheel.Player

/-! ### Places -/

/-- Whether two players differ in nothing but their clocks. -/
structure SamePlace (p q : Player) : Prop where
  song : p.song = q.song
  repeats : p.repeats = q.repeats
  framesPerMs : p.framesPerMs = q.framesPerMs
  offset : p.offset = q.offset
  delay : p.delay = q.delay

theorem SamePlace.symm {p q : Player} (h : SamePlace p q) : SamePlace q p :=
  ⟨h.song.symm, h.repeats.symm, h.framesPerMs.symm, h.offset.symm, h.delay.symm⟩

theorem SamePlace.trans {p q r : Player} (hpq : SamePlace p q) (hqr : SamePlace q r) :
    SamePlace p r :=
  ⟨hpq.song.trans hqr.song, hpq.repeats.trans hqr.repeats,
    hpq.framesPerMs.trans hqr.framesPerMs, hpq.offset.trans hqr.offset, hpq.delay.trans hqr.delay⟩

theorem step_eq (p : Player) :
    p.step false
      = if h : 0 < p.delay then (.ok (.delay ⟨p.delay, h⟩), p)
        else
          match Song.item p.song.data p.offset with
          | .error e => (.error e, { p with offset := p.offset + 1 })
          | .ok none =>
            if p.repeats then (.ok (.delay ⟨1, by decide⟩), p.restart) else (.ok .finished, p)
          | .ok (some (.delay ms, next)) => (.ok (.delay (p.delayFrames ms)), p.setDelay ms next)
          | .ok (some (.event e, next)) =>
            (.ok (.event (p.eventOf e)), { p with offset := next }) := by
  rw [step]
  split
  · rfl
  · split <;> simp_all

theorem step_same {p q : Player} (h : SamePlace p q) :
    (p.step false).1 = (q.step false).1 ∧ SamePlace (p.step false).2 (q.step false).2 := by
  obtain ⟨song, repeats, framesPerMs, offset, delay, clock, clockAfterDelay⟩ := p
  obtain ⟨song', repeats', framesPerMs', offset', delay', clock', clockAfterDelay'⟩ := q
  obtain ⟨hsong, hrepeats, hframes, hoffset, hdelay⟩ := h
  dsimp only at hsong hrepeats hframes hoffset hdelay
  subst hsong hrepeats hframes hoffset hdelay
  simp only [step_eq]
  by_cases hpending : 0 < delay
  · simp only [dif_pos hpending]
    exact ⟨trivial, ⟨rfl, rfl, rfl, rfl, rfl⟩⟩
  · simp only [dif_neg hpending]
    cases Song.item song.data offset with
    | error e => exact ⟨rfl, ⟨rfl, rfl, rfl, rfl, rfl⟩⟩
    | ok found =>
      rcases found with _ | ⟨⟨ms⟩ | ⟨e⟩, next⟩
      · cases repeats with
        | true => exact ⟨rfl, ⟨rfl, rfl, rfl, rfl, rfl⟩⟩
        | false => exact ⟨rfl, ⟨rfl, rfl, rfl, rfl, rfl⟩⟩
      · exact ⟨rfl, ⟨rfl, rfl, rfl, rfl, rfl⟩⟩
      · exact ⟨rfl, ⟨rfl, rfl, rfl, rfl, rfl⟩⟩

theorem step_delay {p after : Player} {frames : SomeFrames}
    (h : p.step false = (.ok (.delay frames), after)) : after.delay = frames.val := by
  rw [step_eq] at h
  split at h
  · cases h
    rfl
  · split at h
    · cases h
    · split at h
      · cases h
        rfl
      · cases h
    · cases h
      rfl
    · cases h

/-! ### Arrivals -/

theorem update_eq (p : Player) :
    p.update false
      = match p.step false with
        | (.ok (.event e), after) =>
          (⟨e :: (after.update false).1.events, (after.update false).1.outcome⟩,
            (after.update false).2)
        | (.ok (.delay frames), after) => ({ events := [], outcome := .ok (some frames) }, after)
        | (.ok .finished, after) => ({ events := [], outcome := .ok none }, after)
        | (.error e, after) => ({ events := [], outcome := .error e }, after) := by
  rw [update]
  split <;> simp_all

theorem step_elsewhere {p q after : Player} {result : Except DecodeError SongStep}
    (h : SamePlace p q) (hstep : p.step false = (result, after)) :
    ∃ after', q.step false = (result, after') ∧ SamePlace after after' := by
  obtain ⟨hresult, hafter⟩ := step_same h
  rw [hstep] at hresult hafter
  exact ⟨(q.step false).2, Prod.ext hresult.symm rfl, hafter⟩

theorem update_same {p q : Player} (h : SamePlace p q) :
    (p.update false).1 = (q.update false).1 ∧ SamePlace (p.update false).2 (q.update false).2 := by
  fun_induction update p false generalizing q with
  | case1 p e after hstep arrival last hrest ih =>
    obtain ⟨after', hstep', hafter⟩ := step_elsewhere h hstep
    obtain ⟨harrival, hlast⟩ := ih hafter
    rw [hrest] at harrival hlast
    rw [update_eq q, hstep']
    refine ⟨?_, hlast⟩
    show _ = Arrival.mk (e :: (after'.update false).1.events) (after'.update false).1.outcome
    rw [← harrival]
  | case2 p frames after hstep =>
    obtain ⟨after', hstep', hafter⟩ := step_elsewhere h hstep
    rw [update_eq q, hstep']
    exact ⟨rfl, hafter⟩
  | case3 p after hstep =>
    obtain ⟨after', hstep', hafter⟩ := step_elsewhere h hstep
    rw [update_eq q, hstep']
    exact ⟨rfl, hafter⟩
  | case4 p e after hstep =>
    obtain ⟨after', hstep', hafter⟩ := step_elsewhere h hstep
    rw [update_eq q, hstep']
    exact ⟨rfl, hafter⟩

/-- What comes after the events of an arrival: the delay, the end or the error that it yields. -/
def Yields (q : Player) (outcome : Except DecodeError (Option SomeFrames)) (after : Player) :
    Prop :=
  match outcome with
  | .ok (some frames) => q.step false = (.ok (.delay frames), after)
  | .ok none => q.step false = (.ok .finished, after)
  | .error e => q.step false = (.error e, after)

theorem update_pending (p : Player) (h : 0 < p.delay) :
    p.update false = ({ events := [], outcome := .ok (some ⟨p.delay, h⟩) }, p) := by
  rw [update_eq, step_eq, dif_pos h]

/-! ### Delays -/

theorem advance_place (p : Player) (n : Nat) :
    SamePlace (p.advance n) { p with delay := p.delay - n } := by
  unfold advance
  split
  next hzero =>
    rw [hzero]
    exact ⟨rfl, rfl, rfl, rfl, rfl⟩
  next =>
    dsimp only
    split
    next hdelay _ => exact ⟨rfl, rfl, rfl, rfl, rfl⟩
    next => exact ⟨rfl, rfl, rfl, rfl, rfl⟩

theorem advance_same {p q : Player} (h : SamePlace p q) (n : Nat) :
    SamePlace (p.advance n) (q.advance n) := by
  have hmiddle : SamePlace { p with delay := p.delay - n } { q with delay := q.delay - n } :=
    ⟨h.song, h.repeats, h.framesPerMs, h.offset, by rw [h.delay]⟩
  exact (advance_place p n).trans (hmiddle.trans (advance_place q n).symm)

theorem advance_delay (p : Player) (n : Nat) : (p.advance n).delay = p.delay - n :=
  (advance_place p n).delay

/-- Time that passes in two parts passes at once. -/
theorem advance_add (p : Player) (m n : Nat) :
    SamePlace ((p.advance m).advance n) (p.advance (m + n)) := by
  have hparts := (advance_same (advance_place p m) n).trans (advance_place _ n)
  have hsum : SamePlace { p with delay := p.delay - m - n } { p with delay := p.delay - (m + n) } :=
    ⟨rfl, rfl, rfl, rfl, Nat.sub_sub _ _ _⟩
  exact hparts.trans (hsum.trans (advance_place p (m + n)).symm)

/-! ### Playing on -/

/-- The events that come before frame `limit` in playing on from frame `now`, each with its
frame. -/
def eventsFrom (p : Player) (limit now : Nat) : List (Nat × Event) :=
  (p.playFrom limit now).1.events

/-- The events of a place and those after the delay that follows it. -/
theorem eventsFrom_eq (p : Player) (limit now : Nat) :
    p.eventsFrom limit now
      = if now < limit then
          (p.update false).1.events.map (fun e => (now, e))
            ++ match (p.update false).1.outcome with
              | .ok (some frames) =>
                ((p.update false).2.advance frames.val).eventsFrom limit (now + frames.val)
              | .ok none => []
              | .error _ => []
        else [] := by
  rw [eventsFrom, playFrom]
  split
  · obtain ⟨⟨events, outcome⟩, after⟩ := p.update false
    rcases outcome with e | _ | ⟨frames, hframes⟩
    · simp
    · simp
    · rfl
  · rfl

/-- Whether a song ends where its player is, or before the next event or delay. -/
def EndsHere (p : Player) : Prop :=
  (p.update false).1.outcome = .ok none ∨ ∃ e, (p.update false).1.outcome = .error e

theorem delay_or_endsHere (p : Player) :
    (∃ frames, (p.update false).1.outcome = .ok (some frames)) ∨ p.EndsHere := by
  unfold EndsHere
  cases (p.update false).1.outcome with
  | error e => exact .inr (.inr ⟨e, rfl⟩)
  | ok found =>
    cases found with
    | none => exact .inr (.inl rfl)
    | some frames => exact .inl ⟨frames, rfl⟩

theorem eventsFrom_delay {p : Player} {frames : SomeFrames}
    (h : (p.update false).1.outcome = .ok (some frames)) {limit now : Nat} (hnow : now < limit) :
    p.eventsFrom limit now
      = (p.update false).1.events.map (fun e => (now, e))
        ++ ((p.update false).2.advance frames.val).eventsFrom limit (now + frames.val) := by
  rw [eventsFrom_eq, if_pos hnow, h]

theorem eventsFrom_ended {p : Player} (h : p.EndsHere) {limit now : Nat} (hnow : now < limit) :
    p.eventsFrom limit now = (p.update false).1.events.map fun e => (now, e) := by
  rw [eventsFrom_eq, if_pos hnow]
  rcases h with h | ⟨e, h⟩
  · rw [h, List.append_nil]
  · rw [h, List.append_nil]

theorem eventsFrom_of_le (p : Player) {limit now : Nat} (h : limit ≤ now) :
    p.eventsFrom limit now = [] := by
  rw [eventsFrom_eq, if_neg (Nat.not_lt.mpr h)]

theorem eventsFrom_same {p q : Player} (h : SamePlace p q) (limit now : Nat) :
    p.eventsFrom limit now = q.eventsFrom limit now := by
  induction hleft : limit - now using Nat.strongRecOn generalizing p q now with
  | ind left ih =>
    rw [eventsFrom_eq, eventsFrom_eq q]
    split
    next hnow =>
      obtain ⟨harrival, hafter⟩ := update_same h
      rw [harrival]
      cases (q.update false).1.outcome with
      | error e => rfl
      | ok found =>
        cases found with
        | none => rfl
        | some frames =>
          have hframes := frames.property
          have hrest := ih (limit - (now + frames.val)) (by omega)
            (advance_same hafter frames.val) (now + frames.val) rfl
          dsimp only
          rw [hrest]
    next => rfl

/-- A part of a pending delay may pass first. -/
theorem eventsFrom_advance (p : Player) (n limit now : Nat) (hn : n < p.delay)
    (hlimit : now + n ≤ limit) :
    (p.advance n).eventsFrom limit (now + n)
      = (p.advance p.delay).eventsFrom limit (now + p.delay) := by
  have hdelay := advance_delay p n
  have hpending : 0 < (p.advance n).delay := by omega
  rw [eventsFrom_eq]
  split
  next hnow =>
    rw [update_pending _ hpending]
    have hplace := advance_add p n (p.advance n).delay
    have htotal : n + (p.advance n).delay = p.delay := by omega
    rw [htotal] at hplace
    have hframe : now + n + (p.advance n).delay = now + p.delay := by omega
    show [] ++ ((p.advance n).advance (p.advance n).delay).eventsFrom limit
      (now + n + (p.advance n).delay) = _
    rw [List.nil_append, hframe]
    exact eventsFrom_same hplace limit _
  next hnow => exact (eventsFrom_of_le _ (by omega)).symm

/-! ### Trails -/

/-- The steps that lead from one player to another, all delays let pass. -/
inductive Trail : Player → List SongStep → Player → Prop where
  | nil (p : Player) : Trail p [] p
  | event {p q r : Player} {e : Event} {steps : List SongStep}
      (hstep : p.step false = (.ok (.event e), q)) (hrest : Trail q steps r) :
      Trail p (.event e :: steps) r
  | delay {p q r : Player} {frames : SomeFrames} {steps : List SongStep}
      (hstep : p.step false = (.ok (.delay frames), q))
      (hrest : Trail (q.advance frames.val) steps r) : Trail p (.delay frames :: steps) r

/-- The events of some steps, each with the sum of the delays before it, counted from `now`. -/
def timed (now : Nat) : List SongStep → List (Nat × Event)
  | [] => []
  | .event e :: steps => (now, e) :: timed now steps
  | .delay frames :: steps => timed (now + frames.val) steps
  | .finished :: steps => timed now steps

def totalDelay : List SongStep → Nat
  | [] => 0
  | .event _ :: steps => totalDelay steps
  | .delay frames :: steps => frames.val + totalDelay steps
  | .finished :: steps => totalDelay steps

/-- Whether a player is at the end of its song or before wrong data. -/
def HasEnded (p : Player) : Prop :=
  (p.step false).1 = .ok .finished ∨ ∃ e, (p.step false).1 = .error e

theorem Trail.append {p q r : Player} {xs ys : List SongStep} (hx : Trail p xs q)
    (hy : Trail q ys r) : Trail p (xs ++ ys) r := by
  induction hx with
  | nil p => exact hy
  | event hstep _ ih => exact .event hstep (ih hy)
  | delay hstep _ ih => exact .delay hstep (ih hy)

theorem timed_events (now : Nat) (events : List Event) (steps : List SongStep) :
    timed now (events.map SongStep.event ++ steps)
      = events.map (fun e => (now, e)) ++ timed now steps := by
  induction events with
  | nil => rfl
  | cons e events ih => exact congrArg ((now, e) :: ·) ih

theorem totalDelay_events (events : List Event) (steps : List SongStep) :
    totalDelay (events.map SongStep.event ++ steps) = totalDelay steps := by
  induction events with
  | nil => rfl
  | cons e events ih => exact ih

theorem update_trail (p : Player) :
    ∃ q, Trail p ((p.update false).1.events.map SongStep.event) q
      ∧ q.Yields (p.update false).1.outcome (p.update false).2 := by
  fun_induction update p false with
  | case1 p e after hstep arrival last hrest ih =>
    obtain ⟨q, htrail, hyields⟩ := ih
    rw [hrest] at htrail hyields
    exact ⟨q, .event hstep htrail, hyields⟩
  | case2 p frames after hstep => exact ⟨p, .nil p, hstep⟩
  | case3 p after hstep => exact ⟨p, .nil p, hstep⟩
  | case4 p e after hstep => exact ⟨p, .nil p, hstep⟩

theorem update_delay {p : Player} {frames : SomeFrames}
    (h : (p.update false).1.outcome = .ok (some frames)) :
    (p.update false).2.delay = frames.val := by
  obtain ⟨q, -, hyields⟩ := update_trail p
  rw [h] at hyields
  exact step_delay hyields

/-- Where a song ends, the events that are left lead to its end. -/
theorem trail_of_endsHere {p : Player} (h : p.EndsHere) :
    ∃ q, Trail p ((p.update false).1.events.map SongStep.event) q ∧ q.HasEnded := by
  obtain ⟨q, htrail, hyields⟩ := update_trail p
  refine ⟨q, htrail, ?_⟩
  rcases h with h | ⟨e, h⟩
  · rw [h] at hyields
    exact .inl (congrArg Prod.fst hyields)
  · rw [h] at hyields
    exact .inr ⟨e, congrArg Prod.fst hyields⟩

/-- The events before frame `limit` are those of a trail that goes on to that frame or to the end
of the song. -/
theorem eventsFrom_trail (p : Player) (limit now : Nat) :
    ∃ steps q, Trail p steps q ∧ p.eventsFrom limit now = timed now steps
      ∧ (∀ x ∈ timed now steps, x.1 < limit)
      ∧ (limit ≤ now + totalDelay steps ∨ q.HasEnded) := by
  induction hleft : limit - now using Nat.strongRecOn generalizing p now with
  | ind left ih =>
    by_cases hnow : now < limit
    · have hhere : ∀ x ∈ (p.update false).1.events.map (fun e => (now, e)), x.1 < limit := by
        intro x hx
        obtain ⟨e, -, rfl⟩ := List.mem_map.mp hx
        exact hnow
      rcases delay_or_endsHere p with ⟨frames, hdelay⟩ | hends
      · obtain ⟨m, htrail, hyields⟩ := update_trail p
        rw [hdelay] at hyields
        have hframes := frames.property
        obtain ⟨steps, q, hrest, hevents, hbefore, hend⟩ := ih (limit - (now + frames.val))
          (by omega) ((p.update false).2.advance frames.val) (now + frames.val) rfl
        have htimed := timed_events now (p.update false).1.events (.delay frames :: steps)
        have htotal := totalDelay_events (p.update false).1.events (.delay frames :: steps)
        rw [timed] at htimed
        rw [totalDelay] at htotal
        refine ⟨_, q, htrail.append (.delay hyields hrest), ?_, ?_, ?_⟩
        · rw [eventsFrom_delay hdelay hnow, htimed, hevents]
        · rw [htimed]
          intro x hx
          rcases List.mem_append.mp hx with hx | hx
          · exact hhere x hx
          · exact hbefore x hx
        · rw [htotal, ← Nat.add_assoc]
          exact hend
      · obtain ⟨q, htrail, hend⟩ := trail_of_endsHere hends
        have htimed := timed_events now (p.update false).1.events []
        rw [List.append_nil, timed, List.append_nil] at htimed
        refine ⟨_, q, htrail, ?_, ?_, .inr hend⟩
        · rw [eventsFrom_ended hends hnow, htimed]
        · rw [htimed]
          exact hhere
    · refine ⟨[], p, .nil p, eventsFrom_of_le p (Nat.not_lt.mp hnow), ?_, ?_⟩
      · intro x hx
        cases hx
      · exact .inl (Nat.le_add_right_of_le (Nat.not_lt.mp hnow))

end Tonewheel.Player
