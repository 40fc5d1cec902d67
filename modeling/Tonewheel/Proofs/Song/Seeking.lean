import Tonewheel.Proofs.Song.Moves

/-!
# Seeking and playing

A seek passes over events inside a step and cuts the last delay to the frames it has left. Playing
yields each event, and may let a delay pass in as many parts as it likes (`Player.PlaysFor`). Both
come to the same place (`PlaysFor.skipFrames`), so what is played after a seek is what playing from
the start has left (`seek_lands`).
-/

namespace Tonewheel.Player

/-! ### Plays -/

/-- Playing from frame `now` for `left` frames or to the end of the song: the events with their
frames, the end, and the player then. Of a pending delay any part that is left may pass at once. -/
inductive PlaysFor :
    Player → (now left : Nat) → List (Nat × Event) → StretchEnd → Player → Prop where
  | limit {p : Player} {now : Nat} : PlaysFor p now 0 [] .limit p
  | event {p q r : Player} {now left : Nat} {e : Event} {events : List (Nat × Event)}
      {ending : StretchEnd} (hleft : 0 < left) (hstep : p.step false = (.ok (.event e), q))
      (hrest : PlaysFor q now left events ending r) :
      PlaysFor p now left ((now, e) :: events) ending r
  | delay {p q r : Player} {now left part : Nat} {frames : SomeFrames}
      {events : List (Nat × Event)} {ending : StretchEnd}
      (hstep : p.step false = (.ok (.delay frames), q)) (hpos : 0 < part)
      (hpart : part ≤ frames.val)
      (hrest : PlaysFor (q.advance part) (now + part) left events ending r) :
      PlaysFor p now (part + left) events ending r
  | finished {p q : Player} {now left : Nat} (hleft : 0 < left)
      (hstep : p.step false = (.ok .finished, q)) : PlaysFor p now left [] .finished q
  | failed {p q : Player} {now left : Nat} {e : DecodeError} (hleft : 0 < left)
      (hstep : p.step false = (.error e, q)) : PlaysFor p now left [] (.failed e) q

theorem exists_playsFor (p : Player) (now left : Nat) :
    ∃ events ending q, PlaysFor p now left events ending q := by
  induction left using Nat.strongRecOn generalizing p now with
  | ind left ihTime =>
    rcases Nat.eq_zero_or_pos left with rfl | hleft
    · exact ⟨_, _, _, .limit⟩
    · induction p using event_induction with
      | event hstep ih =>
        obtain ⟨events, ending, r, hplay⟩ := ih
        exact ⟨_, _, _, .event hleft hstep hplay⟩
      | @other p hother =>
        match hstep : p.step false with
        | (.ok (.event e), q) => exact absurd (congrArg Prod.fst hstep) (hother e)
        | (.ok (.delay frames), q) =>
          have hframes := frames.property
          obtain ⟨events, ending, r, hplay⟩ := ihTime (left - min frames.val left) (by omega)
            (q.advance (min frames.val left)) (now + min frames.val left)
          have htotal : min frames.val left + (left - min frames.val left) = left := by omega
          have hwhole := PlaysFor.delay hstep (by omega) (Nat.min_le_left _ _) hplay
          rw [htotal] at hwhole
          exact ⟨_, _, _, hwhole⟩
        | (.ok .finished, q) => exact ⟨_, _, _, .finished hleft hstep⟩
        | (.error e, q) => exact ⟨_, _, _, .failed hleft hstep⟩

theorem PlaysFor.before {p q : Player} {now left : Nat} {events : List (Nat × Event)}
    {ending : StretchEnd} (h : PlaysFor p now left events ending q) :
    ∀ x ∈ events, x.1 < now + left := by
  induction h with
  | limit => exact nofun
  | finished => exact nofun
  | failed => exact nofun
  | event hleft _ _ ih =>
    intro x hx
    rcases List.mem_cons.mp hx with rfl | hx
    · exact Nat.lt_add_of_pos_right hleft
    · exact ih x hx
  | delay _ _ _ _ ih =>
    intro x hx
    have hbefore := ih x hx
    omega

theorem PlaysFor.ne_failed {p q : Player} {now left : Nat} {events : List (Nat × Event)}
    {ending : StretchEnd} (h : PlaysFor p now left events ending q) (hreads : p.ReadsOn)
    (e : DecodeError) : ending ≠ .failed e := by
  induction h with
  | limit => exact nofun
  | finished => exact nofun
  | @event p _ _ _ _ _ _ _ _ hstep _ ih =>
    have hnext := hreads.step
    rw [hstep] at hnext
    exact ih hnext
  | @delay p _ _ _ _ part _ _ _ hstep _ _ _ ih =>
    have hnext := hreads.step
    rw [hstep] at hnext
    exact ih (hnext.advance part)
  | @failed p _ _ _ e _ hstep =>
    exact absurd (congrArg Prod.fst hstep) (hreads.step_ne_error false e)

/-! ### Places of a seek -/

theorem SamePlace.refl (p : Player) : SamePlace p p := ⟨rfl, rfl, rfl, rfl, rfl⟩

section

variable {p q : Player}

theorem skipFrames_event {e : Event} (hstep : p.step false = (.ok (.event e), q)) {left : Nat}
    (hleft : 0 < left) : p.skipFrames left = q.skipFrames left := by
  obtain ⟨left, rfl⟩ := Nat.exists_eq_add_of_lt hleft
  rw [skipFrames_eq p, skipFrames_eq q, seekRound, seekRound, step_true_of_event hstep]

theorem skipFrames_delay {frames : SomeFrames} (hstep : p.step false = (.ok (.delay frames), q))
    {left : Nat} (hleft : 0 < left) :
    p.skipFrames left
      = (q.advance (min frames.val left)).skipFrames (left - min frames.val left) := by
  have hother : ∀ e, (p.step false).1 ≠ .ok (.event e) := by
    rw [hstep]
    exact nofun
  obtain ⟨left, rfl⟩ := Nat.exists_eq_add_of_lt hleft
  rw [Nat.zero_add, skipFrames_eq, seekRound, step_true_of_not_event hother, hstep]

theorem skipFrames_ended (h : p.HasEnded) {left : Nat} (hleft : 0 < left) :
    p.skipFrames left = (p.step false).2 := by
  obtain ⟨left, rfl⟩ := Nat.exists_eq_add_of_lt hleft
  have hother : ∀ e, (p.step false).1 ≠ .ok (.event e) := by
    intro e hevent
    simp [HasEnded, hevent] at h
  rw [skipFrames_eq, seekRound, step_true_of_not_event hother]
  unfold HasEnded at h
  generalize p.step false = result at h
  obtain ⟨found, q⟩ := result
  rcases h with h | ⟨e, h⟩
  · obtain rfl : found = .ok .finished := h
    rfl
  · obtain rfl : found = .error e := h
    rfl

end

theorem skipFrames_same {p q : Player} (h : SamePlace p q) (left : Nat) :
    SamePlace (p.skipFrames left) (q.skipFrames left) := by
  induction left using Nat.strongRecOn generalizing p q with
  | ind left ih =>
    cases left with
    | zero =>
      rw [skipFrames_eq p, skipFrames_eq q]
      exact h
    | succ left =>
      obtain ⟨hfound, hafter⟩ := step_true_same h
      rw [skipFrames_eq p, skipFrames_eq q, seekRound, seekRound]
      generalize p.step true = x at hfound hafter
      generalize q.step true = y at hfound hafter
      obtain ⟨found, p⟩ := x
      obtain ⟨_, q⟩ := y
      obtain rfl : found = _ := hfound
      rcases found with e | ⟨e⟩ | ⟨frames, hframes⟩ | _
      · exact hafter
      · exact hafter
      · have hless : left + 1 - min frames (left + 1) < left + 1 := by omega
        exact ih _ hless (advance_same hafter _)
      · exact hafter

/-- A part of a delay may pass before the rest is passed over. -/
theorem skipFrames_part {p q : Player} {frames : SomeFrames}
    (hstep : p.step false = (.ok (.delay frames), q)) {part : Nat} (hpos : 0 < part)
    (hpart : part ≤ frames.val) (left : Nat) :
    SamePlace (p.skipFrames (part + left)) ((q.advance part).skipFrames left) := by
  rw [skipFrames_delay hstep (Nat.add_pos_left hpos left)]
  rcases Nat.eq_zero_or_pos left with rfl | hleft
  · rw [Nat.add_zero, Nat.min_eq_right hpart, Nat.sub_self]
    exact .refl _
  · rcases Nat.eq_or_lt_of_le hpart with rfl | hless
    · rw [Nat.min_eq_left (Nat.le_add_right _ _), Nat.add_sub_cancel_left]
      exact .refl _
    · -- What is left of the delay is pending, and the seek lets it pass in its next round.
      have hdelay : (q.advance part).delay = frames.val - part := by
        rw [advance_delay, step_delay hstep]
      have hpending : 0 < (q.advance part).delay := by omega
      rw [skipFrames_delay (step_pending hpending) hleft]
      dsimp only
      rw [hdelay]
      have hframes : min frames.val (part + left) = part + min (frames.val - part) left := by omega
      have hover : part + left - min frames.val (part + left)
          = left - min (frames.val - part) left := by omega
      rw [hover, hframes]
      exact skipFrames_same (advance_add q _ _).symm _

/-- A play for some frames comes to where a seek does that has these frames left. -/
theorem PlaysFor.skipFrames {p q : Player} {now left : Nat} {events : List (Nat × Event)}
    {ending : StretchEnd} (h : PlaysFor p now left events ending q) :
    SamePlace (p.skipFrames left) q := by
  induction h with
  | @limit p =>
    rw [skipFrames_eq]
    exact .refl p
  | event hleft hstep _ ih =>
    rw [skipFrames_event hstep hleft]
    exact ih
  | delay hstep hpos hpart _ ih => exact (skipFrames_part hstep hpos hpart _).trans ih
  | finished hleft hstep =>
    rw [skipFrames_ended (.inl (congrArg Prod.fst hstep)) hleft, hstep]
    exact .refl _
  | failed hleft hstep =>
    rw [skipFrames_ended (.inr ⟨_, congrArg Prod.fst hstep⟩) hleft, hstep]
    exact .refl _

/-! ### What is played after a seek -/

section

variable {p q : Player} {limit now : Nat}

theorem eventsFrom_event {e : Event} (hstep : p.step false = (.ok (.event e), q))
    (hnow : now < limit) : p.eventsFrom limit now = (now, e) :: q.eventsFrom limit now := by
  rw [eventsFrom_eq p, eventsFrom_eq q, if_pos hnow, if_pos hnow, update_eq p, hstep]
  rfl

theorem eventsFrom_part {frames : SomeFrames} (hstep : p.step false = (.ok (.delay frames), q))
    {part : Nat} (hpos : 0 < part) (hpart : part ≤ frames.val) (hlimit : now + part ≤ limit) :
    p.eventsFrom limit now = (q.advance part).eventsFrom limit (now + part) := by
  have hupdate : p.update false = ({ events := [], outcome := .ok (some frames) }, q) := by
    rw [update_eq, hstep]
  have hwhole : p.eventsFrom limit now
      = (q.advance frames.val).eventsFrom limit (now + frames.val) := by
    rw [eventsFrom_eq, if_pos (by omega), hupdate]
    rfl
  rcases Nat.eq_or_lt_of_le hpart with rfl | hless
  · exact hwhole
  · have hdelay := step_delay hstep
    rw [hwhole, eventsFrom_advance q part limit now (by omega) hlimit, hdelay]

theorem eventsFrom_finished (hstep : p.step false = (.ok .finished, q)) :
    q.eventsFrom limit now = [] := by
  have hplain := p.plain_step
  rw [hstep] at hplain
  cases hplain with
  | finished =>
    rw [eventsFrom_eq, update_eq, hstep]
    split <;> rfl

end

/-- The events of a play come first, and then those of the place that it comes to. -/
theorem PlaysFor.eventsFrom {p q : Player} {now left : Nat} {events : List (Nat × Event)}
    {ending : StretchEnd} (h : PlaysFor p now left events ending q)
    (hends : ∀ e, ending ≠ .failed e) {limit : Nat} (hlimit : now + left ≤ limit) :
    p.eventsFrom limit now = events ++ q.eventsFrom limit (now + left) := by
  induction h with
  | limit => rfl
  | event hleft hstep _ ih =>
    rw [eventsFrom_event hstep (by omega), ih hends hlimit]
    rfl
  | @delay _ _ _ now left part _ _ _ hstep hpos hpart _ ih =>
    rw [eventsFrom_part hstep hpos hpart (by omega), ih hends (by omega), Nat.add_assoc]
  | @finished p q _ _ _ hstep =>
    have hplain := p.plain_step
    rw [hstep] at hplain
    cases hplain with
    | finished => rw [eventsFrom_finished hstep, eventsFrom_finished hstep]; rfl
  | failed => exact absurd rfl (hends _)

/-- A seek lands where playing would. Any play from the start for its frames, with the delays let
pass in whatever parts, ends at the place of the seek, and unless the play met wrong data, which it
does not in a song that can be read, the events from there on are those that playing from the start
has left. -/
theorem seek_lands (p : Player) (beats : Float) :
    (∃ events ending q, PlaysFor p.rewound 0 (p.seekFrames beats) events ending q)
      ∧ ∀ events ending q, PlaysFor p.rewound 0 (p.seekFrames beats) events ending q →
        SamePlace (p.seek beats) q
          ∧ (∀ x ∈ events, x.1 < p.seekFrames beats)
          ∧ (p.Readable → ∀ e, ending ≠ .failed e)
          ∧ ((∀ e, ending ≠ .failed e) → ∀ limit, p.seekFrames beats ≤ limit →
            p.rewound.eventsFrom limit 0
              = events ++ (p.seek beats).eventsFrom limit (p.seekFrames beats)) := by
  refine ⟨exists_playsFor _ _ _, fun events ending q hplay => ?_⟩
  have hplace : SamePlace (p.seek beats) q := by
    rw [seek_eq]
    exact hplay.skipFrames
  refine ⟨hplace, ?_, fun hreadable => hplay.ne_failed hreadable.rewound, ?_⟩
  · intro x hx
    have hbefore := hplay.before x hx
    omega
  · intro hends limit hlimit
    rw [← Nat.zero_add (p.seekFrames beats)] at hlimit
    have hsplit := hplay.eventsFrom hends hlimit
    rw [Nat.zero_add] at hsplit
    rw [hsplit, eventsFrom_same hplace]

/-- Half a beat leads past several returns to the loop. -/
theorem seek_lands_straddling :
    straddling.Readable
      ∧ straddling.seekFrames 0.5 = 11024
      ∧ ∃ events ending q, PlaysFor straddling.rewound 0 11024 events ending q
        ∧ SamePlace (straddling.seek 0.5) q
        ∧ straddling.rewound.eventsFrom 20000 0
          = events ++ (straddling.seek 0.5).eventsFrom 20000 11024 := by
  have hframes : straddling.seekFrames 0.5 = 11024 := by decide +kernel
  obtain ⟨⟨events, ending, q, hplay⟩, hlands⟩ := seek_lands straddling 0.5
  obtain ⟨hplace, -, hends, hrest⟩ := hlands events ending q hplay
  have hsplit := hrest (hends readable_straddling) 20000
  rw [hframes] at hplay hsplit
  exact ⟨readable_straddling, hframes, events, ending, q, hplay, hplace, hsplit (by decide)⟩

end Tonewheel.Player
