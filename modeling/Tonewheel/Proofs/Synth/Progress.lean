import Tonewheel.Proofs.Song.Moves
import Tonewheel.Proofs.Synth.Lengths

/-!
# Playing always moves on

Each loop that plays a song comes to its end, whatever bytes the song is made of: a step passes over
events and a reading collects them, of which the bytes that are left hold only so many; a seek lets
a frame pass in each round, as does the loop that makes the mono signal. A song that repeats a body
without delays waits a frame at its loop. `always_moves_on` counts the rounds of the loops.
-/

namespace Tonewheel

namespace Player

/-! ### Rounds of a step -/

def stepRound (skip : Bool) (p : Player) : Player ⊕ (Except DecodeError SongStep × Player) :=
  match p.step false with
  | (.ok (.event e), q) => if skip then .inl q else .inr (.ok (.event e), q)
  | other => .inr other

theorem stops_step (p : Player) (skip : Bool) :
    ∃ rounds, Stops (stepRound skip) p rounds (p.step skip) ∧ rounds ≤ p.bytesLeft + 1 := by
  cases skip with
  | false =>
    refine ⟨1, .last ?_, Nat.le_add_left _ _⟩
    rw [stepRound]
    split
    next hstep => exact congrArg Sum.inr hstep.symm
    next => rfl
  | true =>
    induction p using event_induction with
    | event hstep ih =>
      have hfewer := bytesLeft_of_event hstep
      obtain ⟨rounds, hstops, hrounds⟩ := ih
      rw [step_true_of_event hstep]
      exact ⟨rounds + 1, .next (by rw [stepRound, hstep]; rfl) hstops, by omega⟩
    | @other p hother =>
      refine ⟨1, .last ?_, Nat.le_add_left _ _⟩
      rw [step_true_of_not_event hother, stepRound]
      split
      next e q hstep => exact absurd (congrArg Prod.fst hstep) (hother e)
      next => rfl

theorem Trail.offset_events {p q : Player} {events : List Event}
    (h : Trail p (events.map SongStep.event) q) (hoffset : p.offset ≤ p.song.data.size) :
    q.song = p.song ∧ q.offset ≤ p.song.data.size ∧ p.offset + 2 * events.length ≤ q.offset := by
  induction events generalizing p with
  | nil =>
    cases h
    exact ⟨rfl, hoffset, Nat.le_refl _⟩
  | cons e events ih =>
    cases h with
    | @event _ r _ _ _ hstep hrest =>
      have hplain := p.plain_step
      rw [hstep] at hplain
      cases hplain with
      | event _ hitem =>
        have hnext := Song.next_of_event hitem
        obtain ⟨hsong, hsize, hbytes⟩ := ih hrest (Song.next_le_size hitem)
        dsimp only at hbytes
        exact ⟨hsong, hsize, by rw [List.length_cons]; omega⟩

/-- Where a step leads within the data: onwards, or to the loop. -/
theorem step_within {p : Player} (skip : Bool) (hloop : p.song.loopStart ≤ p.song.data.size)
    (hoffset : p.offset ≤ p.song.data.size) :
    (p.step skip).2.offset ≤ p.song.data.size
      ∧ (p.offset ≤ (p.step skip).2.offset ∨ (p.step skip).2.offset = p.song.loopStart) := by
  obtain ⟨events, q, htrail, hyields, -, -⟩ := p.step_way skip
  obtain ⟨hsong, hsize, hbytes⟩ := htrail.offset_events hoffset
  obtain ⟨hwithin, hplace⟩ := step_offset (p := q) (by rw [hsong]; exact hloop)
    (by rw [hsong]; exact hsize)
  rw [hsong] at hwithin hplace
  rw [hyields]
  refine ⟨hwithin, hplace.imp_left fun hafter => ?_⟩
  omega

/-! ### Events between two delays -/

def yielded : Except DecodeError SongStep → List Event
  | .ok (.event e) => [e]
  | _ => []

/-- A run of steps, none of which finds a delay, and of advances, with the events that the steps
yield. A seek has no part in it: its first step, or the first one after it, finds the delay that it
starts with. -/
inductive Undelayed : Player → List Event → Player → Prop where
  | nil (p : Player) : Undelayed p [] p
  | step {p q r : Player} {skip : Bool} {found : Except DecodeError SongStep} {events : List Event}
      (hstep : p.step skip = (found, q)) (hfound : ∀ frames, found ≠ .ok (.delay frames))
      (hrest : Undelayed q events r) : Undelayed p (yielded found ++ events) r
  | advance {p r : Player} {frames : Nat} {events : List Event}
      (hrest : Undelayed (p.advance frames) events r) : Undelayed p events r

theorem step_yields {p q : Player} {skip : Bool} {found : Except DecodeError SongStep}
    (hstep : p.step skip = (found, q)) (hfound : ∀ frames, found ≠ .ok (.delay frames))
    (hoffset : p.offset ≤ p.song.data.size) :
    q.song = p.song ∧ q.offset ≤ p.song.data.size
      ∧ p.offset + 2 * (yielded found).length ≤ q.offset := by
  obtain ⟨events, r, htrail, hyields, -, -⟩ := p.step_way skip
  obtain ⟨hsong, hsize, hbytes⟩ := htrail.offset_events hoffset
  rw [hyields] at hstep
  have hplain := r.plain_step
  rw [hstep] at hplain
  cases hplain with
  | pending => exact absurd rfl (hfound _)
  | restart => exact absurd rfl (hfound _)
  | delay => exact absurd rfl (hfound _)
  | finished => exact ⟨hsong, hsize, Nat.le_trans (Nat.le_add_right _ _) hbytes⟩
  | wrong _ hitem =>
    have hlt := Song.lt_size_of_error hitem
    rw [hsong] at hlt
    refine ⟨hsong, hlt, ?_⟩
    show p.offset + 2 * 0 ≤ r.offset + 1
    omega
  | event _ hitem =>
    have hnext := Song.next_of_event hitem
    have hwithin := Song.next_le_size hitem
    rw [hsong] at hwithin
    refine ⟨hsong, hwithin, ?_⟩
    show p.offset + 2 * 1 ≤ _
    dsimp only
    omega

theorem Undelayed.bytes {p q : Player} {events : List Event} (h : Undelayed p events q)
    (hoffset : p.offset ≤ p.song.data.size) :
    p.offset + 2 * events.length ≤ p.song.data.size := by
  induction h with
  | nil => simpa using hoffset
  | step hstep hfound _ ih =>
    obtain ⟨hsong, hsize, hbytes⟩ := step_yields hstep hfound hoffset
    rw [hsong] at ih
    have hrest := ih hsize
    rw [List.length_append]
    omega
  | @advance p _ frames _ _ ih =>
    rw [(advance_place p frames).song, (advance_place p frames).offset] at ih
    exact ih hoffset

/-! ### Rounds of readings and seeks -/

/-- One round of reading on to the next delay, behind the events so far. -/
def updateRound (skip : Bool) :
    List Event × Player → (List Event × Player) ⊕ (Arrival × Player)
  | (events, p) =>
    match p.step skip with
    | (.ok (.event e), q) => .inl (events ++ [e], q)
    | (.ok (.delay frames), q) => .inr (⟨events, .ok (some frames)⟩, q)
    | (.ok .finished, q) => .inr (⟨events, .ok none⟩, q)
    | (.error e, q) => .inr (⟨events, .error e⟩, q)

theorem stops_update (p : Player) (skip : Bool) (before : List Event) :
    ∃ rounds, Stops (updateRound skip) (before, p) rounds
        (⟨before ++ (p.update skip).1.events, (p.update skip).1.outcome⟩, (p.update skip).2)
      ∧ rounds ≤ p.bytesLeft + 1 := by
  fun_induction update p skip generalizing before with
  | case1 p e q hstep arrival last hrest ih =>
    have hfewer := bytesLeft_of_event hstep
    obtain ⟨rounds, hstops, hrounds⟩ := ih (before ++ [e])
    rw [hrest, List.append_assoc] at hstops
    exact ⟨rounds + 1, .next (by rw [updateRound, hstep]) hstops, by omega⟩
  | case2 p frames q hstep =>
    exact ⟨1, .last (by rw [updateRound, hstep, List.append_nil]), Nat.le_add_left _ _⟩
  | case3 p q hstep =>
    exact ⟨1, .last (by rw [updateRound, hstep, List.append_nil]), Nat.le_add_left _ _⟩
  | case4 p e q hstep =>
    exact ⟨1, .last (by rw [updateRound, hstep, List.append_nil]), Nat.le_add_left _ _⟩

theorem stops_skipFrames (p : Player) (left : Nat) :
    ∃ rounds, Stops seekRound (p, left) rounds (p.skipFrames left) ∧ rounds ≤ left + 1 := by
  induction left using Nat.strongRecOn generalizing p with
  | ind left ih =>
    rw [skipFrames_eq]
    cases hround : seekRound (p, left) with
    | inr q => exact ⟨1, .last hround, Nat.le_add_left _ _⟩
    | inl next =>
      obtain ⟨q, rest⟩ := next
      have hless : rest < left := by
        cases left with
        | zero => cases hround
        | succ left =>
          rw [seekRound] at hround
          split at hround
          next frames r _ =>
            cases hround
            have hframes := frames.property
            omega
          next => cases hround
      obtain ⟨rounds, hstops, hrounds⟩ := ih rest hless q
      exact ⟨rounds + 1, .next hround hstops, by omega⟩

/-- What makes playing on from some place sure to end. -/
structure MovesOn (p : Player) : Prop where
  offset_le : p.offset ≤ p.song.data.size
  /-- A step passes over no more events than the bytes that are left can hold. -/
  step : ∀ skip, ∃ rounds, Stops (stepRound skip) p rounds (p.step skip)
    ∧ rounds ≤ p.bytesLeft + 1
  /-- It reads on within the data, or goes back to the loop. -/
  step_offset : ∀ skip, (p.step skip).2.offset ≤ p.song.data.size
    ∧ (p.offset ≤ (p.step skip).2.offset ∨ (p.step skip).2.offset = p.song.loopStart)
  delay : ∀ skip frames q, p.step skip = (.ok (.delay frames), q) →
    q.delay = frames.val ∧ 1 ≤ frames.val
  /-- Between two delays come no more events than the data has bytes. -/
  events : ∀ events q, Undelayed p events q → events.length ≤ p.song.data.size
  update : ∀ skip, ∃ rounds, Stops (updateRound skip) ([], p) rounds (p.update skip)
    ∧ rounds ≤ p.bytesLeft + 1
  /-- A seek goes through no more rounds than it has frames. -/
  seek : ∀ beats, ∃ rounds, Stops seekRound (p.rewound, p.seekFrames beats) rounds (p.seek beats)
    ∧ rounds ≤ p.seekFrames beats + 1

theorem movesOn {p : Player} (hloop : p.song.loopStart ≤ p.song.data.size)
    (hoffset : p.offset ≤ p.song.data.size) : p.MovesOn where
  offset_le := hoffset
  step := p.stops_step
  step_offset skip := step_within skip hloop hoffset
  delay skip frames q hstep := by
    obtain ⟨-, r, -, hyields, -, -⟩ := p.step_way skip
    rw [hyields] at hstep
    exact ⟨step_delay hstep, frames.property⟩
  events events q hevents := by
    have hbytes := hevents.bytes hoffset
    omega
  update skip := p.stops_update skip []
  seek beats := p.rewound.stops_skipFrames (p.seekFrames beats)

end Player

/-! ### Rounds of the mono signal -/

namespace Synth

/-- One round of the mono signal, with the frames that are still to be made. -/
def monoRound : Synth × Nat × Block → (Synth × Nat × Block) ⊕ (Block × Synth)
  | (s, n, out) =>
    if h : 0 < n then
      let prepared := s.prepareStretch ⟨n, h⟩
      let made := prepared.2.renderStretch prepared.1.val
      .inl (made.2, n - prepared.1.val, out ++ made.1)
    else .inr (out, s)

theorem monoRound_frames {s t : Synth} {n left : Nat} {out more : Block}
    (h : monoRound (s, n, out) = .inl (t, left, more)) :
    left < n ∧ more.size = out.size + (n - left) := by
  rw [monoRound] at h
  split at h
  next hn =>
    have hlen := s.prepareStretch_le ⟨n, hn⟩
    have hpos := (s.prepareStretch ⟨n, hn⟩).1.property
    have hsize := (s.prepareStretch ⟨n, hn⟩).2.size_renderStretch (s.prepareStretch ⟨n, hn⟩).1.val
    simp only [Sum.inl.injEq, Prod.mk.injEq] at h
    obtain ⟨-, rfl, rfl⟩ := h
    rw [Array.size_append, hsize]
    dsimp only at hlen
    omega
  next => cases h

theorem stops_renderMono (s : Synth) (n : Nat) (out : Block) :
    ∃ rounds, Stops monoRound (s, n, out) rounds (s.renderMono n out) ∧ rounds ≤ n + 1 := by
  fun_induction renderMono s n out with
  | case1 s n out h len t hprepare block u hstretch ih =>
    have hround : monoRound (s, n, out) = .inl (u, n - len.val, out ++ block) := by
      rw [monoRound, dif_pos h]
      dsimp only
      rw [hprepare, hstretch]
    obtain ⟨hless, -⟩ := monoRound_frames hround
    obtain ⟨rounds, hstops, hrounds⟩ := ih
    exact ⟨rounds + 1, .next hround hstops, by omega⟩
  | case2 s n out h =>
    exact ⟨1, .last (by rw [monoRound, dif_neg h]), Nat.le_add_left _ _⟩

end Synth

namespace Player

/-- A song that was accepted, whatever its bytes, moves on from every state that its moves lead to,
and all loops that play it end. -/
theorem always_moves_on {rate : UInt32} {bytes : Bytes} {repeats : Bool}
    {resource : Option ResourceId} {p q : Player} (hmake : make rate bytes repeats resource = .ok p)
    (hq : p.Reaches q) :
    q.MovesOn
      ∧ ∀ s : Synth, ∀ n out,
        (∃ rounds, Stops Synth.monoRound (s, n, out) rounds (s.renderMono n out) ∧ rounds ≤ n + 1)
          ∧ ∀ t left more, Synth.monoRound (s, n, out) = .inl (t, left, more) →
            left < n ∧ more.size = out.size + (n - left) := by
  obtain ⟨hoffset, hloop, -⟩ := hq.offset_le hmake
  refine ⟨movesOn (Nat.le_of_lt hloop) hoffset, fun s n out => ?_⟩
  exact ⟨s.stops_renderMono n out, fun t left more => Synth.monoRound_frames⟩

/-- A song of one note, without a delay. -/
def breathlessBytes : Bytes :=
  Song.signature ++ bytesOfWord 500 ++ bytesOfWord 42 ++ bytesOfWord 42 ++ List.replicate 32 0
    ++ [0x90, 0x3c]

def breathless : Player := ofSong ⟨breathlessBytes.toArray, 500, 42, 42, none⟩ 44100 true

/-- After the note there is the frame at the loop. -/
theorem always_moves_on_breathless :
    make 44100 breathlessBytes true none = .ok breathless
      ∧ breathless.Reaches (((breathless.step false).2.step false).2.advance 1)
      ∧ (((breathless.step false).2.step false).2.advance 1).MovesOn := by
  have hmake : make 44100 breathlessBytes true none = .ok breathless := rfl
  have hreached : breathless.Reaches (((breathless.step false).2.step false).2.advance 1) :=
    .advance (.step (.step .start false) false) 1
  exact ⟨hmake, hreached, (always_moves_on hmake hreached).1⟩

end Player

end Tonewheel
