import Mathlib.Logic.Function.Iterate
import Tonewheel.Proofs.Song.Stream

/-!
# Songs that repeat (SPEC_FULL, section 4.5)

A course of playing is any run of steps and of advances that are not longer than the pending delay
(`Course.Reached`). It logs the events of its steps and each return to the loop, with the frames
that had passed by then. When the items from the start of a song and those from its loop can be
read up to an end, what a course logs and what is still to come make up one schedule: the first
pass, and after it one and the same pass again and again, each a frame and the delays of the loop
after the one before (`repeats_periodically`).
-/

namespace Tonewheel

namespace Song

/-- Where a stream that leads to an end stands: at the end or before its first item. -/
theorem Stream.head {data : Array UInt8} {i last : Nat} {items : List SongItem}
    (h : Stream data i items last) (hlast : item data last = .ok none) :
    (item data i = .ok none ∧ items = [])
      ∨ ∃ x next rest, item data i = .ok (some (x, next)) ∧ items = x :: rest
          ∧ Stream data next rest last := by
  cases h with
  | nil => exact .inl ⟨hlast, rfl⟩
  | cons hitem hrest => exact .inr ⟨_, _, _, hitem, rfl, hrest⟩

end Song

namespace Player

/-! ### Courses -/

/-- What a step shows of the course of a song. -/
inductive Mark where
  | event (event : Event)
  /-- The return to the loop. -/
  | loop
  | finished
  | failed (error : DecodeError)

/-- What the next step shows. Of the delays only the one that is made at the end of the stream
shows. -/
def shows (p : Player) : Option Mark :=
  match (p.step false).1 with
  | .error e => some (.failed e)
  | .ok .finished => some .finished
  | .ok (.event e) => some (.event e)
  | .ok (.delay _) =>
    match p.delay, Song.item p.song.data p.offset with
    | 0, .ok none => some .loop
    | _, _ => none

structure Course where
  player : Player
  now : Nat := 0
  log : List (Nat × Mark) := []

namespace Course

def step (c : Course) : Course :=
  { c with
    player := (c.player.step false).2
    log := c.log ++ c.player.shows.toList.map fun mark => (c.now, mark) }

def advance (c : Course) (frames : Nat) : Course :=
  { c with player := c.player.advance frames, now := c.now + frames }

inductive Reached (p : Player) : Course → Prop where
  | start : Reached p { player := p }
  | step {c : Course} (hc : Reached p c) : Reached p c.step
  | advance {c : Course} {frames : Nat} (hc : Reached p c) (hframes : frames ≤ c.player.delay) :
      Reached p (c.advance frames)

end Course

/-! ### Schedules -/

def Mark.ofEvent (x : Nat × Event) : Nat × Mark := (x.1, .event x.2)

/-- One pass of a loop, its frames counted from the return to the loop. -/
def pass (body : List SongStep) : List (Nat × Mark) :=
  (0, .loop) :: (timed 1 body).map Mark.ofEvent

def passLength (body : List SongStep) : Nat := 1 + totalDelay body

def later (frames : Nat) (marks : List (Nat × Mark)) : List (Nat × Mark) :=
  marks.map fun x => (frames + x.1, x.2)

def passes (body : List SongStep) (now count : Nat) : List (Nat × Mark) :=
  (List.range count).flatMap fun k => later (now + k * passLength body) (pass body)

def schedule (now : Nat) (steps body : List SongStep) (count : Nat) : List (Nat × Mark) :=
  (timed now steps).map Mark.ofEvent ++ passes body (now + totalDelay steps) count

theorem timed_add (frames now : Nat) (steps : List SongStep) :
    timed (frames + now) steps = (timed now steps).map fun x => (frames + x.1, x.2) := by
  induction steps generalizing now with
  | nil => rfl
  | cons x steps ih =>
    cases x with
    | event e => exact congrArg ((frames + now, e) :: ·) (ih now)
    | delay n =>
      rw [timed, timed, Nat.add_assoc]
      exact ih (now + n.val)
    | finished => exact ih now

theorem le_of_mem_timed {now : Nat} {steps : List SongStep} {x : Nat × Event}
    (hx : x ∈ timed now steps) : now ≤ x.1 := by
  have hshift := timed_add now 0 steps
  rw [Nat.add_zero] at hshift
  rw [hshift] at hx
  obtain ⟨y, -, rfl⟩ := List.mem_map.mp hx
  exact Nat.le_add_right _ _

theorem later_pass (now : Nat) (body : List SongStep) :
    later now (pass body) = (now, .loop) :: (timed (now + 1) body).map Mark.ofEvent := by
  rw [timed_add, later, pass, List.map_cons, List.map_map, List.map_map]
  rfl

theorem le_of_mem_passes {body : List SongStep} {now count : Nat} {x : Nat × Mark}
    (hx : x ∈ passes body now count) : now ≤ x.1 := by
  obtain ⟨k, -, hx⟩ := List.mem_flatMap.mp hx
  obtain ⟨y, -, rfl⟩ := List.mem_map.mp hx
  simp only
  omega

theorem le_of_mem_schedule {now count : Nat} {steps body : List SongStep} {x : Nat × Mark}
    (hx : x ∈ schedule now steps body count) : now ≤ x.1 := by
  rcases List.mem_append.mp hx with hx | hx
  · obtain ⟨y, hy, rfl⟩ := List.mem_map.mp hx
    exact le_of_mem_timed hy
  · have hle := le_of_mem_passes hx
    omega

theorem passes_succ (body : List SongStep) (now count : Nat) :
    passes body now (count + 1)
      = later now (pass body) ++ passes body (now + passLength body) count := by
  have hstart : ∀ k, now + (k + 1) * passLength body
      = now + passLength body + k * passLength body := by
    intro k
    rw [Nat.add_mul, Nat.one_mul]
    omega
  rw [passes, List.range_succ_eq_map, List.flatMap_cons, List.flatMap_map, Nat.zero_mul,
    Nat.add_zero, passes]
  simp only [Nat.succ_eq_add_one, hstart]

theorem schedule_event (now : Nat) (e : Event) (steps body : List SongStep) (count : Nat) :
    schedule now (.event e :: steps) body count
      = (now, .event e) :: schedule now steps body count := rfl

theorem schedule_delay (now : Nat) (frames : SomeFrames) (steps body : List SongStep)
    (count : Nat) :
    schedule now (.delay frames :: steps) body count
      = schedule (now + frames.val) steps body count := by
  rw [schedule, schedule, timed, totalDelay, Nat.add_assoc]

theorem schedule_end (now : Nat) (body : List SongStep) (count : Nat) :
    schedule now [] body (count + 1) = (now, .loop) :: schedule (now + 1) body body count := by
  have hnext : now + 1 + totalDelay body = now + passLength body := Nat.add_assoc _ _ _
  rw [schedule, timed, totalDelay, Nat.add_zero, List.map_nil, List.nil_append, passes_succ,
    later_pass, schedule, hnext, List.cons_append]

/-! ### Steps of a song that repeats -/

section

variable {p : Player}

theorem step_pending (h : 0 < p.delay) : p.step false = (.ok (.delay ⟨p.delay, h⟩), p) := by
  rw [step_eq, dif_pos h]

theorem step_end (hdelay : p.delay = 0) (hrepeats : p.repeats = true)
    (hitem : Song.item p.song.data p.offset = .ok none) :
    p.step false = (.ok (.delay ⟨1, by decide⟩), p.restart) := by
  rw [step_eq, dif_neg (by omega), hitem]
  dsimp only
  rw [if_pos hrepeats]

theorem step_item_delay {ms : UInt8} {next : Nat} (hdelay : p.delay = 0)
    (hitem : Song.item p.song.data p.offset = .ok (some (.delay ms, next))) :
    p.step false = (.ok (.delay (p.delayFrames ms)), p.setDelay ms next) := by
  rw [step_eq, dif_neg (by omega), hitem]

theorem step_item_event {e : SongEvent} {next : Nat} (hdelay : p.delay = 0)
    (hitem : Song.item p.song.data p.offset = .ok (some (.event e, next))) :
    p.step false = (.ok (.event (p.eventOf e)), { p with offset := next }) := by
  rw [step_eq, dif_neg (by omega), hitem]

theorem shows_pending (h : 0 < p.delay) : p.shows = none := by
  rw [shows, step_pending h]
  dsimp only
  split
  next hzero _ => omega
  next => rfl

theorem shows_end (hdelay : p.delay = 0) (hrepeats : p.repeats = true)
    (hitem : Song.item p.song.data p.offset = .ok none) : p.shows = some .loop := by
  rw [shows, step_end hdelay hrepeats hitem]
  dsimp only
  rw [hdelay, hitem]
  rfl

theorem shows_item_delay {ms : UInt8} {next : Nat} (hdelay : p.delay = 0)
    (hitem : Song.item p.song.data p.offset = .ok (some (.delay ms, next))) : p.shows = none := by
  rw [shows, step_item_delay hdelay hitem]
  dsimp only
  rw [hdelay, hitem]
  rfl

theorem shows_item_event {e : SongEvent} {next : Nat} (hdelay : p.delay = 0)
    (hitem : Song.item p.song.data p.offset = .ok (some (.event e, next))) :
    p.shows = some (.event (p.eventOf e)) := by
  rw [shows, step_item_event hdelay hitem]

theorem step_song (p : Player) : (p.step false).2.song = p.song
    ∧ (p.step false).2.repeats = p.repeats ∧ (p.step false).2.framesPerMs = p.framesPerMs := by
  rw [step_eq]
  split
  · exact ⟨rfl, rfl, rfl⟩
  · split
    · exact ⟨rfl, rfl, rfl⟩
    · split <;> exact ⟨rfl, rfl, rfl⟩
    · exact ⟨rfl, rfl, rfl⟩
    · exact ⟨rfl, rfl, rfl⟩

/-- Whether some items lead from an offset to an end. -/
def Ends (data : Array UInt8) (offset : Nat) (items : List SongItem) : Prop :=
  ∃ last, Song.Stream data offset items last ∧ Song.item data last = .ok none

theorem step_goes_on {items : List SongItem} (hrepeats : p.repeats = true)
    (hitems : Ends p.song.data p.offset items) :
    (∃ e, (p.step false).1 = .ok (.event e)) ∨ ∃ frames, (p.step false).1 = .ok (.delay frames) := by
  rcases Nat.eq_zero_or_pos p.delay with hdelay | hpending
  · obtain ⟨last, hstream, hlast⟩ := hitems
    rcases hstream.head hlast with ⟨hitem, -⟩ | ⟨⟨ms⟩ | ⟨e⟩, next, rest, hitem, -, -⟩
    · exact .inr ⟨_, congrArg Prod.fst (step_end hdelay hrepeats hitem)⟩
    · exact .inr ⟨_, congrArg Prod.fst (step_item_delay hdelay hitem)⟩
    · exact .inl ⟨_, congrArg Prod.fst (step_item_event hdelay hitem)⟩
  · exact .inr ⟨_, congrArg Prod.fst (step_pending hpending)⟩

/-- A step shows the head of the schedule, and what is left of it is the schedule of the place that
the step leads to, `begun` passes later. -/
theorem schedule_step {items body : List SongItem} (hrepeats : p.repeats = true)
    (hitems : Ends p.song.data p.offset items) (hbody : Ends p.song.data p.song.loopStart body) :
    ∃ left begun, Ends p.song.data (p.step false).2.offset left
      ∧ ∀ now count,
        schedule (now + p.delay) (items.map p.stepOf) (body.map p.stepOf) (begun + count)
          = p.shows.toList.map (fun mark => (now, mark))
            ++ schedule (now + (p.step false).2.delay) (left.map p.stepOf) (body.map p.stepOf)
              count := by
  rcases Nat.eq_zero_or_pos p.delay with hdelay | hpending
  · obtain ⟨last, hstream, hlast⟩ := hitems
    rcases hstream.head hlast with ⟨hitem, rfl⟩ | ⟨x, next, rest, hitem, rfl, hrest⟩
    · rw [step_end hdelay hrepeats hitem, shows_end hdelay hrepeats hitem, hdelay]
      refine ⟨body, 1, hbody, fun now count => ?_⟩
      rw [Nat.add_comm 1 count]
      exact schedule_end now _ count
    · cases x with
      | delay ms =>
        rw [step_item_delay hdelay hitem, shows_item_delay hdelay hitem, hdelay]
        refine ⟨rest, 0, ⟨last, hrest, hlast⟩, fun now count => ?_⟩
        rw [Nat.zero_add]
        exact schedule_delay now _ _ _ count
      | event e =>
        rw [step_item_event hdelay hitem, shows_item_event hdelay hitem]
        refine ⟨rest, 0, ⟨last, hrest, hlast⟩, fun now count => ?_⟩
        rw [Nat.zero_add, hdelay]
        exact schedule_event now _ _ _ count
  · rw [step_pending hpending, shows_pending hpending]
    refine ⟨items, 0, hitems, fun now count => ?_⟩
    rw [Nat.zero_add]
    rfl

end

/-! ### Courses of a song that repeats -/

/-- How a course keeps to the schedule of the player it began with: what it logged and what is to
come from where it is, `begun` passes later. -/
structure Course.Keeps (p : Player) (first body : List SongItem) (c : Course) : Prop where
  song : c.player.song = p.song
  repeats : c.player.repeats = p.repeats
  framesPerMs : c.player.framesPerMs = p.framesPerMs
  rest : ∃ items begun, Ends p.song.data c.player.offset items
    ∧ ∀ count, schedule 0 (first.map p.stepOf) (body.map p.stepOf) (begun + count)
      = c.log ++ schedule (c.now + c.player.delay) (items.map p.stepOf) (body.map p.stepOf) count

namespace Course

section

variable {p : Player} {first body : List SongItem} {c : Course}

theorem Keeps.step (h : c.Keeps p first body) (hrepeats : p.repeats = true)
    (hbody : Ends p.song.data p.song.loopStart body) : c.step.Keeps p first body := by
  obtain ⟨hsong, hrepeats', hframes⟩ := step_song c.player
  obtain ⟨items, begun, hitems, hschedule⟩ := h.rest
  have hbody' : Ends c.player.song.data c.player.song.loopStart body := by rwa [h.song]
  have hitems' : Ends c.player.song.data c.player.offset items := by rwa [h.song]
  obtain ⟨left, begun', hleft, hstep⟩ :=
    schedule_step (h.repeats.trans hrepeats) hitems' hbody'
  rw [h.song] at hleft
  rw [stepOf_congr h.framesPerMs] at hstep
  refine ⟨hsong.trans h.song, hrepeats'.trans h.repeats, hframes.trans h.framesPerMs, left,
    begun + begun', hleft, fun count => ?_⟩
  rw [Nat.add_assoc, hschedule, hstep, ← List.append_assoc]
  rfl

theorem Keeps.advance (h : c.Keeps p first body) {frames : Nat}
    (hframes : frames ≤ c.player.delay) : (c.advance frames).Keeps p first body := by
  obtain ⟨hsong, hrepeats, hrate, hoffset, hdelay⟩ := advance_place c.player frames
  obtain ⟨items, begun, hitems, hschedule⟩ := h.rest
  refine ⟨hsong.trans h.song, hrepeats.trans h.repeats, hrate.trans h.framesPerMs, items, begun, ?_,
    fun count => ?_⟩
  · rw [Course.advance, hoffset]
    exact hitems
  · have hsame : c.now + frames + (c.player.delay - frames) = c.now + c.player.delay := by omega
    rw [hschedule, Course.advance, hdelay, hsame]

theorem Reached.keeps (hc : c.Reached p) (hdelay : p.delay = 0) (hrepeats : p.repeats = true)
    (hfirst : Ends p.song.data p.offset first)
    (hbody : Ends p.song.data p.song.loopStart body) : c.Keeps p first body := by
  induction hc with
  | start =>
    refine ⟨rfl, rfl, rfl, first, 0, hfirst, fun count => ?_⟩
    rw [Nat.zero_add, hdelay]
    rfl
  | step _ ih => exact ih.step hrepeats hbody
  | advance _ hframes ih => exact ih.advance hframes

/-- Only so many events come before the next delay. -/
theorem delay_after_steps {items : List SongItem} {last : Nat} (hdelay : c.player.delay = 0)
    (hstream : Song.Stream c.player.song.data c.player.offset items last)
    (hlast : Song.item c.player.song.data last = .ok none) (hrepeats : c.player.repeats = true) :
    ∃ k, 0 < (Course.step^[k] c).player.delay := by
  induction items generalizing c with
  | nil =>
    obtain ⟨hitem, -⟩ | ⟨x, next, rest, -, hcons, -⟩ := hstream.head hlast
    · refine ⟨1, ?_⟩
      rw [Function.iterate_one, Course.step, step_end hdelay hrepeats hitem]
      exact Nat.one_pos
    · cases hcons
  | cons x items ih =>
    cases hstream with
    | @cons _ next _ _ _ hitem hrest =>
      cases x with
      | delay ms =>
        refine ⟨1, ?_⟩
        rw [Function.iterate_one, Course.step, step_item_delay hdelay hitem]
        exact (c.player.delayFrames ms).property
      | event e =>
        have hplayer : c.step.player = { c.player with offset := next } :=
          congrArg Prod.snd (step_item_event hdelay hitem)
        obtain ⟨k, hk⟩ := ih (c := c.step) (by rw [hplayer]; exact hdelay)
          (by rw [hplayer]; exact hrest) (by rw [hplayer]; exact hlast)
          (by rw [hplayer]; exact hrepeats)
        exact ⟨k + 1, hk⟩

end

end Course

/-- A song that repeats goes on forever, pass after pass. No step finds an end or an error and
after some steps there is a delay to let pass, so a course can always go on. What it logged heads a
schedule of one and the same pass after the first, and what the schedule has left is still to
come. -/
theorem repeats_periodically {rate : UInt32} {bytes : Bytes} {resource : Option ResourceId}
    {p : Player} {first body : List SongItem} (hmake : make rate bytes true resource = .ok p)
    (hfirst : Ends p.song.data p.song.start first)
    (hbody : Ends p.song.data p.song.loopStart body) {c : Course} (hc : c.Reached p) :
    (c.player.step false).1 ≠ .ok .finished
      ∧ (∀ e, (c.player.step false).1 ≠ .error e)
      ∧ (∃ k, 0 < (Course.step^[k] c).player.delay)
      ∧ ∃ begun, ∀ count, ∃ coming,
          schedule 0 (first.map p.stepOf) (body.map p.stepOf) (begun + count) = c.log ++ coming
            ∧ ∀ x ∈ coming, c.now + c.player.delay ≤ x.1 := by
  obtain ⟨song, -, rfl⟩ := map_eq_ok.mp hmake
  have hkeeps := hc.keeps rfl rfl hfirst hbody
  obtain ⟨items, begun, hitems, hschedule⟩ := hkeeps.rest
  have hhere : Ends c.player.song.data c.player.offset items := by
    rw [hkeeps.song]
    exact hitems
  have hgoes := step_goes_on hkeeps.repeats hhere
  refine ⟨?_, ?_, ?_, begun, fun count => ⟨_, hschedule count, fun x => le_of_mem_schedule⟩⟩
  · rcases hgoes with ⟨e, hstep⟩ | ⟨frames, hstep⟩ <;> simp [hstep]
  · rcases hgoes with ⟨e, hstep⟩ | ⟨frames, hstep⟩ <;> simp [hstep]
  · obtain ⟨last, hstream, hlast⟩ := hhere
    rcases Nat.eq_zero_or_pos c.player.delay with hdelay | hpending
    · exact Course.delay_after_steps hdelay hstream hlast hkeeps.repeats
    · exact ⟨0, hpending⟩

/-- A song with the loop at its second byte, the key of its only note. -/
def straddlingBytes : Bytes :=
  Song.signature ++ bytesOfWord 500 ++ bytesOfWord 42 ++ bytesOfWord 43 ++ List.replicate 32 0
    ++ [0x90, 0x3c, 0]

def straddling : Player := ofSong ⟨straddlingBytes.toArray, 500, 42, 43, none⟩ 44100 true

/-- Read from the loop, the key is a delay. -/
theorem repeats_periodically_straddling :
    make 44100 straddlingBytes true none = .ok straddling
      ∧ Ends straddling.song.data straddling.song.start [.event (.note 0 0x3c 0 0)]
      ∧ Ends straddling.song.data straddling.song.loopStart [.delay 0x3c]
      ∧ Course.Reached straddling (Course.step { player := straddling }).step
      ∧ ((Course.step { player := straddling }).step.player.step false).1 ≠ .ok .finished := by
  have hmake : make 44100 straddlingBytes true none = .ok straddling := rfl
  have hfirst : Ends straddling.song.data straddling.song.start [.event (.note 0 0x3c 0 0)] :=
    ⟨44, .cons rfl (.nil 44), rfl⟩
  have hbody : Ends straddling.song.data straddling.song.loopStart [.delay 0x3c] :=
    ⟨44, .cons rfl (.nil 44), rfl⟩
  have hreached : Course.Reached straddling (Course.step { player := straddling }).step :=
    .step (.step .start)
  exact ⟨hmake, hfirst, hbody, hreached, (repeats_periodically hmake hfirst hbody hreached).1⟩

end Player

end Tonewheel
