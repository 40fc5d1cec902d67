import Tonewheel.Numeric.Single
import Tonewheel.Output
import Tonewheel.Song.Format

/-!
# Playing songs (SPEC_FULL, sections 4.5 and 12)

A player is a song, a place in its stream and a pending delay in frames. `Player.step` reads up to
the next event or delay, `Player.advance` lets time pass, and `Player.seek` starts over and skips to
a beat. A delay is at least one frame, also the one that a repeating song makes at its loop, so
playing always moves on.
-/

namespace Tonewheel

structure Player where
  song : Song
  repeats : Bool
  framesPerMs : Float32
  /-- Where the stream goes on. -/
  offset : Nat
  /-- Frames before it does. -/
  delay : Nat := 0
  /-- Time since the start of the song, in ms. -/
  clock : Float := 0
  /-- What the clock will show at the end of the pending delay, which keeps rounding errors from
  adding up. -/
  clockAfterDelay : Option Float := none

/-- A number of frames that is not zero. -/
abbrev SomeFrames : Type := { frames : Nat // 0 < frames }

inductive SongStep where
  | event (event : Event)
  /-- Frames until the next event. -/
  | delay (frames : SomeFrames)
  | finished

namespace Player

def ofSong (song : Song) (rate : UInt32) (repeats : Bool) : Player :=
  { song, repeats, framesPerMs := Format.framesPerMs rate, offset := song.start }

def make (rate : UInt32) (bytes : Bytes) (repeats : Bool) (resource : Option ResourceId) :
    Except DecodeError Player :=
  (Song.ofBytes bytes resource).map fun song => ofSong song rate repeats

def isResource (p : Player) (id : ResourceId) : Bool := p.song.resource == some id

/-! ### Steps -/

def delayFrames (p : Player) (ms : UInt8) : SomeFrames :=
  ⟨max 1 (Single.nearest (ms.toFloat32 * p.framesPerMs)), by omega⟩

def durationFrames (p : Player) (units : UInt8) : Int :=
  min 0x7fffffff (Single.nearest ((units.toUInt16 <<< 5).toFloat32 * p.framesPerMs) : Nat)

def eventOf (p : Player) : SongEvent → Event
  | .note channel key velocity units => Event.noteOnce channel key velocity (p.durationFrames units)
  | .wheel channel position => Event.wheel channel position

/-- Goes back to the loop, with a delay of one frame in case the loop has none. -/
def restart (p : Player) : Player :=
  { p with
    offset := p.song.loopStart
    delay := 1
    clock := 1
    clockAfterDelay := some 1 }

def setDelay (p : Player) (ms : UInt8) (offset : Nat) : Player :=
  { p with
    offset
    delay := (p.delayFrames ms).val
    clockAfterDelay := some (p.clock + ms.toUInt32.toFloat) }

theorem lt_of_item {data : Array UInt8} {i j : Nat} {x : SongItem}
    (h : Song.item data i = .ok (some (x, j))) : i < j ∧ i < data.size := by
  unfold Song.item at h
  split at h
  · cases h
  · rename_i lead hlead
    have hi : i < data.size := by
      rcases Nat.lt_or_ge i data.size with hlt | hge
      · exact hlt
      · rw [Array.getElem?_eq_none hge] at hlead
        cases hlead
    refine ⟨?_, hi⟩
    split at h
    · cases h
    · split at h
      · cases h
        omega
      · generalize Song.event data lead (i + 1) = r at h
        cases r with
        | error e => cases h
        | ok v =>
          simp only [bind, Except.bind] at h
          split at h
          · cases h
          · simp only [pure, Except.pure, Except.ok.injEq, Option.some.injEq, Prod.mk.injEq] at h
            omega

/-- Reads up to the next event or delay; with `skip` events are passed over. A wrong event leaves
the player behind its first byte. -/
def step (p : Player) (skip : Bool) : Except DecodeError SongStep × Player :=
  if h : 0 < p.delay then (.ok (.delay ⟨p.delay, h⟩), p)
  else
    match hitem : Song.item p.song.data p.offset with
    | .error e => (.error e, { p with offset := p.offset + 1 })
    | .ok none =>
      if p.repeats then (.ok (.delay ⟨1, by decide⟩), p.restart) else (.ok .finished, p)
    | .ok (some (.delay ms, next)) =>
      (.ok (.delay (p.delayFrames ms)), p.setDelay ms next)
    | .ok (some (.event e, next)) =>
      if skip then { p with offset := next }.step skip
      else (.ok (.event (p.eventOf e)), { p with offset := next })
  termination_by p.song.data.size - p.offset
  decreasing_by
    have := lt_of_item hitem
    omega

/-- A step that yields an event moves on in the stream of the same song. -/
theorem lt_of_step {p after : Player} {skip : Bool} {e : Event}
    (h : p.step skip = (.ok (.event e), after)) :
    after.song = p.song ∧ p.offset < after.offset ∧ p.offset < p.song.data.size := by
  fun_induction step p skip with
  | case1 p hd => simp at h
  | case2 p hd err hitem => simp at h
  | case3 p hd hitem hr => simp at h
  | case4 p hd hitem hr => simp at h
  | case5 p hd ms next hitem => simp at h
  | case6 p hd e' next hitem _ ih =>
    have hlt := lt_of_item hitem
    obtain ⟨hsong, ho, _⟩ := ih h
    exact ⟨hsong, Nat.lt_trans hlt.1 ho, hlt.2⟩
  | case7 p hd e' next hitem hs =>
    have hlt := lt_of_item hitem
    simp only [Prod.mk.injEq] at h
    obtain ⟨_, rfl⟩ := h
    exact ⟨rfl, hlt⟩

/-- What a player comes to: the events on the way, then the frames to the next one, none at the end
of the song, or an error. -/
structure Arrival where
  events : List Event
  outcome : Except DecodeError (Option SomeFrames)

def update (p : Player) (skip : Bool) : Arrival × Player :=
  match _h : p.step skip with
  | (.ok (.event e), after) =>
    let (arrival, after) := after.update skip
    ({ arrival with events := e :: arrival.events }, after)
  | (.ok (.delay frames), after) => ({ events := [], outcome := .ok (some frames) }, after)
  | (.ok .finished, after) => ({ events := [], outcome := .ok none }, after)
  | (.error e, after) => ({ events := [], outcome := .error e }, after)
  termination_by p.song.data.size - p.offset
  decreasing_by
    obtain ⟨hsong, ho, hs⟩ := lt_of_step _h
    rw [hsong]
    omega

/-! ### Time -/

/-- Lets frames pass, which should not be more than the pending delay. -/
def advance (p : Player) (frames : Nat) : Player :=
  if frames = 0 then p
  else
    let clock := p.clock + frames.toUInt64.toFloat / Single.widen p.framesPerMs
    let delay := p.delay - frames
    match delay, p.clockAfterDelay with
    | 0, some next => { p with delay, clock := next, clockAfterDelay := none }
    | _, _ => { p with delay, clock }

/-- The position in beats, less `adjust` seconds, and not before the start. -/
def position (p : Player) (adjust : Float) : Float :=
  let ms := p.clock - adjust * 1000
  (if 0 < ms then ms else 0) / p.song.tempo.toUInt32.toFloat

def skipFrames (p : Player) (frames : Nat) : Player :=
  if _h : 0 < frames then
    match p.step true with
    | (.ok (.delay ⟨n, _⟩), p) => (p.advance (min n frames)).skipFrames (frames - min n frames)
    | (_, p) => p
  else p
  termination_by frames
  decreasing_by omega

/-- Starts over and goes to a beat. The start costs a frame. -/
def seek (p : Player) (beats : Float) : Player :=
  let frames := beats * p.song.tempo.toUInt32.toFloat * Single.widen p.framesPerMs
  { p with
    offset := p.song.start
    delay := 1
    clock := 1
    clockAfterDelay := some 1 }.skipFrames frames.toUInt64.toNat

/-! ### Playing on -/

inductive StretchEnd where
  /-- The limit of time was reached. -/
  | limit
  /-- The song ended. -/
  | finished
  | failed (error : DecodeError)

/-- A stretch of playing: each event with the frame it came at, the frames played, and the end. -/
structure Stretch where
  events : List (Nat × Event) := []
  frames : Nat
  ending : StretchEnd

/-- Plays until at least `limit` frames have passed, delay by delay, from frame `now`. -/
def playFrom (p : Player) (limit now : Nat) : Stretch × Player :=
  if now < limit then
    let (arrival, p) := p.update false
    let here := arrival.events.map fun e => (now, e)
    match arrival.outcome with
    | .ok (some ⟨frames, _⟩) =>
      let (rest, p) := (p.advance frames).playFrom limit (now + frames)
      ({ rest with events := here ++ rest.events }, p)
    | .ok none => ({ events := here, frames := now, ending := .finished }, p)
    | .error e => ({ events := here, frames := now, ending := .failed e }, p)
  else ({ frames := now, ending := .limit }, p)
  termination_by limit - now
  decreasing_by omega

/-- Plays until at least `limit` frames have passed. -/
def play (p : Player) (limit : Nat) : Stretch × Player := p.playFrom limit 0

end Player

end Tonewheel
