import Tonewheel.Proofs.Synth.PrintsAhead

/-!
# What playbacks mix (SPEC_FULL, section 4.6)

A session goes along with the steps of a synthesizer (`Session.follow`). It counts the frames that
are mixed, and keeps for each playback of the pool what it has added to them: a take, in the
playback's place and dropped with it (`Session.playbacks_eq`). At every moment a take is the samples
of its buffer from the first one on, each at its own frame, and none of them is read before it is
printed (`playbacks_read_printed`).
-/

namespace Tonewheel

/-- What a playback has added to the output: samples with the frames they fall on. -/
structure Take where
  playback : Playback
  /-- The frames that were mixed before it was started. -/
  start : Nat
  mixed : List (Float32 × Nat) := []

instance : PoolEntry Take where
  isDefunct t := PoolEntry.isDefunct t.playback
  isOlder t u := PoolEntry.isOlder t.playback u.playback

def Take.next (shelf : Shelf) (now n : Nat) (t : Take) : Take :=
  { t with
    playback := (t.playback.render shelf n).2
    mixed := t.mixed ++ (t.playback.render shelf n).1.toList.zipIdx now }

namespace Synth

structure Session where
  now : Nat := 0
  takes : List Take := []

/-! ### Playbacks that start -/

def soundStarted (s : Synth) (key : SoundKey) (trim : Float32) : Option Playback :=
  if trim ≤ 0 then none
  else
    (s.resolveSound key).bind fun key =>
      (s.obtainSound key).1.map fun pcm => .ofBuffer (s.obtainSound key).2.shelf pcm trim

def bytesStarted (s : Synth) (bytes : Bytes) (trim : Float32) : Option Playback :=
  if trim ≤ 0 ∨ bytes.isEmpty then none
  else
    (s.startPrinter bytes).1.map fun pcm => .ofBuffer (s.startPrinter bytes).2.shelf pcm trim

def noteStarted (s : Synth) (channel note velocity : UInt8) : Option Playback :=
  (channelIndex? channel).bind fun i =>
    ((s.ensureChannel i).channels.get i).bind fun c =>
      match c.patch with
      | .drum base =>
        (s.ensureChannel i).soundStarted ⟨0, base + note.toUInt16⟩ (c.drumTrim velocity)
      | _ => none

def actionStarted (s : Synth) (channel : UInt8) : Action → Option Playback
  | .noteOn note velocity => s.noteStarted channel note velocity
  | .noteOnce note velocity _ => s.noteStarted channel note velocity
  | _ => none

def Step.started (s : Synth) : Step → Option Playback
  | .event e => s.actionStarted e.channel e.action
  | .playSound key trim => s.soundStarted key trim
  | .playSoundBytes bytes trim => s.bytesStarted bytes trim
  | _ => none

namespace Session

def start (session : Session) (capacity : Nat) : Option Playback → Session
  | some playback =>
    { session with
      takes := (Pool.place capacity session.takes { playback, start := session.now }).2 }
  | none => session

def follow (session : Session) (s : Synth) : Step → Session
  | .stretch n =>
    { now := session.now + n, takes := session.takes.map (Take.next s.shelf session.now n) }
  | .clearCache => { session with takes := [] }
  | .finish => { session with takes := Pool.trimDefunct session.takes }
  | step => session.start s.playbacks.capacity (step.started s)

/-- The session after the first `k` steps of some calls on a new synthesizer. -/
def after (format : Format) (calls : List Call) : Nat → Session
  | 0 => {}
  | k + 1 =>
    match ((ofFormat format).history calls)[k]? with
    | some step => (after format calls k).follow (Moment.after format calls k).synth step
    | none => after format calls k

end Session

/-! ### Playbacks of the pool -/

def withStarted (playbacks : Pool Playback) : Option Playback → Pool Playback
  | some p => (playbacks.insert p).2
  | none => playbacks

theorem playbacks_startPrinter (s : Synth) (bytes : Bytes) :
    (s.startPrinter bytes).2.playbacks = s.playbacks := by
  unfold startPrinter
  split
  · rfl
  · split
    rfl

theorem playbacks_obtainSound (s : Synth) (key : SoundKey) :
    (s.obtainSound key).2.playbacks = s.playbacks := by
  unfold obtainSound
  split
  · rfl
  · split
    · rfl
    next bytes _ =>
      have hprinter := s.playbacks_startPrinter bytes
      generalize s.startPrinter bytes = started at hprinter
      obtain ⟨found, t⟩ := started
      cases found with
      | none => exact hprinter
      | some pcm => exact hprinter

theorem playbacks_playObtained (trim : Float32) (found : Option PcmId × Synth) :
    (playObtained trim found).playbacks
      = withStarted found.2.playbacks (found.1.map fun pcm => .ofBuffer found.2.shelf pcm trim) := by
  obtain ⟨pcm, t⟩ := found
  cases pcm <;> rfl

theorem playbacks_playSound (s : Synth) (key : SoundKey) (trim : Float32) :
    (s.playSound key trim).playbacks = withStarted s.playbacks (s.soundStarted key trim) := by
  unfold playSound soundStarted
  split
  · rfl
  · cases s.resolveSound key with
    | none => rfl
    | some found => exact (playbacks_playObtained trim _).trans (by rw [playbacks_obtainSound]; rfl)

theorem playbacks_playSoundBytes (s : Synth) (bytes : Bytes) (trim : Float32) :
    (s.playSoundBytes bytes trim).playbacks
      = withStarted s.playbacks (s.bytesStarted bytes trim) := by
  unfold playSoundBytes bytesStarted
  split
  · rfl
  · rw [playbacks_playObtained, playbacks_startPrinter]

theorem quietClosed_playbacks (playbacks : Pool Playback) :
    QuietClosed fun s => s.playbacks = playbacks :=
  quietClosed_of_soundSide fun _ _ hsame h => (congrArg (·.2.2.2.2.1) hsame).trans h

/-- A note starts a playback on a channel in drum mode, and none elsewhere. -/
theorem playbacks_note (s : Synth) (channel note velocity : UInt8) (duration : Int) :
    (s.onChannel channel fun i =>
        s.withChannel i fun s c => s.startNote c note velocity duration).playbacks
      = withStarted s.playbacks (s.noteStarted channel note velocity) := by
  unfold onChannel noteStarted
  cases channelIndex? channel with
  | none => rfl
  | some i =>
    have hensure : (s.ensureChannel i).playbacks = s.playbacks :=
      (quietClosed_playbacks s.playbacks).ensure s i rfl
    simp only [Option.bind_some, withChannel]
    generalize s.ensureChannel i = t at hensure
    cases t.channels.get i with
    | none => exact hensure
    | some c =>
      simp only [Option.bind_some, startNote]
      rw [← hensure]
      cases c.patch with
      | drum base => exact t.playbacks_playSound _ _
      | effect params => rfl
      | _ =>
        dsimp only
        split <;> rfl

theorem playbacks_perform (s : Synth) (channel : UInt8) (a : Action) :
    (s.perform channel a).playbacks = withStarted s.playbacks (s.actionStarted channel a) := by
  have hquiet := (quietClosed_playbacks s.playbacks).perform (s := s) rfl channel (a := a)
  cases a with
  | noteOn note velocity => exact s.playbacks_note channel note velocity _
  | noteOnce note velocity duration => exact s.playbacks_note channel note velocity duration
  | _ => exact hquiet (by simp) (by simp)

/-! ### Sessions -/

namespace Session

variable {session : Session} {s : Synth} {left : Nat}

theorem start_playbacks {playbacks : Pool Playback}
    (hsame : session.takes.map Take.playback = playbacks.entries) (found : Option Playback) :
    (session.start playbacks.capacity found).takes.map Take.playback
      = (withStarted playbacks found).entries := by
  cases found with
  | none => exact hsame
  | some p =>
    show _ = (Pool.place playbacks.capacity playbacks.entries p).2
    rw [← hsame]
    exact (Pool.place_map (f := Take.playback) (fun _ => rfl) (fun _ _ => rfl) _ _ _).symm

theorem follow_playbacks (hsame : session.takes.map Take.playback = s.playbacks.entries)
    {σ : Step} (allowed : σ.Allowed ⟨s, left⟩) :
    (session.follow s σ).takes.map Take.playback = (σ.run s).playbacks.entries := by
  have hstart (hrun : (σ.run s).playbacks = withStarted s.playbacks (σ.started s)) :
      (session.start s.playbacks.capacity (σ.started s)).takes.map Take.playback
        = (σ.run s).playbacks.entries := by
    rw [hrun]
    exact start_playbacks hsame _
  have hquiet (hσ : σ.Quiet) : (σ.run s).playbacks = s.playbacks :=
    congrArg (·.2.2.2.2.1) (hσ.soundSide s)
  cases σ with
  | event e => exact hstart (s.playbacks_perform e.channel e.action)
  | playSound key trim => exact hstart (s.playbacks_playSound key trim)
  | playSoundBytes bytes trim => exact hstart (s.playbacks_playSoundBytes bytes trim)
  | clearCache => rfl
  | setUp i record =>
    exact hstart ((quietClosed_playbacks s.playbacks).setUpChannel rfl allowed record)
  | begin frames => exact hstart rfl
  | stretch n =>
    show (session.takes.map (Take.next s.shelf session.now n)).map Take.playback
      = (s.renderStretch n).2.playbacks.entries
    rw [playbacks_renderStretch]
    show _ = s.playbacks.entries.map _
    rw [← hsame, List.map_map, List.map_map]
    rfl
  | finish =>
    show (Pool.trimDefunct session.takes).map Take.playback
      = Pool.trimDefunct s.playbacks.entries
    rw [← hsame]
    exact (Pool.trimDefunct_map (f := Take.playback) (fun _ => rfl) _).symm
  | _ => exact hstart (hquiet trivial)

end Session

/-! ### Buffers that stay -/

theorem extends_startPrinter (s : Synth) (bytes : Bytes) :
    s.shelf.Extends (s.startPrinter bytes).2.shelf := by
  unfold startPrinter
  split
  · exact .refl s.shelf
  · split
    exact .add s.shelf _

theorem extends_obtainSound (s : Synth) (key : SoundKey) :
    s.shelf.Extends (s.obtainSound key).2.shelf := by
  unfold obtainSound
  split
  · exact .refl s.shelf
  · split
    · exact .refl s.shelf
    next bytes _ =>
      have hprinter := s.extends_startPrinter bytes
      generalize s.startPrinter bytes = started at hprinter
      obtain ⟨found, t⟩ := started
      cases found with
      | none => exact hprinter
      | some pcm => exact hprinter

theorem shelf_playObtained (trim : Float32) (found : Option PcmId × Synth) :
    (playObtained trim found).shelf = found.2.shelf := by
  obtain ⟨pcm, t⟩ := found
  cases pcm <;> rfl

theorem extends_playSound (s : Synth) (key : SoundKey) (trim : Float32) :
    s.shelf.Extends (s.playSound key trim).shelf := by
  unfold playSound
  split
  · exact .refl s.shelf
  · split
    next found _ =>
      rw [shelf_playObtained]
      exact s.extends_obtainSound found
    next => exact .refl s.shelf

theorem extends_playSoundBytes (s : Synth) (bytes : Bytes) (trim : Float32) :
    s.shelf.Extends (s.playSoundBytes bytes trim).shelf := by
  unfold playSoundBytes
  split
  · exact .refl s.shelf
  · rw [shelf_playObtained]
    exact s.extends_startPrinter bytes

theorem eventClosed_extends (shelf : Shelf) : EventClosed fun s => shelf.Extends s.shelf := by
  refine eventClosed_of_soundSide (fun s t hsame h => ?_) fun s key trim h =>
    h.trans (s.extends_playSound key trim)
  have hshelf : t.shelf = s.shelf := congrArg (·.2.1) hsame
  rw [hshelf]
  exact h

/-! ### Playbacks start at the start -/

theorem position_soundStarted {s : Synth} {key : SoundKey} {trim : Float32} {p : Playback}
    (h : s.soundStarted key trim = some p) : p.position = 0 := by
  unfold soundStarted at h
  split at h
  · cases h
  · obtain ⟨found, -, h⟩ := Option.bind_eq_some_iff.mp h
    obtain ⟨pcm, -, rfl⟩ := Option.map_eq_some_iff.mp h
    rfl

theorem position_started {s : Synth} {σ : Step} {p : Playback} (h : σ.started s = some p) :
    p.position = 0 := by
  have hnote {channel note velocity : UInt8} (h : s.noteStarted channel note velocity = some p) :
      p.position = 0 := by
    obtain ⟨i, -, h⟩ := Option.bind_eq_some_iff.mp h
    obtain ⟨c, -, h⟩ := Option.bind_eq_some_iff.mp h
    split at h
    · exact position_soundStarted h
    · cases h
  cases σ with
  | event e =>
    rw [Step.started] at h
    cases haction : e.action with
    | noteOn note velocity =>
      rw [haction] at h
      exact hnote h
    | noteOnce note velocity duration =>
      rw [haction] at h
      exact hnote h
    | _ =>
      rw [haction] at h
      cases h
  | playSound key trim => exact position_soundStarted h
  | playSoundBytes bytes trim =>
    rw [Step.started, bytesStarted] at h
    split at h
    · cases h
    · obtain ⟨pcm, -, rfl⟩ := Option.map_eq_some_iff.mp h
      rfl
  | _ => cases h

end Synth

/-! ### Takes -/

/-- A take of some frames is the samples of its buffer from the first one on, at their frames. -/
structure Take.Faithful (t : Take) (shelf : Shelf) (now : Nat) : Prop where
  start_le : t.start ≤ now
  position : t.playback.position = min t.playback.length (now - t.start)
  mixed : t.mixed
    = (((shelf.read t.playback.pcm).extract 0 t.playback.position).map
        (· * t.playback.gain)).toList.zipIdx t.start

namespace Take.Faithful

variable {t : Take} {shelf more : Shelf} {now : Nat}

theorem fresh (shelf : Shelf) (now : Nat) {p : Playback} (h : p.position = 0) :
    Take.Faithful { playback := p, start := now } shelf now := by
  refine ⟨Nat.le_refl now, ?_, ?_⟩
  · simp [h]
  · simp [h]

theorem of_extract (h : t.Faithful shelf now)
    (hextract : (more.read t.playback.pcm).extract 0 t.playback.position
      = (shelf.read t.playback.pcm).extract 0 t.playback.position) : t.Faithful more now :=
  ⟨h.start_le, h.position, by rw [hextract]; exact h.mixed⟩

/-- The samples of a stretch follow on those before, and so do their frames. -/
theorem next (h : t.Faithful shelf now) (hlength : t.playback.length = shelf.length t.playback.pcm)
    (n : Nat) : (t.next shelf now n).Faithful shelf (now + n) := by
  have hstart := h.start_le
  have hposition := h.position
  have hread := Playback.position_render hlength (by omega) n
  refine ⟨Nat.le_add_right_of_le hstart, ?_, ?_⟩
  · show t.playback.position + (t.playback.render shelf n).1.size
      = min t.playback.length (now + n - t.start)
    omega
  · show t.mixed ++ (t.playback.render shelf n).1.toList.zipIdx now
      = (((shelf.read t.playback.pcm).extract 0
          (t.playback.position + (t.playback.render shelf n).1.size)).map
            (· * t.playback.gain)).toList.zipIdx t.start
    have hsize : (shelf.read t.playback.pcm).size = t.playback.length := hlength.symm
    have hcut : (shelf.read t.playback.pcm).extract 0
          (t.playback.position + (t.playback.render shelf n).1.size)
        = (shelf.read t.playback.pcm).extract 0 t.playback.position
          ++ (shelf.read t.playback.pcm).extract t.playback.position
            (t.playback.position + n) := by
      rw [Array.extract_append_extract, Nat.zero_min]
      exact Array.extract_eq_extract_right.mpr (by omega)
    rw [hcut, Array.map_append, Array.toList_append, List.zipIdx_append, ← h.mixed]
    refine congrArg (t.mixed ++ ·) ?_
    show (t.playback.render shelf n).1.toList.zipIdx now
      = (t.playback.render shelf n).1.toList.zipIdx _
    rcases Nat.eq_zero_or_pos (t.playback.render shelf n).1.size with hnone | hsome
    · rw [Array.eq_empty_of_size_eq_zero hnone]
      rfl
    · have hlength : (((shelf.read t.playback.pcm).extract 0 t.playback.position).map
          (· * t.playback.gain)).toList.length = t.playback.position := by
        rw [Array.length_toList, Array.size_map, Array.size_extract]
        omega
      rw [hlength]
      congr 1
      omega

end Take.Faithful

namespace Synth.Session

variable {session : Session} {s : Synth} {left : Nat}

theorem start_faithful {shelf : Shelf} (capacity : Nat) {found : Option Playback}
    (h : ∀ t ∈ session.takes, t.Faithful shelf session.now)
    (hfresh : ∀ p, found = some p → p.position = 0) :
    ∀ t ∈ (session.start capacity found).takes,
      t.Faithful shelf (session.start capacity found).now := by
  cases found with
  | none => exact h
  | some p =>
    intro t ht
    rcases Pool.mem_place ht with ht | rfl
    · exact h t ht
    · exact .fresh shelf session.now (hfresh p rfl)

/-- Buffers change only past what their playbacks have read, so takes stay what they are. -/
theorem follow_faithful (h : s.PrintsAhead left)
    (hsame : session.takes.map Take.playback = s.playbacks.entries)
    (hfaithful : ∀ t ∈ session.takes, t.Faithful s.shelf session.now) {σ : Step}
    (allowed : σ.Allowed ⟨s, left⟩) :
    ∀ t ∈ (session.follow s σ).takes,
      t.Faithful (σ.run s).shelf (session.follow s σ).now := by
  have hcovered {t : Take} (ht : t ∈ session.takes) :
      t.playback.Covered s.shelf s.printers left :=
    h.playbacks t.playback (hsame ▸ List.mem_map_of_mem ht)
  have hstart (hextends : s.shelf.Extends (σ.run s).shelf) :
      ∀ t ∈ (session.start s.playbacks.capacity (σ.started s)).takes,
        t.Faithful (σ.run s).shelf (session.start s.playbacks.capacity (σ.started s)).now := by
    refine start_faithful _ (fun t ht => (hfaithful t ht).of_extract ?_) fun p hp =>
      position_started hp
    rw [(hextends _ (hcovered ht).held).2]
  have hquiet (hσ : σ.Quiet) : (σ.run s).shelf = s.shelf := congrArg (·.2.1) (hσ.soundSide s)
  cases σ with
  | event e => exact hstart ((eventClosed_extends s.shelf).dispatch (.refl s.shelf) e)
  | playSound key trim => exact hstart (s.extends_playSound key trim)
  | playSoundBytes bytes trim => exact hstart (s.extends_playSoundBytes bytes trim)
  | clearCache => exact fun t ht => by cases ht
  | setUp i record =>
    exact hstart ((eventClosed_extends s.shelf).setUpChannel (.refl s.shelf) allowed record)
  | begin frames =>
    intro t ht
    have hold := hcovered ht
    refine (hfaithful t ht).of_extract (h.extract_beginUpdate frames _ _ fun job hjob hpcm => ?_).1
    have hahead := hold.printed job hjob hpcm
    have hposition := hold.position
    omega
  | stretch n =>
    intro t ht
    obtain ⟨u, hu, rfl⟩ := List.mem_map.mp ht
    exact (hfaithful u hu).next (hcovered hu).length n
  | finish => exact fun t ht => hfaithful t ((Pool.trimDefunct_prefix _).subset ht)
  | _ => exact hstart (by rw [hquiet trivial]; exact .refl s.shelf)

theorem after_faithful (format : Format) (calls : List Call) (k : Nat) :
    (after format calls k).takes.map Take.playback
        = (Moment.after format calls k).synth.playbacks.entries
      ∧ ∀ t ∈ (after format calls k).takes,
        t.Faithful (Moment.after format calls k).synth.shelf (after format calls k).now := by
  induction k with
  | zero => exact ⟨rfl, fun t ht => by cases ht⟩
  | succ k ih =>
    rw [after]
    cases hnext : ((ofFormat format).history calls)[k]? with
    | none =>
      rw [Moment.after_end hnext]
      exact ih
    | some σ =>
      obtain ⟨allowed, htake⟩ := Moment.after_succ hnext
      rw [htake]
      exact ⟨follow_playbacks ih.1 allowed,
        follow_faithful (PrintsAhead.after format calls k) ih.1 ih.2 allowed⟩

end Synth.Session

namespace Synth

/-- At every moment the buffer of a printer is what this has printed so far, and playbacks read
behind its cursor only, in the past as in the stretch that comes next; the buffers of the other
playbacks are completely printed. The take of a playback is the samples of its buffer, the one with
number `k` at the frame `k` after its start, as many as there are frames since then or samples in the
buffer; it is dropped at the end of an update only when it has all of them. -/
theorem playbacks_read_printed (format : Format) (calls : List Call) (k : Nat) :
    let s := (Moment.after format calls k).synth
    let session := Session.after format calls k
    (∀ job ∈ s.printers, s.shelf.PrintedTo format.rate job.pcm job.printer)
      ∧ (∀ p ∈ s.playbacks.entries, ∀ job ∈ s.printers, job.pcm = p.pcm →
          p.position ≤ job.printer.cursor)
      ∧ (∀ n, ((ofFormat format).history calls)[k]? = some (.stretch n) →
          (∃ rest, (s.renderStretch n).1
            = (s.playbacks.entries.map fun p => (p.render s.shelf n).1).foldl Block.mix rest)
          ∧ ∀ p ∈ s.playbacks.entries, ∀ job ∈ s.printers, job.pcm = p.pcm →
            p.position + (p.render s.shelf n).1.size ≤ job.printer.cursor)
      ∧ (∀ p ∈ s.playbacks.entries, (∀ job ∈ s.printers, job.pcm ≠ p.pcm) →
          ∃ printer, s.shelf.PrintedTo format.rate p.pcm printer ∧ printer.isFinished = true)
      ∧ session.takes.map Take.playback = s.playbacks.entries
      ∧ (∀ t ∈ session.takes, t.playback.length = s.shelf.length t.playback.pcm
          ∧ t.start ≤ session.now
          ∧ t.playback.position = min t.playback.length (session.now - t.start)
          ∧ t.mixed = (((s.shelf.read t.playback.pcm).extract 0 t.playback.position).map
              (· * t.playback.gain)).toList.zipIdx t.start)
      ∧ (((ofFormat format).history calls)[k]? = some .finish →
          ∀ t ∈ session.takes, t ∉ (Session.after format calls (k + 1)).takes →
            t.playback.position = t.playback.length) := by
  intro s session
  have h : s.PrintsAhead (Moment.after format calls k).left := PrintsAhead.after format calls k
  have hformat : s.format = format := Moment.format_takes _ _
  obtain ⟨hsame, hfaithful⟩ := Session.after_faithful format calls k
  have hcovered {t : Take} (ht : t ∈ session.takes) :=
    h.playbacks t.playback (hsame ▸ List.mem_map_of_mem ht)
  refine ⟨fun job hjob => ?_, fun p hp job hjob hpcm => ?_, fun n hnext => ⟨?_, ?_⟩,
    fun p hp hnone => ?_, hsame, fun t ht => ?_, fun hnext t ht hdropped => ?_⟩
  · rw [← hformat]
    exact (h.jobs job hjob).printed
  · have hposition := (h.playbacks p hp).position
    have hahead := (h.playbacks p hp).printed job hjob hpcm
    omega
  · exact s.mix_renderStretch n
  · intro p hp job hjob hpcm
    have hleft : n ≤ (Moment.after format calls k).left := (Moment.after_succ hnext).1
    have hold := h.playbacks p hp
    have hread := Playback.position_render hold.length hold.position n
    have hahead := hold.printed job hjob hpcm
    omega
  · have hheld := (h.playbacks p hp).held
    rw [← hformat]
    refine (h.buffers p.pcm hheld).resolve_left ?_
    rintro ⟨job, hjob, hpcm⟩
    exact hnone job hjob hpcm
  · exact ⟨(hcovered ht).length, (hfaithful t ht).start_le, (hfaithful t ht).position,
      (hfaithful t ht).mixed⟩
  · have hover : PoolEntry.isDefunct t = true := by
      by_contra hlive
      refine hdropped ?_
      rw [Session.after, hnext]
      exact Pool.mem_trimDefunct_of_live ht (Bool.eq_false_iff.mpr hlive)
    have hposition := (hcovered ht).position
    have hend : t.playback.length ≤ t.playback.position := of_decide_eq_true hover
    omega

end Synth

end Tonewheel
