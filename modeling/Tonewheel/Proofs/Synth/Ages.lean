import Tonewheel.Proofs.Synth.VoicePool
import Tonewheel.Proofs.Synth.Words

/-!
# How long voices have sounded

Voices are replaced by their births, and a birth is the frame count of the synthesizer, which an
update raises by all its frames before it makes the first. So all voices that are begun inside one
update are born at the frame where it ends. A chronicle keeps beside each voice the frame at which it
was started, counting the frames that had been made by then, and so tells when births go wrong: a
voice that is overwritten while it sounds has sounded longest, unless another was started before it
inside an update and is born at the same frame (`evicts_longest`).
-/

namespace Tonewheel.Synth

open Pool (Operation)

/-! ### Notes -/

/-- A voice, and the frames that had been made when it was started. -/
structure Note where
  voice : Voice
  start : Nat

/-- A note is finished, and older than another, as its voice is. -/
instance : PoolEntry Note where
  isDefunct n := PoolEntry.isDefunct n.voice
  isOlder n m := PoolEntry.isOlder n.voice m.voice

def plain (p : Pool Note) : Pool Voice := { p with entries := p.entries.map Note.voice }

/-- What an operation on the voices does to notes, where a voice that it adds starts `now`. -/
def noted (now : Nat) : Operation Voice → Operation Note
  | .insert v => .insert ⟨v, now⟩
  | .reap => .reap
  | .retain keep => .retain fun i n => keep i n.voice
  | .clear => .clear
  | .change f => .change fun i n => { n with voice := f i n.voice }

theorem keepFrom_noted (keep : Nat → Voice → Bool) (slot : Nat) (notes : List Note) :
    (Pool.keepFrom (fun i n => keep i n.voice) slot notes).map Note.voice
      = Pool.keepFrom keep slot (notes.map Note.voice) := by
  induction notes generalizing slot with
  | nil => rfl
  | cons n ns ih =>
    rw [List.map_cons, Pool.keepFrom, Pool.keepFrom]
    split
    · rw [List.map_cons, ih]
    · exact ih (slot + 1)

theorem plain_operate (p : Pool Note) (now : Nat) (op : Operation Voice) :
    plain (p.operate (noted now op)) = (plain p).operate op := by
  have hentries : ((p.operate (noted now op)).entries.map Note.voice)
      = ((plain p).operate op).entries := by
    cases op with
    | insert v =>
      exact (Pool.place_map (f := Note.voice) (fun _ => rfl) (fun _ _ => rfl) p.capacity p.entries
        ⟨v, now⟩).symm
    | reap => exact (Pool.trimDefunct_map (f := Note.voice) (fun _ => rfl) p.entries).symm
    | retain keep => exact keepFrom_noted keep 0 p.entries
    | clear => rfl
    | change f =>
      refine List.ext_getElem (by simp [Pool.operate, noted, plain]) fun i hi hi' => ?_
      simp [Pool.operate, noted, plain]
  have hcapacity : (plain (p.operate (noted now op))).capacity = ((plain p).operate op).capacity := by
    rw [Pool.capacity_operate]
    exact p.capacity_operate _
  exact congrArg₂ Pool.mk hcapacity hentries

theorem plain_operates (p : Pool Note) (now : Nat) (ops : List (Operation Voice)) :
    plain ((ops.map (noted now)).foldl Pool.operate p) = ops.foldl Pool.operate (plain p) := by
  induction ops generalizing p with
  | nil => rfl
  | cons op ops ih =>
    rw [List.map_cons, List.foldl_cons, ih, plain_operate]
    rfl

def Note.dates (n : Note) : Nat × Nat := (n.start, n.voice.born)

theorem dates_operate {p : Pool Note} {now : Nat} {op : Operation Voice} (hop : KeepsBirths op)
    {m : Note} (h : m ∈ (p.operate (noted now op)).entries) :
    ∃ n ∈ p.entries, n.dates = m.dates := by
  cases op with
  | insert v => exact hop.elim
  | reap => exact ⟨m, (Pool.trimDefunct_prefix p.entries).subset h, rfl⟩
  | retain keep => exact ⟨m, (Pool.keepFrom_sublist _ 0 p.entries).subset h, rfl⟩
  | clear => cases h
  | change f =>
    obtain ⟨i, hi, rfl⟩ := List.mem_mapIdx.mp h
    exact ⟨p.entries[i], List.getElem_mem hi, Prod.ext rfl (hop i p.entries[i].voice).symm⟩

theorem dates_operates {p : Pool Note} {now : Nat} {ops : List (Operation Voice)}
    (hops : ∀ op ∈ ops, KeepsBirths op) {m : Note}
    (h : m ∈ ((ops.map (noted now)).foldl Pool.operate p).entries) :
    ∃ n ∈ p.entries, n.dates = m.dates := by
  induction ops generalizing p with
  | nil => exact ⟨m, h, rfl⟩
  | cons op ops ih =>
    obtain ⟨n, hn, hdates⟩ := ih (fun op hop => hops op (List.mem_cons_of_mem _ hop)) h
    obtain ⟨n', hn', hdates'⟩ := dates_operate (hops op List.mem_cons_self) hn
    exact ⟨n', hn', hdates'.trans hdates⟩

/-! ### Counting frames -/

def Step.makes : Step → Nat
  | .stretch n => n
  | _ => 0

def Step.counts : Step → Nat
  | .begin frames => frames
  | _ => 0

theorem eventClosed_framesMade (k : Nat) : EventClosed fun s => s.framesMade = k where
  programs _ _ h := h
  ensure s i h := by
    obtain ⟨racks, channels, heq⟩ := s.exists_ensureChannel i
    rw [heq]
    exact h
  drop s i h := (PlaysOnly.dropChannel s i).framesMade.trans h
  stop s _ c note h _ := (PlaysOnly.stopNote s c note).framesMade.trans h
  control s i c key value h _ := (PlaysOnly.controlChannel s i c key value).framesMade.trans h
  wheel s i c position h _ := (PlaysOnly.moveWheel s i c position).framesMade.trans h
  start s _ c note velocity duration h _ :=
    (PlaysOnly.startNote s c note velocity duration).framesMade.trans h

theorem framesMade_run {m : Moment} {σ : Step} (allowed : σ.Allowed m) :
    (σ.run m.synth).framesMade = m.synth.framesMade + σ.counts := by
  cases σ with
  | event e => exact (eventClosed_framesMade _).dispatch rfl e
  | playSound key trim =>
    exact (PlaysOnly.of_sounds (m.synth.playSound_sounds key trim)).framesMade
  | playSoundBytes bytes trim =>
    exact (PlaysOnly.of_sounds (m.synth.playSoundBytes_sounds bytes trim)).framesMade
  | seek beats =>
    show (m.synth.seek beats).framesMade = _
    unfold Synth.seek
    split <;> rfl
  | endSong =>
    show m.synth.endSong.framesMade = _
    unfold Synth.endSong
    split <;> rfl
  | setUp i record =>
    exact (eventClosed_framesMade _).toQuietClosed.setUpChannel rfl allowed record
  | _ => rfl

/-- The frames that are counted are those that are made and those that the update still has to
make. -/
theorem frames_step {m : Moment} {σ : Step} (allowed : σ.Allowed m) :
    σ.makes + σ.leaves m.left = m.left + σ.counts := by
  cases σ with
  | begin frames =>
    have hleft : m.left = 0 := allowed
    show 0 + frames = m.left + frames
    rw [hleft]
  | stretch n =>
    have hn : n ≤ m.left := allowed
    exact Nat.add_sub_of_le hn
  | _ => exact Nat.zero_add m.left

theorem counts_or_idle {m : Moment} {σ : Step} (allowed : σ.Allowed m) :
    σ.counts = 0 ∨ m.left = 0 := by
  cases σ with
  | begin frames => exact .inr allowed
  | _ => exact .inl rfl

/-! ### Chronicles -/

/-- A moment, the frames that have been made, and the voices with their starts. -/
structure Chronicle where
  moment : Moment
  now : Nat := 0
  notes : Pool Note

namespace Chronicle

def take (c : Chronicle) (σ : Step) : Chronicle where
  moment := c.moment.take σ
  now := c.now + σ.makes
  notes := ((σ.onVoices c.moment.synth).map (noted c.now)).foldl Pool.operate c.notes

/-- The chronicle of the first `k` steps of some calls on a new synthesizer. -/
def after (format : Format) (calls : List Call) (k : Nat) : Chronicle :=
  (((ofFormat format).history calls).take k).foldl take
    { moment := { synth := ofFormat format }, notes := { capacity := voiceLimit } }

def overwritten (c : Chronicle) (v : Voice) : Option Note :=
  c.notes.entries[(c.moment.synth.voices.insert v).1]?

/-- Whether no note that sounds was started before the one that a voice overwrites, if that sounds
too. -/
def EvictsLongest (c : Chronicle) (v : Voice) : Prop :=
  ∀ n, c.overwritten v = some n → n.voice.isDefunct = false →
    ∀ m ∈ c.notes.entries, m.voice.isDefunct = false → n.start ≤ m.start

/-- Whether a voice overwrites a note that sounds while another sounds that was started before it
inside an update, and that is born at the same frame. -/
def EvictsLater (c : Chronicle) (v : Voice) : Prop :=
  ∃ n m, c.overwritten v = some n ∧ n.voice.isDefunct = false
    ∧ m ∈ c.notes.entries ∧ m.voice.isDefunct = false
    ∧ m.start < n.start ∧ m.start < m.voice.born ∧ m.voice.born = n.voice.born

/-- What the dates of notes keep to. -/
structure Dated (c : Chronicle) : Prop where
  voices : plain c.notes = c.moment.synth.voices
  size : c.notes.size ≤ c.notes.capacity
  counted : c.now + c.moment.left = c.moment.synth.framesMade
  started : ∀ n ∈ c.notes.entries, n.start ≤ n.voice.born
  /-- A note that is not born at an earlier frame is born where the update in progress ends. -/
  settled : ∀ n ∈ c.notes.entries, n.voice.born ≤ c.now ∨ n.voice.born = c.moment.synth.framesMade
  ordered : ∀ n ∈ c.notes.entries, ∀ m ∈ c.notes.entries,
    n.voice.born < m.voice.born → n.voice.born ≤ m.start

theorem dates_take {c : Chronicle} (σ : Step) {m : Note} (h : m ∈ (c.take σ).notes.entries) :
    m.dates = (c.now, c.moment.synth.framesMade) ∨ ∃ n ∈ c.notes.entries, n.dates = m.dates := by
  rcases c.moment.synth.onVoices_cases σ with ⟨v, hborn, hops⟩ | hkeeps
  · have hinsert : (c.take σ).notes = (c.notes.insert ⟨v, c.now⟩).2 := by
      simp only [take, hops]
      rfl
    rw [hinsert] at h
    rcases Pool.mem_place h with hmem | rfl
    · exact .inr ⟨m, hmem, rfl⟩
    · exact .inl (Prod.ext rfl hborn)
  · exact .inr (dates_operates hkeeps h)

theorem Dated.born_le {c : Chronicle} (h : c.Dated) {n : Note} (hn : n ∈ c.notes.entries) :
    n.voice.born ≤ c.moment.synth.framesMade := by
  have hcounted := h.counted
  rcases h.settled n hn with hborn | hborn
  · omega
  · exact Nat.le_of_eq hborn

theorem Dated.take {c : Chronicle} (h : c.Dated) {σ : Step} (allowed : σ.Allowed c.moment) :
    (c.take σ).Dated := by
  have hcounted := h.counted
  have hframes : (c.take σ).moment.synth.framesMade = c.moment.synth.framesMade + σ.counts :=
    framesMade_run allowed
  have hnow : (c.take σ).now = c.now + σ.makes := rfl
  have hidle := counts_or_idle allowed
  -- A note that is added starts now and is born where counting has come to; the others keep both.
  have hdates : ∀ m ∈ (c.take σ).notes.entries,
      (m.start = c.now ∧ m.voice.born = c.moment.synth.framesMade)
        ∨ ∃ n ∈ c.notes.entries, n.start = m.start ∧ n.voice.born = m.voice.born := by
    intro m hm
    rcases dates_take σ hm with hnew | ⟨n, hn, hsame⟩
    · exact .inl (Prod.ext_iff.mp hnew)
    · exact .inr ⟨n, hn, Prod.ext_iff.mp hsame⟩
  obtain ⟨hcapacity, hsize⟩ := Pool.operates h.size
    ((σ.onVoices c.moment.synth).map (noted c.now))
  refine
    { voices := ?_, size := hsize.trans_eq hcapacity.symm, counted := ?_
      started := fun m hm => ?_, settled := fun m hm => ?_, ordered := fun m hm m' hm' hlt => ?_ }
  · rw [Chronicle.take, plain_operates, h.voices]
    exact (voices_run c.moment.synth σ).symm
  · have hstep := frames_step allowed
    show c.now + σ.makes + σ.leaves c.moment.left = _
    omega
  · rcases hdates m hm with ⟨hstart, hborn⟩ | ⟨n, hn, hstart, hborn⟩
    · omega
    · have hstarted := h.started n hn
      omega
  · rcases hdates m hm with ⟨-, hborn⟩ | ⟨n, hn, -, hborn⟩
    · omega
    · have hsettled := h.settled n hn
      omega
  -- A new note is born after none, and what is born before it is settled.
  · rcases hdates m hm with ⟨-, hborn⟩ | ⟨n, hn, -, hborn⟩
    · rcases hdates m' hm' with ⟨-, hborn'⟩ | ⟨n', hn', -, hborn'⟩
      · omega
      · have hle := h.born_le hn'
        omega
    · rcases hdates m' hm' with ⟨hstart', hborn'⟩ | ⟨n', hn', hstart', hborn'⟩
      · have hsettled := h.settled n hn
        omega
      · have hordered := h.ordered n hn n' hn'
        omega

theorem after_succ {format : Format} {calls : List Call} {k : Nat} {σ : Step}
    (h : ((ofFormat format).history calls)[k]? = some σ) :
    after format calls (k + 1) = (after format calls k).take σ := by
  rw [after, List.take_add_one, h, Option.toList_some, List.foldl_append]
  rfl

theorem dated_after (format : Format) (calls : List Call) (k : Nat) :
    (after format calls k).moment = Moment.after format calls k ∧ (after format calls k).Dated := by
  induction k with
  | zero =>
    refine ⟨rfl, ?_⟩
    exact
      { voices := rfl, size := Nat.zero_le _, counted := rfl
        started := by simp [after], settled := by simp [after], ordered := by simp [after] }
  | succ k ih =>
    obtain ⟨hmoment, hdated⟩ := ih
    cases hnext : ((ofFormat format).history calls)[k]? with
    | some σ =>
      obtain ⟨allowed, hafter⟩ := Moment.after_succ hnext
      rw [after_succ hnext, hafter]
      exact ⟨congrArg (Moment.take · σ) hmoment, hdated.take (hmoment ▸ allowed)⟩
    | none =>
      have hsame : after format calls (k + 1) = after format calls k := by
        rw [after, List.take_add_one, hnext, Option.toList_none, List.append_nil]
        rfl
      rw [hsame, Moment.after_end hnext]
      exact ⟨hmoment, hdated⟩

theorem Dated.mem_voices {c : Chronicle} (h : c.Dated) {n : Note} (hn : n ∈ c.notes.entries) :
    n.voice ∈ c.moment.synth.voices.entries := by
  rw [← h.voices]
  exact List.mem_map_of_mem hn

theorem Dated.born_overwritten_le {c : Chronicle} (h : c.Dated) {v : Voice} {n m : Note}
    (hover : c.overwritten v = some n) (hlive : n.voice.isDefunct = false)
    (hm : m ∈ c.notes.entries) : n.voice.born ≤ m.voice.born := by
  have hsize : c.moment.synth.voices.size ≤ c.moment.synth.voices.capacity := by
    rw [← h.voices]
    show (c.notes.entries.map Note.voice).length ≤ c.notes.capacity
    rw [List.length_map]
    exact h.size
  have hvoice : c.moment.synth.voices.entries[(c.moment.synth.voices.insert v).1]?
      = some n.voice := by
    have hentries : c.moment.synth.voices.entries = c.notes.entries.map Note.voice := by
      rw [← h.voices]
      rfl
    rw [overwritten] at hover
    rw [hentries, List.getElem?_map, hover]
    rfl
  have holdest := Pool.not_older_of_overwritten hsize hvoice hlive m.voice (h.mem_voices hm)
  simpa [Pool.Older, PoolEntry.isOlder] using holdest

/-- Births go wrong only about notes that are born alike, and only if one was started before its
birth. -/
theorem Dated.evictsLongest_iff {c : Chronicle} (h : c.Dated) (v : Voice) :
    c.EvictsLongest v ↔ ¬c.EvictsLater v := by
  constructor
  · rintro hlongest ⟨n, m, hover, hlive, hm, hlive', hlt, -, -⟩
    exact Nat.not_le.mpr hlt (hlongest n hover hlive m hm hlive')
  · intro hnot n hover hlive m hm hlive'
    have hn : n ∈ c.notes.entries := List.mem_of_getElem? hover
    have hstarted := h.started n hn
    have hborn := h.born_overwritten_le hover hlive hm
    by_contra hlater
    -- Births that differ are in the order of the starts.
    rcases Nat.lt_or_eq_of_le hborn with hlt | heq
    · have hordered := h.ordered n hn m hm hlt
      omega
    · exact hnot ⟨n, m, hover, hlive, hm, hlive', by omega, by omega, heq.symm⟩

/-- A voice that is started overwrites, if any, the one that has sounded longest, unless another
that sounds was started before that inside an update and has the same birth. -/
theorem evicts_longest (format : Format) (calls : List Call) (k : Nat) (σ : Step) (v : Voice)
    (hnext : ((ofFormat format).history calls)[k]? = some σ)
    (hstarts : Operation.insert v ∈ σ.onVoices (Moment.after format calls k).synth) :
    let s := (Moment.after format calls k).synth
    let c := after format calls k
    (c.moment = Moment.after format calls k ∧ plain c.notes = s.voices
      ∧ c.now + c.moment.left = s.framesMade)
      ∧ (Moment.after format calls (k + 1)).synth.voices = (s.voices.insert v).2
      ∧ (after format calls (k + 1)).notes = (c.notes.insert ⟨v, c.now⟩).2
      ∧ (c.EvictsLongest v ↔ ¬c.EvictsLater v) := by
  intro s c
  obtain ⟨hmoment, hdated⟩ := dated_after format calls k
  have hops : σ.onVoices s = [.insert v] := by
    rcases s.onVoices_cases σ with ⟨w, -, hops⟩ | hkeeps
    · rw [hops] at hstarts ⊢
      rw [List.mem_singleton.mp hstarts]
    · exact (hkeeps _ hstarts).elim
  have hvoices : plain c.notes = s.voices := hdated.voices.trans (congrArg (·.synth.voices) hmoment)
  have hcounted : c.now + c.moment.left = s.framesMade :=
    hdated.counted.trans (congrArg (·.synth.framesMade) hmoment)
  refine ⟨⟨hmoment, hvoices, hcounted⟩, ?_, ?_, hdated.evictsLongest_iff v⟩
  · rw [(Moment.after_succ hnext).2]
    show (σ.run s).voices = _
    rw [voices_run, hops]
    rfl
  · rw [after_succ hnext, take, hmoment]
    show ((σ.onVoices s).map (noted c.now)).foldl Pool.operate c.notes = _
    rw [hops]
    rfl

/-! ### A crowd -/

theorem history_append (s : Synth) (calls more : List Call) :
    s.history (calls ++ more) = s.history calls ++ (calls.foldl apply s).history more := by
  induction calls generalizing s with
  | nil => rfl
  | cons c calls ih => rw [List.cons_append, history, ih, history, List.append_assoc, List.foldl_cons]

def noteCall (note : UInt8) : Call := .message (.event (Event.noteOnce 9 note 100 100))

/-- Half of all voices begin and make a frame, and then the other half. -/
def crowdCalls : List Call :=
  let half : List Call := List.replicate 16 (noteCall 60) ++ [.render 1]
  half ++ half

/-- All voices are begun by a song in an update of one frame, and then one more is. -/
def burstCalls : List Call := [.playSongBytes (blipSong 32 0 0) false, .render 1, noteCall 72]

def noteStep (note : UInt8) : Step := .event (Event.noteOnce 9 note 100 100)

theorem history_noteCall {format : Format} {calls : List Call} {k : Nat} (note : UInt8)
    (h : ((ofFormat format).history calls).length = k) :
    ((ofFormat format).history (calls ++ [noteCall note]))[k]? = some (noteStep note) := by
  rw [history_append, List.getElem?_append_right (Nat.le_of_eq h), h, Nat.sub_self]
  rfl

theorem noteStep_insert {s : Synth} {note : UInt8} {v : Voice}
    (h : s.voiceFor 9 note 100 100 = some v) :
    Operation.insert v ∈ (noteStep note).onVoices s := by
  show Operation.insert v ∈ (s.voiceFor 9 note 100 100).toList.map Operation.insert
  rw [h]
  exact List.mem_singleton_self _

/-- Whether the next voice takes the slot of the first note. -/
def TakesFirst (c : Chronicle) : Prop :=
  c.moment.synth.voices.capacity ≤ c.moment.synth.voices.size
    ∧ Pool.victim c.moment.synth.voices.entries = some 0

instance (c : Chronicle) : Decidable c.TakesFirst := inferInstanceAs (Decidable (_ ∧ _))

theorem TakesFirst.overwritten {c : Chronicle} (h : c.TakesFirst) (v : Voice) :
    c.overwritten v = c.notes.entries[0]? := by
  rw [Chronicle.overwritten, Pool.insert_of_victim h.1 h.2]

theorem evicts_longest_crowd :
    let calls := crowdCalls ++ [noteCall 60]
    ((ofFormat slow).history calls)[38]? = some (noteStep 60)
      ∧ ∃ v, Operation.insert v ∈ (noteStep 60).onVoices (Moment.after slow calls 38).synth
        ∧ ((after slow calls 38).overwritten v).map Note.dates = some (0, 0)
        ∧ (after slow calls 38).EvictsLongest v := by
  intro calls
  have hnext : ((ofFormat slow).history calls)[38]? = some (noteStep 60) :=
    history_noteCall 60 (by decide +kernel)
  have hvoice : ((Moment.after slow calls 38).synth.voiceFor 9 60 100 100).isSome = true := by
    decide +kernel
  obtain ⟨v, hv⟩ := Option.isSome_iff_exists.mp hvoice
  obtain ⟨htakes, hfirst, hborn⟩ : (after slow calls 38).TakesFirst
      ∧ (after slow calls 38).notes.entries[0]?.map Note.dates = some (0, 0)
      ∧ ∀ m ∈ (after slow calls 38).notes.entries, m.voice.born = m.start := by
    decide +kernel
  have hlongest := (evicts_longest slow calls 38 _ v hnext (noteStep_insert hv)).2.2.2
  refine ⟨hnext, v, noteStep_insert hv, ?_, hlongest.mpr ?_⟩
  · rw [htakes.overwritten]
    exact hfirst
  · rintro ⟨n, m, -, -, hm, -, -, hlt, -⟩
    exact Nat.ne_of_gt hlt (hborn m hm)

/-- When a song has begun all voices in one update, each of two more notes takes the first slot, so
the second overwrites the first. -/
theorem burst_evicts_later :
    ¬ ∀ (format : Format) (calls : List Call) (k : Nat) (σ : Step) (v : Voice),
      ((ofFormat format).history calls)[k]? = some σ →
      Operation.insert v ∈ σ.onVoices (Moment.after format calls k).synth →
      (after format calls k).EvictsLongest v := by
  intro hall
  let calls := burstCalls ++ [noteCall 84]
  have hnext : ((ofFormat slow).history calls)[47]? = some (noteStep 84) :=
    history_noteCall 84 (by decide +kernel)
  have hvoice : ((Moment.after slow calls 47).synth.voiceFor 9 84 100 100).isSome = true := by
    decide +kernel
  obtain ⟨v, hv⟩ := Option.isSome_iff_exists.mp hvoice
  obtain ⟨htakes, hfirst, hother⟩ : (after slow calls 47).TakesFirst
      ∧ ((after slow calls 47).notes.entries[0]?.map fun n => (n.start, n.voice.isDefunct))
        = some (1, false)
      ∧ ∃ m ∈ (after slow calls 47).notes.entries, m.voice.isDefunct = false ∧ m.start = 0 := by
    decide +kernel
  obtain ⟨n, hn, hdates⟩ := Option.map_eq_some_iff.mp hfirst
  obtain ⟨hstart, hlive⟩ := Prod.ext_iff.mp hdates
  obtain ⟨m, hm, hlive', hstart'⟩ := hother
  have hlongest := hall slow calls 47 _ v hnext (noteStep_insert hv)
  have hle := hlongest n ((htakes.overwritten v).trans hn) hlive m hm hlive'
  dsimp only at hstart
  omega

end Chronicle

end Tonewheel.Synth
