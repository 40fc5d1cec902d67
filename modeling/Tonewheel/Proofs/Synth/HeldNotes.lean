import Mathlib.Data.Finset.Card
import Mathlib.Data.Finset.Range
import Tonewheel.Proofs.Synth.OtherChannels
import Tonewheel.Proofs.Synth.Songless

/-!
# Notes that are held

A note is held by the voices that carry its number and have not been let go; the voices of notes that
were let go carry a number of their own. The start of a note makes for one more such voice at most,
its end for one less if there is any, and nothing else for more. So no note is held once each of its
starts has had an end of its own (`no_stuck_notes`), whatever went on besides. In effect mode one end
of a note ends all its voices.
-/

namespace Tonewheel

/-! ### Counting the entries of a pool -/

namespace Pool

variable {α : Type}

theorem countP_mapIdx_le {p : α → Bool} {f : Nat → α → α}
    (h : ∀ i e, p (f i e) = true → p e = true) (entries : List α) :
    (entries.mapIdx f).countP p ≤ entries.countP p := by
  induction entries generalizing f with
  | nil => exact Nat.le_refl _
  | cons e es ih =>
    have hrest := ih (f := fun i => f (i + 1)) fun i => h (i + 1)
    rw [List.mapIdx_cons, List.countP_cons, List.countP_cons]
    refine Nat.add_le_add hrest ?_
    split
    next hpass => rw [if_pos (h 0 e hpass)]
    next => exact Nat.zero_le _

theorem countP_modifyFirst {p : α → Bool} {f : α → α} (h : ∀ e, p (f e) = false)
    (entries : List α) : (modifyFirst p f entries).countP p = entries.countP p - 1 := by
  induction entries with
  | nil => rfl
  | cons e es ih =>
    rw [modifyFirst]
    split
    next he =>
      rw [List.countP_cons_of_neg (by rw [h]; exact Bool.false_ne_true),
        List.countP_cons_of_pos he, Nat.add_sub_cancel]
    next he => rw [List.countP_cons_of_neg he, List.countP_cons_of_neg he, ih]

variable [PoolEntry α]

theorem countP_place_le (p : α → Bool) (capacity : Nat) (entries : List α) (entry : α) :
    (place capacity entries entry).2.countP p
      ≤ entries.countP p + if p entry then 1 else 0 := by
  unfold place
  split
  · rw [List.countP_append, List.countP_singleton]
  · split
    next slot hslot =>
      rw [List.countP_set (victim_lt hslot)]
      omega
    · exact Nat.le_add_right _ _

/-- Whether an operation makes no entry pass a test that it did not pass before. -/
def Operation.AddsNone (p : α → Bool) : Operation α → Prop
  | .insert entry => p entry = false
  | .change f => ∀ i e, p (f i e) = true → p e = true
  | .reap | .retain _ | .clear => True

theorem countP_operate_le {p : α → Bool} {op : Operation α} (h : op.AddsNone p) (pool : Pool α) :
    (pool.operate op).entries.countP p ≤ pool.entries.countP p := by
  cases op with
  | insert entry =>
    have hle := countP_place_le p pool.capacity pool.entries entry
    rwa [show p entry = false from h] at hle
  | reap => exact (Pool.trimDefunct_prefix pool.entries).sublist.countP_le
  | retain keep => exact (keepFrom_sublist keep 0 _).countP_le
  | clear => exact Nat.zero_le _
  | change f => exact countP_mapIdx_le h _

theorem countP_operates_le {p : α → Bool} {ops : List (Operation α)}
    (h : ∀ op ∈ ops, op.AddsNone p) (pool : Pool α) :
    (ops.foldl operate pool).entries.countP p ≤ pool.entries.countP p := by
  induction ops generalizing pool with
  | nil => exact Nat.le_refl _
  | cons op ops ih =>
    exact Nat.le_trans (ih (fun op' hop => h op' (List.mem_cons_of_mem op hop)) _)
      (countP_operate_le (h op List.mem_cons_self) pool)

end Pool

/-! ### Notes in actions -/

namespace Action

def isNoteOn (note : UInt8) : Action → Bool
  | .noteOn note' _ => note' == note
  | _ => false

def isNoteOnce (note : UInt8) : Action → Bool
  | .noteOnce note' _ _ => note' == note
  | _ => false

def isNoteOff (note : UInt8) : Action → Bool
  | .noteOff note' => note' == note
  | _ => false

theorem eq_noteOn {a : Action} {note : UInt8} (h : a.isNoteOn note = true) :
    ∃ velocity, a = .noteOn note velocity := by
  unfold isNoteOn at h
  split at h
  next note' velocity => exact ⟨velocity, by rw [beq_iff_eq.mp h]⟩
  next => cases h

theorem eq_noteOff {a : Action} {note : UInt8} (h : a.isNoteOff note = true) :
    a = .noteOff note := by
  unfold isNoteOff at h
  split at h
  next note' => rw [beq_iff_eq.mp h]
  next => cases h

end Action

namespace Synth

open Pool (Operation)

/-- How many voices hold a note of a channel. -/
def held (s : Synth) (channel note : UInt8) : Nat :=
  s.voices.entries.countP fun v => v.isNote channel note

/-! ### Voices that hold a note -/

section Voices

variable {channel note : UInt8}

theorem isNote_later {v v' : Voice} (h : v.Later v') (hnote : v'.note = v.note)
    (hholds : v'.isNote channel note = true) : v.isNote channel note = true := by
  simp only [Voice.isNote, Bool.and_eq_true, Bool.not_eq_true', beq_iff_eq] at hholds ⊢
  exact ⟨⟨h.live hholds.1.1, h.channel.symm.trans hholds.1.2⟩, hnote.symm.trans hholds.2⟩

theorem releasedNote_ne (hnote : note < 0x80) : releasedNote ≠ note := by
  rintro rfl
  exact absurd hnote (by decide)

theorem isNote_release (hnote : note < 0x80) (v : Voice) :
    v.release.isNote channel note = false := by
  rw [Voice.isNote, show v.release.note = releasedNote from rfl,
    beq_eq_false_iff_ne.mpr (releasedNote_ne hnote), Bool.and_false]

theorem note_render (sine : Wave) (v : Voice) (noise : Noise) (n : Nat) :
    (v.render sine noise n).2.1.note = v.note := by
  unfold Voice.render
  split <;> rfl

theorem addsNone_release (hnote : note < 0x80) :
    releaseVoices.AddsNone fun v => v.isNote channel note := by
  intro _ v hholds
  exact absurd hholds (Bool.eq_false_iff.mp (isNote_release hnote v))

theorem addsNone_render (s : Synth) (n : Nat) :
    (s.renderVoicesBy n).AddsNone fun v => v.isNote channel note :=
  fun _ v hholds => isNote_later (v.later_render _ _ n) (note_render _ v _ n) hholds

theorem addsNone_bend (channel' : UInt8) (bend : Float32) :
    (bendVoicesBy channel' bend).AddsNone fun v => v.isNote channel note := by
  intro _ v hholds
  dsimp only at hholds
  split at hholds <;> exact hholds

theorem addsNone_changeFirst (hnote : note < 0x80) (entries : List Voice) (test : Voice → Bool) :
    (Operation.changeFirst entries test Voice.release).AddsNone fun v => v.isNote channel note := by
  intro _ v hholds
  dsimp only at hholds
  split at hholds
  · exact absurd hholds (Bool.eq_false_iff.mp (isNote_release hnote v))
  · exact hholds

end Voices

/-! ### Notes that begin -/

theorem channelMode_slot_eq (s : Synth) (i : Fin channelCount) :
    s.channelMode i.val.toUInt8 = (s.channels.get i).map Channel.mode := by
  rw [channelMode, channelIndex?_slot]
  rfl

theorem channelFor_id {s : Synth} (h : s.Ensemble) {channel : UInt8} {c : Channel}
    (hc : s.channelFor channel = some c) : c.id = channel := by
  obtain ⟨i, hi, hc⟩ := Option.bind_eq_some_iff.mp hc
  exact ((h.ensureChannel i).ids i c hc).trans (toUInt8_of_channelIndex? hi)

theorem isNote_voiceFor {s : Synth} (h : s.Ensemble) {channel note velocity : UInt8}
    {duration : Int} {v : Voice} (hv : s.voiceFor channel note velocity duration = some v) :
    v.channel = channel ∧ v.note = note := by
  obtain ⟨c, hc, hbegin⟩ := Option.bind_eq_some_iff.mp hv
  have hid := channelFor_id h hc
  unfold Voice.begin? at hbegin
  split at hbegin
  · cases hbegin
  · obtain ⟨tone, -, rfl⟩ := Option.map_eq_some_iff.mp hbegin
    exact ⟨hid, rfl⟩

/-! ### What actions do to a held note -/

section Actions

variable {s : Synth} {channel note : UInt8}

theorem addsNone_action (h : s.Ensemble) (hnote : note < 0x80) {channel' : UInt8} {a : Action}
    (hstart : channel' = channel → a.isNoteOn note = false ∧ a.isNoteOnce note = false) :
    ∀ op ∈ s.actionOnVoices channel' a, op.AddsNone fun v => v.isNote channel note := by
  -- A voice that begins carries the channel and note that are asked for.
  have hinsert (note' velocity : UInt8) (duration : Int)
      (hother : ¬(channel' = channel ∧ note' = note)) :
      ∀ op ∈ (s.voiceFor channel' note' velocity duration).toList.map Operation.insert,
        op.AddsNone fun v => v.isNote channel note := by
    refine List.forall_mem_map.mpr fun v hv => ?_
    obtain ⟨hchannel, hsame⟩ := isNote_voiceFor h (Option.mem_toList.mp hv)
    show v.isNote channel note = false
    simp only [Voice.isNote, hchannel, hsame, Bool.and_eq_false_iff, beq_eq_false_iff_ne]
    by_cases hc : channel' = channel
    · exact .inr fun hn => hother ⟨hc, hn⟩
    · exact .inl (.inr hc)
  cases a with
  | noteOff note' =>
    simp only [actionOnVoices]
    split
    · split
      · exact List.forall_mem_singleton.mpr (addsNone_changeFirst hnote _ _)
      · exact List.forall_mem_nil _
    · exact List.forall_mem_nil _
  | noteOn note' velocity =>
    refine hinsert note' velocity _ fun hsame => ?_
    exact absurd (hstart hsame.1).1 (by simp [Action.isNoteOn, hsame.2])
  | noteOnce note' velocity duration =>
    refine hinsert note' velocity duration fun hsame => ?_
    exact absurd (hstart hsame.1).2 (by simp [Action.isNoteOnce, hsame.2])
  | program number =>
    simp only [actionOnVoices]
    split
    · split
      · exact List.forall_mem_singleton.mpr trivial
      · exact List.forall_mem_nil _
    · exact List.forall_mem_nil _
  | wheel position =>
    simp only [actionOnVoices]
    split
    · exact List.forall_mem_map.mpr fun bend _ => addsNone_bend _ bend
    · exact List.forall_mem_nil _
  | reset =>
    simp only [actionOnVoices]
    split
    · split
      · exact List.forall_mem_nil _
      · exact List.forall_mem_singleton.mpr trivial
    · exact List.forall_mem_map.mpr fun _ _ => trivial
  | control | nothing => exact List.forall_mem_nil _

theorem held_perform_le (h : s.Ensemble) (hnote : note < 0x80) {channel' : UInt8} {a : Action}
    (hstart : channel' = channel → a.isNoteOn note = false ∧ a.isNoteOnce note = false) :
    (s.perform channel' a).held channel note ≤ s.held channel note := by
  rw [held, voices_perform]
  exact Pool.countP_operates_le (addsNone_action h hnote hstart) s.voices

theorem held_noteOn_le (s : Synth) (channel note velocity : UInt8) :
    (s.perform channel (.noteOn note velocity)).held channel note ≤ s.held channel note + 1 := by
  rw [held, voices_perform, actionOnVoices]
  cases s.voiceFor channel note velocity Envelope.held with
  | none => exact Nat.le_succ _
  | some v =>
    refine Nat.le_trans (Pool.countP_place_le _ s.voices.capacity s.voices.entries v) ?_
    exact Nat.add_le_add_left (by split <;> decide) _

theorem exists_channelFor (h : s.Ensemble) {v : Voice} (hv : v ∈ s.voices.entries)
    (hholds : v.isNote channel note = true) :
    ∃ c, s.channelFor channel = some c ∧ c.bendsVoices = true := by
  simp only [Voice.isNote, Bool.and_eq_true, Bool.not_eq_true', beq_iff_eq] at hholds
  obtain ⟨i, c, hc, hchannel, hfollows⟩ := h.voice_channel hv hholds.1.1
  have hslot : channelIndex? channel = some i := by
    rw [← hholds.1.2, hchannel, channelIndex?_slot]
  have hsame : s.ensureChannel i = s := by rw [ensureChannel, hc]
  exact ⟨c, by rw [channelFor, hslot, Option.bind_some, hsame, hc], hfollows.bends⟩

theorem held_noteOff (h : s.Ensemble) (hnote : note < 0x80) :
    (s.perform channel (.noteOff note)).held channel note = s.held channel note - 1 := by
  have hnone (hfor : ∀ c, s.channelFor channel = some c → c.bendsVoices = false) :
      s.held channel note = s.held channel note - 1 := by
    have hzero : s.held channel note = 0 := by
      refine List.countP_eq_zero.mpr fun v hv hholds => ?_
      obtain ⟨c, hc, hbends⟩ := exists_channelFor h hv hholds
      rw [hfor c hc] at hbends
      cases hbends
    rw [hzero]
  rw [held, voices_perform, actionOnVoices]
  cases hfor : s.channelFor channel with
  | none => exact hnone fun c hc => by rw [hfor] at hc; cases hc
  | some c =>
    dsimp only
    split
    next hbends =>
      rw [channelFor_id h hfor, List.foldl_cons, List.foldl_nil, Pool.operate_update]
      exact Pool.countP_modifyFirst (isNote_release hnote) s.voices.entries
    next hbends =>
      refine hnone fun d hd => ?_
      rw [hfor, Option.some.injEq] at hd
      rw [← hd]
      exact Bool.eq_false_iff.mpr hbends

/-- The rack of a channel lets all voices of a note go, and it is the only one of the channel as long
as no rack is defunct. -/
theorem note_ne_stopNote (h : s.Ensemble) (hsteady : s.AllSteady) {i : Fin channelCount}
    {c : Channel} (hc : s.channels.get i = some c) (heffect : c.mode = .effect)
    (hnote : note < 0x80) :
    ∀ r ∈ (s.stopNote c note).racks.entries, r.channel = i.val.toUInt8 →
      ∀ v ∈ r.voices, v.note ≠ note := by
  obtain ⟨params, hpatch⟩ := Channel.patch_of_effect heffect
  rw [stopNote, hpatch]
  intro r hr hchannel v hv
  rcases Pool.mem_modifyFirst_of_unique (h.unique c.id) hr with ⟨hmem, hother⟩ | ⟨q, -, -, rfl⟩
  · rw [(hsteady r hmem).live, hchannel, h.ids i c hc] at hother
    simp at hother
  · obtain ⟨w, -, rfl⟩ := List.mem_map.mp hv
    split
    next => exact releasedNote_ne hnote
    next hne => exact hne

end Actions

/-! ### Calls -/

def Call.asks (channel : UInt8) (what : Action → Bool) : Call → Bool
  | .message (.event e) => e.channel == channel && what e.action
  | _ => false

theorem Call.exists_of_asks {c : Call} {channel : UInt8} {what : Action → Bool}
    (h : c.asks channel what = true) :
    ∃ e : Event, c = .message (.event e) ∧ e.channel = channel ∧ what e.action = true := by
  unfold asks at h
  split at h
  next e =>
    rw [Bool.and_eq_true, beq_iff_eq] at h
    exact ⟨e, rfl, h⟩
  next => cases h

namespace Songless

variable {s : Synth} {channel note : UInt8} {c : Call}

theorem held_idle_le (h : s.Songless) (hnote : note < 0x80) {σ : Step} (hidle : σ.Idle) :
    (σ.run s).held channel note ≤ s.held channel note := by
  rw [held, voices_run]
  refine Pool.countP_operates_le ?_ s.voices
  cases σ with
  | seek beats =>
    simp only [Step.onVoices, h.song, Option.isSome_none, Bool.and_false]
    exact List.forall_mem_nil _
  | releaseAll => exact List.forall_mem_singleton.mpr (addsNone_release hnote)
  | stretch n => exact List.forall_mem_singleton.mpr (addsNone_render s n)
  | setCustom | finish => exact List.forall_mem_singleton.mpr trivial
  | playSound | playSoundBytes | clearCache | setResources | begin => exact List.forall_mem_nil _
  | _ => cases hidle

theorem held_passage_le {m m' : Moment} {steps : List Step} (h : m.synth.Songless)
    (hnote : note < 0x80) (hpassage : Passage m steps m') (hidle : ∀ σ ∈ steps, σ.Idle) :
    m'.synth.held channel note ≤ m.synth.held channel note := by
  induction hpassage with
  | nil => exact Nat.le_refl _
  | cons allowed _ ih =>
    have hfirst := hidle _ List.mem_cons_self
    exact Nat.le_trans (ih (h.idle hfirst allowed) fun σ hσ => hidle σ (List.mem_cons_of_mem _ hσ))
      (h.held_idle_le hnote hfirst)

theorem held_apply_le (h : s.Songless) (hnote : note < 0x80) (hfree : c.isSongFree = true)
    (hon : c.asks channel (·.isNoteOn note) = false)
    (honce : c.asks channel (·.isNoteOnce note) = false) :
    (s.apply c).held channel note ≤ s.held channel note := by
  rcases h.steps hfree with ⟨e, rfl⟩ | hidle
  · refine held_perform_le h.ensemble hnote fun hchannel => ?_
    simp only [Call.asks, hchannel, beq_self_eq_true, Bool.true_and] at hon honce
    exact ⟨hon, honce⟩
  · exact held_passage_le (m := ⟨s, 0⟩) h hnote (passage_steps s c) hidle

theorem held_apply_noteOn (hon : c.asks channel (·.isNoteOn note) = true) :
    (s.apply c).held channel note ≤ s.held channel note + 1 := by
  obtain ⟨e, rfl, rfl, hnoteOn⟩ := Call.exists_of_asks hon
  obtain ⟨velocity, haction⟩ := Action.eq_noteOn hnoteOn
  show (s.perform e.channel e.action).held e.channel note ≤ _
  rw [haction]
  exact s.held_noteOn_le e.channel note velocity

theorem held_apply_noteOff (h : s.Songless) (hnote : note < 0x80)
    (hoff : c.asks channel (·.isNoteOff note) = true) :
    (s.apply c).held channel note = s.held channel note - 1 := by
  obtain ⟨e, rfl, rfl, hnoteOff⟩ := Call.exists_of_asks hoff
  show (s.perform e.channel e.action).held e.channel note = _
  rw [Action.eq_noteOff hnoteOff]
  exact held_noteOff h.ensemble hnote

/-- In effect mode the end of a note ends all voices of the note at once. -/
theorem note_ne_of_noteOff (h : s.Songless) (hnote : note < 0x80)
    (hoff : c.asks channel (·.isNoteOff note) = true)
    (hmode : (s.apply c).channelMode channel = some .effect) :
    ∀ r ∈ (s.apply c).racks.entries, r.channel = channel → ∀ v ∈ r.voices, v.note ≠ note := by
  obtain ⟨e, rfl, rfl, hnoteOff⟩ := Call.exists_of_asks hoff
  have hstop : s.apply (.message (.event e))
      = s.onChannel e.channel fun i => s.withChannel i fun s c => s.stopNote c note := by
    show s.perform e.channel e.action = _
    rw [Action.eq_noteOff hnoteOff, perform]
  rw [hstop] at hmode ⊢
  cases hslot : channelIndex? e.channel with
  | none =>
    rw [channelMode, hslot] at hmode
    cases hmode
  | some i =>
    have hmade : (s.ensureChannel i).Ensemble := h.ensemble.ensureChannel i
    have hsteady := AllSteady.eventClosed.ensure s i h.steady
    rw [← toUInt8_of_channelIndex? hslot] at hmode ⊢
    simp only [onChannel, channelIndex?_slot, withChannel] at hmode ⊢
    cases hc : (s.ensureChannel i).channels.get i with
    | none =>
      simp only [hc, channelMode_slot_eq] at hmode
      cases hmode
    | some d =>
      simp only [hc, channelMode_slot_eq, channels_stopNote, Option.map_some,
        Option.some.injEq] at hmode ⊢
      exact note_ne_stopNote hmade hsteady hc hmode hnote

end Songless

/-! ### Notes that are paired -/

def asksAt (calls : List Call) (channel : UInt8) (what : Action → Bool) (k : Nat) : Bool :=
  calls[k]?.any (·.asks channel what)

/-- Whether each start of a note has an end of its own later on. -/
def Paired (calls : List Call) (channel note : UInt8) : Prop :=
  ∃ partner : Nat → Nat,
    (∀ k, asksAt calls channel (·.isNoteOn note) k = true →
      k < partner k ∧ asksAt calls channel (·.isNoteOff note) (partner k) = true)
    ∧ ∀ j k, asksAt calls channel (·.isNoteOn note) j = true →
      asksAt calls channel (·.isNoteOn note) k = true → partner j = partner k → j = k

/-- The starts among the first `k` places whose partner is not among them. -/
def unmatched (starts : Nat → Bool) (partner : Nat → Nat) (k : Nat) : Finset Nat :=
  (Finset.range k).filter fun j => starts j ∧ k ≤ partner j

theorem mem_unmatched {starts : Nat → Bool} {partner : Nat → Nat} {j k : Nat} :
    j ∈ unmatched starts partner k ↔ j < k ∧ starts j = true ∧ k ≤ partner j := by
  simp [unmatched]

/-- A count that starts raise by one at most and ends lower by one is never above the starts that
still wait for their end. -/
theorem le_card_unmatched {count : Nat → Nat} {starts ends : Nat → Bool} {partner : Nat → Nat}
    {n : Nat} (hzero : count 0 = 0)
    (hstart : ∀ k < n, starts k = true → count (k + 1) ≤ count k + 1)
    (hend : ∀ k < n, ends k = true → count (k + 1) = count k - 1)
    (helse : ∀ k < n, starts k = false → count (k + 1) ≤ count k)
    (hpartner : ∀ k, starts k = true → k < partner k ∧ ends (partner k) = true)
    (hown : ∀ j k, starts j = true → starts k = true → partner j = partner k → j = k) {k : Nat}
    (hk : k ≤ n) :
    count k ≤ (unmatched starts partner k).card := by
  induction k with
  | zero => rw [hzero]; exact Nat.zero_le _
  | succ k ih =>
    have hbefore := ih (Nat.le_of_succ_le hk)
    -- Whatever waited before place `k` and has its partner there no longer waits after it.
    have hwaits {j : Nat} (hj : j ∈ unmatched starts partner k) (hne : partner j ≠ k) :
        j ∈ unmatched starts partner (k + 1) := by
      obtain ⟨hlt, hstarts, hle⟩ := mem_unmatched.mp hj
      exact mem_unmatched.mpr ⟨by omega, hstarts, by omega⟩
    cases hends : ends k with
    | true =>
      have hmatched : (unmatched starts partner k \ unmatched starts partner (k + 1)).card ≤ 1 := by
        refine Finset.card_le_one.mpr fun i hi j hj => ?_
        obtain ⟨hi, hi'⟩ := Finset.mem_sdiff.mp hi
        obtain ⟨hj, hj'⟩ := Finset.mem_sdiff.mp hj
        have hpi : partner i = k := Decidable.byContradiction fun hne => hi' (hwaits hi hne)
        have hpj : partner j = k := Decidable.byContradiction fun hne => hj' (hwaits hj hne)
        exact hown i j (mem_unmatched.mp hi).2.1 (mem_unmatched.mp hj).2.1 (hpi.trans hpj.symm)
      have hsplit := Finset.card_le_card_sdiff_add_card (s := unmatched starts partner k)
        (t := unmatched starts partner (k + 1))
      rw [hend k hk hends]
      omega
    | false =>
      have hkeep : unmatched starts partner k ⊆ unmatched starts partner (k + 1) := by
        refine fun j hj => hwaits hj fun hpartner' => ?_
        have hends' := (hpartner j (mem_unmatched.mp hj).2.1).2
        rw [hpartner', hends] at hends'
        cases hends'
      cases hstarts : starts k with
      | true =>
        have hnew : insert k (unmatched starts partner k) ⊆ unmatched starts partner (k + 1) :=
          Finset.insert_subset (mem_unmatched.mpr ⟨Nat.lt_succ_self k, hstarts,
            (hpartner k hstarts).1⟩) hkeep
        have hfresh : k ∉ unmatched starts partner k :=
          fun hmem => Nat.lt_irrefl k (mem_unmatched.mp hmem).1
        have hcard := Finset.card_le_card hnew
        rw [Finset.card_insert_of_notMem hfresh] at hcard
        have hcount := hstart k hk hstarts
        omega
      | false =>
        exact Nat.le_trans (helse k hk hstarts) (Nat.le_trans hbefore (Finset.card_le_card hkeep))

theorem unmatched_eq_empty {starts : Nat → Bool} {partner : Nat → Nat} {n : Nat}
    (h : ∀ k, starts k = true → partner k < n) : unmatched starts partner n = ∅ := by
  refine Finset.eq_empty_of_forall_notMem fun j hj => ?_
  obtain ⟨-, hstarts, hle⟩ := mem_unmatched.mp hj
  exact absurd (h j hstarts) (Nat.not_lt.mpr hle)

theorem asksAt_of_lt {calls : List Call} (channel : UInt8) (what : Action → Bool) {k : Nat}
    (h : k < calls.length) : asksAt calls channel what k = calls[k].asks channel what := by
  rw [asksAt, List.getElem?_eq_getElem h]
  rfl

theorem lt_length_of_asksAt {calls : List Call} {channel : UInt8} {what : Action → Bool} {k : Nat}
    (h : asksAt calls channel what k = true) : k < calls.length := by
  refine Nat.lt_of_not_le fun hle => ?_
  rw [asksAt, List.getElem?_eq_none hle] at h
  cases h

theorem applies_take_succ (s : Synth) {calls : List Call} {k : Nat} (h : k < calls.length) :
    (calls.take (k + 1)).foldl Synth.apply s
      = ((calls.take k).foldl Synth.apply s).apply calls[k] := by
  rw [List.take_succ_eq_append_getElem h, List.foldl_append]
  rfl

/-- After some calls that pair the starts of a note, none of them bounded, the note is not held. -/
theorem Songless.held_eq_zero {s : Synth} (h : s.Songless) {calls : List Call}
    (hfree : ∀ c ∈ calls, c.isSongFree = true) {channel note : UInt8} (hnote : note < 0x80)
    (honce : ∀ c ∈ calls, c.asks channel (·.isNoteOnce note) = false)
    (hpaired : Paired calls channel note) (hzero : s.held channel note = 0) :
    (calls.foldl Synth.apply s).held channel note = 0 := by
  obtain ⟨partner, hpartner, hown⟩ := hpaired
  let state (k : Nat) : Synth := (calls.take k).foldl Synth.apply s
  have hsongless (k : Nat) : (state k).Songless :=
    h.applies fun c hc => hfree c (List.mem_of_mem_take hc)
  let count (k : Nat) : Nat := (state k).held channel note
  have hstep {k : Nat} (hk : k < calls.length) :
      count (k + 1) = ((state k).apply calls[k]).held channel note :=
    congrArg (·.held channel note) (applies_take_succ s hk)
  have hstart : count 0 = 0 := hzero
  have hcount : count calls.length
      ≤ (unmatched (asksAt calls channel (·.isNoteOn note)) partner calls.length).card := by
    refine le_card_unmatched hstart (fun k hk hstarts => ?_) (fun k hk hends => ?_)
      (fun k hk hstarts => ?_) hpartner hown (Nat.le_refl _)
    · rw [asksAt_of_lt _ _ hk] at hstarts
      rw [hstep hk]
      exact held_apply_noteOn hstarts
    · rw [asksAt_of_lt _ _ hk] at hends
      rw [hstep hk]
      exact (hsongless k).held_apply_noteOff hnote hends
    · rw [asksAt_of_lt _ _ hk] at hstarts
      have hmem := List.getElem_mem hk
      rw [hstep hk]
      exact (hsongless k).held_apply_le hnote (hfree _ hmem) hstarts (honce _ hmem)
  have hmatched := unmatched_eq_empty fun k hstarts => lt_length_of_asksAt (hpartner k hstarts).2
  have hall : state calls.length = calls.foldl Synth.apply s := by
    show (calls.take calls.length).foldl Synth.apply s = _
    rw [List.take_length]
  rw [hmatched, Finset.card_empty] at hcount
  rw [← hall]
  exact Nat.le_zero.mp hcount

/-- The start of a note makes it held by one voice more at most, its end by one less if it is held at
all, and no other call but a bounded note by more. So a note is not held once each of its starts has
had an end of its own. In effect mode one end of a note ends all its voices. -/
theorem no_stuck_notes (format : Format) {calls : List Call}
    (hfree : ∀ c ∈ calls, c.isSongFree = true) (channel : UInt8) {note : UInt8}
    (hnote : note < 0x80) :
    let s := calls.foldl apply (ofFormat format)
    (∀ c : Call, c.isSongFree = true →
        (c.asks channel (·.isNoteOn note) = true →
          (s.apply c).held channel note ≤ s.held channel note + 1)
        ∧ (c.asks channel (·.isNoteOff note) = true →
          (s.apply c).held channel note = s.held channel note - 1)
        ∧ (c.asks channel (·.isNoteOn note) = false →
          c.asks channel (·.isNoteOnce note) = false →
          (s.apply c).held channel note ≤ s.held channel note)
        ∧ (c.asks channel (·.isNoteOff note) = true →
          (s.apply c).channelMode channel = some .effect →
          ∀ r ∈ (s.apply c).racks.entries, r.channel = channel → ∀ v ∈ r.voices, v.note ≠ note))
      ∧ ((∀ c ∈ calls, c.asks channel (·.isNoteOnce note) = false) → Paired calls channel note →
        s.held channel note = 0) := by
  intro s
  have h : s.Songless := (Songless.ofFormat format).applies hfree
  refine ⟨fun c hsongFree => ⟨fun hon => ?_, fun hoff => ?_, fun hon honce => ?_,
    fun hoff hmode => ?_⟩, fun honce hpaired => ?_⟩
  · exact Songless.held_apply_noteOn hon
  · exact h.held_apply_noteOff hnote hoff
  · exact h.held_apply_le hnote hsongFree hon honce
  · exact h.note_ne_of_noteOff hnote hoff hmode
  · exact (Songless.ofFormat format).held_eq_zero hfree hnote honce hpaired rfl

def noteEvent (opcode channel note velocity : UInt8) : Call :=
  .message (.event { channel, opcode, a := note, b := velocity, duration := 0 })

/-- Two overlapping starts of a note on the caller's ninth channel, with another note, a change of
the program and some samples among them. -/
def overlappingCalls : List Call :=
  [noteEvent Event.opNoteOn 9 60 100, noteEvent Event.opNoteOn 9 64 100, .render 3,
    noteEvent Event.opNoteOn 9 60 20, noteEvent Event.opNoteOff 9 60 0,
    noteEvent Event.opProgram 10 1 0, noteEvent Event.opNoteOff 9 60 0]

theorem no_stuck_notes_overlapping :
    (∀ c ∈ overlappingCalls, c.isSongFree = true) ∧ (60 : UInt8) < 0x80
      ∧ Paired overlappingCalls 9 60
      ∧ (overlappingCalls.foldl apply (ofFormat slow)).held 9 60 = 0 := by
  have hfree : ∀ c ∈ overlappingCalls, c.isSongFree = true := by decide
  have honce : ∀ c ∈ overlappingCalls, c.asks 9 (·.isNoteOnce 60) = false := by decide
  have hpaired : Paired overlappingCalls 9 60 := by
    let partner (k : Nat) : Nat := if k = 0 then 6 else 4
    have hlater : ∀ k < overlappingCalls.length,
        asksAt overlappingCalls 9 (·.isNoteOn 60) k = true →
          k < partner k ∧ asksAt overlappingCalls 9 (·.isNoteOff 60) (partner k) = true := by
      decide
    have hown : ∀ j < overlappingCalls.length, ∀ k < overlappingCalls.length,
        asksAt overlappingCalls 9 (·.isNoteOn 60) j = true →
          asksAt overlappingCalls 9 (·.isNoteOn 60) k = true → partner j = partner k → j = k := by
      decide
    exact ⟨partner, fun k hk => hlater k (lt_length_of_asksAt hk) hk,
      fun j k hj hk => hown j (lt_length_of_asksAt hj) k (lt_length_of_asksAt hk) hj hk⟩
  exact ⟨hfree, by decide, hpaired, (no_stuck_notes slow hfree 9 (by decide)).2 honce hpaired⟩

end Synth

end Tonewheel
