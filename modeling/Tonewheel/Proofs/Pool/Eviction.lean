import Mathlib.Order.RelClasses
import Tonewheel.Pcm.Playback
import Tonewheel.Proofs.Pool
import Tonewheel.Sounding.Rack

/-!
# What a pool gives up (SPEC_FULL, sections 8 and 9)

A pool after any operations holds no more than its capacity. An insert appends while there is room;
into a full pool it takes over the first slot with a finished entry, or else the first of the oldest
ones (`Evicts`), and a reap cuts off all finished entries at the end (`inserts_by_age`). For this the
age of entries has to be a strict weak order, which it is for everything that is kept in pools here:
voices and racks go by the frame they were born at, playbacks by how far they are.
-/

namespace Tonewheel.Pool

variable {α : Type}

/-! ### Operations -/

/-- Anything that is done to a pool. What is kept and what is changed may depend on the slot too, as
for a loop over the entries that remembers what it has met. -/
inductive Operation (α : Type) where
  | insert (entry : α)
  | reap
  | retain (keep : Nat → α → Bool)
  | clear
  /-- Changes entries where they are. -/
  | change (f : Nat → α → α)

def Operation.changeFirst (entries : List α) (test : α → Bool) (f : α → α) : Operation α :=
  .change fun i e => if entries.findIdx? test = some i then f e else e

/-- The entries of the slots that are kept, where `slot` is the number of the first entry listed. -/
def keepFrom (keep : Nat → α → Bool) : (slot : Nat) → List α → List α
  | _, [] => []
  | slot, e :: es =>
    if keep slot e then e :: keepFrom keep (slot + 1) es else keepFrom keep (slot + 1) es

def operate [PoolEntry α] (p : Pool α) : Operation α → Pool α
  | .insert entry => (p.insert entry).2
  | .reap => p.reap
  | .retain keep => { p with entries := keepFrom keep 0 p.entries }
  | .clear => p.clear
  | .change f => { p with entries := p.entries.mapIdx f }

theorem keepFrom_sublist (keep : Nat → α → Bool) (slot : Nat) (entries : List α) :
    (keepFrom keep slot entries).Sublist entries := by
  induction entries generalizing slot with
  | nil => exact .refl []
  | cons e es ih =>
    rw [keepFrom]
    split
    · exact (ih (slot + 1)).cons_cons e
    · exact (ih (slot + 1)).cons e

theorem keepFrom_test (keep : α → Bool) (slot : Nat) (entries : List α) :
    keepFrom (fun _ => keep) slot entries = entries.filter keep := by
  induction entries generalizing slot with
  | nil => rfl
  | cons e es ih => rw [keepFrom, List.filter_cons, ih]

theorem mapIdx_same (f : α → α) (entries : List α) :
    (entries.mapIdx fun _ => f) = entries.map f :=
  List.ext_getElem (by simp) (by simp)

/-- Changing the first entry that passes a test is changing the one in its slot. -/
theorem modifyFirst_eq_mapIdx (test : α → Bool) (f : α → α) (entries : List α) :
    modifyFirst test f entries
      = entries.mapIdx fun i e => if entries.findIdx? test = some i then f e else e := by
  induction entries with
  | nil => rfl
  | cons e es ih =>
    rw [modifyFirst, List.mapIdx_cons, List.findIdx?_cons]
    cases htest : test e with
    | true =>
      have hrest : (es.mapIdx fun _ d => d) = es := (mapIdx_same id es).trans (List.map_id es)
      simp [hrest]
    | false => simp [ih]

section Coverage

variable [PoolEntry α]

theorem operate_retain (p : Pool α) (keep : α → Bool) :
    p.operate (.retain fun _ => keep) = p.retain keep := by
  simp only [operate, retain, keepFrom_test]

theorem operate_map (p : Pool α) (f : α → α) : p.operate (.change fun _ => f) = p.map f := by
  simp only [operate, map, mapIdx_same]

theorem operate_update (p : Pool α) (test : α → Bool) (f : α → α) :
    p.operate (.changeFirst p.entries test f) = p.update test f := by
  simp only [operate, Operation.changeFirst, update, modifyFirst_eq_mapIdx]

end Coverage

/-! ### The slot that is taken over -/

/-- Whether an entry is strictly older than another. -/
def Older [PoolEntry α] (d e : α) : Prop := PoolEntry.isOlder d e = true

section Policy

variable [PoolEntry α]

/-- Whether a slot holds the first finished entry. -/
def FirstDefunct (entries : List α) (slot : Nat) : Prop :=
  (∃ e, entries[slot]? = some e ∧ PoolEntry.isDefunct e = true)
    ∧ ∀ d ∈ entries.take slot, PoolEntry.isDefunct d = false

/-- Whether a slot holds the first of the entries that none is older than. -/
structure FirstOldest (entries : List α) (slot : Nat) (e : α) : Prop where
  entry : entries[slot]? = some e
  oldest : ∀ d ∈ entries, ¬Older d e
  first : ∀ d ∈ entries.take slot, Older e d

/-- Whether a slot is the one that a new entry has to take over. -/
def Evicts (entries : List α) (slot : Nat) : Prop :=
  FirstDefunct entries slot
    ∨ (∀ d ∈ entries, PoolEntry.isDefunct d = false) ∧ ∃ e, FirstOldest entries slot e

theorem firstDefunct_of_findIdx {entries : List α} {slot : Nat}
    (h : entries.findIdx? PoolEntry.isDefunct = some slot) : FirstDefunct entries slot := by
  obtain ⟨hslot, hover, hbefore⟩ := List.findIdx?_eq_some_iff_getElem.mp h
  refine ⟨⟨_, List.getElem?_eq_getElem hslot, hover⟩, fun d hd => ?_⟩
  obtain ⟨k, hk, rfl⟩ := List.getElem_of_mem hd
  rw [List.length_take] at hk
  rw [List.getElem_take]
  exact Bool.eq_false_iff.mpr (hbefore k (by omega))

variable [IsStrictWeakOrder α Older]

theorem Older.connected {d e : α} (h : Older d e) (x : α) : Older d x ∨ Older x e := by
  by_contra hneither
  obtain ⟨hdx, hxe⟩ := not_or.mp hneither
  -- Then `x` is as old as `d` and as `e`, so these are equally old.
  have hxd : ¬Older x d := fun hxd => hxe (IsTrans.trans x d e hxd h)
  have hex : ¬Older e x := fun hex => hdx (IsTrans.trans d e x h hex)
  exact (IsStrictWeakOrder.incomp_trans d x e ⟨hdx, hxd⟩ ⟨hxe, hex⟩).1 h

theorem FirstOldest.single (e : α) : FirstOldest [e] 0 e where
  entry := rfl
  oldest d hd := by
    rw [List.mem_singleton.mp hd]
    exact Std.Irrefl.irrefl e
  first d hd := by cases hd

theorem FirstOldest.concat {seen : List α} {slot : Nat} {best : α} (h : FirstOldest seen slot best)
    (e : α) :
    (Older e best → FirstOldest (seen ++ [e]) seen.length e)
      ∧ (¬Older e best → FirstOldest (seen ++ [e]) slot best) := by
  constructor
  · intro holder
    refine ⟨List.getElem?_concat_length, fun d hd hde => ?_, fun d hd => ?_⟩
    · rcases List.mem_append.mp hd with hd | hd
      · exact h.oldest d hd (IsTrans.trans d e best hde holder)
      · rw [List.mem_singleton.mp hd] at hde
        exact Std.Irrefl.irrefl e hde
    · rw [List.take_left] at hd
      exact (holder.connected d).resolve_right (h.oldest d hd)
  · intro hyounger
    have hslot : slot < seen.length := (List.getElem?_eq_some_iff.mp h.entry).1
    refine ⟨?_, fun d hd => ?_, fun d hd => ?_⟩
    · rw [List.getElem?_append_left hslot]
      exact h.entry
    · rcases List.mem_append.mp hd with hd | hd
      · exact h.oldest d hd
      · rw [List.mem_singleton.mp hd]
        exact hyounger
    · rw [List.take_append_of_le_length (Nat.le_of_lt hslot)] at hd
      exact h.first d hd

theorem firstOldest_oldestFrom {seen : List α} {slot : Nat} {best : α}
    (h : FirstOldest seen slot best) (rest : List α) :
    ∃ e, FirstOldest (seen ++ rest) (oldestFrom slot best seen.length rest) e := by
  induction rest generalizing seen slot best with
  | nil =>
    rw [List.append_nil]
    exact ⟨best, h⟩
  | cons e rest ih =>
    obtain ⟨htakes, hstays⟩ := h.concat e
    have hsplit : seen ++ e :: rest = seen ++ [e] ++ rest := by simp
    have hlength : (seen ++ [e]).length = seen.length + 1 := by simp
    rw [oldestFrom, hsplit, ← hlength]
    split
    next holder => exact ih (htakes holder)
    next hyounger => exact ih (hstays hyounger)

theorem exists_victim {entries : List α} (h : entries ≠ []) :
    ∃ slot, victim entries = some slot ∧ Evicts entries slot := by
  unfold victim
  cases hfind : entries.findIdx? PoolEntry.isDefunct with
  | some slot => exact ⟨slot, rfl, .inl (firstDefunct_of_findIdx hfind)⟩
  | none =>
    have hlive : ∀ d ∈ entries, PoolEntry.isDefunct d = false := List.findIdx?_eq_none_iff.mp hfind
    cases entries with
    | nil => exact absurd rfl h
    | cons e es =>
      exact ⟨_, rfl, .inr ⟨hlive, firstOldest_oldestFrom (FirstOldest.single e) es⟩⟩

/-! ### Inserts -/

/-- What an insert of an entry does to a pool that holds no more than its capacity. -/
structure Inserts (p : Pool α) (entry : α) : Prop where
  room : p.size < p.capacity →
    p.insert entry = (p.size, { p with entries := p.entries ++ [entry] })
  full : 0 < p.capacity → p.size = p.capacity →
    ∃ slot, Evicts p.entries slot
      ∧ p.insert entry = (slot, { p with entries := p.entries.set slot entry })
  none : p.capacity = 0 → p.insert entry = (0, p)
  /-- A live entry is lost only from a full pool in which all entries are live. -/
  spares : ∀ (slot : Nat) (e : α), p.entries[slot]? = some e → PoolEntry.isDefunct e = false →
    (p.insert entry).2.entries[slot]? ≠ some e →
    p.size = p.capacity ∧ ∀ d ∈ p.entries, PoolEntry.isDefunct d = false

omit [IsStrictWeakOrder α Older] in
theorem insert_of_room {p : Pool α} (h : p.size < p.capacity) (entry : α) :
    p.insert entry = (p.size, { p with entries := p.entries ++ [entry] }) := by
  have hplace : place p.capacity p.entries entry = (p.entries.length, p.entries ++ [entry]) :=
    if_pos h
  rw [insert, hplace]
  rfl

omit [IsStrictWeakOrder α Older] in
theorem insert_of_victim {p : Pool α} (hfull : p.capacity ≤ p.size) {slot : Nat}
    (hvictim : victim p.entries = some slot) (entry : α) :
    p.insert entry = (slot, { p with entries := p.entries.set slot entry }) := by
  have hplace : place p.capacity p.entries entry = (slot, p.entries.set slot entry) := by
    have hroom : ¬p.entries.length < p.capacity := Nat.not_lt.mpr hfull
    rw [place, if_neg hroom, hvictim]
  rw [insert, hplace]

theorem exists_insert_of_full {p : Pool α} (hpos : 0 < p.capacity) (hfull : p.size = p.capacity)
    (entry : α) :
    ∃ slot, Evicts p.entries slot
      ∧ p.insert entry = (slot, { p with entries := p.entries.set slot entry }) := by
  have hsome : p.entries ≠ [] := List.ne_nil_of_length_pos (hpos.trans_eq hfull.symm)
  obtain ⟨slot, hvictim, hevicts⟩ := exists_victim hsome
  exact ⟨slot, hevicts, insert_of_victim (Nat.le_of_eq hfull.symm) hvictim entry⟩

omit [IsStrictWeakOrder α Older] in
theorem insert_of_no_capacity {p : Pool α} (hsize : p.size ≤ p.capacity) (hnone : p.capacity = 0)
    (entry : α) : p.insert entry = (0, p) := by
  obtain ⟨capacity, entries⟩ := p
  obtain rfl : capacity = 0 := hnone
  obtain rfl : entries = [] := List.eq_nil_of_length_eq_zero (Nat.le_zero.mp hsize)
  rfl

theorem inserts {p : Pool α} (hsize : p.size ≤ p.capacity) (entry : α) : p.Inserts entry where
  room h := insert_of_room h entry
  full hpos hfull := exists_insert_of_full hpos hfull entry
  none hnone := insert_of_no_capacity hsize hnone entry
  spares slot e he hlive hlost := by
    have hslot : slot < p.entries.length := (List.getElem?_eq_some_iff.mp he).1
    rcases Nat.lt_or_eq_of_le hsize with hroom | hfull
    · rw [insert_of_room hroom, List.getElem?_append_left hslot] at hlost
      exact absurd he hlost
    · have hpos : 0 < p.capacity := by
        have hsome : slot < p.size := hslot
        omega
      obtain ⟨taken, hevicts, hinsert⟩ := exists_insert_of_full hpos hfull entry
      rw [hinsert] at hlost
      -- Only the slot that is taken over can lose its entry.
      have hsame : taken = slot := by
        by_contra hne
        exact hlost ((List.getElem?_set_ne hne).trans he)
      refine ⟨hfull, ?_⟩
      rcases hevicts with ⟨⟨d, hd, hdefunct⟩, -⟩ | ⟨hall, -⟩
      · rw [hsame, he] at hd
        cases hd
        rw [hlive] at hdefunct
        cases hdefunct
      · exact hall

theorem not_older_of_overwritten {p : Pool α} (hsize : p.size ≤ p.capacity) {entry e : α}
    (he : p.entries[(p.insert entry).1]? = some e) (hlive : PoolEntry.isDefunct e = false) :
    ∀ d ∈ p.entries, ¬Older d e := by
  rcases Nat.lt_or_eq_of_le hsize with hroom | hfull
  · rw [insert_of_room hroom, List.getElem?_eq_none (Nat.le_refl p.size)] at he
    cases he
  · have hpos : 0 < p.capacity := by
      have hslot := (List.getElem?_eq_some_iff.mp he).1
      have hsome : 0 < p.size := Nat.zero_lt_of_lt hslot
      omega
    obtain ⟨slot, hevicts, hinsert⟩ := exists_insert_of_full hpos hfull entry
    rw [hinsert] at he
    rcases hevicts with ⟨⟨d, hd, hdefunct⟩, -⟩ | ⟨-, d, hfirst⟩
    · rw [he] at hd
      cases hd
      rw [hlive] at hdefunct
      cases hdefunct
    · have hentry := hfirst.entry
      rw [he] at hentry
      cases hentry
      exact hfirst.oldest

end Policy

/-! ### Ages -/

theorem isStrictWeakOrder_of_key [PoolEntry α] (key : α → Int)
    (h : ∀ d e, Older d e ↔ key d < key e) : IsStrictWeakOrder α Older where
  irrefl e he := by
    have hkey := (h e e).mp he
    omega
  trans d e x hde hex := by
    have hfirst := (h d e).mp hde
    have hsecond := (h e x).mp hex
    exact (h d x).mpr (by omega)
  incomp_trans d e x hde hex := by
    simp only [h] at hde hex ⊢
    omega

instance : IsStrictWeakOrder Voice Older :=
  isStrictWeakOrder_of_key (fun v => v.born) fun v w => by simp [Older, PoolEntry.isOlder]

instance : IsStrictWeakOrder EffectVoice Older :=
  isStrictWeakOrder_of_key (fun v => v.born) fun v w => by simp [Older, PoolEntry.isOlder]

instance : IsStrictWeakOrder Rack Older :=
  isStrictWeakOrder_of_key (fun r => r.born) fun r q => by simp [Older, PoolEntry.isOlder]

instance : IsStrictWeakOrder Playback Older :=
  isStrictWeakOrder_of_key (fun p => -p.position) fun p q => by simp [Older, PoolEntry.isOlder]

/-! ### Histories -/

section Histories

variable [PoolEntry α]

theorem capacity_operate (p : Pool α) (op : Operation α) :
    (p.operate op).capacity = p.capacity := by
  cases op <;> rfl

theorem size_insert_le {p : Pool α} (h : p.size ≤ p.capacity) (entry : α) :
    (p.insert entry).2.size ≤ p.capacity := by
  show (place p.capacity p.entries entry).2.length ≤ p.capacity
  unfold place
  split
  next hroom =>
    rw [List.length_append]
    exact hroom
  next =>
    split
    · rw [List.length_set]
      exact h
    · exact h

theorem size_operate_le {p : Pool α} (h : p.size ≤ p.capacity) (op : Operation α) :
    (p.operate op).size ≤ (p.operate op).capacity := by
  rw [capacity_operate]
  cases op with
  | insert entry => exact size_insert_le h entry
  | reap => exact (Pool.trimDefunct_prefix p.entries).length_le.trans h
  | retain keep => exact (keepFrom_sublist keep 0 p.entries).length_le.trans h
  | clear => exact Nat.zero_le p.capacity
  | change f => exact (Nat.le_of_eq List.length_mapIdx).trans h

theorem operates {p : Pool α} (h : p.size ≤ p.capacity) (ops : List (Operation α)) :
    (ops.foldl operate p).capacity = p.capacity ∧ (ops.foldl operate p).size ≤ p.capacity := by
  induction ops generalizing p with
  | nil => exact ⟨rfl, h⟩
  | cons op ops ih =>
    obtain ⟨hcapacity, hsize⟩ := ih (size_operate_le h op)
    rw [capacity_operate] at hcapacity hsize
    exact ⟨hcapacity, hsize⟩

theorem isDefunct_getLast_reap {p : Pool α} {e : α} (h : p.reap.entries.getLast? = some e) :
    PoolEntry.isDefunct e = false := by
  have hlast : (p.entries.reverse.dropWhile PoolEntry.isDefunct).head? = some e := by
    rw [← List.getLast?_reverse]
    exact h
  have hkept := List.head?_dropWhile_not PoolEntry.isDefunct p.entries.reverse
  rw [hlast] at hkept
  simpa using hkept

/-- After any operations a pool holds no more than its capacity, each insert takes over the slot that
the policy says, and a reap drops what is finished at the end. -/
theorem inserts_by_age [IsStrictWeakOrder α Older] (capacity : Nat) (ops : List (Operation α)) :
    let p : Pool α := ops.foldl operate { capacity }
    p.capacity = capacity ∧ p.size ≤ capacity
      ∧ (∀ entry, p.Inserts entry)
      ∧ ∃ dropped, p.entries = p.reap.entries ++ dropped
        ∧ (∀ d ∈ dropped, PoolEntry.isDefunct d = true)
        ∧ ∀ e, p.reap.entries.getLast? = some e → PoolEntry.isDefunct e = false := by
  intro p
  obtain ⟨hcapacity, hsize⟩ : p.capacity = capacity ∧ p.size ≤ capacity :=
    operates (p := { capacity }) (Nat.zero_le capacity) ops
  obtain ⟨dropped, hsplit, hdropped⟩ := exists_trimDefunct_append p.entries
  exact ⟨hcapacity, hsize, fun entry => inserts (hsize.trans_eq hcapacity.symm) entry,
    dropped, hsplit, hdropped, fun e he => isDefunct_getLast_reap he⟩

/-- Three playbacks, of which the last two are equally far. Of these the first gives way, unless the
last one has come to its end. -/
theorem inserts_by_age_playbacks :
    let upTo (position : Nat) : Playback := { pcm := ⟨0⟩, length := 10, position, gain := 1 }
    let p : Pool Playback :=
      [.insert (upTo 5), .insert (upTo 9), .insert (upTo 9)].foldl operate { capacity := 3 }
    let q : Pool Playback :=
      [.insert (upTo 5), .insert (upTo 9), .insert (upTo 9),
        .change fun i e => if i = 2 then upTo 10 else e].foldl operate { capacity := 3 }
    IsStrictWeakOrder Playback Older
      ∧ p.Inserts (upTo 0) ∧ (p.insert (upTo 0)).1 = 1
      ∧ q.Inserts (upTo 0) ∧ (q.insert (upTo 0)).1 = 2 :=
  ⟨inferInstance, (inserts_by_age 3 _).2.2.1 _, by decide, (inserts_by_age 3 _).2.2.1 _, by decide⟩

end Histories

end Tonewheel.Pool
