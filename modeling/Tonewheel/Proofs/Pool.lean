import Mathlib.Data.List.DropRight
import Mathlib.Data.List.Forall2
import Tonewheel.Pool

/-!
# Entries of a pool

What becomes of the entries of a pool: an insert takes one slot over and leaves the others alone
(`place_eq`), and spares all entries that are not finished while there is room or a finished one
(`mem_place_of_live`); a reap drops entries at the end only, and only finished ones.
-/

namespace Tonewheel.Pool

variable {α : Type}

/-! ### Inserting -/

section Place

variable [PoolEntry α]

theorem oldestFrom_lt (bestSlot : Nat) (best : α) (slot : Nat) (entries : List α)
    (h : bestSlot < slot) : oldestFrom bestSlot best slot entries < slot + entries.length := by
  induction entries generalizing bestSlot best slot with
  | nil => exact h
  | cons e es ih =>
    rw [oldestFrom, List.length_cons]
    split
    · have hrest := ih slot e (slot + 1) (Nat.lt_succ_self slot)
      omega
    · have hrest := ih bestSlot best (slot + 1) (Nat.lt_succ_of_lt h)
      omega

theorem victim_lt {entries : List α} {slot : Nat} (h : victim entries = some slot) :
    slot < entries.length := by
  unfold victim at h
  split at h
  next found hfound =>
    cases h
    exact (List.findIdx?_eq_some_iff_getElem.mp hfound).1
  next =>
    cases entries with
    | nil => cases h
    | cons e es =>
      simp only [oldest, Option.some.injEq] at h
      have hlt := oldestFrom_lt 0 e 1 es (by decide)
      rw [List.length_cons]
      omega

theorem victim_isSome {entries : List α} (h : entries ≠ []) : ∃ slot, victim entries = some slot := by
  unfold victim
  split
  next found _ => exact ⟨found, rfl⟩
  next =>
    cases entries with
    | nil => exact absurd rfl h
    | cons e es => exact ⟨_, rfl⟩

/-- An insert takes one slot over, at most the one past the last entry. -/
theorem place_eq {capacity : Nat} (hcapacity : 0 < capacity) (entries : List α) (entry : α) :
    (place capacity entries entry).1 ≤ entries.length
      ∧ (place capacity entries entry).2
        = entries.take (place capacity entries entry).1
          ++ entry :: entries.drop ((place capacity entries entry).1 + 1) := by
  unfold place
  split
  next hroom => simp
  next hfull =>
    have hsome : entries ≠ [] := by
      rintro rfl
      exact hfull hcapacity
    obtain ⟨slot, hslot⟩ := victim_isSome hsome
    have hlt := victim_lt hslot
    rw [hslot]
    exact ⟨Nat.le_of_lt hlt, List.set_eq_take_append_cons_drop.trans (if_pos hlt)⟩

theorem mem_place {capacity : Nat} {entries : List α} {entry e : α}
    (h : e ∈ (place capacity entries entry).2) : e ∈ entries ∨ e = entry := by
  unfold place at h
  split at h
  · rcases List.mem_append.mp h with h | h
    · exact .inl h
    · exact .inr (List.mem_singleton.mp h)
  · split at h
    · exact List.mem_or_eq_of_mem_set h
    · exact .inl h

theorem self_mem_place {capacity : Nat} (hcapacity : 0 < capacity) (entries : List α) (entry : α) :
    entry ∈ (place capacity entries entry).2 := by
  rw [(place_eq hcapacity entries entry).2]
  exact List.mem_append_right _ List.mem_cons_self

/-- With room or a finished entry, an insert spares every entry that is not finished. -/
theorem mem_place_of_live {capacity : Nat} {entries : List α}
    (hroom : entries.length < capacity ∨ ∃ d ∈ entries, PoolEntry.isDefunct d = true) (entry : α)
    {e : α} (he : e ∈ entries) (hlive : PoolEntry.isDefunct e = false) :
    e ∈ (place capacity entries entry).2 := by
  unfold place
  split
  · exact List.mem_append_left _ he
  next hfull =>
    obtain ⟨d, hd, hdefunct⟩ := hroom.resolve_left hfull
    cases hfind : entries.findIdx? PoolEntry.isDefunct with
    | none =>
      have hnone := List.findIdx?_eq_none_iff.mp hfind d hd
      rw [hdefunct] at hnone
      cases hnone
    | some slot =>
      obtain ⟨hslot, hover, -⟩ := List.findIdx?_eq_some_iff_getElem.mp hfind
      obtain ⟨k, hk, rfl⟩ := List.getElem_of_mem he
      have hne : slot ≠ k := by
        rintro rfl
        rw [hlive] at hover
        cases hover
      rw [victim, hfind]
      dsimp only
      have hkept : (entries.set slot entry)[k]? = some entries[k] := by
        rw [List.getElem?_set_ne hne, List.getElem?_eq_getElem hk]
      exact List.mem_of_getElem? hkept

theorem pairwise_place {R : α → α → Prop} {capacity : Nat} (hcapacity : 0 < capacity)
    {entries : List α} (h : entries.Pairwise R) (entry : α)
    (hentry : ∀ e ∈ entries, R e entry ∧ R entry e) :
    (place capacity entries entry).2.Pairwise R := by
  rw [(place_eq hcapacity entries entry).2]
  generalize (place capacity entries entry).1 = slot
  have htake : ∀ e ∈ entries.take slot, e ∈ entries := fun e he => List.mem_of_mem_take he
  have hdrop : ∀ e ∈ entries.drop (slot + 1), e ∈ entries := fun e he => List.mem_of_mem_drop he
  have hsub : (entries.take slot ++ entries.drop (slot + 1)).Pairwise R := by
    rw [← List.eraseIdx_eq_take_drop_succ]
    exact h.sublist (List.eraseIdx_sublist entries slot)
  obtain ⟨hfirst, hlast, hcross⟩ := List.pairwise_append.mp hsub
  refine List.pairwise_append.mpr ⟨hfirst, ?_, ?_⟩
  · exact List.pairwise_cons.mpr ⟨fun e he => (hentry e (hdrop e he)).2, hlast⟩
  · intro x hx y hy
    rcases List.mem_cons.mp hy with rfl | hy
    · exact (hentry x (htake x hx)).1
    · exact hcross x hx y hy

/-! ### Reaping -/

theorem trimDefunct_prefix (entries : List α) : trimDefunct entries <+: entries :=
  List.rdropWhile_prefix PoolEntry.isDefunct entries

theorem exists_trimDefunct_append (entries : List α) :
    ∃ rest, entries = trimDefunct entries ++ rest ∧ ∀ e ∈ rest, PoolEntry.isDefunct e = true := by
  have hcut := List.takeWhile_append_dropWhile (p := PoolEntry.isDefunct) (l := entries.reverse)
  refine ⟨(entries.reverse.takeWhile PoolEntry.isDefunct).reverse, ?_, fun e he => ?_⟩
  · rw [trimDefunct, ← List.reverse_append, hcut, List.reverse_reverse]
  · exact List.mem_takeWhile_imp (List.mem_reverse.mp he)

theorem trimDefunct_append {rest : List α} (h : ∀ e ∈ rest, PoolEntry.isDefunct e = true)
    (entries : List α) : trimDefunct (entries ++ rest) = trimDefunct entries := by
  rw [trimDefunct, List.reverse_append,
    List.dropWhile_append_of_pos fun e he => h e (List.mem_reverse.mp he)]
  rfl

theorem mem_trimDefunct_of_live {entries : List α} {e : α} (he : e ∈ entries)
    (hlive : PoolEntry.isDefunct e = false) : e ∈ trimDefunct entries := by
  obtain ⟨rest, hsplit, hrest⟩ := exists_trimDefunct_append entries
  rw [hsplit] at he
  refine (List.mem_append.mp he).resolve_right fun hdropped => ?_
  rw [hrest e hdropped] at hlive
  cases hlive

end Place

/-! ### Entries with something beside them -/

section Beside

variable {β : Type} [PoolEntry α] [PoolEntry β] {f : β → α}

theorem oldestFrom_map (holder : ∀ b b' : β, PoolEntry.isOlder (f b) (f b') = PoolEntry.isOlder b b')
    (bestSlot : Nat) (best : β) (slot : Nat) (entries : List β) :
    oldestFrom bestSlot (f best) slot (entries.map f) = oldestFrom bestSlot best slot entries := by
  induction entries generalizing bestSlot best slot with
  | nil => rfl
  | cons e es ih => simp only [List.map_cons, oldestFrom, holder, ih]

theorem victim_map (hover : ∀ b : β, PoolEntry.isDefunct (f b) = PoolEntry.isDefunct b)
    (holder : ∀ b b' : β, PoolEntry.isOlder (f b) (f b') = PoolEntry.isOlder b b')
    (entries : List β) : victim (entries.map f) = victim entries := by
  have hfind : (entries.map f).findIdx? PoolEntry.isDefunct
      = entries.findIdx? PoolEntry.isDefunct := by
    rw [List.findIdx?_map]
    exact congrArg (entries.findIdx? ·) (funext hover)
  have holdest : oldest (entries.map f) = oldest entries := by
    cases entries with
    | nil => rfl
    | cons e es => simp only [List.map_cons, oldest, oldestFrom_map holder]
  rw [victim, victim, hfind, holdest]

theorem place_map (hover : ∀ b : β, PoolEntry.isDefunct (f b) = PoolEntry.isDefunct b)
    (holder : ∀ b b' : β, PoolEntry.isOlder (f b) (f b') = PoolEntry.isOlder b b')
    (capacity : Nat) (entries : List β) (entry : β) :
    (place capacity (entries.map f) (f entry)).2 = (place capacity entries entry).2.map f := by
  rw [place, place, List.length_map, victim_map hover holder]
  split
  · rw [List.map_append, List.map_singleton]
  · split
    · rw [List.map_set]
    · rfl

theorem trimDefunct_map (hover : ∀ b : β, PoolEntry.isDefunct (f b) = PoolEntry.isDefunct b)
    (entries : List β) : trimDefunct (entries.map f) = (trimDefunct entries).map f := by
  have hsame : (PoolEntry.isDefunct ∘ f : β → Bool) = PoolEntry.isDefunct := funext hover
  rw [trimDefunct, trimDefunct, ← List.map_reverse, List.dropWhile_map, hsame, List.map_reverse]

end Beside

/-! ### Changing one entry -/

theorem modifyFirst_cons (test : α → Bool) (f : α → α) (e : α) (es : List α) :
    modifyFirst test f (e :: es) = if test e then f e :: es else e :: modifyFirst test f es := rfl

theorem mem_modifyFirst_of_unique {test : α → Bool} {f : α → α} {entries : List α} {e : α}
    (hunique : entries.Pairwise fun a b => test a = true → test b = false)
    (h : e ∈ modifyFirst test f entries) :
    (e ∈ entries ∧ test e = false) ∨ ∃ d ∈ entries, test d = true ∧ e = f d := by
  induction entries with
  | nil => cases h
  | cons d ds ih =>
    obtain ⟨hothers, hunique'⟩ := List.pairwise_cons.mp hunique
    rw [modifyFirst_cons] at h
    split at h
    next htest =>
      rcases List.mem_cons.mp h with rfl | h
      · exact .inr ⟨d, List.mem_cons_self, htest, rfl⟩
      · exact .inl ⟨List.mem_cons_of_mem d h, hothers e h htest⟩
    next htest =>
      rcases List.mem_cons.mp h with rfl | h
      · exact .inl ⟨List.mem_cons_self, Bool.eq_false_iff.mpr htest⟩
      · rcases ih hunique' h with ⟨he, hnot⟩ | ⟨x, hx, hpass, rfl⟩
        · exact .inl ⟨List.mem_cons_of_mem d he, hnot⟩
        · exact .inr ⟨x, List.mem_cons_of_mem d hx, hpass, rfl⟩

theorem mem_modifyFirst {test : α → Bool} {f : α → α} {entries : List α} {e : α}
    (h : e ∈ modifyFirst test f entries) :
    e ∈ entries ∨ ∃ d ∈ entries, test d = true ∧ e = f d := by
  induction entries with
  | nil => cases h
  | cons d ds ih =>
    rw [modifyFirst_cons] at h
    split at h
    next htest =>
      rcases List.mem_cons.mp h with rfl | h
      · exact .inr ⟨d, List.mem_cons_self, htest, rfl⟩
      · exact .inl (List.mem_cons_of_mem d h)
    next =>
      rcases List.mem_cons.mp h with rfl | h
      · exact .inl List.mem_cons_self
      · rcases ih h with h | ⟨x, hx, htest, rfl⟩
        · exact .inl (List.mem_cons_of_mem d h)
        · exact .inr ⟨x, List.mem_cons_of_mem d hx, htest, rfl⟩

theorem mem_modifyFirst_image {test : α → Bool} (f : α → α) {entries : List α} {e : α}
    (h : e ∈ entries) : e ∈ modifyFirst test f entries ∨ f e ∈ modifyFirst test f entries := by
  induction entries with
  | nil => cases h
  | cons d ds ih =>
    rw [modifyFirst_cons]
    rcases List.mem_cons.mp h with rfl | h
    · split
      · exact .inr List.mem_cons_self
      · exact .inl List.mem_cons_self
    · split
      · exact .inl (List.mem_cons_of_mem _ h)
      · exact (ih h).imp (List.mem_cons_of_mem d) (List.mem_cons_of_mem d)

theorem map_mem_modifyFirst {test : α → Bool} (f : α → α) {entries : List α} {e : α}
    (hunique : entries.Pairwise fun a b => test a = true → test b = false) (h : e ∈ entries)
    (htest : test e = true) : f e ∈ modifyFirst test f entries := by
  induction entries with
  | nil => cases h
  | cons d ds ih =>
    obtain ⟨hothers, hunique'⟩ := List.pairwise_cons.mp hunique
    rw [modifyFirst_cons]
    rcases List.mem_cons.mp h with rfl | h
    · rw [if_pos htest]
      exact List.mem_cons_self
    · split
      next hd =>
        rw [hothers e h hd] at htest
        cases htest
      next => exact List.mem_cons_of_mem d (ih hunique' h)

theorem mem_modifyFirst_of_not {test : α → Bool} {f : α → α} {entries : List α} {e : α}
    (h : e ∈ entries) (hnot : test e = false) : e ∈ modifyFirst test f entries := by
  induction entries with
  | nil => cases h
  | cons d ds ih =>
    rw [modifyFirst_cons]
    rcases List.mem_cons.mp h with rfl | h
    · simp [hnot]
    · split
      · exact List.mem_cons_of_mem _ h
      · exact List.mem_cons_of_mem d (ih h)

theorem pairwise_modifyFirst {R : α → α → Prop} {test : α → Bool} {f : α → α} {entries : List α}
    (h : entries.Pairwise R) (hf : ∀ a b, R a b → R (f a) b ∧ R a (f b)) :
    (modifyFirst test f entries).Pairwise R := by
  induction entries with
  | nil => exact .nil
  | cons d ds ih =>
    obtain ⟨hd, hds⟩ := List.pairwise_cons.mp h
    rw [modifyFirst_cons]
    split
    · exact List.pairwise_cons.mpr ⟨fun e he => (hf d e (hd e he)).1, hds⟩
    · refine List.pairwise_cons.mpr ⟨fun e he => ?_, ih hds⟩
      rcases mem_modifyFirst he with he | ⟨x, hx, -, rfl⟩
      · exact hd e he
      · exact (hf d x (hd x hx)).2

end Tonewheel.Pool
