import Mathlib.Data.List.Perm.Basic
import Tonewheel.Proofs.Pcm.Cache

/-!
# Caches as finite maps

A record keeps beside a cache the entries that it has taken since it was last cleared. After any
requests the cache answers as the finite map of these entries does, and only of these: its places
are counts of smaller keys, it takes a buffer exactly at the place where a search misses its key,
and it refuses all others and is not changed by them (`refines_map`). What is checked at an insert
are the two keys beside the index; that the others are in order follows from those before it.
-/

namespace Tonewheel

instance (a b : SoundKey) : Decidable (a.Before b) :=
  inferInstanceAs (Decidable (a.qualifier < b.qualifier ∨ a.qualifier = b.qualifier ∧ a.id < b.id))

theorem SoundKey.Before.asymm {a b : SoundKey} (h : a.Before b) : ¬ b.Before a := fun h' =>
  SoundKey.Before.irrefl (h.trans h')

namespace Cache

/-! ### Places -/

/-- Whether a place may be the answer to a search of entries in order: an index at which the key is,
or one that has all smaller keys before it and all greater ones behind. -/
inductive Locates (entries : List CacheEntry) (key : SoundKey) : CachePlace → Prop where
  | found {i : Nat} {e : CacheEntry} (hentry : entries[i]? = some e) (hkey : e.key = key) :
      Locates entries key (.found i)
  | missing {i : Nat} (hindex : i ≤ entries.length)
      (hbelow : ∀ e ∈ entries.take i, e.key.Before key)
      (habove : ∀ e ∈ entries.drop i, key.Before e.key) : Locates entries key (.missing i)

def smaller (entries : List CacheEntry) (key : SoundKey) : Nat :=
  entries.countP fun e => e.key.Before key

/-- The place of a key among some entries, in whatever order they are. -/
def placeAmong (entries : List CacheEntry) (key : SoundKey) : CachePlace :=
  if key ∈ entries.map CacheEntry.key then .found (smaller entries key)
  else .missing (smaller entries key)

theorem placeAmong_perm {entries others : List CacheEntry} (h : entries.Perm others)
    (key : SoundKey) : placeAmong entries key = placeAmong others key := by
  unfold placeAmong smaller
  rw [h.countP_eq]
  exact if_congr (h.map CacheEntry.key).mem_iff rfl rfl

theorem smaller_of_split {entries : List CacheEntry} {key : SoundKey} {i : Nat}
    (hindex : i ≤ entries.length) (hbelow : ∀ e ∈ entries.take i, e.key.Before key)
    (hrest : ∀ e ∈ entries.drop i, ¬ e.key.Before key) : smaller entries key = i := by
  have hfront : (entries.take i).countP (fun e => e.key.Before key) = i := by
    rw [List.countP_eq_length.mpr fun e he => decide_eq_true (hbelow e he), List.length_take]
    omega
  have hback : (entries.drop i).countP (fun e => e.key.Before key) = 0 :=
    List.countP_eq_zero.mpr fun e he => by simpa using hrest e he
  rw [smaller, ← List.take_append_drop i entries, List.countP_append, hfront, hback,
    Nat.add_zero]

namespace Sorted

variable {c : Cache} {key : SoundKey} (h : c.Sorted)

include h

/-- Entries in order are those before an index, the one at it and those behind. -/
theorem split_at {i : Nat} {e : CacheEntry} (he : c.entries[i]? = some e) :
    (∀ d ∈ c.entries.take i, d.key.Before e.key)
      ∧ ∀ d ∈ c.entries.drop (i + 1), e.key.Before d.key := by
  obtain ⟨hi, rfl⟩ := List.getElem?_eq_some_iff.mp he
  have hsplit : c.entries.take i ++ c.entries[i] :: c.entries.drop (i + 1) = c.entries := by
    rw [← List.drop_eq_getElem_cons hi, List.take_append_drop]
  have hsorted : (c.entries.take i ++ c.entries[i] :: c.entries.drop (i + 1)).Pairwise
      fun a b => a.key.Before b.key := hsplit.symm ▸ h
  obtain ⟨-, hback, hcross⟩ := List.pairwise_append.mp hsorted
  exact ⟨fun d hd => hcross d hd _ List.mem_cons_self, (List.pairwise_cons.mp hback).1⟩

theorem smaller_eq {i : Nat} {e : CacheEntry} (he : c.entries[i]? = some e) :
    smaller c.entries e.key = i := by
  obtain ⟨hi, hget⟩ := List.getElem?_eq_some_iff.mp he
  obtain ⟨hbefore, hbehind⟩ := h.split_at he
  refine smaller_of_split (Nat.le_of_lt hi) hbefore fun d hd => ?_
  rw [List.drop_eq_getElem_cons hi, hget] at hd
  rcases List.mem_cons.mp hd with rfl | hd
  · exact SoundKey.Before.irrefl
  · exact SoundKey.Before.asymm (hbehind d hd)

theorem eq_placeAmong {place : CachePlace} (hplace : Locates c.entries key place) :
    place = placeAmong c.entries key := by
  cases hplace with
  | @found i e hentry hkey =>
    subst hkey
    have hmem : e.key ∈ c.entries.map CacheEntry.key :=
      List.mem_map_of_mem (List.mem_of_getElem? hentry)
    rw [placeAmong, if_pos hmem, h.smaller_eq hentry]
  | @missing i hindex hbelow habove =>
    have hnone : key ∉ c.entries.map CacheEntry.key := by
      intro hmem
      obtain ⟨e, he, rfl⟩ := List.mem_map.mp hmem
      rw [← List.take_append_drop i c.entries] at he
      rcases List.mem_append.mp he with he | he
      · exact SoundKey.Before.irrefl (hbelow e he)
      · exact SoundKey.Before.irrefl (habove e he)
    have hcount := smaller_of_split hindex hbelow fun e he => SoundKey.Before.asymm (habove e he)
    rw [placeAmong, if_neg hnone, hcount]

theorem locates_missing (hnone : c.find? key = none) :
    Locates c.entries key (.missing (countBelow key c.entries)) := by
  refine .missing (List.takeWhile_sublist _).length_le (fun e he => ?_) fun e he => ?_
  · rw [take_countBelow] at he
    exact before_of_mem_below he
  · rw [drop_countBelow] at he
    exact h.before_of_mem_notBelow (h.find?_eq_none.mp hnone) he

theorem locates_search (key : SoundKey) : Locates c.entries key (c.search key) := by
  by_cases hnone : c.find? key = none
  · rw [search_of_none hnone]
    exact h.locates_missing hnone
  · cases hhead : (c.notBelow key).head? with
    | none => exact absurd (find?_of_end hhead) hnone
    | some e =>
      have hsame : e.key = key := by
        by_contra hother
        exact hnone ((find?_of_head hhead).trans (if_neg hother))
      rw [search_of_head hhead, if_pos hsame]
      exact .found ((c.getElem?_countBelow key).trans hhead) hsame

theorem search_eq (key : SoundKey) : c.search key = placeAmong c.entries key :=
  h.eq_placeAmong (h.locates_search key)

theorem locates_iff {place : CachePlace} : Locates c.entries key place ↔ c.search key = place := by
  constructor
  · intro hplace
    rw [h.search_eq, h.eq_placeAmong hplace]
  · rintro rfl
    exact h.locates_search key

/-! ### Inserts -/

/-- The two keys beside an index are enough to know that all keys before it are smaller, and all
behind it greater. -/
theorem locates_of_neighbours {i : Nat} (hindex : i ≤ c.entries.length)
    (hleft : c.followsLeft i key = true) (hright : c.precedesRight i key = true) :
    Locates c.entries key (.missing i) := by
  refine .missing hindex (fun e he => ?_) fun e he => ?_
  · have hpos : i ≠ 0 := by
      rintro rfl
      cases he
    have hlast : i - 1 < c.entries.length := by omega
    have hentry : c.entries[i - 1]? = some c.entries[i - 1] := List.getElem?_eq_getElem hlast
    rw [followsLeft, if_neg hpos, hentry] at hleft
    have hbefore : c.entries[i - 1].key.Before key :=
      (SoundKey.rank_lt _ _).mp (of_decide_eq_true hleft)
    have htake : c.entries.take i = c.entries.take (i - 1) ++ [c.entries[i - 1]] := by
      rw [List.take_append_getElem, Nat.sub_add_cancel (Nat.pos_of_ne_zero hpos)]
    rw [htake] at he
    rcases List.mem_append.mp he with he | he
    · exact ((h.split_at hentry).1 e he).trans hbefore
    · rwa [List.mem_singleton.mp he]
  · have hi : i < c.entries.length := by
      by_contra hend
      rw [List.drop_of_length_le (Nat.not_lt.mp hend)] at he
      cases he
    have hentry : c.entries[i]? = some c.entries[i] := List.getElem?_eq_getElem hi
    rw [Cache.precedesRight, hentry] at hright
    have hafter : key.Before c.entries[i].key :=
      (SoundKey.rank_lt _ _).mp (of_decide_eq_true hright)
    rw [List.drop_eq_getElem_cons hi] at he
    rcases List.mem_cons.mp he with rfl | he
    · exact hafter
    · exact hafter.trans ((h.split_at hentry).2 e he)

theorem insertAt_iff (i : Nat) (key : SoundKey) (pcm : PcmId) :
    (c.insertAt i key pcm).1 = true ↔ c.search key = .missing i := by
  constructor
  · intro htaken
    rw [insertAt] at htaken
    split at htaken
    next hchecks =>
      simp only [Bool.and_eq_true, decide_eq_true_eq] at hchecks
      obtain ⟨⟨hindex, hleft⟩, hright⟩ := hchecks
      exact h.locates_iff.mp (h.locates_of_neighbours hindex hleft hright)
    next => cases htaken
  · intro hmissing
    exact h.insertAt_missing hmissing pcm

/-- A buffer that is taken joins the others, and the keys stay in order. -/
theorem insertAt_taken {i : Nat} {pcm : PcmId} (htaken : (c.insertAt i key pcm).1 = true) :
    (c.insertAt i key pcm).2.Sorted
      ∧ (c.insertAt i key pcm).2.entries.Perm (c.entries ++ [⟨key, pcm⟩]) := by
  have hnone : c.find? key = none := by
    rw [find?, (h.insertAt_iff i key pcm).mp htaken]
  have hindex := (h.insertAt_iff i key pcm).mp htaken
  rw [search_of_none hnone] at hindex
  cases hindex
  have hother := h.find?_eq_none.mp hnone
  rw [h.insertAt_countBelow hother]
  refine ⟨h.insert hother pcm, ?_⟩
  dsimp only
  rw [← c.below_append key, List.append_assoc]
  have hlast : (⟨key, pcm⟩ :: c.notBelow key : List CacheEntry).Perm
      (c.notBelow key ++ [⟨key, pcm⟩]) := (List.perm_append_singleton _ _).symm
  exact hlast.append_left _

theorem get?_eq_some {i : Nat} {pcm : PcmId} :
    c.get? i = some pcm ↔ ∃ key, ⟨key, pcm⟩ ∈ c.entries ∧ smaller c.entries key = i := by
  constructor
  · intro hget
    obtain ⟨e, he, rfl⟩ := Option.map_eq_some_iff.mp hget
    exact ⟨e.key, List.mem_of_getElem? he, h.smaller_eq he⟩
  · rintro ⟨key, hmem, rfl⟩
    obtain ⟨j, hj⟩ := List.getElem?_of_mem hmem
    have hsmaller := h.smaller_eq hj
    dsimp only at hsmaller
    rw [hsmaller, get?, hj]
    rfl

end Sorted

theorem insertAt_refused {c : Cache} {i : Nat} {key : SoundKey} {pcm : PcmId}
    (hrefused : (c.insertAt i key pcm).1 = false) : (c.insertAt i key pcm).2 = c := by
  unfold insertAt at hrefused ⊢
  split
  next hchecks =>
    rw [if_pos hchecks] at hrefused
    cases hrefused
  next => rfl

/-! ### Requests -/

/-- Anything that is asked of a cache. -/
inductive Request where
  | insert (index : Nat) (key : SoundKey) (pcm : PcmId)
  | search (key : SoundKey)
  | find (key : SoundKey)
  | get (index : Nat)
  | clear

inductive Answer where
  | inserted (taken : Bool)
  | place (place : CachePlace)
  | buffer (pcm : Option PcmId)
  | cleared
  deriving Repr, DecidableEq

def answer (c : Cache) : Request → Answer × Cache
  | .insert index key pcm => (.inserted (c.insertAt index key pcm).1, (c.insertAt index key pcm).2)
  | .search key => (.place (c.search key), c)
  | .find key => (.buffer (c.find? key), c)
  | .get index => (.buffer (c.get? index), c)
  | .clear => (.cleared, {})

/-- A cache, and the entries that it has taken since it was last cleared, in order of time. -/
structure Record where
  cache : Cache := {}
  taken : List CacheEntry := []

/-- What a request and its answer tell about the entries that are taken. -/
def noted (taken : List CacheEntry) : Request → Answer → List CacheEntry
  | .insert _ key pcm, .inserted true => taken ++ [⟨key, pcm⟩]
  | .clear, _ => []
  | _, _ => taken

def Record.ask (r : Record) (q : Request) : Record :=
  { cache := (r.cache.answer q).2, taken := noted r.taken q (r.cache.answer q).1 }

/-- Whether a cache holds what it has taken and nothing else, in order. -/
structure Record.Kept (r : Record) : Prop where
  sorted : r.cache.Sorted
  perm : r.cache.entries.Perm r.taken

theorem Record.Kept.ask {r : Record} (h : r.Kept) (q : Request) : (r.ask q).Kept := by
  cases q with
  | insert index key pcm =>
    cases htaken : (r.cache.insertAt index key pcm).1 with
    | true =>
      obtain ⟨hsorted, hperm⟩ := h.sorted.insertAt_taken htaken
      have hnoted : (r.ask (.insert index key pcm)).taken = r.taken ++ [⟨key, pcm⟩] := by
        simp only [Record.ask, answer, htaken, noted]
      exact ⟨hsorted, hnoted ▸ hperm.trans (h.perm.append_right _)⟩
    | false =>
      have hsame : r.ask (.insert index key pcm) = r := by
        simp only [Record.ask, answer, htaken, noted, insertAt_refused htaken]
      exact hsame.symm ▸ h
  | search key => exact h
  | find key => exact h
  | get index => exact h
  | clear => exact ⟨.nil, .nil⟩

theorem Record.Kept.asks {r : Record} (h : r.Kept) (requests : List Request) :
    (requests.foldl Record.ask r).Kept := by
  induction requests generalizing r with
  | nil => exact h
  | cons q requests ih => exact ih (h.ask q)

/-! ### The map -/

/-- What a cache that has taken some entries since it was last cleared answers. -/
structure Maps (c : Cache) (taken : List CacheEntry) : Prop where
  increasing : c.entries.Pairwise fun a b => a.key.Before b.key
  once : (taken.map CacheEntry.key).Nodup
  search : ∀ key, c.search key = placeAmong taken key
  /-- Any search that keeps to what a search of entries in order promises gives the same. -/
  searches : ∀ key place, Locates c.entries key place ↔ c.search key = place
  find : ∀ key pcm, c.find? key = some pcm ↔ ⟨key, pcm⟩ ∈ taken
  get : ∀ i pcm, c.get? i = some pcm ↔ ∃ key, ⟨key, pcm⟩ ∈ taken ∧ smaller taken key = i
  insert : ∀ i key pcm, (c.insertAt i key pcm).1 = true ↔ c.search key = .missing i
  refuse : ∀ i key pcm, (c.insertAt i key pcm).1 = false → (c.insertAt i key pcm).2 = c

theorem Record.Kept.maps {r : Record} (h : r.Kept) : r.cache.Maps r.taken where
  increasing := h.sorted
  once := (h.perm.map CacheEntry.key).nodup_iff.mp h.sorted.nodup
  search key := (h.sorted.search_eq key).trans (placeAmong_perm h.perm key)
  searches key place := h.sorted.locates_iff
  find key pcm := h.sorted.find?_eq_some.trans h.perm.mem_iff
  get i pcm := by
    rw [h.sorted.get?_eq_some]
    refine exists_congr fun key => and_congr h.perm.mem_iff ?_
    rw [smaller, h.perm.countP_eq]
    rfl
  insert i key pcm := h.sorted.insertAt_iff i key pcm
  refuse i key pcm := insertAt_refused

/-- After any requests a cache is the finite map of what it has taken since it was last cleared. -/
theorem refines_map (requests : List Request) :
    let r : Record := requests.foldl Record.ask {}
    r.cache.Maps r.taken := by
  have hstart : Record.Kept {} := ⟨.nil, .nil⟩
  exact (hstart.asks requests).maps

/-- An index that would break the order is refused, also where one of the two keys beside it is the
same. -/
example :
    let r : Record := [.insert 0 ⟨0, 5⟩ ⟨0⟩, .insert 0 ⟨0, 9⟩ ⟨1⟩, .insert 1 ⟨0, 5⟩ ⟨2⟩,
      .insert 1 ⟨1, 1⟩ ⟨3⟩, .insert 0 ⟨0, 2⟩ ⟨4⟩, .insert 7 ⟨2, 0⟩ ⟨5⟩].foldl Record.ask {}
    r.taken = [⟨⟨0, 5⟩, ⟨0⟩⟩, ⟨⟨1, 1⟩, ⟨3⟩⟩, ⟨⟨0, 2⟩, ⟨4⟩⟩]
      ∧ r.cache.search ⟨0, 5⟩ = .found 1 ∧ r.cache.search ⟨0, 9⟩ = .missing 2 := by
  decide

end Cache

end Tonewheel
