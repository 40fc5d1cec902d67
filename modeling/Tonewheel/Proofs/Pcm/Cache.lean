import Mathlib.Data.List.TakeWhile
import Tonewheel.Pcm.Cache

/-!
# Caches in order

The entries of a cache are in strictly increasing order of their keys (`Cache.Sorted`). A search
splits them into those below a key and the rest, so it finds a key just when an entry has it
(`Cache.find?_eq_some`), and a buffer that is put where a search missed its key is always taken and
keeps the order (`Cache.insertAt_missing`).
-/

namespace Tonewheel

/-! ### The order of keys -/

def SoundKey.Before (a b : SoundKey) : Prop :=
  a.qualifier < b.qualifier ∨ a.qualifier = b.qualifier ∧ a.id < b.id

namespace SoundKey

theorem rank_lt (a b : SoundKey) : a.rank < b.rank ↔ a.Before b := by
  have ha := a.id.toNat_lt
  have hb := b.id.toNat_lt
  unfold Before
  rw [UInt16.lt_iff_toNat_lt, UInt16.lt_iff_toNat_lt, ← UInt16.toNat_inj, rank, rank]
  omega

theorem Before.trans {a b c : SoundKey} (hab : a.Before b) (hbc : b.Before c) : a.Before c := by
  rw [← rank_lt] at hab hbc ⊢
  omega

theorem Before.irrefl {a : SoundKey} : ¬ a.Before a := by
  rw [← rank_lt]
  omega

theorem eq_of_rank {a b : SoundKey} (h : a.rank = b.rank) : a = b := by
  have ha := a.id.toNat_lt
  have hb := b.id.toNat_lt
  obtain ⟨qualifier, id⟩ := a
  obtain ⟨qualifier', id'⟩ := b
  dsimp only [rank] at h ha hb
  have hqualifier : qualifier = qualifier' := UInt16.toNat_inj.mp (by omega)
  have hid : id = id' := UInt16.toNat_inj.mp (by omega)
  rw [hqualifier, hid]

end SoundKey

namespace Cache

def Sorted (c : Cache) : Prop := c.entries.Pairwise fun a b => a.key.Before b.key

/-- Whether a cache has all entries of another one. -/
def Extends (c more : Cache) : Prop := ∀ e ∈ c.entries, e ∈ more.entries

/-! ### Searching -/

def below (c : Cache) (key : SoundKey) : List CacheEntry :=
  c.entries.takeWhile fun e => e.key.rank < key.rank

def notBelow (c : Cache) (key : SoundKey) : List CacheEntry :=
  c.entries.dropWhile fun e => e.key.rank < key.rank

section

variable {c : Cache} {key : SoundKey}

theorem below_append (c : Cache) (key : SoundKey) :
    c.below key ++ c.notBelow key = c.entries :=
  List.takeWhile_append_dropWhile

theorem take_countBelow (c : Cache) (key : SoundKey) :
    c.entries.take (countBelow key c.entries) = c.below key := by
  have htake : (c.below key ++ c.notBelow key).take (c.below key).length = c.below key :=
    List.take_left
  rwa [below_append] at htake

theorem drop_countBelow (c : Cache) (key : SoundKey) :
    c.entries.drop (countBelow key c.entries) = c.notBelow key := by
  have hdrop : (c.below key ++ c.notBelow key).drop (c.below key).length = c.notBelow key :=
    List.drop_left
  rwa [below_append] at hdrop

theorem before_of_mem_below {e : CacheEntry} (h : e ∈ c.below key) : e.key.Before key :=
  (e.key.rank_lt key).mp
    (of_decide_eq_true
      (List.mem_takeWhile_imp (p := fun e : CacheEntry => decide (e.key.rank < key.rank)) h))

theorem getElem?_countBelow (c : Cache) (key : SoundKey) :
    c.entries[countBelow key c.entries]? = (c.notBelow key).head? := by
  rw [← drop_countBelow, List.head?_drop]

theorem not_before_of_head {e : CacheEntry} (h : (c.notBelow key).head? = some e) :
    ¬ e.key.Before key := by
  have hfails := List.head?_dropWhile_not (fun e : CacheEntry => e.key.rank < key.rank) c.entries
  rw [← notBelow, h] at hfails
  rw [← SoundKey.rank_lt]
  exact of_decide_eq_false hfails

theorem search_of_head {e : CacheEntry} (h : (c.notBelow key).head? = some e) :
    c.search key = if e.key = key then .found (countBelow key c.entries)
      else .missing (countBelow key c.entries) := by
  rw [search, getElem?_countBelow, h]

theorem search_of_end (h : (c.notBelow key).head? = none) :
    c.search key = .missing (countBelow key c.entries) := by
  rw [search, getElem?_countBelow, h]

theorem find?_of_head {e : CacheEntry} (h : (c.notBelow key).head? = some e) :
    c.find? key = if e.key = key then some e.pcm else none := by
  rw [find?, search_of_head h]
  by_cases hsame : e.key = key
  · rw [if_pos hsame, if_pos hsame]
    dsimp only
    rw [get?, getElem?_countBelow, h]
    rfl
  · rw [if_neg hsame, if_neg hsame]

theorem find?_of_end (h : (c.notBelow key).head? = none) : c.find? key = none := by
  rw [find?, search_of_end h]

theorem search_of_none (hnone : c.find? key = none) :
    c.search key = .missing (countBelow key c.entries) := by
  cases hhead : (c.notBelow key).head? with
  | none => exact search_of_end hhead
  | some e =>
    rw [find?_of_head hhead] at hnone
    rw [search_of_head hhead]
    by_cases hsame : e.key = key
    · rw [if_pos hsame] at hnone
      cases hnone
    · exact if_neg hsame

theorem followsLeft_countBelow (c : Cache) (key : SoundKey) :
    c.followsLeft (countBelow key c.entries) key = true := by
  rw [followsLeft]
  split
  next => rfl
  next hsome =>
    have hlast : c.entries[countBelow key c.entries - 1]?
        = (c.below key)[countBelow key c.entries - 1]? := by
      rw [← take_countBelow, List.getElem?_take_of_lt (by omega)]
    rw [hlast]
    split
    next e he =>
      have hbelow : e.key.Before key := before_of_mem_below (List.mem_of_getElem? he)
      exact decide_eq_true ((SoundKey.rank_lt _ _).mpr hbelow)
    next => rfl

end

/-! ### Caches that are sorted -/

namespace Sorted

variable {c : Cache} {key : SoundKey} (h : c.Sorted)

include h

/-- Entries after the first that is not below a key are above it. -/
theorem before_of_mem_tail {first e : CacheEntry} {more : List CacheEntry}
    (hrest : c.notBelow key = first :: more) (he : e ∈ more) : key.Before e.key := by
  have hsorted : (c.notBelow key).Pairwise fun a b => a.key.Before b.key :=
    h.sublist (List.dropWhile_sublist _)
  have hhead : (c.notBelow key).head? = some first := by rw [hrest]; rfl
  rw [hrest] at hsorted
  have hbefore := List.rel_of_pairwise_cons hsorted he
  have hfirst := not_before_of_head hhead
  rw [← SoundKey.rank_lt] at hbefore hfirst ⊢
  omega

theorem find?_eq_some {pcm : PcmId} : c.find? key = some pcm ↔ ⟨key, pcm⟩ ∈ c.entries := by
  have hsplit : ⟨key, pcm⟩ ∈ c.entries ↔ ⟨key, pcm⟩ ∈ c.notBelow key := by
    rw [← c.below_append key, List.mem_append]
    constructor
    · rintro (hbelow | hrest)
      · have hself := before_of_mem_below hbelow
        rw [← SoundKey.rank_lt] at hself
        exact absurd hself (Nat.lt_irrefl _)
      · exact hrest
    · exact .inr
  rw [hsplit]
  cases hrest : c.notBelow key with
  | nil =>
    have hhead : (c.notBelow key).head? = none := by rw [hrest]; rfl
    simp [find?_of_end hhead]
  | cons first more =>
    rw [find?_of_head (by rw [hrest]; rfl), List.mem_cons]
    constructor
    · intro hfound
      split at hfound
      next hsame =>
        cases hfound
        exact .inl (by rw [← hsame])
      next => cases hfound
    · rintro (rfl | hmore)
      · exact if_pos rfl
      · exact absurd (h.before_of_mem_tail hrest hmore) SoundKey.Before.irrefl

theorem find?_eq_none : c.find? key = none ↔ ∀ e ∈ c.entries, e.key ≠ key := by
  constructor
  · rintro hnone e he rfl
    have hfound := h.find?_eq_some.mpr he
    rw [hnone] at hfound
    cases hfound
  · intro hother
    cases hfind : c.find? key with
    | none => rfl
    | some pcm => exact absurd rfl (hother _ (h.find?_eq_some.mp hfind))

theorem nodup : (c.entries.map CacheEntry.key).Nodup := by
  refine List.pairwise_map.mpr (h.imp fun hbefore hsame => ?_)
  rw [hsame] at hbefore
  exact SoundKey.Before.irrefl hbefore

theorem before_of_mem_notBelow (hother : ∀ e ∈ c.entries, e.key ≠ key) {e : CacheEntry}
    (he : e ∈ c.notBelow key) : key.Before e.key := by
  cases hrest : c.notBelow key with
  | nil =>
    rw [hrest] at he
    cases he
  | cons first more =>
    rw [hrest] at he
    rcases List.mem_cons.mp he with rfl | hmore
    · have hhead : (c.notBelow key).head? = some e := by rw [hrest]; rfl
      have hfirst := not_before_of_head hhead
      have hne : e.key.rank ≠ key.rank := fun hsame => by
        refine hother e ?_ (SoundKey.eq_of_rank hsame)
        rw [← c.below_append key, hrest]
        exact List.mem_append_right _ List.mem_cons_self
      rw [← SoundKey.rank_lt] at hfirst ⊢
      omega
    · exact h.before_of_mem_tail hrest hmore

/-! ### Inserting -/

theorem insert (hother : ∀ e ∈ c.entries, e.key ≠ key) (pcm : PcmId) :
    Sorted ⟨c.below key ++ ⟨key, pcm⟩ :: c.notBelow key⟩ := by
  have habove : ∀ e ∈ c.notBelow key, key.Before e.key := fun e he =>
    h.before_of_mem_notBelow hother he
  refine List.pairwise_append.mpr ⟨h.sublist (List.takeWhile_sublist _),
    List.pairwise_cons.mpr ⟨habove, h.sublist (List.dropWhile_sublist _)⟩, fun a ha b hb => ?_⟩
  have hbelow : a.key.Before key := before_of_mem_below ha
  rcases List.mem_cons.mp hb with rfl | hb
  · exact hbelow
  · exact hbelow.trans (habove b hb)

theorem precedesRight (hother : ∀ e ∈ c.entries, e.key ≠ key) :
    c.precedesRight (countBelow key c.entries) key = true := by
  rw [Cache.precedesRight, getElem?_countBelow]
  cases hhead : (c.notBelow key).head? with
  | none => rfl
  | some e =>
    have hafter := h.before_of_mem_notBelow hother (List.mem_of_mem_head? hhead)
    exact decide_eq_true ((SoundKey.rank_lt _ _).mpr hafter)

theorem insertAt_countBelow (hother : ∀ e ∈ c.entries, e.key ≠ key) (pcm : PcmId) :
    c.insertAt (countBelow key c.entries) key pcm
      = (true, ⟨c.below key ++ ⟨key, pcm⟩ :: c.notBelow key⟩) := by
  have hlength : countBelow key c.entries ≤ c.entries.length :=
    (List.takeWhile_sublist _).length_le
  rw [insertAt, followsLeft_countBelow, h.precedesRight hother, decide_eq_true hlength,
    take_countBelow, drop_countBelow]
  rfl

/-- A buffer is taken where a search missed its key. -/
theorem insertAt_missing {index : Nat} (hmissing : c.search key = .missing index) (pcm : PcmId) :
    (c.insertAt index key pcm).1 = true := by
  have hnone : c.find? key = none := by rw [find?, hmissing]
  have hindex := search_of_none hnone
  rw [hmissing] at hindex
  cases hindex
  rw [h.insertAt_countBelow (h.find?_eq_none.mp hnone)]

theorem add_missing (hnone : c.find? key = none) (pcm : PcmId) :
    (c.add key pcm).Sorted ∧ c.Extends (c.add key pcm) ∧ ⟨key, pcm⟩ ∈ (c.add key pcm).entries := by
  have hother := h.find?_eq_none.mp hnone
  have hadd : c.add key pcm = ⟨c.below key ++ ⟨key, pcm⟩ :: c.notBelow key⟩ := by
    rw [add, search_of_none hnone]
    exact congrArg Prod.snd (h.insertAt_countBelow hother pcm)
  rw [hadd]
  refine ⟨h.insert hother pcm, fun e he => ?_, List.mem_append_right _ List.mem_cons_self⟩
  rw [← c.below_append key] at he
  rcases List.mem_append.mp he with he | he
  · exact List.mem_append_left _ he
  · exact List.mem_append_right _ (List.mem_cons_of_mem _ he)

end Sorted

end Cache

end Tonewheel
