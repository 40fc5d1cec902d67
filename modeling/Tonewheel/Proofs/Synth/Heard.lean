import Tonewheel.Proofs.Pool
import Tonewheel.Proofs.Sounding.Parts
import Tonewheel.Synth.Render

/-!
# What is heard of a pool

What a pool adds to the output are its live entries in their order, whatever finished ones stand
between them and whenever they began. `Pool.heard` leaves just that, with the dates of entries
settled: those up to some frame stay, and all later ones become one. Rendering goes by what is heard
(`heard_renderVoices`, `heard_renderRacks`), and so does an insert as long as the pool has room or is
full of live entries of which one is older than that frame (`heard_place`).
-/

namespace Tonewheel

namespace Pool

variable {α : Type} [PoolEntry α]

def heard (settle : α → α) (entries : List α) : List α :=
  (entries.map settle).filter fun e => !PoolEntry.isDefunct e

variable {settle : α → α}

theorem heard_append (xs ys : List α) :
    heard settle (xs ++ ys) = heard settle xs ++ heard settle ys := by
  rw [heard, List.map_append, List.filter_append]
  rfl

theorem heard_cons (e : α) (entries : List α) :
    heard settle (e :: entries)
      = if PoolEntry.isDefunct (settle e) then heard settle entries
        else settle e :: heard settle entries := by
  rw [heard, List.map_cons, List.filter_cons]
  cases PoolEntry.isDefunct (settle e) <;> rfl

theorem heard_eq_map_iff {entries : List α} :
    heard settle entries = entries.map settle
      ↔ ∀ e ∈ entries, PoolEntry.isDefunct (settle e) = false := by
  rw [heard, List.filter_eq_self]
  simp

theorem heard_eq_map_of_length {entries : List α}
    (h : entries.length ≤ (heard settle entries).length) :
    heard settle entries = entries.map settle := by
  refine List.filter_sublist.eq_of_length_le ?_
  rw [List.length_map]
  exact h

/-- A change that leaves alone who is finished changes what is heard entry by entry. -/
theorem heard_map {g : α → α} (hcomm : ∀ e, settle (g e) = g (settle e))
    (hover : ∀ e, PoolEntry.isDefunct (g e) = PoolEntry.isDefunct e) (entries : List α) :
    heard settle (entries.map g) = (heard settle entries).map g := by
  have hmap : (entries.map g).map settle = (entries.map settle).map g := by
    rw [List.map_map, List.map_map]
    exact List.map_congr_left fun e _ => hcomm e
  have hlive : ((fun e => !PoolEntry.isDefunct e) ∘ g : α → Bool)
      = fun e => !PoolEntry.isDefunct e :=
    funext fun e => congrArg (!·) (hover e)
  rw [heard, hmap, List.filter_map, hlive]
  rfl

/-- A change of the first entry that passes a test of live entries is one of what is heard. -/
theorem heard_modifyFirst {test : α → Bool} {g g' : α → α}
    (hover : ∀ e, PoolEntry.isDefunct (g' e) = PoolEntry.isDefunct e)
    (htest : ∀ e, test (settle e) = test e)
    (hlive : ∀ e, test e = true → PoolEntry.isDefunct (settle e) = false) {entries : List α}
    (hcomm : ∀ e ∈ entries, test e = true → settle (g e) = g' (settle e)) :
    heard settle (modifyFirst test g entries) = modifyFirst test g' (heard settle entries) := by
  induction entries with
  | nil => rfl
  | cons e es ih =>
    rw [modifyFirst]
    split
    next hpass =>
      have hnow := hlive e hpass
      rw [heard_cons, hcomm e List.mem_cons_self hpass, hover, hnow, heard_cons, hnow,
        if_neg Bool.false_ne_true, if_neg Bool.false_ne_true, modifyFirst, htest, if_pos hpass]
    next hpass =>
      rw [heard_cons, heard_cons, ih fun d hd => hcomm d (List.mem_cons_of_mem e hd)]
      split
      · rfl
      · rw [modifyFirst, htest, if_neg hpass]

theorem any_heard {test : α → Bool} (htest : ∀ e, test (settle e) = test e)
    (hlive : ∀ e, test e = true → PoolEntry.isDefunct (settle e) = false) (entries : List α) :
    (heard settle entries).any test = entries.any test := by
  induction entries with
  | nil => rfl
  | cons e es ih =>
    rw [heard_cons, List.any_cons]
    split
    next hover =>
      have hnot : test e = false := by
        refine Bool.eq_false_iff.mpr fun hpass => ?_
        rw [hlive e hpass] at hover
        cases hover
      rw [ih, hnot, Bool.false_or]
    next => rw [List.any_cons, ih, htest]

theorem heard_trimDefunct (hover : ∀ e, PoolEntry.isDefunct (settle e) = PoolEntry.isDefunct e)
    (entries : List α) : heard settle (trimDefunct entries) = heard settle entries := by
  obtain ⟨rest, hsplit, hdropped⟩ := exists_trimDefunct_append entries
  have hrest : heard settle rest = [] := by
    refine List.filter_eq_nil_iff.mpr fun e he => ?_
    obtain ⟨d, hd, rfl⟩ := List.mem_map.mp he
    rw [hover, hdropped d hd]
    decide
  conv_rhs => rw [hsplit, heard_append, hrest, List.append_nil]

/-! ### Inserting -/

/-- Whether an insert has room at the end of a list, or a list full of live entries to choose from
of which the same one is chosen in any list that looks the same. -/
def Settled (settle : α → α) (capacity : Nat) (entries : List α) : Prop :=
  entries.length < capacity
    ∨ (∀ e ∈ entries, PoolEntry.isDefunct e = false)
      ∧ ∀ others : List α, others.map settle = entries.map settle →
        victim others = victim entries

theorem heard_place (hover : ∀ e, PoolEntry.isDefunct (settle e) = PoolEntry.isDefunct e)
    {capacity : Nat} {xs ys : List α} {x y : α} (hroom : Settled settle capacity xs)
    (hsame : heard settle xs = heard settle ys) (hfewer : ys.length ≤ xs.length)
    (hnew : settle x = settle y) :
    heard settle (place capacity xs x).2 = heard settle (place capacity ys y).2
      ∧ (place capacity ys y).2.length ≤ (place capacity xs x).2.length := by
  rcases hroom with hroom | ⟨hlive, hvictim⟩
  · have hend : heard settle [x] = heard settle [y] := by rw [heard_cons, heard_cons, hnew]
    rw [place, if_pos hroom, place, if_pos (Nat.lt_of_le_of_lt hfewer hroom)]
    refine ⟨?_, ?_⟩
    · rw [heard_append, heard_append, hsame, hend]
    · rw [List.length_append, List.length_append]
      exact Nat.add_le_add_right hfewer 1
  · -- All entries are live, so the lists look the same slot by slot.
    have hxs : heard settle xs = xs.map settle :=
      heard_eq_map_iff.mpr fun e he => (hover e).trans (hlive e he)
    have hlength : (heard settle ys).length = xs.length := by rw [← hsame, hxs, List.length_map]
    have hys : heard settle ys = ys.map settle := heard_eq_map_of_length (by omega)
    have hlook : ys.map settle = xs.map settle := by rw [← hys, ← hsame, hxs]
    have hsize : ys.length = xs.length := by
      rw [← hlength, hys, List.length_map]
    have hplace : (place capacity ys y).2.map settle = (place capacity xs x).2.map settle := by
      rw [place, place, hsize, hvictim ys hlook]
      split
      · rw [List.map_append, List.map_append, hlook, List.map_singleton, List.map_singleton, hnew]
      · split
        · rw [List.map_set, List.map_set, hlook, hnew]
        · exact hlook
    refine ⟨congrArg (List.filter fun e => !PoolEntry.isDefunct e) hplace.symm, ?_⟩
    have hcount := congrArg List.length hplace
    rw [List.length_map, List.length_map] at hcount
    exact Nat.le_of_eq hcount

/-! ### Dates -/

/-- Whether settling leaves alone who is finished and keeps the dates up to `since`, all later ones
becoming one. -/
structure Dated (settle : α → α) (date : α → Nat) (since : Nat) : Prop where
  finished : ∀ e, PoolEntry.isDefunct (settle e) = PoolEntry.isDefunct e
  older : ∀ e d, PoolEntry.isOlder e d = decide (date e < date d)
  settled : ∀ e, date (settle e) = min (date e) (since + 1)

namespace Dated

variable {date : α → Nat} {since : Nat}

/-- Once the oldest entry so far is an old one, settling changes nothing. -/
theorem oldestFrom_old (h : Dated settle date since) {best : α} (hbest : date best ≤ since)
    (bestSlot slot : Nat) (entries : List α) :
    oldestFrom bestSlot (settle best) slot (entries.map settle)
      = oldestFrom bestSlot best slot entries := by
  induction entries generalizing bestSlot best slot with
  | nil => rfl
  | cons e es ih =>
    have hsame : PoolEntry.isOlder (settle e) (settle best) = PoolEntry.isOlder e best := by
      rw [h.older, h.older, h.settled, h.settled]
      exact decide_eq_decide.mpr (by omega)
    rw [List.map_cons, oldestFrom, oldestFrom, hsame]
    split
    next holder =>
      rw [h.older, decide_eq_true_eq] at holder
      exact ih (by omega) slot (slot + 1)
    next => exact ih hbest bestSlot (slot + 1)

/-- Before the first old entry the oldest so far may differ, as settled dates are one. -/
theorem oldestFrom_new (h : Dated settle date since) {best best' : α} (hbest : since < date best)
    (hbest' : since < date best') (bestSlot bestSlot' slot : Nat) {entries : List α}
    (hold : ∃ e ∈ entries, date e ≤ since) :
    oldestFrom bestSlot' (settle best') slot (entries.map settle)
      = oldestFrom bestSlot best slot entries := by
  induction entries generalizing bestSlot best slot with
  | nil =>
    obtain ⟨e, he, -⟩ := hold
    cases he
  | cons e es ih =>
    rw [List.map_cons, oldestFrom, oldestFrom, h.older, h.older, h.settled, h.settled]
    by_cases he : date e ≤ since
    · rw [if_pos (decide_eq_true (by omega)), if_pos (decide_eq_true (by omega))]
      exact h.oldestFrom_old he slot (slot + 1) es
    · have hrest : ∃ d ∈ es, date d ≤ since := by
        obtain ⟨d, hd, hdold⟩ := hold
        rcases List.mem_cons.mp hd with rfl | hd
        · exact absurd hdold he
        · exact ⟨d, hd, hdold⟩
      rw [if_neg (by rw [decide_eq_true_eq]; omega)]
      split
      · exact ih (by omega) slot (slot + 1) hrest
      · exact ih hbest bestSlot (slot + 1) hrest

theorem oldest (h : Dated settle date since) {entries : List α}
    (hold : ∃ e ∈ entries, date e ≤ since) : oldest (entries.map settle) = Pool.oldest entries := by
  cases entries with
  | nil => rfl
  | cons e es =>
    rw [List.map_cons, Pool.oldest, Pool.oldest]
    by_cases he : date e ≤ since
    · rw [h.oldestFrom_old he]
    · have hrest : ∃ d ∈ es, date d ≤ since := by
        obtain ⟨d, hd, hdold⟩ := hold
        rcases List.mem_cons.mp hd with rfl | hd
        · exact absurd hdold he
        · exact ⟨d, hd, hdold⟩
      rw [h.oldestFrom_new (Nat.lt_of_not_le he) (Nat.lt_of_not_le he) 0 0 1 hrest]

/-- The entry that an insert replaces is the same after settling, if one is finished or old. -/
theorem victim (h : Dated settle date since) {entries : List α}
    (hchoice : (∃ e ∈ entries, PoolEntry.isDefunct e = true) ∨ ∃ e ∈ entries, date e ≤ since) :
    victim (entries.map settle) = Pool.victim entries := by
  have hfind : (entries.map settle).findIdx? PoolEntry.isDefunct
      = entries.findIdx? PoolEntry.isDefunct := by
    rw [List.findIdx?_map]
    exact congrArg (entries.findIdx? ·) (funext h.finished)
  rw [Pool.victim, Pool.victim, hfind]
  split
  next => rfl
  next hnone =>
    rcases hchoice with ⟨e, he, hfinished⟩ | hold
    · rw [List.findIdx?_eq_none_iff.mp hnone e he] at hfinished
      cases hfinished
    · exact h.oldest hold

theorem victim_same (h : Dated settle date since) {xs ys : List α}
    (hchoice : (∃ e ∈ xs, PoolEntry.isDefunct e = true) ∨ ∃ e ∈ xs, date e ≤ since)
    (hlook : ys.map settle = xs.map settle) : Pool.victim ys = Pool.victim xs := by
  have hmem : ∀ e ∈ xs, ∃ d ∈ ys, settle d = settle e := fun e he => by
    have he' := List.mem_map_of_mem (f := settle) he
    rw [← hlook] at he'
    exact List.mem_map.mp he'
  have hchoice' : (∃ e ∈ ys, PoolEntry.isDefunct e = true) ∨ ∃ e ∈ ys, date e ≤ since := by
    refine hchoice.imp ?_ ?_
    · rintro ⟨e, he, hfinished⟩
      obtain ⟨d, hd, hsame⟩ := hmem e he
      exact ⟨d, hd, by rw [← h.finished, hsame, h.finished, hfinished]⟩
    · rintro ⟨e, he, hold⟩
      obtain ⟨d, hd, hsame⟩ := hmem e he
      have hdates := congrArg date hsame
      rw [h.settled, h.settled] at hdates
      exact ⟨d, hd, by omega⟩
  rw [← h.victim hchoice, ← hlook, h.victim hchoice']

theorem settledList (h : Dated settle date since) {capacity : Nat} {entries : List α}
    (hroom : entries.length < capacity
      ∨ (∀ e ∈ entries, PoolEntry.isDefunct e = false) ∧ ∃ e ∈ entries, date e ≤ since) :
    Settled settle capacity entries :=
  hroom.imp_right fun ⟨hlive, hold⟩ => ⟨hlive, fun _ hlook => h.victim_same (.inr hold) hlook⟩

end Dated

/-! ### Pools that sound alike -/

omit [PoolEntry α] in
theorem length_modifyFirst (test : α → Bool) (g : α → α) (entries : List α) :
    (modifyFirst test g entries).length = entries.length := by
  induction entries with
  | nil => rfl
  | cons e es ih =>
    rw [modifyFirst]
    split
    · rfl
    · rw [List.length_cons, ih, List.length_cons]

/-- Whether the same is heard of two pools, the second of which may have dropped more entries. -/
structure Alike (settle : α → α) (p q : Pool α) : Prop where
  capacity : p.capacity = q.capacity
  heard : heard settle p.entries = Pool.heard settle q.entries
  fewer : q.entries.length ≤ p.entries.length

namespace Alike

variable {p q : Pool α}

theorem refl (settle : α → α) (p : Pool α) : Alike settle p p := ⟨rfl, rfl, Nat.le_refl _⟩

theorem insert (h : Alike settle p q)
    (hover : ∀ e, PoolEntry.isDefunct (settle e) = PoolEntry.isDefunct e)
    (hroom : Settled settle p.capacity p.entries) {x y : α} (hnew : settle x = settle y) :
    Alike settle (p.insert x).2 (q.insert y).2 := by
  obtain ⟨hheard, hfewer⟩ := heard_place hover hroom h.heard h.fewer hnew
  rw [h.capacity] at hheard hfewer
  refine ⟨h.capacity, ?_, ?_⟩
  · rw [Pool.insert, Pool.insert, h.capacity]
    exact hheard
  · rw [Pool.insert, Pool.insert, h.capacity]
    exact hfewer

theorem map (h : Alike settle p q) {g : α → α} (hcomm : ∀ e, settle (g e) = g (settle e))
    (hover : ∀ e, PoolEntry.isDefunct (g e) = PoolEntry.isDefunct e) :
    Alike settle (p.map g) (q.map g) where
  capacity := h.capacity
  heard := by rw [Pool.map, Pool.map, heard_map hcomm hover, heard_map hcomm hover, h.heard]
  fewer := by
    rw [Pool.map, Pool.map, List.length_map, List.length_map]
    exact h.fewer

theorem update (h : Alike settle p q) {test : α → Bool} {g g' g'' : α → α}
    (hover : ∀ e, PoolEntry.isDefunct (g'' e) = PoolEntry.isDefunct e)
    (htest : ∀ e, test (settle e) = test e)
    (hlive : ∀ e, test e = true → PoolEntry.isDefunct (settle e) = false)
    (hp : ∀ e ∈ p.entries, test e = true → settle (g e) = g'' (settle e))
    (hq : ∀ e ∈ q.entries, test e = true → settle (g' e) = g'' (settle e)) :
    Alike settle (p.update test g) (q.update test g') where
  capacity := h.capacity
  heard := by
    rw [Pool.update, Pool.update, heard_modifyFirst hover htest hlive hp,
      heard_modifyFirst hover htest hlive hq, h.heard]
  fewer := by
    rw [Pool.update, Pool.update, length_modifyFirst, length_modifyFirst]
    exact h.fewer

theorem reap (h : Alike settle p q)
    (hover : ∀ e, PoolEntry.isDefunct (settle e) = PoolEntry.isDefunct e) :
    Alike settle p q.reap where
  capacity := h.capacity
  heard := by rw [Pool.reap, heard_trimDefunct hover, h.heard]
  fewer := by
    have hshorter := trimDefunct_prefix q.entries
    exact Nat.le_trans hshorter.length_le h.fewer

theorem mem (h : Alike settle p q) {e : α} (he : e ∈ q.entries)
    (hlive : PoolEntry.isDefunct (settle e) = false) : ∃ d ∈ p.entries, settle d = settle e := by
  have hheard : settle e ∈ Pool.heard settle q.entries :=
    List.mem_filter.mpr ⟨List.mem_map_of_mem he, by rw [hlive]; rfl⟩
  rw [← h.heard] at hheard
  exact List.mem_map.mp (List.mem_filter.mp hheard).1

end Alike

end Pool

/-! ### Settled voices and racks -/

/-- A date as it can be told from those up to `since`: all later ones are one. -/
def settleDate (since born : Nat) : Nat := min born (since + 1)

def Voice.settle (since : Nat) (v : Voice) : Voice := { v with born := settleDate since v.born }

def EffectVoice.settle (since : Nat) (v : EffectVoice) : EffectVoice :=
  { v with born := settleDate since v.born }

def Rack.settle (since : Nat) (r : Rack) : Rack :=
  { r with born := settleDate since r.born, voices := r.voices.map (EffectVoice.settle since) }

theorem settleDate_late {since born : Nat} (h : since < born) : settleDate since born = since + 1 :=
  Nat.min_eq_right h

theorem Voice.dated (since : Nat) : Pool.Dated (Voice.settle since) Voice.born since :=
  ⟨fun _ => rfl, fun _ _ => rfl, fun _ => rfl⟩

theorem EffectVoice.dated (since : Nat) :
    Pool.Dated (EffectVoice.settle since) EffectVoice.born since :=
  ⟨fun _ => rfl, fun _ _ => rfl, fun _ => rfl⟩

theorem Rack.dated (since : Nat) : Pool.Dated (Rack.settle since) Rack.born since :=
  ⟨fun _ => rfl, fun _ _ => rfl, fun _ => rfl⟩

theorem Voice.render_settle (sine : Wave) (since : Nat) (v : Voice) (noise : Noise) (n : Nat) :
    Voice.render sine (v.settle since) noise n
      = ((Voice.render sine v noise n).1, (Voice.render sine v noise n).2.1.settle since,
          (Voice.render sine v noise n).2.2) := by
  unfold Voice.render
  by_cases hover : v.isDefunct
  · rw [if_pos hover, if_pos (show (v.settle since).isDefunct = true from hover)]
  · rw [if_neg hover, if_neg (show ¬(v.settle since).isDefunct = true from hover)]
    rfl

/-- A step that goes on the same beside a change of its state does so over a block. -/
theorem Block.scan_settle {σ : Type} {step : σ → Float32 → Float32 × σ} {settle : σ → σ}
    (h : ∀ s x, step (settle s) x = ((step s x).1, settle (step s x).2)) (s : σ) (block : Block) :
    scan step (settle s) block = ((scan step s block).1, settle (scan step s block).2) := by
  induction block using Block.front_induction generalizing s with
  | empty => rfl
  | front x rest ih => rw [Block.scan_front, Block.scan_front, h, ih]

namespace Rack

theorem renderVoices_settle (since : Nat) (swing : Block) (vs : List EffectVoice) (mixed : Block) :
    renderVoices swing (vs.map (EffectVoice.settle since)) mixed
      = ((renderVoices swing vs mixed).1,
          (renderVoices swing vs mixed).2.map (EffectVoice.settle since)) := by
  induction vs generalizing mixed with
  | nil => rfl
  | cons v vs ih =>
    rw [List.map_cons, renderVoices, renderVoices]
    by_cases hover : v.level.isFinished
    · rw [if_pos hover, if_pos (show (v.settle since).level.isFinished = true from hover), ih]
      rfl
    · have hscan : Block.scan EffectVoice.step (v.settle since) swing
          = ((Block.scan EffectVoice.step v swing).1,
            (Block.scan EffectVoice.step v swing).2.settle since) :=
        Block.scan_settle (fun _ _ => rfl) v swing
      rw [if_neg hover, if_neg (show ¬(v.settle since).level.isFinished = true from hover), hscan]
      dsimp only
      rw [ih]
      rfl

theorem render_settle (sine : Wave) (since : Nat) (r : Rack) (n : Nat) :
    Rack.render sine (r.settle since) n
      = ((Rack.render sine r n).1, (Rack.render sine r n).2.settle since) := by
  unfold Rack.render
  by_cases hover : r.isDefunct
  · rw [if_pos hover, if_pos (show (r.settle since).isDefunct = true from hover)]
  · rw [if_neg hover, if_neg (show ¬(r.settle since).isDefunct = true from hover)]
    have hvoices := renderVoices_settle since (renderSwing sine r.swing (min n passSamples)).1
      r.voices (.silence (min n passSamples))
    have htrim := Pool.trimDefunct_map (f := EffectVoice.settle since) (fun _ => rfl)
      (renderVoices (renderSwing sine r.swing (min n passSamples)).1 r.voices
        (.silence (min n passSamples))).2
    simp only [Rack.settle]
    rw [hvoices]
    dsimp only
    rw [htrim]
    rfl

end Rack

/-! ### Rendering -/

theorem Block.mix_empty (out : Block) : Block.mix out #[] = out := by
  simp [Block.mix]

namespace Synth

theorem heard_renderVoices (since : Nat) (sine : Wave) (n : Nat) (vs : List Voice) (noise : Noise)
    (mixed : Block) :
    (renderVoices sine n vs noise mixed).1
        = (renderVoices sine n (Pool.heard (Voice.settle since) vs) noise mixed).1
      ∧ Pool.heard (Voice.settle since) (renderVoices sine n vs noise mixed).2.1
        = (renderVoices sine n (Pool.heard (Voice.settle since) vs) noise mixed).2.1.filter
          (fun v => !PoolEntry.isDefunct v)
      ∧ (renderVoices sine n vs noise mixed).2.2
        = (renderVoices sine n (Pool.heard (Voice.settle since) vs) noise mixed).2.2 := by
  induction vs generalizing noise mixed with
  | nil => exact ⟨rfl, rfl, rfl⟩
  | cons v vs ih =>
    rw [renderVoices, Pool.heard_cons]
    cases hover : v.isDefunct with
    | true =>
      have hsettled : PoolEntry.isDefunct (v.settle since) = true := hover
      rw [if_pos hsettled, Voice.render_isDefunct sine noise hover]
      dsimp only
      rw [Block.mix_empty, Pool.heard_cons, if_pos hsettled]
      exact ih noise mixed
    | false =>
      have hsettled : ¬PoolEntry.isDefunct (v.settle since) = true := by
        show ¬v.isDefunct = true
        rw [hover]
        decide
      obtain ⟨hblock, hvoices, hnoise⟩ := ih (Voice.render sine v noise n).2.2
        (Block.mix mixed (Voice.render sine v noise n).1)
      rw [if_neg hsettled, renderVoices, Voice.render_settle]
      dsimp only
      refine ⟨hblock, ?_, hnoise⟩
      rw [Pool.heard_cons, hvoices, List.filter_cons]
      cases PoolEntry.isDefunct ((Voice.render sine v noise n).2.1.settle since) <;> rfl

theorem heard_renderRacks (since : Nat) (sine : Wave) (n : Nat) (rs : List Rack) (mixed : Block) :
    (renderRacks sine n rs mixed).1
        = (renderRacks sine n (Pool.heard (Rack.settle since) rs) mixed).1
      ∧ Pool.heard (Rack.settle since) (renderRacks sine n rs mixed).2
        = (renderRacks sine n (Pool.heard (Rack.settle since) rs) mixed).2.filter
          (fun r => !PoolEntry.isDefunct r) := by
  induction rs generalizing mixed with
  | nil => exact ⟨rfl, rfl⟩
  | cons r rs ih =>
    rw [renderRacks, Pool.heard_cons]
    cases hover : r.isDefunct with
    | true =>
      have hsettled : PoolEntry.isDefunct (r.settle since) = true := hover
      have hrender : Rack.render sine r n = (#[], r) := by rw [Rack.render, if_pos hover]
      rw [if_pos hsettled, hrender]
      dsimp only
      rw [Block.mix_empty, Pool.heard_cons, if_pos hsettled]
      exact ih mixed
    | false =>
      have hsettled : ¬PoolEntry.isDefunct (r.settle since) = true := by
        show ¬r.isDefunct = true
        rw [hover]
        decide
      obtain ⟨hblock, hracks⟩ := ih (Block.mix mixed (Rack.render sine r n).1)
      rw [if_neg hsettled, renderRacks, Rack.render_settle]
      dsimp only
      refine ⟨hblock, ?_⟩
      rw [Pool.heard_cons, hracks, List.filter_cons]
      cases PoolEntry.isDefunct ((Rack.render sine r n).2.settle since) <;> rfl

/-- Playbacks sound as the live ones of them do on any shelf that they read the same from. -/
theorem heard_renderPlaybacks (shelf other : Shelf) (n : Nat) (ps : List Playback) (mixed : Block)
    (hover : ∀ p ∈ ps, p.isDefunct = true → p.length = shelf.length p.pcm)
    (hread : ∀ p ∈ ps, p.isDefunct = false →
      (shelf.read p.pcm).extract p.position (p.position + n)
        = (other.read p.pcm).extract p.position (p.position + n)) :
    (renderPlaybacks shelf n ps mixed).1
        = (renderPlaybacks other n (Pool.heard id ps) mixed).1
      ∧ Pool.heard id (renderPlaybacks shelf n ps mixed).2
        = (renderPlaybacks other n (Pool.heard id ps) mixed).2.filter
          (fun p => !PoolEntry.isDefunct p) := by
  induction ps generalizing mixed with
  | nil => exact ⟨rfl, rfl⟩
  | cons p ps ih =>
    have ih := fun mixed => ih mixed (fun q hq => hover q (List.mem_cons_of_mem p hq))
      (fun q hq => hread q (List.mem_cons_of_mem p hq))
    rw [renderPlaybacks, Pool.heard_cons]
    cases hfinished : p.isDefunct with
    | true =>
      have hdefunct : PoolEntry.isDefunct (id p) = true := hfinished
      have hlength := hover p List.mem_cons_self hfinished
      have hempty : (shelf.read p.pcm).extract p.position (p.position + n) = #[] := by
        have hend : p.length ≤ p.position := of_decide_eq_true hfinished
        rw [hlength, Shelf.length] at hend
        exact Array.extract_empty_of_size_le_start hend
      have hrender : Playback.render shelf p n = (#[], p) := by
        simp [Playback.render, hempty]
      rw [if_pos hdefunct, hrender]
      dsimp only
      rw [Block.mix_empty, Pool.heard_cons, if_pos hdefunct]
      exact ih mixed
    | false =>
      have hdefunct : ¬PoolEntry.isDefunct (id p) = true := by
        show ¬p.isDefunct = true
        rw [hfinished]
        decide
      have hrender : Playback.render shelf p n = Playback.render other p n := by
        rw [Playback.render, Playback.render, hread p List.mem_cons_self hfinished]
      obtain ⟨hblock, hplaybacks⟩ := ih (Block.mix mixed (Playback.render other p n).1)
      rw [if_neg hdefunct, id_eq, renderPlaybacks, hrender]
      dsimp only
      refine ⟨hblock, ?_⟩
      rw [Pool.heard_cons, hplaybacks, List.filter_cons, id_eq]
      cases PoolEntry.isDefunct (Playback.render other p n).2 <;> rfl

theorem length_renderVoices (sine : Wave) (n : Nat) (vs : List Voice) (noise : Noise)
    (mixed : Block) : (renderVoices sine n vs noise mixed).2.1.length = vs.length := by
  induction vs generalizing noise mixed with
  | nil => rfl
  | cons v vs ih =>
    rw [renderVoices, List.length_cons, ih, List.length_cons]

theorem length_renderRacks (sine : Wave) (n : Nat) (rs : List Rack) (mixed : Block) :
    (renderRacks sine n rs mixed).2.length = rs.length := by
  induction rs generalizing mixed with
  | nil => rfl
  | cons r rs ih =>
    rw [renderRacks, List.length_cons, ih, List.length_cons]

theorem length_renderPlaybacks (shelf : Shelf) (n : Nat) (ps : List Playback) (mixed : Block) :
    (renderPlaybacks shelf n ps mixed).2.length = ps.length := by
  induction ps generalizing mixed with
  | nil => rfl
  | cons p ps ih =>
    rw [renderPlaybacks, List.length_cons, ih, List.length_cons]

/-! ### Rendering pools that sound alike -/

theorem alike_renderVoices {since : Nat} {p q : Pool Voice} (h : p.Alike (Voice.settle since) q)
    (sine : Wave) (n : Nat) (noise : Noise) (mixed : Block) :
    (renderVoices sine n p.entries noise mixed).1 = (renderVoices sine n q.entries noise mixed).1
      ∧ Pool.Alike (Voice.settle since)
        { p with entries := (renderVoices sine n p.entries noise mixed).2.1 }
        { q with entries := (renderVoices sine n q.entries noise mixed).2.1 }
      ∧ (renderVoices sine n p.entries noise mixed).2.2
        = (renderVoices sine n q.entries noise mixed).2.2 := by
  obtain ⟨hblock, hvoices, hnoise⟩ := heard_renderVoices since sine n p.entries noise mixed
  obtain ⟨hblock', hvoices', hnoise'⟩ := heard_renderVoices since sine n q.entries noise mixed
  rw [h.heard] at hblock hvoices hnoise
  refine ⟨hblock.trans hblock'.symm, ⟨h.capacity, hvoices.trans hvoices'.symm, ?_⟩,
    hnoise.trans hnoise'.symm⟩
  rw [length_renderVoices, length_renderVoices]
  exact h.fewer

theorem alike_renderRacks {since : Nat} {p q : Pool Rack} (h : p.Alike (Rack.settle since) q)
    (sine : Wave) (n : Nat) (mixed : Block) :
    (renderRacks sine n p.entries mixed).1 = (renderRacks sine n q.entries mixed).1
      ∧ Pool.Alike (Rack.settle since) { p with entries := (renderRacks sine n p.entries mixed).2 }
        { q with entries := (renderRacks sine n q.entries mixed).2 } := by
  obtain ⟨hblock, hracks⟩ := heard_renderRacks since sine n p.entries mixed
  obtain ⟨hblock', hracks'⟩ := heard_renderRacks since sine n q.entries mixed
  rw [h.heard] at hblock hracks
  refine ⟨hblock.trans hblock'.symm, h.capacity, hracks.trans hracks'.symm, ?_⟩
  rw [length_renderRacks, length_renderRacks]
  exact h.fewer

theorem alike_renderPlaybacks {p q : Pool Playback} (h : p.Alike id q) {shelf other : Shelf} (n : Nat)
    (mixed : Block)
    (hover : ∀ e ∈ p.entries, e.isDefunct = true → e.length = shelf.length e.pcm)
    (hover' : ∀ e ∈ q.entries, e.isDefunct = true → e.length = other.length e.pcm)
    (hread : ∀ e ∈ q.entries, e.isDefunct = false →
      (other.read e.pcm).extract e.position (e.position + n)
        = (shelf.read e.pcm).extract e.position (e.position + n)) :
    (renderPlaybacks shelf n p.entries mixed).1 = (renderPlaybacks other n q.entries mixed).1
      ∧ Pool.Alike id { p with entries := (renderPlaybacks shelf n p.entries mixed).2 }
        { q with entries := (renderPlaybacks other n q.entries mixed).2 } := by
  obtain ⟨hblock, hplaybacks⟩ :=
    heard_renderPlaybacks shelf shelf n p.entries mixed hover fun _ _ _ => rfl
  obtain ⟨hblock', hplaybacks'⟩ :=
    heard_renderPlaybacks other shelf n q.entries mixed hover' hread
  rw [h.heard] at hblock hplaybacks
  refine ⟨hblock.trans hblock'.symm, h.capacity, hplaybacks.trans hplaybacks'.symm, ?_⟩
  rw [length_renderPlaybacks, length_renderPlaybacks]
  exact h.fewer

end Synth

end Tonewheel
