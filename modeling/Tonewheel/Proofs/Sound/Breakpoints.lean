import Mathlib.Logic.Function.Iterate
import Tonewheel.Proofs.Numeric.Signs
import Tonewheel.Proofs.Reading
import Tonewheel.Sound.Ramp

/-!
# Breakpoints (SPEC_FULL, section 4.2)

Each target of a ramp takes its frames and one update more, which lands on the target exactly
(`Ramp.after_frames`); so the updates of the first targets add up (`Ramp.after_arrival`), and
between two landings the value moves by the same step. Behind the last target a ramp rests
(`Ramp.after_rest`). Beside the ramp, which drops what it has passed, stands a walker that keeps
all targets and looks them up by number; no look-up of it fails (`Ramp.Walker.after?_shows`).
-/

namespace Tonewheel.Sound.Ramp

/-! ### Updates -/

def after (r : Ramp) (n : Nat) : Ramp := (fun q : Ramp => q.step.2)^[n] r

/-- What update number `n` returns, counted from one. Number zero is the value at the start. -/
def returned (r : Ramp) : Nat → Float32
  | 0 => r.value
  | n + 1 => (r.after n).step.1

theorem after_succ (r : Ramp) (n : Nat) : r.after (n + 1) = (r.after n).step.2 :=
  Function.iterate_succ_apply' _ n r

theorem after_add (r : Ramp) (m n : Nat) : r.after (m + n) = (r.after m).after n := by
  rw [Nat.add_comm]
  exact Function.iterate_add_apply _ n m r

theorem step_value (r : Ramp) : r.step.1 = r.step.2.value := by
  unfold step
  split <;> rfl

theorem returned_eq (r : Ramp) (n : Nat) : r.returned n = (r.after n).value := by
  cases n with
  | zero => rfl
  | succ n =>
    rw [after_succ]
    exact step_value (r.after n)

/-! ### From target to target -/

def slopeTo (v : Float32) (t : Target) : Float32 := (t.value - v) / t.frames.toUInt32.toFloat32

/-- The updates that the first `k` targets take: the frames of each and one more. -/
def arrival (ts : List Target) (k : Nat) : Nat := ((ts.take k).map (·.frames + 1)).sum

theorem arrival_succ {ts : List Target} {k : Nat} {t : Target} (h : ts[k]? = some t) :
    arrival ts (k + 1) = arrival ts k + (t.frames + 1) := by
  rw [arrival, List.take_add_one, h, Option.toList_some, List.map_append, List.sum_append]
  rfl

/-- The value that `k` targets lead to, or all targets if there are fewer. -/
def reachedValue : Float32 → List Target → Nat → Float32
  | v, _, 0 => v
  | v, [], _ + 1 => v
  | _, t :: ts, k + 1 => reachedValue t.value ts k

theorem after_toward (v : Float32) (t : Target) (ts : List Target) {j : Nat} (hj : j ≤ t.frames) :
    (toward v (t :: ts)).after j
      = { value := (· + slopeTo v t)^[j] v
          slope := slopeTo v t
          left := t.frames - j
          targets := t :: ts } := by
  induction j with
  | zero => rfl
  | succ j ih =>
    have hleft : 0 < t.frames - j := by omega
    rw [after_succ, ih (by omega), step, if_pos hleft, Function.iterate_succ_apply', Nat.sub_sub]

theorem after_frames (v : Float32) (t : Target) (ts : List Target) :
    (toward v (t :: ts)).after (t.frames + 1) = toward t.value ts := by
  have hleft : ¬ 0 < t.frames - t.frames := by omega
  rw [after_succ, after_toward v t ts (Nat.le_refl _), step, if_neg hleft]
  rfl

theorem after_arrival (v : Float32) (ts : List Target) (k : Nat) :
    (toward v ts).after (arrival ts k) = toward (reachedValue v ts k) (ts.drop k) := by
  induction ts generalizing v k with
  | nil => cases k <;> rfl
  | cons t ts ih =>
    cases k with
    | zero => rfl
    | succ k =>
      have harrival : arrival (t :: ts) (k + 1) = t.frames + 1 + arrival ts k := rfl
      rw [harrival, after_add, after_frames, ih]
      rfl

theorem toward_value (v : Float32) (ts : List Target) : (toward v ts).value = v := by
  cases ts <;> rfl

theorem getElem?_values (v : Float32) (ts : List Target) {k : Nat} (hk : k ≤ ts.length) :
    (v :: ts.map Target.value)[k]? = some (reachedValue v ts k) := by
  induction ts generalizing v k with
  | nil =>
    obtain rfl := Nat.le_zero.mp hk
    rfl
  | cons t ts ih =>
    cases k with
    | zero => rfl
    | succ k => exact ih t.value (Nat.le_of_succ_le_succ hk)

/-! ### Behind the last target -/

def lastValue (v : Float32) (ts : List Target) : Float32 :=
  match ts.getLast? with
  | some t => t.value
  | none => v

theorem reachedValue_length (v : Float32) (ts : List Target) :
    reachedValue v ts ts.length = lastValue v ts := by
  induction ts generalizing v with
  | nil => rfl
  | cons t ts ih =>
    show reachedValue t.value ts ts.length = lastValue v (t :: ts)
    rw [ih, lastValue, lastValue, List.getLast?_cons]
    cases ts.getLast? <;> rfl

/-- Whether a value is another one, or what adding nothing makes of that. -/
def IsAt (x v : Float32) : Prop := x = v ∨ x = v + 0

theorem IsAt.add_zero {x v : Float32} (h : IsAt x v) : IsAt (x + 0) v := by
  rcases h with rfl | rfl
  · exact .inr rfl
  · exact .inr (Single.add_zero_add_zero v)

/-- Adding nothing changes no number whose sign bit is clear. -/
theorem IsAt.eq {x v : Float32} (h : IsAt x v) (hv : Single.Unsigned v) : x = v := by
  rcases h with rfl | rfl
  · rfl
  · exact hv.add_zero

/-- Whether a ramp has no target left and stays at a value. -/
structure Rests (r : Ramp) (v : Float32) : Prop where
  targets : r.targets = []
  slope : r.slope = 0
  value : IsAt r.value v

namespace Rests

variable {r : Ramp} {v : Float32}

theorem step (h : r.Rests v) : r.step.2.Rests v := by
  unfold Ramp.step
  split
  · refine ⟨h.targets, h.slope, ?_⟩
    show IsAt (r.value + r.slope) v
    rw [h.slope]
    exact h.value.add_zero
  · have harrive : r.arrive = hold r.value := by rw [arrive, h.targets]
    show r.arrive.Rests v
    rw [harrive]
    exact ⟨rfl, rfl, h.value⟩

theorem after (h : r.Rests v) (n : Nat) : (r.after n).Rests v := by
  induction n with
  | zero => exact h
  | succ n ih =>
    rw [after_succ]
    exact ih.step

end Rests

theorem rests_hold (v : Float32) : (hold v).Rests v := ⟨rfl, rfl, .inl rfl⟩

theorem after_rest (v : Float32) (ts : List Target) {n : Nat} (hn : arrival ts ts.length ≤ n) :
    ((toward v ts).after n).Rests (lastValue v ts) := by
  obtain ⟨k, rfl⟩ := Nat.exists_eq_add_of_le hn
  rw [after_add, after_arrival, List.drop_length, reachedValue_length]
  exact (rests_hold (lastValue v ts)).after k

/-! ### Targets by number -/

/-- Where a ramp stands, by the number of its current target among all of them. -/
structure Walker where
  value : Float32
  slope : Float32
  left : Int
  index : Nat

namespace Walker

variable (start : Float32) (ts : List Target)

def first : Walker :=
  { value := start
    slope := (toward start ts).slope
    left := (toward start ts).left
    index := 0 }

/-- Goes on to the next number. The target there and the one before it are looked up. -/
def arrive? (w : Walker) : Option Walker :=
  let index := w.index + 1
  match ts[index]? with
  | some next =>
    ts[index - 1]?.map fun here =>
      { value := here.value, slope := slopeTo here.value next, left := next.frames, index }
  | none => some { value := lastValue start ts, slope := 0, left := holdFrames, index := ts.length }

def step? (w : Walker) : Option Walker :=
  if 0 < w.left then some { w with value := w.value + w.slope, left := w.left - 1 }
  else w.arrive? start ts

/-- A walker after a number of updates, if it never misses a look-up. -/
def after? : Nat → Option Walker
  | 0 => some (first start ts)
  | n + 1 => (after? n).bind (step? start ts)

/-- Whether a walker among some targets stands where a ramp does. At rest the values may differ by
the sign of a zero. -/
structure Shows (w : Walker) (r : Ramp) : Prop where
  targets : r.targets = ts.drop w.index
  index_le : w.index ≤ ts.length
  left : w.left = r.left
  slope : w.slope = r.slope
  value : r.targets ≠ [] → w.value = r.value
  rest : r.targets = [] → r.Rests (lastValue start ts) ∧ IsAt w.value (lastValue start ts)

variable {start ts}

theorem arrive?_of_none (w : Walker) (h : ts[w.index + 1]? = none) :
    w.arrive? start ts
      = some
          { value := lastValue start ts
            slope := 0
            left := holdFrames
            index := ts.length } := by
  simp only [arrive?, h]

theorem arrive?_of_some (w : Walker) {here next : Target} (h : ts[w.index + 1]? = some next)
    (hhere : ts[w.index]? = some here) :
    w.arrive? start ts
      = some
          { value := here.value
            slope := slopeTo here.value next
            left := next.frames
            index := w.index + 1 } := by
  simp only [arrive?, h, Nat.add_sub_cancel, hhere, Option.map_some]

theorem shows_first : (first start ts).Shows start ts (toward start ts) := by
  cases ts with
  | nil =>
    exact ⟨rfl, Nat.le_refl 0, rfl, rfl, fun _ => rfl, fun _ => ⟨rests_hold start, .inl rfl⟩⟩
  | cons t ts => exact ⟨rfl, Nat.zero_le _, rfl, rfl, fun _ => rfl, fun h => by cases h⟩

namespace Shows

variable {w : Walker} {r : Ramp}

theorem left_nonneg (h : w.Shows start ts r) : 0 ≤ w.left := by
  rw [h.left]
  exact Int.natCast_nonneg r.left

theorem index_eq (h : w.Shows start ts r) (hrest : r.targets = []) : w.index = ts.length := by
  have hpast := List.drop_eq_nil_iff.mp (h.targets.symm.trans hrest)
  exact Nat.le_antisymm h.index_le hpast

theorem move (h : w.Shows start ts r) (hleft : 0 < r.left) :
    Shows start ts { w with value := w.value + w.slope, left := w.left - 1 } r.step.2 := by
  have hstep : r.step.2 = { r with value := r.value + r.slope, left := r.left - 1 } := by
    rw [Ramp.step, if_pos hleft]
  have hdown : w.left - 1 = ((r.left - 1 : Nat) : Int) := by
    have hsame := h.left
    omega
  have hrest (hnone : r.targets = []) : r.step.2.Rests (lastValue start ts)
      ∧ IsAt (w.value + w.slope) (lastValue start ts) := by
    obtain ⟨hramp, hvalue⟩ := h.rest hnone
    rw [h.slope, hramp.slope]
    exact ⟨hramp.step, hvalue.add_zero⟩
  rw [hstep] at hrest ⊢
  refine ⟨h.targets, h.index_le, hdown, h.slope, fun hsome => ?_, hrest⟩
  show w.value + w.slope = r.value + r.slope
  rw [h.value hsome, h.slope]

/-- With no frame left the next number is looked up, and the target before it is there. -/
theorem arrive (h : w.Shows start ts r) :
    ∃ w', w.arrive? start ts = some w' ∧ w'.Shows start ts r.arrive := by
  cases htargets : r.targets with
  | nil =>
    -- The ramp rests already, and the number is past the end again.
    have hindex := h.index_eq htargets
    have hnone : ts[w.index + 1]? = none := List.getElem?_eq_none (by omega)
    have harrive : r.arrive = hold r.value := by rw [Ramp.arrive, htargets]
    have hvalue := (h.rest htargets).1.value
    rw [harrive, w.arrive?_of_none hnone]
    exact ⟨_, rfl, List.drop_length.symm, Nat.le_refl _, rfl, rfl, fun hsome => absurd rfl hsome,
      fun _ => ⟨⟨rfl, rfl, hvalue⟩, .inl rfl⟩⟩
  | cons t rest =>
    have hdrop : ts.drop w.index = t :: rest := h.targets.symm.trans htargets
    have hhere : ts[w.index]? = some t := by rw [← List.head?_drop, hdrop, List.head?_cons]
    have hnext : ts.drop (w.index + 1) = rest := by rw [← List.tail_drop, hdrop, List.tail_cons]
    have harrive : r.arrive = toward t.value rest := by rw [Ramp.arrive, htargets]
    rw [harrive]
    cases rest with
    | nil =>
      have hnone : ts[w.index + 1]? = none :=
        List.getElem?_eq_none (List.drop_eq_nil_iff.mp hnext)
      have hlast : lastValue start ts = t.value := by
        have hgetLast : ts.getLast? = some t := by
          have hinside : ¬ ts.length ≤ w.index :=
            Nat.not_le_of_lt (List.getElem?_eq_some_iff.mp hhere).1
          have hend := List.getLast?_drop (l := ts) (i := w.index)
          rw [hdrop, if_neg hinside] at hend
          exact hend.symm
        rw [lastValue, hgetLast]
      rw [w.arrive?_of_none hnone]
      exact ⟨_, rfl, List.drop_length.symm, Nat.le_refl _, rfl, rfl, fun hsome => absurd rfl hsome,
        fun _ => ⟨hlast ▸ rests_hold t.value, .inl rfl⟩⟩
    | cons next more =>
      have hthere : ts[w.index + 1]? = some next := by
        rw [← List.head?_drop, hnext, List.head?_cons]
      have hinside : w.index + 1 ≤ ts.length :=
        Nat.le_of_lt (List.getElem?_eq_some_iff.mp hthere).1
      rw [w.arrive?_of_some hthere hhere]
      exact ⟨_, rfl, hnext.symm, hinside, rfl, rfl, fun _ => rfl, fun hnone => by cases hnone⟩

theorem step (h : w.Shows start ts r) :
    ∃ w', w.step? start ts = some w' ∧ w'.Shows start ts r.step.2 := by
  unfold step?
  rw [h.left]
  by_cases hleft : 0 < r.left
  · rw [if_pos (by omega)]
    rw [← h.left]
    exact ⟨_, rfl, h.move hleft⟩
  · rw [if_neg (by omega)]
    have hstep : r.step.2 = r.arrive := by rw [Ramp.step, if_neg hleft]
    rw [hstep]
    exact h.arrive

end Shows

theorem after?_shows (start : Float32) (ts : List Target) (n : Nat) :
    ∃ w, after? start ts n = some w ∧ w.Shows start ts ((toward start ts).after n) := by
  induction n with
  | zero => exact ⟨_, rfl, shows_first⟩
  | succ n ih =>
    obtain ⟨w, hw, hshows⟩ := ih
    obtain ⟨w', hstep, hnext⟩ := hshows.step
    rw [← after_succ] at hnext
    exact ⟨w', by rw [after?, hw, Option.bind_some, hstep], hnext⟩

end Walker

/-! ### Ramps that are read -/

theorem framesOfMs_bounds (rate : UInt32) (ms : UInt16) :
    1 ≤ framesOfMs rate ms ∧ framesOfMs rate ms ≤ holdFrames := by
  have hhold : 1 ≤ holdFrames := by decide
  unfold framesOfMs
  omega

def Written (rate : UInt32) (scale : Float32) (t : Target) : Prop :=
  ∃ ms value : UInt16, t = ⟨framesOfMs rate ms, value.toFloat32 * scale⟩

theorem written_of_readTargets {rate : UInt32} {scale : Float32} {n : Nat} {c rest : Cursor}
    {ts : List Target} (h : readTargets rate scale n c = .ok (ts, rest)) :
    ∀ t ∈ ts, Written rate scale t := by
  induction n generalizing c ts with
  | zero =>
    cases h
    intro t ht
    cases ht
  | succ n ih =>
    obtain ⟨⟨ms, c₁⟩, -, h⟩ := bind_eq_ok.mp h
    obtain ⟨⟨value, c₂⟩, -, h⟩ := bind_eq_ok.mp h
    obtain ⟨⟨more, c₃⟩, hmore, h⟩ := bind_eq_ok.mp h
    cases h
    intro t ht
    rcases List.mem_cons.mp ht with rfl | ht
    · exact ⟨ms, value, rfl⟩
    · exact ih hmore t ht

theorem toward_of_read {rate : UInt32} {scale : Float32} {c rest : Cursor} {r : Ramp}
    (h : Ramp.read rate scale c = .ok (r, rest)) :
    ∃ (start : UInt16) (ts : List Target),
      r = toward (start.toFloat32 * scale) ts ∧ ∀ t ∈ ts, Written rate scale t := by
  obtain ⟨⟨start, c₁⟩, -, h⟩ := bind_eq_ok.mp h
  obtain ⟨⟨count, c₂⟩, -, h⟩ := bind_eq_ok.mp h
  obtain ⟨⟨ts, c₃⟩, hts, h⟩ := bind_eq_ok.mp h
  cases h
  exact ⟨start, ts, rfl, written_of_readTargets hts⟩

theorem unsigned_word {scale : Float32} (hscale : Single.Unsigned scale) (word : UInt16) :
    Single.Unsigned (word.toFloat32 * scale) :=
  (Single.unsigned_ofNat word.toNat).mul hscale

theorem unsigned_lastValue {rate : UInt32} {scale : Float32} (hscale : Single.Unsigned scale)
    (start : UInt16) {ts : List Target} (h : ∀ t ∈ ts, Written rate scale t) :
    Single.Unsigned (lastValue (start.toFloat32 * scale) ts) := by
  unfold lastValue
  split
  next t hlast =>
    obtain ⟨ms, value, rfl⟩ := h t (List.mem_of_getLast? hlast)
    exact unsigned_word hscale value
  next => exact unsigned_word hscale start

theorem toward_targets (v : Float32) (ts : List Target) : (toward v ts).targets = ts := by
  cases ts <;> rfl

/-- The way to target number `k` and the update that lands on it. -/
theorem returned_leg (v : Float32) (ts : List Target) {k : Nat} {t : Target} {old : Float32}
    (ht : ts[k]? = some t) (hold : (v :: ts.map Target.value)[k]? = some old) :
    (toward v ts).returned (arrival ts k) = old
      ∧ (∀ j < t.frames, (toward v ts).returned (arrival ts k + j + 1)
          = (toward v ts).returned (arrival ts k + j) + slopeTo old t)
      ∧ (toward v ts).returned (arrival ts (k + 1)) = t.value := by
  obtain ⟨hk, rfl⟩ := List.getElem?_eq_some_iff.mp ht
  have hreached : reachedValue v ts k = old := by
    rw [getElem?_values v ts (Nat.le_of_lt hk)] at hold
    exact Option.some.inj hold
  have hdrop : ts.drop k = ts[k] :: ts.drop (k + 1) := List.drop_eq_getElem_cons hk
  have hnext := arrival_succ ht
  have hafter (j : Nat) : (toward v ts).after (arrival ts k + j)
      = (toward old (ts[k] :: ts.drop (k + 1))).after j := by
    rw [after_add, after_arrival, hreached, hdrop]
  refine ⟨?_, fun j hj => ?_, ?_⟩
  · rw [returned_eq, after_arrival, hreached, toward_value]
  · rw [Nat.add_assoc, returned_eq, returned_eq, hafter, hafter,
      after_toward _ _ _ (Nat.le_of_lt hj), after_toward _ _ _ (Nat.succ_le_of_lt hj)]
    exact Function.iterate_succ_apply' _ j old
  · rw [hnext, returned_eq, hafter, after_frames, toward_value]

/-- A ramp that is read lands on each of its targets exactly, with the update after its frames, and
moves there by a constant step. Behind the last target it rests for good. All this can be done with
targets that are looked up by number, and frames that are counted down without going below zero. -/
theorem meets_breakpoints {rate : UInt32} {scale : Float32} {c rest : Cursor} {r : Ramp}
    (h : Ramp.read rate scale c = .ok (r, rest)) :
    (∀ t ∈ r.targets, 1 ≤ t.frames ∧ t.frames ≤ holdFrames)
      ∧ (∀ (k : Nat) (t : Target) (old : Float32), r.targets[k]? = some t →
          (r.value :: r.targets.map Target.value)[k]? = some old →
          r.returned (arrival r.targets k) = old
            ∧ (∀ j < t.frames, r.returned (arrival r.targets k + j + 1)
                = r.returned (arrival r.targets k + j)
                  + (t.value - old) / t.frames.toUInt32.toFloat32)
            ∧ r.returned (arrival r.targets (k + 1)) = t.value)
      ∧ (∀ n, arrival r.targets r.targets.length ≤ n →
          (r.after n).Rests (lastValue r.value r.targets)
            ∧ (Single.Unsigned scale → r.returned n = lastValue r.value r.targets))
      ∧ ∀ n, ∃ w, Walker.after? r.value r.targets n = some w ∧ 0 ≤ w.left
          ∧ w.Shows r.value r.targets (r.after n)
          ∧ (arrival r.targets r.targets.length ≤ n →
              w.index = r.targets.length ∧ w.slope = 0) := by
  obtain ⟨start, ts, rfl, hwritten⟩ := toward_of_read h
  rw [toward_targets, toward_value]
  refine ⟨fun t ht => ?_, fun k t old => returned_leg _ ts, fun n hn => ?_, fun n => ?_⟩
  · obtain ⟨ms, value, rfl⟩ := hwritten t ht
    exact framesOfMs_bounds rate ms
  · have hrests := after_rest (start.toFloat32 * scale) ts hn
    refine ⟨hrests, fun hscale => ?_⟩
    rw [returned_eq]
    exact hrests.value.eq (unsigned_lastValue hscale start hwritten)
  · obtain ⟨w, hw, hshows⟩ := Walker.after?_shows (start.toFloat32 * scale) ts n
    refine ⟨w, hw, hshows.left_nonneg, hshows, fun hn => ?_⟩
    have hrests := after_rest (start.toFloat32 * scale) ts hn
    exact ⟨hshows.index_eq hrests.targets, hshows.slope.trans hrests.slope⟩

/-- Up to ten in ten frames and down again in five. -/
theorem meets_breakpoints_peak :
    let c : Cursor := ⟨[0, 0, 2, 0, 10, 0, 10, 0, 5, 0, 0], 0⟩
    let r := toward 0 [⟨10, 10⟩, ⟨5, 0⟩]
    Ramp.read 1000 1 c = .ok (r, ⟨[], 11⟩) ∧ Single.Unsigned 1
      ∧ r.returned 11 = 10 ∧ r.returned 12 = 10 + (0 - 10) / 5 ∧ r.returned 17 = 0
      ∧ r.returned 5000000000 = 0 := by
  intro c r
  have hread : Ramp.read 1000 1 c = .ok (r, ⟨[], 11⟩) := rfl
  obtain ⟨-, hlegs, hrest, -⟩ := meets_breakpoints hread
  obtain ⟨-, -, hpeak⟩ := hlegs 0 ⟨10, 10⟩ 0 rfl rfl
  obtain ⟨hstart, hmove, hend⟩ := hlegs 1 ⟨5, 0⟩ 10 rfl rfl
  have hfirst := hmove 0 (by decide)
  have hlate := (hrest 5000000000 (by decide)).2 rfl
  refine ⟨hread, rfl, hpeak, ?_, hend, hlate⟩
  exact hfirst.trans (congrArg (· + (0 - 10) / 5) hstart)

end Tonewheel.Sound.Ramp
