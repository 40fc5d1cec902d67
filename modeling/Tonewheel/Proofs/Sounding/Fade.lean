import Mathlib.Algebra.Ring.Int.Defs
import Mathlib.Algebra.Ring.Nat
import Tonewheel.Proofs.Signal.Blocks
import Tonewheel.Sounding.Rack

/-!
# The fade of a released rack (SPEC_FULL, section 4.4)

A released rack counts down the frames of one second and is defunct when they run out within a pass.
The count is looked at when a pass begins: a rack whose count comes to zero just where a pass ends
plays on as if it had never been released (`release_ends`).
-/

namespace Tonewheel

/-! ### One pass of a fade -/

namespace Fade

def run (f : Fade) (block : Block) : Block × Fade :=
  if 0 < f.left then Block.scan step f block else (block, f)

theorem step_left (f : Fade) (x : Float32) : (f.step x).2.left = f.left - 1 := by
  unfold step
  split <;> rfl

theorem step_isOver (f : Fade) (x : Float32) :
    (f.step x).2.isOver = (f.isOver || decide (f.left ≤ 0)) := by
  unfold step
  split
  next hover => simp [hover]
  next hover => simp [hover]

theorem step_silent (f : Fade) (x : Float32) (h : f.left ≤ 0) : (f.step x).1 = 0 := by
  unfold step
  rw [if_pos h]

theorem scan_left (f : Fade) (block : Block) :
    (Block.scan step f block).2.left = f.left - block.size := by
  induction block using Block.front_induction generalizing f with
  | empty => simp
  | front x rest ih =>
    rw [Block.scan_front, ih, step_left, Array.size_append]
    have hone : (#[x] : Block).size = 1 := rfl
    omega

theorem scan_isOver (f : Fade) (block : Block) :
    (Block.scan step f block).2.isOver
      = (f.isOver || decide (0 < block.size ∧ f.left < block.size)) := by
  induction block using Block.front_induction generalizing f with
  | empty => simp
  | front x rest ih =>
    rw [Block.scan_front, ih, step_isOver, step_left, Array.size_append, Bool.or_assoc]
    have hone : (#[x] : Block).size = 1 := rfl
    congr 1
    rw [← Bool.decide_or]
    apply decide_eq_decide.mpr
    omega

theorem scan_silent (f : Fade) (block : Block) (i : Nat) (y : Float32) (hi : f.left ≤ i)
    (hy : (Block.scan step f block).1[i]? = some y) : y = 0 := by
  induction block using Block.front_induction generalizing f i with
  | empty => simp at hy
  | front x rest ih =>
    rw [Block.scan_front] at hy
    cases i with
    | zero =>
      have hfirst : (f.step x).1 = y := by
        rw [Array.getElem?_append_left (by simp)] at hy
        simpa using hy
      rw [← hfirst]
      exact step_silent f x (by omega)
    | succ i =>
      have hrest : (Block.scan step (f.step x).2 rest).1[i]? = some y := by
        rw [Array.getElem?_append_right (by simp)] at hy
        simpa using hy
      refine ih (f.step x).2 i ?_ hrest
      rw [step_left]
      omega

theorem size_run (f : Fade) (block : Block) : (f.run block).1.size = block.size := by
  unfold run
  split
  · exact Block.size_scan _ _ _
  · rfl

end Fade

/-! ### One pass of a rack -/

namespace Rack

def unfaded (sine : Wave) (r : Rack) (n : Nat) : Block :=
  let block := (renderVoices (renderSwing sine r.swing n).1 r.voices (.silence n)).1
  let block :=
    if 0 < r.drive then block.map fun x => Single.clamp (-r.clip) r.clip (x * r.drive) else block
  let block := (runOptional (RackDetune.step sine) r.detune block).1
  let block := (runOptional Tape.step r.delay block).1
  if r.trim < 1 then block.map (· * r.trim) else block

theorem render_defunct (sine : Wave) (r : Rack) (n : Nat) (h : r.isDefunct = true) :
    r.render sine n = (#[], r) := by
  rw [render, if_pos h]

theorem render_playing (sine : Wave) (r : Rack) (n : Nat) (h : r.isDefunct = false) :
    (r.render sine n).1 = (r.fade.run (r.unfaded sine (min n passSamples))).1
      ∧ (r.render sine n).2.fade = (r.fade.run (r.unfaded sine (min n passSamples))).2 := by
  rw [render, h, if_neg Bool.false_ne_true]
  exact ⟨rfl, rfl⟩

theorem size_renderSwing (sine : Wave) (s : RackSwing) (n : Nat) :
    (renderSwing sine s n).1.size = n := by
  unfold renderSwing
  split
  · exact Block.size_generate _ _ _
  · exact Block.size_silence n

theorem size_renderVoices (swing : Block) (vs : List EffectVoice) (mixed : Block)
    (h : mixed.size = swing.size) : (renderVoices swing vs mixed).1.size = swing.size := by
  induction vs generalizing mixed with
  | nil => exact h
  | cons v vs ih =>
    rw [renderVoices]
    split
    · exact ih mixed h
    · have hsize := Block.size_scan EffectVoice.step v swing
      exact ih _ ((Block.size_mix _ _ (by omega)).trans h)

theorem size_runOptional {σ : Type} (step : σ → Float32 → Float32 × σ) (effect : Option σ)
    (block : Block) : (runOptional step effect block).1.size = block.size := by
  cases effect with
  | none => rfl
  | some s => exact Block.size_scan step s block

theorem size_unfaded (sine : Wave) (r : Rack) (n : Nat) : (r.unfaded sine n).size = n := by
  have hvoices : (renderVoices (renderSwing sine r.swing n).1 r.voices (.silence n)).1.size
      = n := by
    have hswing := size_renderSwing sine r.swing n
    rw [size_renderVoices _ _ _ (by rw [Block.size_silence, hswing]), hswing]
  have hmap : ∀ (p : Prop) [Decidable p] (f : Float32 → Float32) (block : Block),
      (if p then block.map f else block).size = block.size := by
    intro p _ f block
    split
    · exact Array.size_map
    · rfl
  rw [unfaded, hmap, size_runOptional, size_runOptional, hmap, hvoices]

/-! ### Runs of passes -/

/-- What a rack adds in a run of passes, one pass after another, and the rack after them. -/
def renders (sine : Wave) (r : Rack) : List Nat → Block × Rack
  | [] => (#[], r)
  | n :: passes =>
    ((r.render sine n).1 ++ ((r.render sine n).2.renders sine passes).1,
      ((r.render sine n).2.renders sine passes).2)

theorem renders_defunct (sine : Wave) (r : Rack) (passes : List Nat) (h : r.isDefunct = true) :
    r.renders sine passes = (#[], r) := by
  induction passes with
  | nil => rfl
  | cons n passes ih =>
    rw [renders, render_defunct sine r n h, ih, Array.append_empty]

/-- One pass of a rack that plays counts it down, if it is fading at all. -/
theorem render_fade (sine : Wave) (r : Rack) (n : Nat) (hn : n ≤ passSamples)
    (hplaying : r.isDefunct = false) (hleft : 0 < r.fade.left) :
    (r.render sine n).2.fade.left = r.fade.left - n
      ∧ ((r.render sine n).2.isDefunct = true ↔ r.fade.left < n) := by
  have hsize : (r.unfaded sine (min n passSamples)).size = n := by
    rw [size_unfaded]
    omega
  have hfade := (render_playing sine r n hplaying).2
  rw [Fade.run, if_pos hleft] at hfade
  constructor
  · rw [hfade, Fade.scan_left, hsize]
  · have hplaying' : r.fade.isOver = false := hplaying
    show (r.render sine n).2.fade.isOver = true ↔ _
    rw [hfade, Fade.scan_isOver, hsize, hplaying', Bool.false_or, decide_eq_true_eq]
    omega

theorem render_still (sine : Wave) (r : Rack) (n : Nat) (hplaying : r.isDefunct = false)
    (hleft : r.fade.left ≤ 0) : (r.render sine n).2.fade = r.fade := by
  rw [(render_playing sine r n hplaying).2, Fade.run, if_neg (by omega)]

theorem renders_still (sine : Wave) (r : Rack) (passes : List Nat)
    (hplaying : r.isDefunct = false) (hleft : r.fade.left ≤ 0) :
    (r.renders sine passes).2.fade = r.fade := by
  induction passes generalizing r with
  | nil => rfl
  | cons n passes ih =>
    have hfade := render_still sine r n hplaying hleft
    have hplaying' : (r.render sine n).2.isDefunct = false := by
      show (r.render sine n).2.fade.isOver = false
      rw [hfade]
      exact hplaying
    rw [renders, ih _ hplaying' (by rw [hfade]; exact hleft), hfade]

theorem renders_playing (sine : Wave) (r : Rack) (passes : List Nat)
    (hplaying : r.isDefunct = false) (hleft : r.fade.left ≤ 0) :
    (r.renders sine passes).2.isDefunct = false := by
  show (r.renders sine passes).2.fade.isOver = false
  rw [renders_still sine r passes hplaying hleft]
  exact hplaying

/-- A count that no first part of some passes comes to is not met after one pass either. -/
theorem counts_cons (n : Nat) (passes : List Nat) {left : Int} (hleft : 0 < left) :
    (∀ k, (((n :: passes).take k).sum : Int) ≠ left)
      ↔ ∀ k, ((passes.take k).sum : Int) ≠ left - n := by
  have htake : ∀ k, (((n :: passes).take (k + 1)).sum : Int) = n + (passes.take k).sum := by
    intro k
    rw [List.take_succ_cons, List.sum_cons, Int.natCast_add]
  constructor
  · intro h k hk
    have hnext := h (k + 1)
    rw [htake] at hnext
    omega
  · intro h k
    cases k with
    | zero =>
      rw [List.take_zero, List.sum_nil]
      omega
    | succ k =>
      have hnext := h k
      rw [htake]
      omega

/-- A fading rack is defunct after a run if the count ran out within one of the passes. -/
theorem renders_isDefunct (sine : Wave) (r : Rack) (passes : List Nat)
    (hpasses : ∀ n ∈ passes, n ≤ passSamples) (hplaying : r.isDefunct = false)
    (hleft : 0 < r.fade.left) :
    (r.renders sine passes).2.isDefunct = true
      ↔ r.fade.left < passes.sum ∧ ∀ k, ((passes.take k).sum : Int) ≠ r.fade.left := by
  induction passes generalizing r with
  | nil =>
    have hnever : ¬(r.isDefunct = true) := by
      rw [hplaying]
      exact Bool.false_ne_true
    have hlate : ¬(r.fade.left < (([] : List Nat).sum : Nat)) := by
      rw [List.sum_nil]
      omega
    exact ⟨fun h => absurd h hnever, fun h => absurd h.1 hlate⟩
  | cons n passes ih =>
    obtain ⟨hleft', hdefunct⟩ :=
      render_fade sine r n (hpasses n List.mem_cons_self) hplaying hleft
    have hpasses' : ∀ m ∈ passes, m ≤ passSamples :=
      fun m hm => hpasses m (List.mem_cons_of_mem n hm)
    rw [renders, counts_cons n passes hleft, List.sum_cons, Int.natCast_add]
    rcases Int.lt_trichotomy r.fade.left n with hlt | heq | hgt
    · -- The count runs out within this pass.
      have hover := hdefunct.mpr hlt
      rw [renders_defunct sine _ passes hover]
      refine ⟨fun _ => ⟨by omega, fun k => by omega⟩, fun _ => hover⟩
    · -- It runs out where the pass ends, and the rack plays on.
      have hover : (r.render sine n).2.isDefunct = false := by
        rw [Bool.eq_false_iff, Ne, hdefunct]
        omega
      rw [renders_playing sine _ passes hover (by omega)]
      refine ⟨fun h => absurd h Bool.false_ne_true, fun h => absurd ?_ (h.2 0)⟩
      rw [List.take_zero, List.sum_nil]
      omega
    · have hover : (r.render sine n).2.isDefunct = false := by
        rw [Bool.eq_false_iff, Ne, hdefunct]
        omega
      rw [ih _ hpasses' hover (by omega), hleft']
      constructor
      · rintro ⟨hsum, hnot⟩
        exact ⟨by omega, hnot⟩
      · rintro ⟨hsum, hnot⟩
        exact ⟨by omega, hnot⟩

theorem size_render (sine : Wave) (r : Rack) (n : Nat) (hn : n ≤ passSamples)
    (hplaying : r.isDefunct = false) : (r.render sine n).1.size = n := by
  rw [(render_playing sine r n hplaying).1, Fade.size_run, size_unfaded]
  omega

theorem renders_silent (sine : Wave) (r : Rack) (passes : List Nat)
    (hpasses : ∀ n ∈ passes, n ≤ passSamples) (hplaying : r.isDefunct = false)
    (hleft : 0 < r.fade.left) (hdefunct : (r.renders sine passes).2.isDefunct = true)
    (i : Nat) (y : Float32) (hi : r.fade.left ≤ i)
    (hy : (r.renders sine passes).1[i]? = some y) : y = 0 := by
  induction passes generalizing r i with
  | nil =>
    rw [renders] at hy
    cases hy
  | cons n passes ih =>
    have hn := hpasses n List.mem_cons_self
    have hpasses' : ∀ m ∈ passes, m ≤ passSamples :=
      fun m hm => hpasses m (List.mem_cons_of_mem n hm)
    obtain ⟨hleft', hover⟩ := render_fade sine r n hn hplaying hleft
    have hsize := size_render sine r n hn hplaying
    rw [renders] at hdefunct hy
    dsimp only at hdefunct hy
    by_cases hin : i < n
    · rw [Array.getElem?_append_left (by omega), (render_playing sine r n hplaying).1, Fade.run,
        if_pos hleft] at hy
      exact Fade.scan_silent r.fade _ i y hi hy
    · rw [Array.getElem?_append_right (by omega), hsize] at hy
      by_cases hends : r.fade.left < n
      · rw [renders_defunct sine _ passes (hover.mpr hends)] at hy
        cases hy
      · have hplaying' : (r.render sine n).2.isDefunct = false := by
          rw [Bool.eq_false_iff, Ne, hover]
          exact hends
        by_cases hleft'' : 0 < (r.render sine n).2.fade.left
        · exact ih _ hpasses' hplaying' hleft'' hdefunct (i - n) (by omega) hy
        · have hnever := renders_playing sine _ passes hplaying' (by omega)
          exact absurd (hnever.symm.trans hdefunct) Bool.false_ne_true

/-! ### Release -/

/-- The count that a release starts: the rate, read as a signed word. -/
theorem release_left (r : Rack) :
    r.release.fade.left
      = if r.rate.toNat < 2 ^ 31 then (r.rate.toNat : Int) else r.rate.toNat - 2 ^ 32 := by
  have hcount : r.release.fade.left = r.rate.toBitVec.toInt := rfl
  have hnat : r.rate.toBitVec.toNat = r.rate.toNat := rfl
  rw [hcount, BitVec.toInt_eq_toNat_cond, hnat]
  split
  · rw [if_pos (by omega)]
  · rw [if_neg (by omega)]
    rfl

theorem release_counts (r : Rack) (hfades : 0 < r.release.fade.left) :
    r.rate.toNat < 2 ^ 31 ∧ r.release.fade.left = r.rate.toNat := by
  have hleft := release_left r
  have hrate := r.rate.toNat_lt
  split at hleft
  next hlow => exact ⟨hlow, hleft⟩
  next hlow => omega

theorem release_isDefunct (sine : Wave) (r : Rack) (passes : List Nat)
    (hpasses : ∀ n ∈ passes, n ≤ passSamples) (hplaying : r.release.isDefunct = false) :
    (r.release.renders sine passes).2.isDefunct = true
      ↔ r.rate.toNat < 2 ^ 31 ∧ r.rate.toNat < passes.sum
        ∧ ∀ k, (passes.take k).sum ≠ r.rate.toNat := by
  by_cases hfades : 0 < r.release.fade.left
  · obtain ⟨hlow, hleft⟩ := release_counts r hfades
    have hcounts : (∀ k, ((passes.take k).sum : Int) ≠ r.release.fade.left)
        ↔ ∀ k, (passes.take k).sum ≠ r.rate.toNat := by
      rw [hleft]
      exact forall_congr' fun k => not_congr Int.natCast_inj
    rw [renders_isDefunct sine r.release passes hpasses hplaying hfades, hcounts, hleft,
      Int.ofNat_lt]
    exact ⟨fun h => ⟨hlow, h⟩, fun h => h.2⟩
  · -- Nothing is counted down: the rate is zero or too large for a signed word.
    rw [renders_playing sine r.release passes hplaying (by omega)]
    refine ⟨fun h => absurd h Bool.false_ne_true, ?_⟩
    rintro ⟨hlow, -, hnot⟩
    have hleft := release_left r
    have hzero := hnot 0
    rw [if_pos hlow] at hleft
    rw [List.take_zero, List.sum_nil] at hzero
    omega

theorem release_silent (sine : Wave) (r : Rack) (passes : List Nat)
    (hpasses : ∀ n ∈ passes, n ≤ passSamples)
    (hdefunct : (r.release.renders sine passes).2.isDefunct = true) (i : Nat) (y : Float32)
    (hi : r.rate.toNat ≤ i) (hy : (r.release.renders sine passes).1[i]? = some y) : y = 0 := by
  cases hplaying : r.release.isDefunct with
  | true =>
    rw [renders_defunct sine r.release passes hplaying] at hy
    cases hy
  | false =>
    by_cases hfades : 0 < r.release.fade.left
    · obtain ⟨-, hleft⟩ := release_counts r hfades
      exact renders_silent sine r.release passes hpasses hplaying hfades hdefunct i y (by omega) hy
    · have hnever := renders_playing sine r.release passes hplaying (by omega)
      exact absurd (hnever.symm.trans hdefunct) Bool.false_ne_true

/-- A released rack is defunct once it has made more samples than its rate, unless a pass ends
exactly on the last frame of that second or the rate is no signed word: then it plays on. A rack
that is defunct adds nothing more, and nothing that it added since the second was over is heard. -/
theorem release_ends (sine : Wave) (r : Rack) (passes : List Nat)
    (hpasses : ∀ n ∈ passes, n ≤ passSamples) :
    ((r.release.renders sine passes).2.isDefunct = true
        ↔ r.isDefunct = true
          ∨ r.rate.toNat < 2 ^ 31 ∧ r.rate.toNat < passes.sum
            ∧ ∀ k, (passes.take k).sum ≠ r.rate.toNat)
      ∧ ((r.release.renders sine passes).2.isDefunct = true →
          (∀ i y, r.rate.toNat ≤ i → (r.release.renders sine passes).1[i]? = some y → y = 0)
          ∧ ∀ more, (r.release.renders sine passes).2.renders sine more
              = (#[], (r.release.renders sine passes).2)) := by
  have hover : r.release.isDefunct = r.isDefunct := rfl
  refine ⟨?_, fun hdefunct => ⟨?_, fun more => renders_defunct sine _ more hdefunct⟩⟩
  · cases hplaying : r.isDefunct with
    | true =>
      rw [hplaying] at hover
      rw [renders_defunct sine r.release passes hover]
      exact ⟨fun _ => .inl rfl, fun _ => hover⟩
    | false =>
      rw [release_isDefunct sine r passes hpasses (hover.trans hplaying)]
      constructor
      · exact .inr
      · rintro (h | h)
        · cases h
        · exact h
  · intro i y hi hy
    exact release_silent sine r passes hpasses hdefunct i y hi hy

def guitarParams : EffectParams :=
  ⟨0x0f80, 0x00, 0x00, 0x60, 0x78, Definition.descriptor .pluck 0 4, 0x40, 0x10, 0x00, 0x10, 0x10⟩

def guitar : Rack := make { id := 0, program := 25, patch := .effect guitarParams } guitarParams 200
  100 0

theorem release_ends_guitar :
    (guitar.release.renders Wave.silent [150, 50, 1]).2.isDefunct = false
      ∧ (guitar.release.renders Wave.silent [150, 51]).2.isDefunct = true := by
  have hend := release_ends Wave.silent guitar [150, 51] (by decide)
  have hplay := release_ends Wave.silent guitar [150, 50, 1] (by decide)
  constructor
  · rw [Bool.eq_false_iff, Ne, hplay.1]
    rintro (h | ⟨-, -, h⟩)
    · cases h
    · exact h 2 rfl
  · refine hend.1.mpr (.inr ⟨by decide, by decide, ?_⟩)
    intro k
    rcases k with _ | _ | _ | k
    · decide
    · decide
    · decide
    · show [150, 51].sum ≠ 200
      decide

/-- More samples than the rate alone do not make a released rack defunct. -/
theorem release_outlasts_count :
    ¬ ∀ (sine : Wave) (r : Rack) (passes : List Nat),
      (∀ n ∈ passes, 0 < n ∧ n ≤ passSamples) → r.rate.toNat < passes.sum →
        (r.release.renders sine passes).2.isDefunct = true := by
  intro hall
  have hdefunct := hall Wave.silent guitar [200, 1] (by decide) (by decide)
  have hfades : 0 < guitar.release.fade.left := by decide
  have hends := renders_isDefunct Wave.silent guitar.release [200, 1] (by decide) rfl hfades
  exact (hends.mp hdefunct).2 1 rfl

end Rack

end Tonewheel
