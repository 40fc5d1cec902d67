import Tonewheel.Signal.Block

/-!
# Cutting blocks

A step that runs over a block keeps its state in between, so a block may be cut anywhere: running
over `a ++ b` is running over `a` and then, from the state reached, over `b` (`scan_append`). The
same holds for a source that makes `m + n` samples (`generate_add`), for mixing two blocks onto two
parts of equal sizes (`mix_append`) and for writing them over a buffer (`overwrite_append`).
-/

namespace Tonewheel.Block

variable {σ : Type}

theorem front_induction {motive : Block → Prop} (empty : motive #[])
    (front : ∀ x rest, motive rest → motive (#[x] ++ rest)) (block : Block) : motive block := by
  obtain ⟨xs⟩ := block
  induction xs with
  | nil => exact empty
  | cons x xs ih =>
    have hcut : (⟨x :: xs⟩ : Block) = #[x] ++ ⟨xs⟩ := by simp
    rw [hcut]
    exact front x ⟨xs⟩ ih

/-! ### Steps over a block -/

def scanStep (step : σ → Float32 → Float32 × σ) (done : Block × σ) (x : Float32) : Block × σ :=
  (done.1.push (step done.2 x).1, (step done.2 x).2)

theorem scan_eq_foldl (step : σ → Float32 → Float32 × σ) (s : σ) (block : Block) :
    scan step s block = block.foldl (scanStep step) (#[], s) := rfl

theorem foldl_scanStep (step : σ → Float32 → Float32 × σ) (out : Block) (s : σ) (block : Block) :
    block.foldl (scanStep step) (out, s)
      = (out ++ (scan step s block).1, (scan step s block).2) := by
  simp only [scan_eq_foldl]
  induction block using front_induction generalizing out s with
  | empty => simp
  | front x rest ih =>
    rw [Array.foldl_append, Array.foldl_append]
    have hone : ∀ done : Block × σ, #[x].foldl (scanStep step) done = scanStep step done x :=
      fun _ => rfl
    rw [hone, hone]
    simp only [scanStep]
    rw [ih (out.push (step s x).1), ih (#[].push (step s x).1)]
    simp

@[simp]
theorem scan_empty (step : σ → Float32 → Float32 × σ) (s : σ) : scan step s #[] = (#[], s) := rfl

theorem scan_append (step : σ → Float32 → Float32 × σ) (s : σ) (a b : Block) :
    scan step s (a ++ b)
      = ((scan step s a).1 ++ (scan step (scan step s a).2 b).1,
          (scan step (scan step s a).2 b).2) := by
  rw [scan_eq_foldl, Array.foldl_append, ← scan_eq_foldl step s a]
  exact foldl_scanStep step (scan step s a).1 (scan step s a).2 b

theorem scan_front (step : σ → Float32 → Float32 × σ) (s : σ) (x : Float32) (rest : Block) :
    scan step s (#[x] ++ rest)
      = (#[(step s x).1] ++ (scan step (step s x).2 rest).1, (scan step (step s x).2 rest).2) :=
  scan_append step s #[x] rest

@[simp]
theorem size_scan (step : σ → Float32 → Float32 × σ) (s : σ) (block : Block) :
    (scan step s block).1.size = block.size := by
  induction block using front_induction generalizing s with
  | empty => rfl
  | front x rest ih => rw [scan_front, Array.size_append, Array.size_append, ih]; rfl

/-! ### Sources -/

theorem generateOnto_eq (step : σ → Float32 × σ) (n : Nat) (s : σ) (out : Block) :
    generateOnto step n s out = (out ++ (generate step n s).1, (generate step n s).2) := by
  induction n generalizing s out with
  | zero => simp [generate, generateOnto]
  | succ n ih =>
    simp only [generate, generateOnto]
    rw [ih (step s).2 (out.push (step s).1), ih (step s).2 (#[].push (step s).1)]
    simp

@[simp]
theorem generate_zero (step : σ → Float32 × σ) (s : σ) : generate step 0 s = (#[], s) := rfl

theorem generate_succ (step : σ → Float32 × σ) (n : Nat) (s : σ) :
    generate step (n + 1) s
      = (#[(step s).1] ++ (generate step n (step s).2).1, (generate step n (step s).2).2) :=
  generateOnto_eq step n (step s).2 #[(step s).1]

/-- A source that is another one seen through a map makes the same samples. -/
theorem generate_map {τ : Type} (f : σ → τ) (inner : σ → Float32 × σ) (outer : τ → Float32 × τ)
    (h : ∀ s, outer (f s) = ((inner s).1, f (inner s).2)) (n : Nat) (s : σ) :
    generate outer n (f s) = ((generate inner n s).1, f (generate inner n s).2) := by
  induction n generalizing s with
  | zero => rfl
  | succ n ih =>
    simp only [generate_succ]
    rw [h, ih]

/-- A source that makes `m + n` samples makes `m` and then `n`. -/
theorem generate_add (step : σ → Float32 × σ) (m n : Nat) (s : σ) :
    generate step (m + n) s
      = ((generate step m s).1 ++ (generate step n (generate step m s).2).1,
          (generate step n (generate step m s).2).2) := by
  have hcut := generateOnto_add step m n s #[]
  rw [generateOnto_eq step n] at hcut
  exact hcut

@[simp]
theorem size_generate (step : σ → Float32 × σ) (n : Nat) (s : σ) :
    (generate step n s).1.size = n := by
  induction n generalizing s with
  | zero => rfl
  | succ n ih =>
    rw [generate_succ]
    simp only [Array.size_append, ih, List.size_toArray, List.length_cons, List.length_nil]
    omega

/-! ### Mixing -/

theorem mix_eq_zipWith (out block : Block) (h : out.size = block.size) :
    mix out block = Array.zipWith (· + ·) out block := by
  have hrest : out.extract block.size = #[] :=
    Array.extract_empty_of_size_le_start (Nat.le_of_eq h)
  rw [mix, hrest, Array.append_empty]

theorem mix_append (a b x y : Block) (ha : a.size = x.size) (hb : b.size = y.size) :
    mix (a ++ b) (x ++ y) = mix a x ++ mix b y := by
  have hsize : (a ++ b).size = (x ++ y).size := by
    rw [Array.size_append, Array.size_append, ha, hb]
  rw [mix_eq_zipWith _ _ hsize, mix_eq_zipWith _ _ ha, mix_eq_zipWith _ _ hb,
    Array.zipWith_append ha]

theorem size_mix (out block : Block) (h : block.size ≤ out.size) :
    (mix out block).size = out.size := by
  rw [mix, Array.size_append, Array.size_zipWith, Array.size_extract]
  omega

/-! ### Overwriting -/

def overwriteStep (done : Block × Nat) (x : Float32) : Block × Nat :=
  (done.1.setIfInBounds done.2 x, done.2 + 1)

theorem foldl_overwriteStep (buffer : Block) (start : Nat) (block : Block) :
    block.foldl overwriteStep (buffer, start)
      = (overwrite buffer start block, start + block.size) := by
  refine Prod.ext rfl ?_
  show (block.foldl overwriteStep (buffer, start)).2 = start + block.size
  induction block using front_induction generalizing buffer start with
  | empty => rfl
  | front x rest ih =>
    have hone : #[x].foldl overwriteStep (buffer, start)
        = (buffer.setIfInBounds start x, start + 1) := rfl
    rw [Array.foldl_append, hone, ih, Array.size_append]
    show start + 1 + rest.size = start + (1 + rest.size)
    omega

@[simp]
theorem overwrite_empty (buffer : Block) (start : Nat) : overwrite buffer start #[] = buffer := rfl

theorem overwrite_append (buffer : Block) (start : Nat) (x y : Block) :
    overwrite buffer start (x ++ y)
      = overwrite (overwrite buffer start x) (start + x.size) y := by
  have hleft : overwrite buffer start (x ++ y)
      = ((x ++ y).foldl overwriteStep (buffer, start)).1 := rfl
  rw [hleft, Array.foldl_append, foldl_overwriteStep, foldl_overwriteStep]

theorem overwrite_front (buffer : Block) (start : Nat) (x : Float32) (rest : Block) :
    overwrite buffer start (#[x] ++ rest)
      = overwrite (buffer.setIfInBounds start x) (start + 1) rest :=
  overwrite_append buffer start #[x] rest

theorem size_overwrite (buffer : Block) (start : Nat) (block : Block) :
    (overwrite buffer start block).size = buffer.size := by
  induction block using front_induction generalizing buffer start with
  | empty => rfl
  | front x rest ih => rw [overwrite_front, ih, Array.size_setIfInBounds]

theorem getElem?_overwrite_before (buffer : Block) (start i : Nat) (block : Block)
    (h : i < start) : (overwrite buffer start block)[i]? = buffer[i]? := by
  induction block using front_induction generalizing buffer start with
  | empty => rfl
  | front x rest ih =>
    rw [overwrite_front, ih _ _ (by omega), Array.getElem?_setIfInBounds_ne (by omega)]

theorem getElem?_overwrite_behind (buffer : Block) (start i : Nat) (block : Block)
    (h : start + block.size ≤ i) : (overwrite buffer start block)[i]? = buffer[i]? := by
  induction block using front_induction generalizing buffer start with
  | empty => rfl
  | front x rest ih =>
    have hsize : (#[x] ++ rest : Block).size = 1 + rest.size := Array.size_append
    rw [overwrite_front, ih _ _ (by omega), Array.getElem?_setIfInBounds_ne (by omega)]

theorem getElem?_overwrite_within (buffer : Block) (start j : Nat) (block : Block)
    (hfit : start + block.size ≤ buffer.size) (hj : j < block.size) :
    (overwrite buffer start block)[start + j]? = block[j]? := by
  induction block using front_induction generalizing buffer start j with
  | empty => exact absurd hj (Nat.not_lt_zero j)
  | front x rest ih =>
    have hsize : (#[x] ++ rest : Block).size = 1 + rest.size := Array.size_append
    have hone : (#[x] : Block).size = 1 := rfl
    rw [overwrite_front]
    cases j with
    | zero =>
      rw [Nat.add_zero start, getElem?_overwrite_before _ _ _ _ (Nat.lt_add_one start),
        Array.getElem?_append_left Nat.one_pos]
      exact Array.getElem?_setIfInBounds_self_of_lt (by omega)
    | succ j =>
      have hplace : start + (j + 1) = start + 1 + j := by omega
      rw [hplace, ih _ _ _ (by rw [Array.size_setIfInBounds]; omega) (by omega),
        Array.getElem?_append_right (Nat.le_add_left 1 j), hone, Nat.add_sub_cancel]

theorem extract_overwrite_before (buffer : Block) (start last : Nat) (block : Block)
    (h : last ≤ start) : (overwrite buffer start block).extract 0 last = buffer.extract 0 last := by
  apply Array.ext_getElem?
  intro i
  simp only [Array.getElem?_extract, size_overwrite, Nat.zero_add]
  split
  next hi => exact getElem?_overwrite_before buffer start i block (by omega)
  next => rfl

theorem extract_overwrite_behind (buffer : Block) (start first last : Nat) (block : Block)
    (h : start + block.size ≤ first) :
    (overwrite buffer start block).extract first last = buffer.extract first last := by
  apply Array.ext_getElem?
  intro i
  simp only [Array.getElem?_extract, size_overwrite]
  split
  · exact getElem?_overwrite_behind buffer start (first + i) block (by omega)
  · rfl

/-! ### Silence -/

@[simp]
theorem size_silence (n : Nat) : (silence n).size = n := Array.size_replicate

theorem silence_add (m n : Nat) : silence (m + n) = silence m ++ silence n :=
  Array.replicate_append_replicate.symm

end Tonewheel.Block
