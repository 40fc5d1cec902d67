import Tonewheel.Proofs.Numeric.WholeNumbers
import Tonewheel.Proofs.Signal.Blocks
import Tonewheel.Signal.Delay

/-!
# Delay lines

A ring holds the last samples that were written to it, and zeros for the time before the first: the
cell `back` places before the head is the sample of `back` writes ago (`Ring.Remembers`), and a write
keeps this for any size. So a tape does what its difference equation says, however its input comes in
blocks (`Tape.difference_equation`), and a detune line gives back the sample of as many steps ago as
its phase asks for (`Detune.variable_delay`).
-/

namespace Tonewheel

/-- The state after the first samples of a sequence. -/
def reached {σ α β : Type} (step : σ → α → β × σ) (s : σ) (input : Nat → α) : Nat → σ
  | 0 => s
  | t + 1 => (step (reached step s input t) (input t)).2

theorem reached_shift {σ α β : Type} (step : σ → α → β × σ) (s : σ) (input : Nat → α) (t : Nat) :
    reached step s input (t + 1)
      = reached step (step s (input 0)).2 (fun k => input (k + 1)) t := by
  induction t with
  | zero => rfl
  | succ t ih => rw [reached, ih, reached]

/-- The sample of a sequence `back` places before place `t`, and zero before its start. -/
def ago (s : Nat → Float32) (t back : Nat) : Float32 := if t < back then 0 else s (t - back)

@[simp]
theorem ago_now (s : Nat → Float32) (t : Nat) : ago s t 0 = s t := rfl

theorem ago_next (s : Nat → Float32) (t back : Nat) : ago s (t + 1) (back + 1) = ago s t back := by
  simp [ago]

/-! ### Rings -/

namespace Ring

/-- The number of the cell `back` places before the head. -/
def place (r : Ring) (back : Nat) : Nat :=
  if r.head.val < back then r.head.val + r.size - back else r.head.val - back

theorem place_lt (r : Ring) {back : Nat} (h : back ≤ r.size) : r.place back < r.size := by
  have hhead := r.head.isLt
  unfold place
  split <;> omega

theorem place_ne_head (r : Ring) {back : Nat} (hpos : 0 < back) (h : back < r.size) :
    r.place back ≠ r.head.val := by
  have hhead := r.head.isLt
  unfold place
  split <;> omega

theorem place_size (r : Ring) : r.place r.size = r.head.val := by
  have hhead := r.head.isLt
  unfold place
  split <;> omega

theorem place_write (r : Ring) (x : Float32) (back : Nat) : (r.write x).place back = r.place back :=
  rfl

theorem following_val {n : Nat} (i : Fin n) :
    (following i).val = if i.val + 1 < n then i.val + 1 else 0 := by
  unfold following
  split <;> rfl

theorem head_turn (r : Ring) :
    r.turn.head.val = if r.head.val + 1 < r.size then r.head.val + 1 else 0 :=
  following_val r.head

/-- When the head moves on, each cell is one place further behind it. -/
theorem place_turn (r : Ring) {back : Nat} (h : back < r.size) :
    r.turn.place (back + 1) = r.place back := by
  have hhead := r.head.isLt
  have hsize : r.turn.size = r.size := rfl
  unfold place
  rw [head_turn, hsize]
  split
  · split <;> split <;> omega
  · split <;> split <;> omega

theorem cells_write (r : Ring) (x : Float32) (i : Nat) :
    (r.write x).cells[i]? = if i = r.head.val then some x else r.cells[i]? := by
  have hhead := r.head.isLt
  show (r.cells.set r.head.val x r.head.isLt)[i]? = _
  rw [Vector.getElem?_set]
  by_cases h : i = r.head.val
  · simp [h]
  · simp [h, Ne.symm h]

/-- Whether a ring holds the last samples of a sequence of which `t` have been written. -/
def Remembers (r : Ring) (s : Nat → Float32) (t : Nat) : Prop :=
  ∀ back, 0 < back → back ≤ r.size → r.cells[r.place back]? = some (ago s t back)

theorem remembers_silent (frames : Nat) (s : Nat → Float32) : (silent frames).Remembers s 0 := by
  intro back hpos hback
  have hzero : ago s 0 back = 0 := if_pos hpos
  have hplace : (silent frames).place back < max frames 1 := (silent frames).place_lt hback
  show (Vector.replicate (max frames 1) (0 : Float32))[(silent frames).place back]? = _
  rw [hzero, Vector.getElem?_replicate, if_pos hplace]

namespace Remembers

variable {r : Ring} {s : Nat → Float32} {t : Nat}

theorem front_eq (h : r.Remembers s t) : r.front = ago s t r.size := by
  have hhead := r.head.isLt
  have hcell := h r.size (by omega) (Nat.le_refl r.size)
  rw [place_size, Vector.getElem?_eq_getElem hhead] at hcell
  exact Option.some.inj hcell

/-- Once the next sample is written, the head is at the sample of no places ago. -/
theorem write (h : r.Remembers s t) {back : Nat} (hback : back < r.size) :
    (r.write (s t)).cells[r.place back]? = some (ago s t back) := by
  rw [cells_write]
  rcases Nat.eq_zero_or_pos back with rfl | hpos
  · have hplace : r.place 0 = r.head.val := by simp [place]
    rw [if_pos hplace, ago_now]
  · rw [if_neg (r.place_ne_head hpos hback)]
    exact h back hpos (Nat.le_of_lt hback)

theorem turn (h : r.Remembers s t) : (r.write (s t)).turn.Remembers s (t + 1) := by
  intro back hpos hback
  obtain ⟨k, rfl⟩ : ∃ k, back = k + 1 := ⟨back - 1, by omega⟩
  have hk : k < r.size := hback
  have hplace : (r.write (s t)).turn.place (k + 1) = (r.write (s t)).place k :=
    (r.write (s t)).place_turn hk
  rw [hplace, place_write, ago_next]
  exact h.write hk

end Remembers

theorem getElem?_place (r : Ring) (back : Fin r.size) :
    r.cells[r.place back.val]? = some (r.behind back) := by
  have hback := back.isLt
  have hhead := r.head.isLt
  have hplace := r.place_lt (Nat.le_of_lt hback)
  rw [Vector.getElem?_eq_getElem hplace]
  refine congrArg some ?_
  unfold behind
  split
  next h => exact getElem_congr_idx (if_pos h)
  next h => exact getElem_congr_idx (if_neg h)

end Ring

/-! ### Tapes -/

namespace Tape

variable (frames : Nat) (dry wet store feedback : Float32) (x : Nat → Float32)

def after (t : Nat) : Tape := reached step (withCoefficients frames dry wet store feedback) x t

def recorded (t : Nat) : Float32 :=
  x t * store + (after frames dry wet store feedback x t).ring.front * feedback

theorem after_eq (t : Nat) :
    ∃ ring : Ring, after frames dry wet store feedback x t = ⟨dry, wet, store, feedback, ring⟩
      ∧ ring.size = max 1 frames
      ∧ ring.Remembers (recorded frames dry wet store feedback x) t := by
  induction t with
  | zero => exact ⟨.silent frames, rfl, Nat.max_comm frames 1, Ring.remembers_silent frames _⟩
  | succ t ih =>
    obtain ⟨ring, hafter, hsize, hremembers⟩ := ih
    have hrecorded : recorded frames dry wet store feedback x t
        = x t * store + ring.front * feedback := by
      rw [recorded, hafter]
    have hstep : after frames dry wet store feedback x (t + 1)
        = ⟨dry, wet, store, feedback,
          (ring.write (recorded frames dry wet store feedback x t)).turn⟩ := by
      show ((after frames dry wet store feedback x t).step (x t)).2 = _
      rw [hafter, hrecorded]
      rfl
    exact ⟨_, hstep, hsize, hremembers.turn⟩

theorem recorded_eq (t : Nat) :
    recorded frames dry wet store feedback x t
      = x t * store
        + ago (recorded frames dry wet store feedback x) t (max 1 frames) * feedback := by
  obtain ⟨ring, hafter, hsize, hremembers⟩ := after_eq frames dry wet store feedback x t
  rw [← hsize, ← hremembers.front_eq, recorded, hafter]

theorem step_after (t : Nat) :
    ((after frames dry wet store feedback x t).step (x t)).1
      = x t * dry
        + ago (recorded frames dry wet store feedback x) t (max 1 frames) * wet := by
  obtain ⟨ring, hafter, hsize, hremembers⟩ := after_eq frames dry wet store feedback x t
  rw [hafter, ← hsize, ← hremembers.front_eq]
  rfl

end Tape

/-! ### Blocks -/

namespace Block

def join (blocks : List Block) : Block := blocks.foldr (· ++ ·) #[]

def samples (block : Block) (t : Nat) : Float32 := block.getD t 0

theorem getElem?_front (y : Float32) (rest : Block) : (#[y] ++ rest)[0]? = some y := by
  rw [Array.getElem?_append_left (show 0 < #[y].size from Nat.zero_lt_one)]
  rfl

theorem samples_front_zero (y : Float32) (rest : Block) : samples (#[y] ++ rest) 0 = y := by
  rw [samples, Array.getD_eq_getD_getElem?, getElem?_front]
  rfl

theorem samples_front_succ (y : Float32) (rest : Block) (t : Nat) :
    samples (#[y] ++ rest) (t + 1) = samples rest t := by
  simp [samples, Array.getD_eq_getD_getElem?, Array.getElem?_append]

/-- What a step makes of a sample comes from the state that the samples before lead to. -/
theorem getElem?_scan {σ : Type} (step : σ → Float32 → Float32 × σ) (s : σ) (block : Block) {t : Nat}
    (h : t < block.size) :
    (scan step s block).1[t]?
      = some (step (reached step s block.samples t) (block.samples t)).1 := by
  induction block using front_induction generalizing s t with
  | empty => cases h
  | front y rest ih =>
    rw [scan_front]
    cases t with
    | zero => rw [getElem?_front, reached, samples_front_zero]
    | succ t =>
      have hrest : t < rest.size := by
        rw [Array.size_append] at h
        simp at h
        omega
      have hshift : (fun k => samples (#[y] ++ rest) (k + 1)) = rest.samples :=
        funext (samples_front_succ y rest)
      rw [reached_shift, samples_front_zero, hshift, samples_front_succ, ← ih _ hrest]
      simp [Array.getElem?_append]

end Block

namespace Tape

/-- What the calls give that pass some blocks through a tape, and the tape after them. -/
def renders (t : Tape) : List Block → List Block × Tape
  | [] => ([], t)
  | block :: blocks =>
    ((t.render block).1 :: ((t.render block).2.renders blocks).1,
      ((t.render block).2.renders blocks).2)

theorem size_renders (t : Tape) (blocks : List Block) :
    (t.renders blocks).1.map Array.size = blocks.map Array.size := by
  induction blocks generalizing t with
  | nil => rfl
  | cons block blocks ih =>
    rw [renders, List.map_cons, List.map_cons, ih]
    exact congrArg (· :: blocks.map Array.size) (Block.size_scan step t block)

/-- The tape does not hear where one block ends and the next begins. -/
theorem join_renders (t : Tape) (blocks : List Block) :
    Block.join (t.renders blocks).1 = (t.render (Block.join blocks)).1 := by
  induction blocks generalizing t with
  | nil => rfl
  | cons block blocks ih =>
    show (t.render block).1 ++ Block.join ((t.render block).2.renders blocks).1
      = (Block.scan step t (block ++ Block.join blocks)).1
    rw [ih, Block.scan_append]
    rfl

/-- A tape of any length gives out what its difference equation says, sample by sample: what is
recorded is the input and what was recorded a length of the tape ago, and so is what is heard. -/
theorem difference_equation (frames : Nat) (dry wet store feedback : Float32)
    (blocks : List Block) :
    let x := (Block.join blocks).samples
    let out := ((withCoefficients frames dry wet store feedback).renders blocks).1
    out.map Array.size = blocks.map Array.size
      ∧ ∃ s : Nat → Float32,
        (∀ t, s t = x t * store + ago s t (max 1 frames) * feedback)
          ∧ ∀ t < (Block.join blocks).size,
            (Block.join out)[t]? = some (x t * dry + ago s t (max 1 frames) * wet) := by
  intro x out
  refine ⟨size_renders _ blocks, recorded frames dry wet store feedback x,
    recorded_eq frames dry wet store feedback x, fun t ht => ?_⟩
  have hout : (Block.join out)[t]?
      = some ((after frames dry wet store feedback x t).step (x t)).1 := by
    rw [join_renders]
    exact Block.getElem?_scan step _ (Block.join blocks) ht
  rw [hout, step_after]

end Tape

/-! ### Detune lines -/

namespace Detune

theorem step_eq (d : Detune) (x phase : Float32) :
    d.step x phase
      = ((d.ring.write x).behind (d.reach phase), ⟨d.half, (d.ring.write x).turn⟩) := rfl

/-- A detune line after the first samples of a sequence, each with its phase. -/
def after (frames : Nat) (input phase : Nat → Float32) (t : Nat) : Detune :=
  reached (fun d sample => d.step sample.1 sample.2) (ofFrames frames)
    (fun k => (input k, phase k)) t

theorem mod_succ (t : Nat) {n : Nat} (h : 0 < n) :
    (t + 1) % n = if t % n + 1 < n then t % n + 1 else 0 := by
  have hless := Nat.mod_lt t h
  rw [Nat.add_mod_eq_add_mod_right 1 (Nat.mod_mod t n).symm]
  split
  next hshort => exact Nat.mod_eq_of_lt hshort
  next hlong =>
    have hround : t % n + 1 = n := by omega
    rw [hround, Nat.mod_self]

theorem after_eq (frames : Nat) (input phase : Nat → Float32) (t : Nat) :
    ∃ ring : Ring, after frames input phase t = ⟨(max 1 frames).toUInt64.toFloat32 * 0.5, ring⟩
      ∧ ring.size = max 1 frames ∧ ring.head.val = t % max 1 frames ∧ ring.Remembers input t := by
  induction t with
  | zero =>
    have hmax := Nat.max_comm frames 1
    refine ⟨.silent frames, ?_, hmax, (Nat.zero_mod _).symm, Ring.remembers_silent frames input⟩
    rw [← hmax]
    rfl
  | succ t ih =>
    obtain ⟨ring, hafter, hsize, hhead, hremembers⟩ := ih
    have hstep : after frames input phase (t + 1)
        = ⟨(max 1 frames).toUInt64.toFloat32 * 0.5, (ring.write (input t)).turn⟩ := by
      show ((after frames input phase t).step (input t) (phase t)).2 = _
      rw [hafter]
      rfl
    refine ⟨_, hstep, hsize, ?_, hremembers.turn⟩
    have hturn := (ring.write (input t)).head_turn
    have hsame : (ring.write (input t)).head.val = ring.head.val := rfl
    have hlong : (ring.write (input t)).size = ring.size := rfl
    rw [hturn, hsame, hlong, hhead, hsize, mod_succ t (by omega)]

/-- A line of any length gives back the sample that was written as many steps ago as the phase says,
between none and one less than its length. It writes and reads inside its ring. -/
theorem variable_delay (frames : UInt64) (input phase : Nat → Float32) (t : Nat) :
    let len := max 1 frames.toNat
    let half := len.toUInt64.toFloat32 * 0.5
    let back := Single.heldRound (len - 1) ((phase t + 1) * half).toModel.unpack
    let line := after frames.toNat input phase t
    let out := (line.step (input t) (phase t)).1
    line.ring.size = len ∧ line.ring.head.val = t % len
      ∧ back < len ∧ line.ring.place back < len
      ∧ (line.ring.write (input t)).cells[line.ring.place back]? = some out
      ∧ out = ago input t back := by
  intro len half back line out
  obtain ⟨ring, hafter, hsize, hhead, hremembers⟩ := after_eq frames.toNat input phase t
  have hline : line = ⟨half, ring⟩ := hafter
  have hframes := frames.toNat_lt
  have hsmall : len - 1 < 2 ^ 64 := by omega
  have hreach : (line.reach (phase t)).val = back := by
    have hround := Single.min_nearest ((phase t + 1) * half) hsmall
    rw [hline]
    show min (Single.nearest ((phase t + 1) * half)) (ring.size - 1) = back
    rw [hsize]
    exact hround
  have hsize' : line.ring.size = len := by
    rw [hline]
    exact hsize
  have hback : back < line.ring.size := hreach ▸ (line.reach (phase t)).isLt
  have hplace := line.ring.place_lt (Nat.le_of_lt hback)
  have hread : (line.ring.write (input t)).cells[line.ring.place back]? = some out := by
    rw [← hreach]
    exact (line.ring.write (input t)).getElem?_place (line.reach (phase t))
  have hholds : line.ring.Remembers input t := by
    rw [hline]
    exact hremembers
  refine ⟨hsize', ?_, by omega, by omega, hread, ?_⟩
  · rw [hline]
    exact hhead
  · rw [hholds.write hback] at hread
    exact (Option.some.inj hread).symm

end Detune

end Tonewheel
