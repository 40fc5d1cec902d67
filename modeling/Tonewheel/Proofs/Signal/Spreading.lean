import Tonewheel.Proofs.Signal.Blocks

/-!
# Spreading a buffer over its channels (SPEC_FULL, section 4.6)

A buffer is spread in place, so what is written for one frame takes the places of samples of others.
The frames are written from the last one on. While some are pending, the front of the buffer, which
they will be read from, is as it was, and the frames behind it are done (`Spreading`). One more frame
keeps this, since its places begin at or behind the sample that it is read from (`Spreading.step`);
with none pending all samples have been carried over (`spread_spreading`).
-/

namespace Tonewheel.Block

variable {buffer old : Block} {frames channels pending : Nat}

/-! ### One frame -/

theorem spreadFrame_eq {frame : Nat} {x : Float32} (h : buffer[frame]? = some x) :
    spreadFrame channels buffer frame
      = overwrite buffer (frame * channels) (Array.replicate channels x) := by
  rw [spreadFrame, h]

theorem size_spreadFrame (channels : Nat) (buffer : Block) (frame : Nat) :
    (spreadFrame channels buffer frame).size = buffer.size := by
  unfold spreadFrame
  split
  · exact size_overwrite _ _ _
  · rfl

theorem getElem?_spreadFrame_before {frame k : Nat} (h : k < frame * channels) :
    (spreadFrame channels buffer frame)[k]? = buffer[k]? := by
  unfold spreadFrame
  split
  · exact getElem?_overwrite_before _ _ _ _ h
  · rfl

theorem getElem?_spreadFrame_behind {frame k : Nat} (h : (frame + 1) * channels ≤ k) :
    (spreadFrame channels buffer frame)[k]? = buffer[k]? := by
  unfold spreadFrame
  split
  · rw [Nat.succ_mul] at h
    exact getElem?_overwrite_behind _ _ _ _ (by rw [Array.size_replicate]; exact h)
  · rfl

theorem getElem?_spreadFrame_within {frame j : Nat} (hfit : (frame + 1) * channels ≤ buffer.size)
    (hj : j < channels) :
    (spreadFrame channels buffer frame)[frame * channels + j]? = buffer[frame]? := by
  rw [Nat.succ_mul] at hfit
  have hplace : frame ≤ frame * channels :=
    Nat.le_mul_of_pos_right frame (Nat.lt_of_le_of_lt (Nat.zero_le j) hj)
  have hread : buffer[frame]? = some buffer[frame] := Array.getElem?_eq_getElem (by omega)
  have hsize : (Array.replicate channels buffer[frame]).size = channels := Array.size_replicate
  rw [spreadFrame_eq hread, getElem?_overwrite_within _ _ _ _ (by omega) (by omega),
    Array.getElem?_replicate, if_pos hj, hread]

/-! ### All frames -/

/-- A buffer that is being spread from what it was of old, when its first `pending` frames are not
yet written. -/
structure Spreading (old : Block) (frames channels pending : Nat) (buffer : Block) : Prop where
  size_eq : buffer.size = old.size
  unread : ∀ i < pending, buffer[i]? = old[i]?
  done : ∀ i, pending ≤ i → i < frames → ∀ j < channels, buffer[i * channels + j]? = old[i]?
  behind : ∀ k, frames * channels ≤ k → buffer[k]? = old[k]?

theorem Spreading.start (old : Block) (frames channels : Nat) :
    Spreading old frames channels frames old where
  size_eq := rfl
  unread _ _ := rfl
  done _ hi hframes := absurd hframes (Nat.not_lt.mpr hi)
  behind _ _ := rfl

theorem Spreading.step (hpos : 0 < channels) (hfit : frames * channels ≤ old.size)
    (hpending : pending < frames) (h : Spreading old frames channels (pending + 1) buffer) :
    Spreading old frames channels pending (spreadFrame channels buffer pending) := by
  have hplace : pending ≤ pending * channels := Nat.le_mul_of_pos_right pending hpos
  have hend : (pending + 1) * channels ≤ frames * channels := Nat.mul_le_mul_right channels hpending
  refine ⟨?_, ?_, ?_, ?_⟩
  · rw [size_spreadFrame]
    exact h.size_eq
  · intro i hi
    rw [getElem?_spreadFrame_before (Nat.lt_of_lt_of_le hi hplace)]
    exact h.unread i (Nat.lt_succ_of_lt hi)
  · intro i hi hframes j hj
    rcases Nat.eq_or_lt_of_le hi with rfl | hlater
    · -- What is read for the frame has not been written over.
      rw [getElem?_spreadFrame_within (by rw [h.size_eq]; exact Nat.le_trans hend hfit) hj]
      exact h.unread pending (Nat.lt_succ_self pending)
    · have hdone : (pending + 1) * channels ≤ i * channels := Nat.mul_le_mul_right channels hlater
      rw [getElem?_spreadFrame_behind (Nat.le_trans hdone (Nat.le_add_right _ j))]
      exact h.done i hlater hframes j hj
  · intro k hk
    rw [getElem?_spreadFrame_behind (Nat.le_trans hend hk)]
    exact h.behind k hk

theorem Spreading.run (hpos : 0 < channels) (hfit : frames * channels ≤ old.size)
    (hpending : pending ≤ frames) (h : Spreading old frames channels pending buffer) :
    Spreading old frames channels 0 (spreadFrames channels pending buffer) := by
  induction pending generalizing buffer with
  | zero => exact h
  | succ pending ih =>
    rw [spreadFrames]
    exact ih (Nat.le_of_succ_le hpending) (h.step hpos hfit hpending)

theorem spread_spreading (hpos : 0 < channels) (hfit : frames * channels ≤ buffer.size) :
    Spreading buffer frames channels 0 (spread buffer frames channels) := by
  unfold spread
  split
  next hfew =>
    -- On one channel each frame is where it has to be.
    obtain rfl : channels = 1 := by omega
    refine ⟨rfl, fun _ _ => rfl, fun i _ _ j hj => ?_, fun _ _ => rfl⟩
    rw [Nat.lt_one_iff.mp hj, Nat.mul_one, Nat.add_zero]
  next => exact (Spreading.start buffer frames channels).run hpos hfit (Nat.le_refl frames)

theorem size_spreadFrames (channels frames : Nat) (buffer : Block) :
    (spreadFrames channels frames buffer).size = buffer.size := by
  induction frames generalizing buffer with
  | zero => rfl
  | succ frame ih => rw [spreadFrames, ih, size_spreadFrame]

theorem size_spread (buffer : Block) (frames channels : Nat) :
    (spread buffer frames channels).size = buffer.size := by
  unfold spread
  split
  · rfl
  · exact size_spreadFrames channels frames buffer

/-! ### Within the buffer -/

/-- Spreads frames with every place checked: nothing where one is read or written past the end. -/
def spreadFrames? (channels : Nat) : Nat → Block → Option Block
  | 0, buffer => some buffer
  | frame + 1, buffer =>
    buffer[frame]?.bind fun x =>
      if (frame + 1) * channels ≤ buffer.size then
        spreadFrames? channels frame
          (overwrite buffer (frame * channels) (Array.replicate channels x))
      else none

def spread? (buffer : Block) (frames channels : Nat) : Option Block :=
  if channels < 2 then some buffer else spreadFrames? channels frames buffer

theorem spreadFrames?_eq (hpos : 0 < channels) (hfit : frames * channels ≤ buffer.size) :
    spreadFrames? channels frames buffer = some (spreadFrames channels frames buffer) := by
  induction frames generalizing buffer with
  | zero => rfl
  | succ frame ih =>
    have hframe : (frame + 1) * channels = frame * channels + channels := Nat.succ_mul frame channels
    have hplace : frame ≤ frame * channels := Nat.le_mul_of_pos_right frame hpos
    have hheld : frame < buffer.size := by omega
    have hread : buffer[frame]? = some buffer[frame] := Array.getElem?_eq_getElem hheld
    rw [spreadFrames?, spreadFrames, hread, Option.bind_some, if_pos hfit, spreadFrame_eq hread]
    exact ih (by rw [size_overwrite]; omega)

/-- With room for its frames, nothing is read or written past the end of a buffer. -/
theorem spread?_eq (hpos : 0 < channels) (hfit : frames * channels ≤ buffer.size) :
    spread? buffer frames channels = some (spread buffer frames channels) := by
  unfold spread? spread
  split
  · rfl
  · exact spreadFrames?_eq hpos hfit

/-! ### As a value -/

theorem size_flatMap_replicate (block : Block) (channels : Nat) :
    (block.flatMap (Array.replicate channels)).size = block.size * channels := by
  induction block using front_induction with
  | empty => simp
  | front x rest ih =>
    rw [Array.flatMap_append, Array.size_append, ih, Array.size_append, Nat.add_mul]
    simp

theorem getElem?_flatMap_frame (block : Block) {n j : Nat} (hj : j < n) (i : Nat) :
    (block.flatMap (Array.replicate n))[i * n + j]? = block[i]? := by
  induction block using front_induction generalizing i with
  | empty => rfl
  | front x rest ih =>
    have hfront : (#[x] : Block).flatMap (Array.replicate n) = Array.replicate n x := by
      simp
    have hsize : (Array.replicate n x).size = n := Array.size_replicate
    rw [Array.flatMap_append, hfront]
    cases i with
    | zero =>
      rw [Nat.zero_mul, Nat.zero_add, Array.getElem?_append_left (by omega),
        Array.getElem?_replicate, if_pos hj, Array.getElem?_append_left Nat.one_pos]
      rfl
    | succ i =>
      have hbehind : (i + 1) * n + j = n + (i * n + j) := by
        rw [Nat.succ_mul]
        omega
      rw [hbehind, Array.getElem?_append_right (by omega), hsize, Nat.add_sub_cancel_left, ih,
        Array.getElem?_append_right (Nat.le_add_left 1 i)]
      rfl

theorem getElem?_flatMap_replicate (block : Block) {n : Nat} (hn : 0 < n) (i : Nat) :
    (block.flatMap (Array.replicate n))[i * n]? = block[i]? :=
  getElem?_flatMap_frame block hn i

theorem spread_eq (hpos : 0 < channels) (hfit : frames * channels ≤ buffer.size) :
    spread buffer frames channels
      = (buffer.extract 0 frames).flatMap (Array.replicate channels)
        ++ buffer.extract (frames * channels) := by
  have hspread := spread_spreading hpos hfit
  have hframes : frames ≤ frames * channels := Nat.le_mul_of_pos_right frames hpos
  have hfront : (buffer.extract 0 frames).size = frames := by
    rw [Array.size_extract]
    omega
  have hsize := size_flatMap_replicate (buffer.extract 0 frames) channels
  rw [hfront] at hsize
  apply Array.ext_getElem?
  intro k
  rcases Nat.lt_or_ge k (frames * channels) with hk | hk
  · have hframe : k / channels < frames := (Nat.div_lt_iff_lt_mul hpos).mpr hk
    have hchannel : k % channels < channels := Nat.mod_lt k hpos
    rw [Array.getElem?_append_left (by omega), ← Nat.div_add_mod' k channels,
      hspread.done _ (Nat.zero_le _) hframe _ hchannel, getElem?_flatMap_frame _ hchannel,
      Array.getElem?_extract, if_pos (by omega), Nat.zero_add]
  · have hplace : frames * channels + (k - frames * channels) = k := Nat.add_sub_cancel' hk
    rw [Array.getElem?_append_right (by omega), hsize, hspread.behind k hk, Array.getElem?_extract,
      hplace]
    split
    · rfl
    · exact Array.getElem?_eq_none (by omega)

/-- A signal with silence behind it is spread over its frames, and silence is left behind them. -/
theorem spread_padded (mono : Block) (samples : Nat) (hpos : 0 < channels)
    (hfit : mono.size * channels ≤ samples) :
    spread (mono ++ silence (samples - mono.size)) mono.size channels
      = mono.flatMap (Array.replicate channels) ++ silence (samples - mono.size * channels) := by
  have hframes : mono.size ≤ mono.size * channels := Nat.le_mul_of_pos_right mono.size hpos
  have hsize : (mono ++ silence (samples - mono.size)).size = samples := by
    rw [Array.size_append, size_silence]
    omega
  have hrest : (mono ++ silence (samples - mono.size)).extract (mono.size * channels)
      = silence (samples - mono.size * channels) := by
    rw [Array.extract_append, Array.extract_empty_of_size_le_start hframes, Array.empty_append, hsize,
      silence, silence, Array.extract_replicate]
    congr 1
    omega
  rw [spread_eq hpos (by rw [hsize]; exact hfit), hrest, Array.extract_append_left,
    Array.extract_size]

end Tonewheel.Block
