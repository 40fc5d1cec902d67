import Mathlib.Algebra.Ring.Nat
import Tonewheel.Proofs.Reading
import Tonewheel.Proofs.Sound.Streaming

/-!
# Printing in parts (SPEC_FULL, section 8)

A printer makes its buffer in passes, and the calls it is asked by are cut into passes as well
(`callPasses`). A run of calls is the run of its passes (`runCalls_eq_passes`). With at most one
voice of noise two passes in a row are one longer pass (`printPart_add`), so that only the number of
samples counts and the calls may be cut in any way (`printing_by_total`). Two voices of noise draw
in turn within each pass, and there the cut is heard (`two_noises_hear_the_cut`).
-/

namespace Tonewheel.Sound.Printer

/-! ### Parts -/

def part (s : Printer × Block) (n : Nat) : Printer × Block := s.1.printPart s.2 n

theorem printPart_eq (p : Printer) (buffer : Block) (n : Nat) :
    p.printPart buffer n
      = ({ p with
            voices := (renderVoices n p.voices p.noise
              (buffer.extract p.cursor (p.cursor + n))).2.1
            noise := (renderVoices n p.voices p.noise
              (buffer.extract p.cursor (p.cursor + n))).2.2
            cursor := p.cursor + n },
          Block.overwrite buffer p.cursor
            ((renderVoices n p.voices p.noise
              (buffer.extract p.cursor (p.cursor + n))).1.map (· * p.master))) := rfl

theorem printPart_cursor (p : Printer) (buffer : Block) (n : Nat) :
    (p.printPart buffer n).1.cursor = p.cursor + n := rfl

theorem printPart_length (p : Printer) (buffer : Block) (n : Nat) :
    (p.printPart buffer n).1.length = p.length := rfl

theorem size_printPart (p : Printer) (buffer : Block) (n : Nat) :
    (p.printPart buffer n).2.size = buffer.size := by
  rw [printPart_eq]
  exact Block.size_overwrite _ _ _

theorem printPart_noiseVoices (p : Printer) (buffer : Block) (n : Nat) :
    noiseVoices (p.printPart buffer n).1.voices = noiseVoices p.voices := by
  rw [printPart_eq]
  exact renderVoices_noiseVoices _ _ _ _

theorem length_renderVoices (n : Nat) (vs : List Voice) (noise : Noise) (mixed : Block) :
    (renderVoices n vs noise mixed).2.1.length = vs.length := by
  induction vs generalizing noise mixed with
  | nil => rfl
  | cons v vs ih =>
    rw [renderVoices_cons, List.length_cons, List.length_cons, ih]

theorem printPart_isEmpty (p : Printer) (buffer : Block) (n : Nat) :
    (p.printPart buffer n).1.voices.isEmpty = p.voices.isEmpty := by
  have hlength := length_renderVoices n p.voices p.noise
    (buffer.extract p.cursor (p.cursor + n))
  rw [printPart_eq]
  rw [Bool.eq_iff_iff, List.isEmpty_iff_length_eq_zero, List.isEmpty_iff_length_eq_zero, hlength]

theorem printPart_zero (p : Printer) (buffer : Block) : p.printPart buffer 0 = (p, buffer) := by
  have hnone : buffer.extract p.cursor (p.cursor + 0) = #[] :=
    Array.extract_empty_of_stop_le_start (Nat.le_refl _)
  rw [printPart_eq, hnone, renderVoices_zero, Array.map_empty, Block.overwrite_empty]
  rfl

/-- With at most one voice of noise a part of `m + n` samples is one of `m` and then one of `n`. -/
theorem printPart_add (p : Printer) (buffer : Block) (m n : Nat)
    (hnoise : noiseVoices p.voices ≤ 1) (hfit : p.cursor + m + n ≤ buffer.size) :
    p.printPart buffer (m + n)
      = (p.printPart buffer m).1.printPart (p.printPart buffer m).2 n := by
  have hcut : buffer.extract p.cursor (p.cursor + (m + n))
      = buffer.extract p.cursor (p.cursor + m)
        ++ buffer.extract (p.cursor + m) (p.cursor + m + n) := by
    rw [Array.extract_append_extract, Nat.min_eq_left (Nat.le_add_right _ _),
      Nat.max_eq_right (Nat.le_add_right _ _), Nat.add_assoc]
  have hsizeA : (buffer.extract p.cursor (p.cursor + m)).size = m := by
    rw [Array.size_extract]
    omega
  have hsizeB : (buffer.extract (p.cursor + m) (p.cursor + m + n)).size = n := by
    rw [Array.size_extract]
    omega
  have hmade := size_renderVoices m p.voices p.noise _ hsizeA
  -- The second part is read from samples that the first one has not touched.
  have hread := Block.extract_overwrite_behind buffer p.cursor (p.cursor + m) (p.cursor + m + n)
    ((renderVoices m p.voices p.noise
      (buffer.extract p.cursor (p.cursor + m))).1.map (· * p.master))
    (Nat.le_of_eq (by rw [Array.size_map, hmade]))
  simp only [printPart_eq, hread]
  rw [hcut, renderVoices_add m n p.voices hnoise p.noise _ _ hsizeA hsizeB]
  rw [Array.map_append, Block.overwrite_append, Array.size_map, hmade, Nat.add_assoc]

/-! ### Parts in a row -/

theorem foldl_part_cursor (s : Printer × Block) (ns : List Nat) :
    (ns.foldl part s).1.cursor = s.1.cursor + ns.sum := by
  induction ns generalizing s with
  | nil => rfl
  | cons n ns ih =>
    rw [List.foldl_cons, ih, part, printPart_cursor, List.sum_cons, Nat.add_assoc]

theorem foldl_part_length (s : Printer × Block) (ns : List Nat) :
    (ns.foldl part s).1.length = s.1.length := by
  induction ns generalizing s with
  | nil => rfl
  | cons n ns ih => rw [List.foldl_cons, ih, part, printPart_length]

theorem foldl_part_isEmpty (s : Printer × Block) (ns : List Nat) :
    (ns.foldl part s).1.voices.isEmpty = s.1.voices.isEmpty := by
  induction ns generalizing s with
  | nil => rfl
  | cons n ns ih => rw [List.foldl_cons, ih, part, printPart_isEmpty]

theorem foldl_part_eq (s : Printer × Block) (ns : List Nat)
    (hnoise : noiseVoices s.1.voices ≤ 1) (hfit : s.1.cursor + ns.sum ≤ s.2.size) :
    ns.foldl part s = part s ns.sum := by
  induction ns generalizing s with
  | nil => exact (printPart_zero s.1 s.2).symm
  | cons n ns ih =>
    rw [List.sum_cons] at hfit
    have hnoise' : noiseVoices (part s n).1.voices ≤ 1 := by
      rw [part, printPart_noiseVoices]
      exact hnoise
    have hfit' : (part s n).1.cursor + ns.sum ≤ (part s n).2.size := by
      rw [part, printPart_cursor, size_printPart]
      omega
    have hjoin := printPart_add s.1 s.2 n ns.sum hnoise (by omega)
    rw [List.foldl_cons, ih (part s n) hnoise' hfit', List.sum_cons]
    exact hjoin.symm

/-! ### Passes -/

/-- The passes that a call for `frames` samples is cut into where `room` samples are left. -/
def passes (room frames : Nat) : List Nat :=
  if min (min room frames) printPass = 0 then []
  else
    min (min room frames) printPass
      :: passes (room - min (min room frames) printPass)
          (frames - min (min room frames) printPass)
  termination_by frames
  decreasing_by omega

theorem passes_sum (room frames : Nat) : (passes room frames).sum = min room frames := by
  have hpass : 0 < printPass := by decide
  fun_induction passes room frames with
  | case1 room frames hn =>
    simp only [List.sum_nil]
    omega
  | case2 room frames hn ih =>
    rw [List.sum_cons, ih]
    omega

theorem printFrames_eq (p : Printer) (buffer : Block) (frames : Nat) :
    p.printFrames buffer frames = (passes (p.length - p.cursor) frames).foldl part (p, buffer) := by
  fun_induction printFrames p buffer frames with
  | case1 p buffer frames n hn =>
    rw [passes, if_pos hn]
    rfl
  | case2 p buffer frames n hn p' buffer' hpart ih =>
    have hroom : p'.length - p'.cursor = p.length - p.cursor - n := by
      have hcursor := printPart_cursor p buffer n
      have hlength := printPart_length p buffer n
      rw [hpart] at hcursor hlength
      rw [hcursor, hlength]
      omega
    rw [passes, if_neg hn, List.foldl_cons, ih, hroom]
    show _ = (passes (p.length - p.cursor - n) (frames - n)).foldl part (p.printPart buffer n)
    rw [hpart]

def callPasses (room : Nat) : List Nat → List Nat
  | [] => []
  | frames :: calls => passes room frames ++ callPasses (room - min room frames) calls

theorem callPasses_sum (room : Nat) (calls : List Nat) :
    (callPasses room calls).sum = min room calls.sum := by
  induction calls generalizing room with
  | nil => simp [callPasses]
  | cons frames calls ih =>
    rw [callPasses, List.sum_append, ih, passes_sum, List.sum_cons]
    omega

/-! ### Runs of calls -/

def runCalls (s : Printer × Block) (calls : List Nat) : Printer × Block :=
  calls.foldl (fun s frames => s.1.update s.2 frames) s

theorem runCalls_eq_passes (s : Printer × Block) (calls : List Nat)
    (hvoices : s.1.voices.isEmpty = false) :
    runCalls s calls = (callPasses (s.1.length - s.1.cursor) calls).foldl part s := by
  induction calls generalizing s with
  | nil => rfl
  | cons frames calls ih =>
    have hstep : s.1.update s.2 frames
        = (passes (s.1.length - s.1.cursor) frames).foldl part s := by
      rw [update, hvoices, if_neg Bool.false_ne_true]
      exact printFrames_eq s.1 s.2 frames
    have hroom : (s.1.update s.2 frames).1.length - (s.1.update s.2 frames).1.cursor
        = s.1.length - s.1.cursor - min (s.1.length - s.1.cursor) frames := by
      rw [hstep, foldl_part_cursor, foldl_part_length, passes_sum]
      omega
    have hvoices' : (s.1.update s.2 frames).1.voices.isEmpty = false := by
      rw [hstep, foldl_part_isEmpty]
      exact hvoices
    rw [callPasses, List.foldl_append, ← hstep, ← hroom]
    exact ih (s.1.update s.2 frames) hvoices'

/-- A program without voices is finished by the first call, and its buffer stays as it is. -/
theorem runCalls_of_isEmpty (s : Printer × Block) (calls : List Nat)
    (hvoices : s.1.voices.isEmpty = true) :
    runCalls s calls
      = ({ s.1 with cursor := if calls = [] then s.1.cursor else s.1.length }, s.2) := by
  induction calls generalizing s with
  | nil => rfl
  | cons frames calls ih =>
    have hstep : s.1.update s.2 frames = ({ s.1 with cursor := s.1.length }, s.2) := by
      rw [update, hvoices, if_pos rfl]
    show runCalls (s.1.update s.2 frames) calls = _
    rw [ih _ (by rw [hstep]; exact hvoices), hstep]
    simp

/-! ### Fresh printers -/

def printed (p : Printer) (calls : List Nat) : Printer × Block :=
  runCalls (p, p.emptyBuffer) calls

theorem decode_frames_pos {rate : UInt32} {bytes : Bytes} {program : Program}
    (h : Program.decode rate bytes = .ok program) : 0 < program.frames := by
  unfold Program.decode at h
  split at h
  · cases h
  · split at h
    · cases h
    · obtain ⟨⟨ms, c⟩, -, h⟩ := bind_eq_ok.mp h
      obtain ⟨⟨master, c⟩, -, h⟩ := bind_eq_ok.mp h
      obtain ⟨voices, -, h⟩ := bind_eq_ok.mp h
      cases h
      show 0 < framesOfDuration rate ms
      unfold framesOfDuration
      omega

theorem make_fresh {rate : UInt32} {bytes : Bytes} {p : Printer} (h : make rate bytes = .ok p) :
    p.cursor = 0 ∧ 0 < p.length := by
  unfold make at h
  split at h
  · cases h
  · cases hdecode : Program.decode rate bytes with
    | error e =>
      rw [hdecode] at h
      cases h
    | ok program =>
      rw [hdecode] at h
      cases h
      exact ⟨rfl, decode_frames_pos hdecode⟩

theorem printed_eq_part (p : Printer) (calls : List Nat) (hfresh : p.cursor = 0)
    (hvoices : p.voices.isEmpty = false) (hnoise : noiseVoices p.voices ≤ 1) :
    printed p calls = part (p, p.emptyBuffer) (min p.length calls.sum) := by
  have hsize : p.emptyBuffer.size = p.length := Block.size_silence p.length
  have hsum := callPasses_sum p.length calls
  have hfit : p.cursor + (callPasses p.length calls).sum ≤ p.emptyBuffer.size := by omega
  rw [printed, runCalls_eq_passes _ _ hvoices, hfresh, Nat.sub_zero]
  rw [foldl_part_eq (p, p.emptyBuffer) _ hnoise hfit, hsum]

theorem printed_cursor (p : Printer) (calls : List Nat) (hfresh : p.cursor = 0) :
    (printed p calls).1.cursor
      = if p.voices.isEmpty then if calls = [] then 0 else p.length
        else min p.length calls.sum := by
  cases hvoices : p.voices.isEmpty with
  | true =>
    rw [printed, runCalls_of_isEmpty _ _ hvoices, hfresh]
    rfl
  | false =>
    rw [printed, runCalls_eq_passes _ _ hvoices, foldl_part_cursor, hfresh, Nat.sub_zero,
      callPasses_sum, Nat.zero_add]
    rfl

theorem printed_of_isEmpty (p : Printer) (calls : List Nat) (hvoices : p.voices.isEmpty = true) :
    (printed p calls).2 = p.emptyBuffer := by
  rw [printed, runCalls_of_isEmpty _ _ hvoices]

theorem printed_of_passes (p : Printer) (calls : List Nat) (hfresh : p.cursor = 0)
    (hvoices : p.voices.isEmpty = false) :
    (printed p calls).2 = ((callPasses p.length calls).foldl part (p, p.emptyBuffer)).2 := by
  rw [printed, runCalls_eq_passes _ _ hvoices, hfresh, Nat.sub_zero]

theorem printAll_eq {rate : UInt32} {bytes : Bytes} {p : Printer} (h : make rate bytes = .ok p) :
    printAll rate bytes = .ok (printed p [p.length]).2 := by
  rw [printAll, h]
  rfl

/-- Two runs of calls with the same number of samples in all leave the same buffer, if at most one
voice is noise or the calls are cut into the same passes. They leave the cursor at the same place
too, except that any call at all finishes a program without voices. -/
theorem printing_by_total (rate : UInt32) (bytes : Bytes) (p : Printer)
    (hmake : make rate bytes = .ok p) (calls₁ calls₂ : List Nat)
    (hsum : calls₁.sum = calls₂.sum)
    (hnoise : noiseVoices p.voices ≤ 1
      ∨ callPasses p.length calls₁ = callPasses p.length calls₂) :
    (printed p calls₁).2 = (printed p calls₂).2
      ∧ ((printed p calls₁).1.cursor = (printed p calls₂).1.cursor
          ↔ (p.voices = [] → (calls₁ = [] ↔ calls₂ = [])))
      ∧ (noiseVoices p.voices ≤ 1 → p.length ≤ calls₁.sum →
          printAll rate bytes = .ok (printed p calls₁).2) := by
  obtain ⟨hfresh, hlength⟩ := make_fresh hmake
  rw [printed_cursor p calls₁ hfresh, printed_cursor p calls₂ hfresh, hsum, printAll_eq hmake]
  cases hvoices : p.voices.isEmpty with
  | true =>
    have hnil : p.voices = [] := List.isEmpty_iff.mp hvoices
    refine ⟨?_, ?_, ?_⟩
    · rw [printed_of_isEmpty p calls₁ hvoices, printed_of_isEmpty p calls₂ hvoices]
    · by_cases h₁ : calls₁ = [] <;> by_cases h₂ : calls₂ = [] <;> simp [h₁, h₂, hnil] <;> omega
    · intro _ _
      rw [printed_of_isEmpty p calls₁ hvoices, printed_of_isEmpty p _ hvoices]
  | false =>
    have hsome : p.voices ≠ [] := fun hnil => by rw [hnil] at hvoices; cases hvoices
    refine ⟨?_, ?_, ?_⟩
    · cases hnoise with
      | inl hone =>
        rw [printed_eq_part p calls₁ hfresh hvoices hone, hsum,
          printed_eq_part p calls₂ hfresh hvoices hone]
      | inr hpasses =>
        rw [printed_of_passes p calls₁ hfresh hvoices, hpasses,
          printed_of_passes p calls₂ hfresh hvoices]
    · exact ⟨fun _ hnil => absurd hnil hsome, fun _ => rfl⟩
    · intro hone hall
      have hsame : min p.length [p.length].sum = min p.length calls₁.sum := by
        simp only [List.sum_cons, List.sum_nil]
        omega
      rw [printed_eq_part p _ hfresh hvoices hone, hsame,
        printed_eq_part p calls₁ hfresh hvoices hone]

/-- A square under an echo and a filter, and noise. -/
def squareAndNoise : Bytes :=
  [0xeb, 0xeb, 0x00, 0x0f, 0x01, 0x00,
    0x01, 0x01, 0x04, 0x00, 0x05, 0x80, 0x80, 0x80, 0x40, 0x07, 0x00, 0x20, 0x00,
    0x01, 0x05, 0x02, 0x00, 0x80]

theorem printing_by_total_squareAndNoise :
    ∃ p, make 200 squareAndNoise = .ok p
      ∧ noiseVoices p.voices ≤ 1
      ∧ (printed p [1, 0, 1, 1]).2 = (printed p [3]).2
      ∧ printAll 200 squareAndNoise = .ok (printed p [1, 0, 1, 1]).2 := by
  have hmade : ((make 200 squareAndNoise).toOption.map fun p =>
      (decide (noiseVoices p.voices ≤ 1), p.length, p.voices.length)) = some (true, 3, 2) := by
    decide +kernel
  cases hmake : make 200 squareAndNoise with
  | error e =>
    rw [hmake] at hmade
    cases hmade
  | ok p =>
    rw [hmake] at hmade
    simp only [Except.toOption, Option.map_some, Option.some.injEq, Prod.mk.injEq,
      decide_eq_true_eq] at hmade
    obtain ⟨hnoise, hlength, -⟩ := hmade
    have hprinted := printing_by_total 200 squareAndNoise p hmake [1, 0, 1, 1] [3] rfl (.inl hnoise)
    have hall : p.length ≤ [1, 0, 1, 1].sum := by
      rw [hlength]
      decide
    exact ⟨p, rfl, hnoise, hprinted.1, hprinted.2.2 hnoise hall⟩

/-! ### Two voices of noise -/

/-- Two voices of noise, two samples long at the lowest rate. -/
def twoNoises : Bytes := [0xeb, 0xeb, 0x00, 0x0a, 0x01, 0x00, 0x01, 0x05, 0x00, 0x01, 0x05]

/-- In one pass the first voice draws twice and then the second, in two passes they take turns. -/
theorem twoNoises_printed :
    ((make 200 twoNoises).toOption.map fun p =>
        ((printed p [2]).2.toList.map Float32.toBits,
          (printed p [1, 1]).2.toList.map Float32.toBits))
      = some ([3214640128, 1066205184], [3200961536, 1049672704]) := by
  decide +kernel

/-- Equal totals alone do not make equal buffers. -/
theorem two_noises_hear_the_cut :
    ¬ ∀ (rate : UInt32) (bytes : Bytes) (p : Printer), make rate bytes = .ok p →
      ∀ calls₁ calls₂ : List Nat, calls₁.sum = calls₂.sum →
        (printed p calls₁).2 = (printed p calls₂).2 := by
  intro hall
  have hprinted := twoNoises_printed
  cases hmake : make 200 twoNoises with
  | error e =>
    rw [hmake] at hprinted
    cases hprinted
  | ok p =>
    have hsame := hall 200 twoNoises p hmake [2] [1, 1] rfl
    rw [hmake] at hprinted
    simp only [Except.toOption, Option.map_some, hsame, Option.some.injEq, Prod.mk.injEq]
      at hprinted
    rw [hprinted.2] at hprinted
    revert hprinted
    decide

end Tonewheel.Sound.Printer
