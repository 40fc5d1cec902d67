import Tonewheel.Proofs.Sound.Progress

/-!
# What every update leaves alone (SPEC_FULL, section 4.2)

The passes of a printer lie side by side: each one writes the samples from the cursor on that it
moves the cursor past, and no others. So the samples before the cursor are final, those from the
cursor on are still silence, and the cursor alone tells whether the sound is finished
(`prints_undisturbed`).
-/

namespace Tonewheel.Sound

/-! ### Voices that are read -/

theorem readVoices_audible {rate : UInt32} {fuel : Nat} {c : Cursor} {voices : List Voice}
    (h : readVoices rate fuel c = .ok voices) : ∀ v ∈ voices, v.isSilent = false := by
  induction fuel generalizing c voices with
  | zero =>
    cases h
    simp
  | succ fuel ih =>
    unfold readVoices at h
    split at h
    · cases h
      simp
    · obtain ⟨⟨v, c'⟩, -, h⟩ := bind_eq_ok.mp h
      obtain ⟨vs, hvs, h⟩ := bind_eq_ok.mp h
      cases h
      intro u hu
      cases hv : v.isSilent with
      | true =>
        rw [hv, if_pos rfl] at hu
        exact ih hvs u hu
      | false =>
        rw [hv, if_neg Bool.false_ne_true] at hu
        cases List.mem_cons.mp hu with
        | inl hhead => rw [hhead, hv]
        | inr htail => exact ih hvs u htail

theorem decode_audible {rate : UInt32} {bytes : Bytes} {program : Program}
    (h : Program.decode rate bytes = .ok program) : ∀ v ∈ program.voices, v.isSilent = false := by
  unfold Program.decode at h
  split at h
  · cases h
  · split at h
    · cases h
    · obtain ⟨⟨ms, c⟩, -, h⟩ := bind_eq_ok.mp h
      obtain ⟨⟨master, c⟩, -, h⟩ := bind_eq_ok.mp h
      obtain ⟨voices, hvoices, h⟩ := bind_eq_ok.mp h
      cases h
      exact readVoices_audible hvoices

namespace Printer

theorem make_of_decode {rate : UInt32} {bytes : Bytes} {program : Program}
    (hlegal : Rate.isLegal rate = true) (h : Program.decode rate bytes = .ok program) :
    make rate bytes = .ok (ofProgram program) := by
  rw [make, hlegal, h]
  rfl

/-! ### What lies from the cursor on -/

/-- Whether a buffer is silent from some place on. -/
def SilentFrom (buffer : Block) (start : Nat) : Prop :=
  ∀ i, start ≤ i → i < buffer.size → buffer[i]? = some 0

theorem silentFrom_silence (n start : Nat) : SilentFrom (.silence n) start := by
  intro i _ hi
  rw [Block.size_silence] at hi
  simp [Block.silence, hi]

theorem SilentFrom.part {s : Printer × Block} (h : SilentFrom s.2 s.1.cursor) (n : Nat)
    (hfit : s.1.cursor + n ≤ s.2.size) : SilentFrom (part s n).2 (part s n).1.cursor := by
  intro i hi hsize
  rw [Printer.part, size_printPart] at hsize
  rw [Printer.part, printPart_cursor] at hi
  have hread : (s.2.extract s.1.cursor (s.1.cursor + n)).size = n := by
    rw [Array.size_extract]
    omega
  have hmade := size_renderVoices n s.1.voices s.1.noise _ hread
  rw [Printer.part, printPart_eq, Block.getElem?_overwrite_behind _ _ _ _ (by
    rw [Array.size_map, hmade]
    exact hi)]
  exact h i (by omega) hsize

theorem SilentFrom.foldl_part {s : Printer × Block} (h : SilentFrom s.2 s.1.cursor)
    (ns : List Nat) (hfit : s.1.cursor + ns.sum ≤ s.2.size) :
    SilentFrom (ns.foldl Printer.part s).2 (ns.foldl Printer.part s).1.cursor := by
  induction ns generalizing s with
  | nil => exact h
  | cons n ns ih =>
    rw [List.sum_cons] at hfit
    have hfit' : (Printer.part s n).1.cursor + ns.sum ≤ (Printer.part s n).2.size := by
      rw [Printer.part, printPart_cursor, size_printPart]
      omega
    rw [List.foldl_cons]
    exact ih (h.part n (by omega)) hfit'

/-! ### Runs of calls -/

variable {p : Printer}

theorem printed_silentFrom (hfresh : p.cursor = 0) (hvoices : p.voices.isEmpty = false)
    (calls : List Nat) : SilentFrom (p.printed calls).2 (p.printed calls).1.cursor := by
  have hsize : p.emptyBuffer.size = p.length := Block.size_silence p.length
  have hsum := callPasses_sum p.length calls
  have hsilent : SilentFrom p.emptyBuffer p.cursor := silentFrom_silence p.length p.cursor
  rw [printed, runCalls_eq_passes _ _ hvoices]
  show SilentFrom ((callPasses (p.length - p.cursor) calls).foldl Printer.part _).2 _
  rw [hfresh, Nat.sub_zero]
  exact hsilent.foldl_part (callPasses p.length calls) (by
    show p.cursor + _ ≤ p.emptyBuffer.size
    omega)

theorem runCalls_getElem? (s : Printer × Block) (hcursor : s.1.cursor ≤ s.1.length)
    (calls : List Nat) {i : Nat} (hi : i < s.1.cursor) : (runCalls s calls).2[i]? = s.2[i]? := by
  induction calls generalizing s with
  | nil => rfl
  | cons frames calls ih =>
    have hstep := update_cursor s.1 s.2 frames hcursor
    have hlength := update_length s.1 s.2 frames
    have hsize := size_update s.1 s.2 frames
    have hfront := congrArg (fun b : Block => b[i]?) (update_extract s.1 s.2 frames
      (Nat.le_refl s.1.cursor))
    show (runCalls (s.1.update s.2 frames) calls).2[i]? = _
    rw [ih (s.1.update s.2 frames) (by omega) (by omega)]
    simp only [Array.getElem?_extract, Nat.zero_add, Nat.sub_zero, hsize] at hfront
    by_cases hheld : i < s.2.size
    · rwa [if_pos (by omega), if_pos (by omega)] at hfront
    · rw [Array.getElem?_eq_none (by omega), Array.getElem?_eq_none (by omega)]

/-- What a printer with voices has made of a run of calls. -/
structure Undisturbed (p : Printer) (calls : List Nat) : Prop where
  length : (p.printed calls).1.length = p.length
  size : (p.printed calls).2.size = p.length
  cursor : (p.printed calls).1.cursor = min p.length calls.sum
  ahead : ∀ i, (p.printed calls).1.cursor ≤ i → i < p.length →
    (p.printed calls).2[i]?.map Float32.toBits = some 0
  kept : ∀ later i, i < (p.printed calls).1.cursor →
    (p.printed (calls ++ later)).2[i]? = (p.printed calls).2[i]?
  answer : ∀ frames, (p.printed calls).1.answer (p.printed calls).2 frames = true
    ↔ (p.printed (calls ++ [frames])).1.cursor = p.length
  finished : (p.printed calls).1.isFinished = true ↔ (p.printed calls).1.cursor = p.length

/-- What a printer without voices has made of its first update and of later ones. -/
structure FinishedAtOnce (p : Printer) (first : Nat) (later : List Nat) : Prop where
  length : (p.printed (first :: later)).1.length = p.length
  size : (p.printed (first :: later)).2.size = p.length
  cursor : (p.printed (first :: later)).1.cursor = p.length
  silent : ∀ i < p.length, (p.printed (first :: later)).2[i]?.map Float32.toBits = some 0
  answer : ∀ buffer frames, (p.printed later).1.answer buffer frames = true
  finished : (p.printed (first :: later)).1.isFinished = true

variable {rate : UInt32} {bytes : Bytes}

theorem undisturbed (hmake : make rate bytes = .ok p) (hvoices : p.voices.isEmpty = false)
    (calls : List Nat) : Undisturbed p calls := by
  have hfresh := (make_fresh hmake).1
  have hfits := printed_fits hmake
  have hcursor : ∀ calls, (p.printed calls).1.cursor = min p.length calls.sum := by
    intro calls
    rw [printed_cursor p calls hfresh, hvoices]
    rfl
  have hstill : (p.printed calls).1.voices.isEmpty = false := by
    rw [printed, runCalls_eq_passes _ _ hvoices, foldl_part_isEmpty]
    exact hvoices
  exact
    { length := length_printed p calls
      size := size_printed p calls
      cursor := hcursor calls
      ahead := by
        intro i hbehind hi
        rw [printed_silentFrom hfresh hvoices calls i hbehind (by rwa [size_printed p calls])]
        rfl
      kept := by
        intro later i hi
        have hrun : p.printed (calls ++ later) = runCalls (p.printed calls) later :=
          List.foldl_append
        rw [hrun, runCalls_getElem? _ (hfits calls).2 later hi]
      answer := by
        intro frames
        have hwithin := (hfits (calls ++ [frames])).2
        have hthere := length_printed p (calls ++ [frames])
        rw [answer, hstill, ← printed_append, size_printed p calls]
        simp only [Bool.false_or, decide_eq_true_eq]
        omega
      finished := by
        have hwithin := (hfits calls).2
        rw [isFinished, decide_eq_true_eq, length_printed p calls]
        have hthere := length_printed p calls
        omega }

theorem finishedAtOnce (hmake : make rate bytes = .ok p) (hvoices : p.voices.isEmpty = true)
    (first : Nat) (later : List Nat) : FinishedAtOnce p first later := by
  have hfresh := (make_fresh hmake).1
  have hcursor : (p.printed (first :: later)).1.cursor = p.length := by
    rw [printed_cursor p _ hfresh, hvoices]
    simp
  have hbuffer : (p.printed (first :: later)).2 = p.emptyBuffer := printed_of_isEmpty p _ hvoices
  exact
    { length := length_printed p _
      size := size_printed p _
      cursor := hcursor
      silent := by
        intro i hi
        rw [hbuffer, emptyBuffer, silentFrom_silence p.length 0 i (Nat.zero_le i)
          (by rwa [Block.size_silence])]
        rfl
      answer := by
        intro buffer frames
        rw [answer, printed, runCalls_of_isEmpty _ _ hvoices]
        simp [hvoices]
      finished := by rw [isFinished, hcursor, length_printed, decide_eq_true_eq] }

/-- A printer of any legal program counts its calls up to its length. What it has printed is final,
what it has not is silence, and a program without audible voices is finished by its first update. -/
theorem prints_undisturbed (rate : UInt32) (bytes : Bytes) (program : Program)
    (hlegal : Rate.isLegal rate = true) (hdecode : Program.decode rate bytes = .ok program) :
    make rate bytes = .ok (ofProgram program)
      ∧ (∀ v ∈ program.voices, v.isSilent = false)
      ∧ (program.voices ≠ [] → ∀ calls, Undisturbed (ofProgram program) calls)
      ∧ (program.voices = [] → ∀ first later, FinishedAtOnce (ofProgram program) first later) := by
  have hmake := make_of_decode hlegal hdecode
  refine ⟨hmake, decode_audible hdecode, ?_, ?_⟩
  · intro hsome
    exact undisturbed hmake (by simpa [ofProgram] using hsome)
  · intro hnone
    exact finishedAtOnce hmake (by simpa [ofProgram] using hnone)

theorem prints_undisturbed_squareAndNoise :
    ∃ program, Program.decode 200 squareAndNoise = .ok program
      ∧ program.voices ≠ []
      ∧ ∀ calls, Undisturbed (ofProgram program) calls := by
  have hdecoded : ((Program.decode 200 squareAndNoise).toOption.map fun program =>
      program.voices.length) = some 2 := by
    decide +kernel
  cases hdecode : Program.decode 200 squareAndNoise with
  | error e =>
    rw [hdecode] at hdecoded
    cases hdecoded
  | ok program =>
    have hsome : program.voices ≠ [] := by
      intro hnone
      rw [hdecode] at hdecoded
      simp [Except.toOption, hnone] at hdecoded
    have hprinted := prints_undisturbed 200 squareAndNoise program (by decide) hdecode
    exact ⟨program, rfl, hsome, hprinted.2.2.1 hsome⟩

end Printer

end Tonewheel.Sound
