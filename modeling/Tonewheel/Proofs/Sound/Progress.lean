import Mathlib.Data.List.Induction
import Tonewheel.Proofs.Sound.Printing

/-!
# What is printed stays

An update of a printer moves its cursor on by as many samples as it is asked for, as long as the
buffer has them, and changes nothing before the place where the cursor was. So a reader that keeps
behind the cursor reads samples of the finished sound.
-/

namespace Tonewheel

namespace Sound.Printer

theorem size_foldl_part (s : Printer × Block) (ns : List Nat) :
    (ns.foldl part s).2.size = s.2.size := by
  induction ns generalizing s with
  | nil => rfl
  | cons n ns ih => rw [List.foldl_cons, ih, part, size_printPart]

theorem foldl_part_extract (s : Printer × Block) (ns : List Nat) {last : Nat}
    (h : last ≤ s.1.cursor) : (ns.foldl part s).2.extract 0 last = s.2.extract 0 last := by
  induction ns generalizing s with
  | nil => rfl
  | cons n ns ih =>
    have hcursor : last ≤ (part s n).1.cursor := by
      rw [part, printPart_cursor]
      omega
    rw [List.foldl_cons, ih (part s n) hcursor, part, printPart_eq]
    exact Block.extract_overwrite_before _ _ _ _ h

/-! ### Updates -/

variable (p : Printer) (buffer : Block) (frames : Nat)

theorem update_of_isEmpty (h : p.voices.isEmpty = true) :
    p.update buffer frames = ({ p with cursor := p.length }, buffer) := by
  rw [update, if_pos h]

theorem update_of_voices (h : p.voices.isEmpty = false) :
    p.update buffer frames = (passes (p.length - p.cursor) frames).foldl part (p, buffer) := by
  rw [update, h, if_neg Bool.false_ne_true, printFrames_eq]

theorem update_length : (p.update buffer frames).1.length = p.length := by
  cases h : p.voices.isEmpty with
  | true => rw [update_of_isEmpty p buffer frames h]
  | false => rw [update_of_voices p buffer frames h, foldl_part_length]

theorem size_update : (p.update buffer frames).2.size = buffer.size := by
  cases h : p.voices.isEmpty with
  | true => rw [update_of_isEmpty p buffer frames h]
  | false => rw [update_of_voices p buffer frames h, size_foldl_part]

theorem update_cursor (hcursor : p.cursor ≤ p.length) :
    min p.length (p.cursor + frames) ≤ (p.update buffer frames).1.cursor
      ∧ (p.update buffer frames).1.cursor ≤ p.length := by
  cases h : p.voices.isEmpty with
  | true =>
    rw [update_of_isEmpty p buffer frames h]
    exact ⟨Nat.min_le_left _ _, Nat.le_refl _⟩
  | false =>
    rw [update_of_voices p buffer frames h, foldl_part_cursor, passes_sum]
    show min p.length (p.cursor + frames) ≤ p.cursor + _ ∧ p.cursor + _ ≤ p.length
    omega

theorem update_extract {last : Nat} (h : last ≤ p.cursor) :
    (p.update buffer frames).2.extract 0 last = buffer.extract 0 last := by
  cases hvoices : p.voices.isEmpty with
  | true => rw [update_of_isEmpty p buffer frames hvoices]
  | false => rw [update_of_voices p buffer frames hvoices, foldl_part_extract _ _ h]

/-! ### Runs -/

theorem printed_append (p : Printer) (calls : List Nat) (frames : Nat) :
    p.printed (calls ++ [frames]) = (p.printed calls).1.update (p.printed calls).2 frames := by
  rw [printed, runCalls, List.foldl_append]
  rfl

theorem size_printed (p : Printer) (calls : List Nat) :
    (p.printed calls).2.size = p.length := by
  induction calls using List.reverseRecOn with
  | nil => exact Block.size_silence p.length
  | append_singleton calls frames ih => rw [printed_append, size_update, ih]

theorem length_printed (p : Printer) (calls : List Nat) :
    (p.printed calls).1.length = p.length := by
  induction calls using List.reverseRecOn with
  | nil => rfl
  | append_singleton calls frames ih => rw [printed_append, update_length, ih]

theorem printed_fits {rate : UInt32} {bytes : Bytes} {p : Printer} (h : make rate bytes = .ok p)
    (calls : List Nat) :
    (p.printed calls).2.size = (p.printed calls).1.length
      ∧ (p.printed calls).1.cursor ≤ (p.printed calls).1.length := by
  obtain ⟨hcursor, -⟩ := make_fresh h
  induction calls using List.reverseRecOn with
  | nil =>
    refine ⟨Block.size_silence p.length, ?_⟩
    show p.cursor ≤ p.length
    omega
  | append_singleton calls frames ih =>
    rw [printed_append, size_update, update_length]
    exact ⟨ih.1, (update_cursor _ _ frames ih.2).2⟩

end Sound.Printer

end Tonewheel
