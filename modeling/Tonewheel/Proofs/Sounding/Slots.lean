import Tonewheel.Proofs.Pool
import Tonewheel.Sounding.Rack

/-!
# The slots of a rack

A rack looks for the voice that gives way in one walk of its own, which ends at the first finished
voice. That is the slot a pool of these voices would give to a new entry (`victim_eq`), so adding a
voice to a rack is placing it in a pool of eight (`addVoice_eq`).
-/

namespace Tonewheel.Rack

/-- The walk over the rest of the voices ends at the first finished one, and without any at the oldest
of all that were met. -/
theorem givingWayFrom_eq (found : Nat) (oldest : EffectVoice) (slot : Nat)
    (voices : List EffectVoice) :
    givingWayFrom found oldest slot voices
      = match voices.findIdx? PoolEntry.isDefunct with
        | some k => slot + k
        | none => Pool.oldestFrom found oldest slot voices := by
  induction voices generalizing found oldest slot with
  | nil => rfl
  | cons v vs ih =>
    have hdefunct : PoolEntry.isDefunct v = v.level.isFinished := rfl
    have holder : PoolEntry.isOlder v oldest = decide (v.born < oldest.born) := rfl
    have hshift (k : Nat) : slot + 1 + k = slot + (k + 1) := by omega
    rw [givingWayFrom, List.findIdx?_cons, Pool.oldestFrom, hdefunct, holder]
    cases v.level.isFinished with
    | true => rfl
    | false =>
      by_cases hborn : v.born < oldest.born
      · cases hfind : vs.findIdx? PoolEntry.isDefunct <;> simp [hborn, ih, hfind, hshift]
      · cases hfind : vs.findIdx? PoolEntry.isDefunct <;> simp [hborn, ih, hfind, hshift]

/-- The voice that gives way is the one that a pool would replace. -/
theorem victim_eq {voices : List EffectVoice} (h : voices ≠ []) :
    Pool.victim voices = some (givingWay voices) := by
  cases voices with
  | nil => exact absurd rfl h
  | cons v vs =>
    -- The first voice is compared with itself, and its slot is the oldest either way.
    have hfirst : Pool.oldestFrom 0 v 0 (v :: vs) = Pool.oldestFrom 0 v 1 vs := by
      rw [Pool.oldestFrom, ite_self]
    rw [givingWay, givingWayFrom_eq, hfirst, Pool.victim, Pool.oldest]
    cases (v :: vs).findIdx? PoolEntry.isDefunct <;> simp

theorem addVoice_eq (voices : List EffectVoice) (voice : EffectVoice) :
    addVoice voices voice = (Pool.place voiceLimit voices voice).2 := by
  unfold addVoice Pool.place
  split
  next => rfl
  next hfull =>
    have hsome : voices ≠ [] := by
      intro hnone
      rw [hnone] at hfull
      exact hfull (by decide)
    rw [victim_eq hsome]

@[simp]
theorem voices_noteOnce (r : Rack) (notes : NoteTable) (note velocity : UInt8) (duration : Int)
    (born : Nat) :
    (r.noteOnce notes note velocity duration born).voices
      = (Pool.place voiceLimit r.voices (r.voiceOf notes note velocity duration born)).2 :=
  addVoice_eq r.voices _

end Tonewheel.Rack
