import Tonewheel.Proofs.Synth.PrintedOnce
import Tonewheel.Proofs.Synth.SamePrints

/-!
# Data that cannot be decoded (SPEC_FULL, sections 4.6 and 7)

A call is undecodable when the data that it is to play is there and is refused by its reader: song
data by `Song.ofBytes`, sound data by `Sound.Printer.make` (`Call.Undecodable`). For a stored sound
this is the data of the key that the sound is played by, unless its buffer is in the cache already.
Such a call leaves the whole synthesizer as it was, and a history of calls is the same without all
of its undecodable ones (`undecodable_changes_nothing`).
-/

namespace Tonewheel.Synth

open Sound (Printer)

/-! ### Refused data -/

/-- Whether a sound would have to be printed and its stored bytes are no sound program. -/
structure CorruptSound (s : Synth) (key : SoundKey) : Prop where
  unprinted : s.cache.find? key = none
  refused : ∃ bytes e, s.lookup ⟨.sound, key.qualifier, key.id⟩ = some bytes ∧ bytes ≠ []
    ∧ Printer.make s.format.rate bytes = .error e

/-- Whether the data that a call is to play is refused. -/
inductive Call.Undecodable (s : Synth) : Call → Prop where
  | song {id : ResourceId} {force repeats : Bool} {bytes : Bytes} {e : DecodeError}
      (hbytes : s.lookup ⟨.song, id.1, id.2⟩ = some bytes) (hsome : bytes ≠ [])
      (hrefused : Song.ofBytes bytes (some id) = .error e) :
      Undecodable s (.message (.playSong id force repeats))
  | songBytes {bytes : Bytes} {repeats : Bool} {e : DecodeError} (hsome : bytes ≠ [])
      (hrefused : Song.ofBytes bytes none = .error e) :
      Undecodable s (.playSongBytes bytes repeats)
  | sound {key : SoundKey} {trim : Float32} (hcorrupt : s.CorruptSound (s.resolvedKey key)) :
      Undecodable s (.message (.playSound key trim))
  | soundBytes {bytes : Bytes} {trim : Float32} {e : DecodeError}
      (hrefused : Printer.make s.format.rate bytes = .error e) :
      Undecodable s (.playSoundBytes bytes trim)

section

variable {s : Synth} {key : SoundKey}

theorem make_of_refused {bytes : Bytes} {resource : Option ResourceId} {e : DecodeError}
    (h : Song.ofBytes bytes resource = .error e) (rate : UInt32) (repeats : Bool) :
    Player.make rate bytes repeats resource = .error e := by
  rw [Player.make, h]
  rfl

theorem soundBytes?_eq_some {bytes : Bytes} :
    s.soundBytes? key = some bytes
      ↔ s.lookup ⟨.sound, key.qualifier, key.id⟩ = some bytes ∧ bytes ≠ [] := by
  unfold soundBytes?
  cases s.lookup ⟨.sound, key.qualifier, key.id⟩ with
  | none => simp
  | some stored =>
    cases stored with
    | nil => simp
    | cons b rest =>
      simp only [Option.some.injEq, iff_self_and]
      rintro rfl
      exact List.cons_ne_nil b rest

/-- Corrupt data is data all the same, so its key is played by itself. -/
theorem CorruptSound.resolvedKey (h : s.CorruptSound key) : s.resolvedKey key = key := by
  obtain ⟨bytes, e, hbytes, hsome, -⟩ := h.refused
  refine if_pos ?_
  rw [knowsSound, soundBytes?_eq_some.mpr ⟨hbytes, hsome⟩]
  exact Bool.or_true _

/-- A sound that is not printed and has no data is played as that of qualifier zero. -/
theorem resolvedKey_of_unknown (hfind : s.cache.find? key = none)
    (hbytes : ∀ bytes, s.lookup ⟨.sound, key.qualifier, key.id⟩ = some bytes → bytes = []) :
    s.resolvedKey key = ⟨0, key.id⟩ := by
  have hnone : s.soundBytes? key = none := by
    refine Option.eq_none_iff_forall_ne_some.mpr fun bytes hsome => ?_
    obtain ⟨hstored, hne⟩ := soundBytes?_eq_some.mp hsome
    exact hne (hbytes bytes hstored)
  refine if_neg ?_
  rw [knowsSound, hfind, hnone]
  exact Bool.false_ne_true

/-! ### One call -/

theorem obtainSound_corrupt (h : s.CorruptSound key) : s.obtainSound key = (none, s) := by
  obtain ⟨bytes, e, hbytes, hsome, hrefused⟩ := h.refused
  rw [obtainSound, h.unprinted]
  dsimp only
  rw [soundBytes?_eq_some.mpr ⟨hbytes, hsome⟩]
  dsimp only
  rw [startPrinter_error hrefused]

theorem playSound_corrupt (h : s.CorruptSound (s.resolvedKey key)) (trim : Float32) :
    s.playSound key trim = s := by
  unfold playSound
  split
  · rfl
  · rw [resolveSound_eq]
    split
    next found hfound =>
      split at hfound
      · cases hfound
        rw [obtainSound_corrupt h]
        rfl
      · cases hfound
    next => rfl

theorem apply_undecodable {c : Call} (h : c.Undecodable s) : s.apply c = s := by
  cases h with
  | @song id force repeats bytes e hbytes hsome hrefused =>
    show s.playSong id force repeats = s
    unfold playSong
    split
    · rfl
    · rw [hbytes]
      cases bytes with
      | nil => exact absurd rfl hsome
      | cons b rest =>
        dsimp only
        rw [make_of_refused hrefused]
  | @songBytes bytes repeats e hsome hrefused =>
    show s.playSongBytes bytes repeats = s
    rw [playSongBytes, if_neg (by simpa using hsome), make_of_refused hrefused]
  | sound hcorrupt => exact playSound_corrupt hcorrupt _
  | @soundBytes bytes trim e hrefused =>
    show s.playSoundBytes bytes trim = s
    unfold playSoundBytes
    split
    · rfl
    · rw [startPrinter_error hrefused]
      rfl

end

/-! ### Histories -/

/-- Whether some calls are others less some that were undecodable when they were made. -/
inductive Decodes : Synth → List Call → List Call → Prop where
  | nil (s : Synth) : Decodes s [] []
  | keep {s : Synth} {c : Call} {calls rest : List Call} (hrest : Decodes (s.apply c) calls rest) :
      Decodes s (c :: calls) (c :: rest)
  | drop {s : Synth} {c : Call} {calls rest : List Call} (hbad : c.Undecodable s)
      (hrest : Decodes s calls rest) : Decodes s (c :: calls) rest

theorem Decodes.applies_eq {s : Synth} {calls rest : List Call} (h : s.Decodes calls rest) :
    calls.foldl apply s = rest.foldl apply s := by
  induction h with
  | nil s => rfl
  | keep _ ih => exact ih
  | drop hbad _ ih => rw [List.foldl_cons, apply_undecodable hbad, ih]

/-- Undecodable calls change nothing and can be left out of a history; a corrupt sound is played by
its own key and not by that of qualifier zero. -/
theorem undecodable_changes_nothing (s : Synth) :
    (∀ c : Call, c.Undecodable s → s.apply c = s)
      ∧ (∀ key, s.CorruptSound key → s.resolvedKey key = key ∧ ∀ trim, s.playSound key trim = s)
      ∧ (∀ key, s.cache.find? key = none →
          (∀ bytes, s.lookup ⟨.sound, key.qualifier, key.id⟩ = some bytes → bytes = []) →
          s.resolvedKey key = ⟨0, key.id⟩)
      ∧ ∀ calls rest, s.Decodes calls rest → calls.foldl apply s = rest.foldl apply s := by
  refine ⟨fun c => apply_undecodable, fun key hcorrupt => ?_, fun key => resolvedKey_of_unknown,
    fun calls rest => Decodes.applies_eq⟩
  have hown : s.resolvedKey key = key := hcorrupt.resolvedKey
  exact ⟨hown, playSound_corrupt (hown.symm ▸ hcorrupt)⟩

/-- A store with corrupt data for a song and two sounds, one of which is sound in qualifier zero. -/
def corruptStore : Store where
  entries :=
    [(⟨.song, 0, 3⟩, [2]), (⟨.sound, 0, 7⟩, [0xeb, 0xeb, 0, 0, 1, 0]), (⟨.sound, 0, 8⟩, [3]),
      (⟨.sound, 1, 7⟩, [1])]

def corruptSynth : Synth := (ofFormat .standard).setResources corruptStore

def corruptCalls : List Call :=
  [.message (.playSong (0, 3) false true), .playSongBytes [2] true,
    .message (.playSound ⟨1, 7⟩ 1), .message (.playSound ⟨1, 8⟩ 1), .playSoundBytes [1] 1,
    .message (.playSound ⟨0, 7⟩ 1)]

/-- Of six calls the last one alone plays something. -/
theorem undecodable_changes_nothing_corruptStore :
    corruptSynth.CorruptSound ⟨1, 7⟩ ∧ corruptSynth.resolvedKey ⟨1, 7⟩ = ⟨1, 7⟩
      ∧ corruptSynth.CorruptSound ⟨0, 8⟩ ∧ corruptSynth.resolvedKey ⟨1, 8⟩ = ⟨0, 8⟩
      ∧ corruptSynth.apply (.message (.playSound ⟨1, 8⟩ 1)) = corruptSynth
      ∧ corruptCalls.foldl apply corruptSynth
          = [Call.message (.playSound ⟨0, 7⟩ 1)].foldl apply corruptSynth
      ∧ ([Call.message (.playSound ⟨0, 7⟩ 1)].foldl apply corruptSynth).playbacks.size = 1 := by
  have hown : corruptSynth.CorruptSound ⟨1, 7⟩ := ⟨rfl, [1], .truncated 1, rfl, by decide, rfl⟩
  have hcommon : corruptSynth.CorruptSound ⟨0, 8⟩ := ⟨rfl, [3], .truncated 1, rfl, by decide, rfl⟩
  obtain ⟨hcall, hcorrupt, hfalls, hhistory⟩ := undecodable_changes_nothing corruptSynth
  have hresolved : corruptSynth.resolvedKey ⟨1, 8⟩ = ⟨0, 8⟩ :=
    hfalls ⟨1, 8⟩ rfl fun bytes hbytes => by cases hbytes
  have hsecond : Call.Undecodable corruptSynth (.message (.playSound ⟨1, 8⟩ 1)) :=
    .sound (hresolved.symm ▸ hcommon)
  have hfirst : Call.Undecodable corruptSynth (.message (.playSound ⟨1, 7⟩ 1)) :=
    .sound ((hcorrupt _ hown).1.symm ▸ hown)
  have hbytes : corruptSynth.lookup ⟨.song, 0, 3⟩ = some [2] := rfl
  have hsong : Call.Undecodable corruptSynth (.message (.playSong (0, 3) false true)) :=
    .song (e := .truncated 1) hbytes (by decide) rfl
  have hsongBytes : Call.Undecodable corruptSynth (.playSongBytes [2] true) :=
    .songBytes (e := .truncated 1) (by decide) rfl
  have hsoundBytes : Call.Undecodable corruptSynth (.playSoundBytes [1] 1) :=
    .soundBytes (e := .truncated 1) rfl
  refine ⟨hown, (hcorrupt _ hown).1, hcommon, hresolved, hcall _ hsecond, ?_, by decide⟩
  exact hhistory _ _ (.drop hsong (.drop hsongBytes (.drop hfirst (.drop hsecond
    (.drop hsoundBytes (.keep (.nil _)))))))

end Tonewheel.Synth
