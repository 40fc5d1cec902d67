import Tonewheel.Proofs.Pool.Eviction
import Tonewheel.Proofs.Sounding.Tuning

/-!
# The voices of a rack (SPEC_FULL, section 4.4)

Whatever is asked of a rack, it has eight voices at most. A note is added while there are fewer, and
then takes the slot that a pool would give it, and a pass drops the finished voices at the end of the
list, which is all of them up to the last one that still sounds (`follows_pool`).
-/

namespace Tonewheel

/-- A voice after a pass with a swing. One that was finished before stays as it is. -/
def EffectVoice.along (swing : Block) (v : EffectVoice) : EffectVoice :=
  if v.level.isFinished then v else (Block.scan step v swing).2

namespace Rack

/-! ### Calls -/

/-- Anything that is asked of a rack. -/
inductive Call where
  | noteOnce (notes : NoteTable) (note velocity : UInt8) (duration : Int) (born : Nat)
  | noteOn (notes : NoteTable) (note velocity : UInt8) (born : Nat)
  | noteOff (note : UInt8)
  | control (key value : UInt8)
  | wheel (position : UInt16)
  | releaseNotes
  | release
  | render (sine : Wave) (frames : Nat)

def apply (r : Rack) : Call → Rack
  | .noteOnce notes note velocity duration born => r.noteOnce notes note velocity duration born
  | .noteOn notes note velocity born => r.noteOn notes note velocity born
  | .noteOff note => r.noteOff note
  | .control key value => r.control key value
  | .wheel position => r.wheel position
  | .releaseNotes => r.releaseNotes
  | .release => r.release
  | .render sine frames => (r.render sine frames).2

def applies (r : Rack) (calls : List Call) : Rack := calls.foldl apply r

/-! ### Passes -/

theorem renderVoices_along (swing : Block) (voices : List EffectVoice) (mixed : Block) :
    (renderVoices swing voices mixed).2 = voices.map (EffectVoice.along swing) := by
  induction voices generalizing mixed with
  | nil => rfl
  | cons v vs ih =>
    rw [renderVoices, List.map_cons, EffectVoice.along]
    split
    · simp only [ih]
    · simp only [ih]

theorem voices_render (sine : Wave) {r : Rack} (h : r.isDefunct = false) (n : Nat) :
    (r.render sine n).2.voices
      = Pool.trimDefunct
        (r.voices.map (.along (renderSwing sine r.swing (min n passSamples)).1)) := by
  rw [render_voices sine r n h, renderVoices_along]

/-- Whether `kept` is what is left of some voices without the finished ones at their end. -/
structure Reaped (voices kept : List EffectVoice) : Prop where
  dropped : ∃ finished, voices = kept ++ finished ∧ ∀ v ∈ finished, v.level.isFinished = true
  last : ∀ v, kept.getLast? = some v → v.level.isFinished = false

theorem reaped_trimDefunct (voices : List EffectVoice) :
    Reaped voices (Pool.trimDefunct voices) where
  dropped := Pool.exists_trimDefunct_append voices
  last _ hv :=
    Pool.isDefunct_getLast_reap (p := { capacity := voiceLimit, entries := voices }) hv

/-! ### Notes -/

/-- What a new voice does to a rack: it is added, or it takes over the slot that a pool of the same
voices gives it. -/
structure Takes (r r' : Rack) (v : EffectVoice) : Prop where
  same : r' = { r with voices := r'.voices }
  room : r.voices.length < voiceLimit → r'.voices = r.voices ++ [v]
  full : r.voices.length = voiceLimit →
    ∃ slot < voiceLimit, Pool.Evicts r.voices slot
      ∧ (Pool.insert { capacity := voiceLimit, entries := r.voices } v).1 = slot
      ∧ r'.voices = r.voices.set slot v

theorem takes_noteOnce (r : Rack) (notes : NoteTable) (note velocity : UInt8) (duration : Int)
    (born : Nat) :
    r.Takes (r.noteOnce notes note velocity duration born)
      (r.voiceOf notes note velocity duration born) := by
  have hvoices := r.voices_noteOnce notes note velocity duration born
  refine ⟨rfl, fun hroom => ?_, fun hfull => ?_⟩
  · rw [hvoices, Pool.place, if_pos hroom]
  · have hsome : r.voices ≠ [] := by
      intro hnone
      rw [hnone] at hfull
      cases hfull
    obtain ⟨slot, hvictim, hevicts⟩ := Pool.exists_victim hsome
    have hslot : slot < voiceLimit := hfull ▸ Pool.victim_lt hvictim
    have hinsert := Pool.insert_of_victim
      (p := { capacity := voiceLimit, entries := r.voices }) (Nat.le_of_eq hfull.symm) hvictim
      (r.voiceOf notes note velocity duration born)
    refine ⟨slot, hslot, hevicts, congrArg Prod.fst hinsert, ?_⟩
    rw [hvoices]
    exact congrArg (fun placed => placed.2.entries) hinsert

/-! ### Histories -/

theorem length_noteOnce_le {r : Rack} (h : r.voices.length ≤ voiceLimit) (notes : NoteTable)
    (note velocity : UInt8) (duration : Int) (born : Nat) :
    (r.noteOnce notes note velocity duration born).voices.length ≤ voiceLimit := by
  rw [voices_noteOnce]
  exact Pool.size_insert_le (p := { capacity := voiceLimit, entries := r.voices }) h _

theorem length_render_le (sine : Wave) (r : Rack) (n : Nat) :
    (r.render sine n).2.voices.length ≤ r.voices.length := by
  cases hdefunct : r.isDefunct with
  | true =>
    rw [render_defunct sine r n hdefunct]
  | false =>
    rw [voices_render sine hdefunct]
    generalize (renderSwing sine r.swing (min n passSamples)).1 = swing
    have hkept := (Pool.trimDefunct_prefix (r.voices.map (EffectVoice.along swing))).length_le
    simpa using hkept

theorem length_apply_le {r : Rack} (h : r.voices.length ≤ voiceLimit) (call : Call) :
    (r.apply call).voices.length ≤ voiceLimit := by
  cases call with
  | noteOnce notes note velocity duration born => exact length_noteOnce_le h _ _ _ _ _
  | noteOn notes note velocity born => exact length_noteOnce_le h _ _ _ _ _
  | noteOff note => simpa [apply, noteOff] using h
  | control key value =>
    simp only [apply, control]
    split
    · exact h
    · exact h
  | wheel position => simpa [apply, wheel] using h
  | releaseNotes => simpa [apply, releaseNotes] using h
  | release => simpa [apply, release, releaseNotes] using h
  | render sine n => exact (length_render_le sine r n).trans h

theorem length_applies_le {r : Rack} (h : r.voices.length ≤ voiceLimit) (calls : List Call) :
    (r.applies calls).voices.length ≤ voiceLimit := by
  induction calls generalizing r with
  | nil => exact h
  | cons call calls ih => exact ih (length_apply_le h call)

/-- After any calls a rack has eight voices at most, a note takes the slot that a pool would give it,
and a pass drops what is finished at the end when it has been played. -/
theorem follows_pool (c : Channel) (params : EffectParams) (rate framesPerBeat : UInt32) (born : Nat)
    (calls : List Call) :
    let r := (make c params rate framesPerBeat born).applies calls
    r.voices.length ≤ 8
      ∧ (∀ notes note velocity duration born,
        r.Takes (r.noteOnce notes note velocity duration born)
          (r.voiceOf notes note velocity duration born))
      ∧ (∀ notes note velocity born,
        r.Takes (r.noteOn notes note velocity born)
          (r.voiceOf notes note velocity Envelope.held born))
      ∧ ∀ sine n, r.isDefunct = false →
        Reaped (r.voices.map (.along (renderSwing sine r.swing (min n passSamples)).1))
          (r.render sine n).2.voices := by
  intro r
  refine ⟨length_applies_le (Nat.zero_le _) calls, r.takes_noteOnce, ?_, fun sine n hlive => ?_⟩
  · intro notes note velocity born
    exact r.takes_noteOnce notes note velocity Envelope.held born
  · rw [voices_render sine hlive]
    exact reaped_trimDefunct _

end Rack

end Tonewheel
