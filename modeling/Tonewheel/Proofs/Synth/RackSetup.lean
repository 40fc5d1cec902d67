import Mathlib.Data.UInt
import Tonewheel.Synth.State

/-!
# Setting up racks (SPEC_FULL, section 4.4)

A rack is set up with whole numbers: beats become frames at the length that a beat has then, frames
become sizes of rings and strides of phases. Here a number is held only if it fits in its register,
and a quotient needs a divisor (`Rack.make?`). Nothing of that ever fails, at any legal rate and any
tempo (`Rack.setUp_safe`): the longest beat has 13107000 frames, and the longest period is 255
sixteenths of it. Sizes are words of 64 bits.
-/

namespace Tonewheel

/-! ### Numbers in registers -/

def held? (bits n : Nat) : Option Nat := if n < 2 ^ bits then some n else none

/-- A product in 64 bits, divided and cut to 32 bits, if no bit is lost on the way. -/
def scaled? (a b divisor : Nat) : Option UInt32 := do
  let product ← held? 64 (a * b)
  let quotient ← held? 32 (product / divisor)
  return quotient.toUInt32

theorem held?_eq {bits n : Nat} (h : n < 2 ^ bits) : held? bits n = some n := if_pos h

theorem scaled?_eq {a b divisor : Nat} (hproduct : a * b < 2 ^ 64)
    (hquotient : a * b / divisor < 2 ^ 32) :
    scaled? a b divisor = some (a * b / divisor).toUInt32 := by
  simp only [scaled?, held?_eq hproduct, held?_eq hquotient, Option.bind_eq_bind, Option.bind_some]
  rfl

/-! ### The length of a beat -/

/-- The frames of the longest beat, 65535 ms at 200000 Hz. -/
def longestBeat : Nat := 13107000

namespace Synth

def framesPerBeat? (s : Synth) : Option UInt32 :=
  match s.song with
  | some p => scaled? p.song.tempo.toNat s.format.rate.toNat 1000
  | none => some (s.format.rate >>> 1)

theorem tempo_mul_rate_le (s : Synth) (tempo : UInt16) :
    tempo.toNat * s.format.rate.toNat ≤ 1000 * longestBeat := by
  have htempo := tempo.toNat_lt
  have hrate := (Rate.legal_bounds s.format.rate_legal).2
  calc tempo.toNat * s.format.rate.toNat
      ≤ 65535 * 200000 := Nat.mul_le_mul (by omega) hrate
    _ = 1000 * longestBeat := rfl

theorem framesPerBeat?_eq (s : Synth) : s.framesPerBeat? = some s.framesPerBeat := by
  unfold framesPerBeat? framesPerBeat
  cases s.song with
  | none => rfl
  | some p =>
    have hproduct := tempo_mul_rate_le s p.song.tempo
    simp only [longestBeat] at hproduct
    exact scaled?_eq (by omega) (by omega)

theorem framesPerBeat_le (s : Synth) : s.framesPerBeat.toNat ≤ longestBeat := by
  unfold framesPerBeat
  cases s.song with
  | none =>
    have hrate := (Rate.legal_bounds s.format.rate_legal).2
    have hhalf : (s.format.rate >>> 1).toNat = s.format.rate.toNat / 2 :=
      UInt32.toNat_shiftRight _ _
    simp only [hhalf, longestBeat]
    omega
  | some p =>
    have hproduct := tempo_mul_rate_le s p.song.tempo
    simp only [longestBeat] at hproduct ⊢
    have hfits : p.song.tempo.toNat * s.format.rate.toNat / 1000 < UInt32.size := by
      simp only [UInt32.size]
      omega
    rw [Nat.toUInt32, UInt32.toNat_ofNat_of_lt' hfits]
    omega

end Synth

namespace Rack

/-! ### Periods -/

/-- The frames of a u4.4 number of beats, however many. -/
def wholeFrames (framesPerBeat : Nat) (beats : UInt8) : Nat := beats.toNat * framesPerBeat / 16

def framesOfBeats? (framesPerBeat : UInt32) (beats : UInt8) : Option UInt32 :=
  scaled? beats.toNat framesPerBeat.toNat 16

def strideOfPeriod? (period : UInt32) : Option UInt32 :=
  if period = 0 then none else some (strideOfPeriod period)

theorem strideOfPeriod?_eq {period : UInt32} (h : 0 < period.toNat) :
    strideOfPeriod? period = some (strideOfPeriod period) := by
  refine if_neg ?_
  rintro rfl
  exact absurd h (by decide)

theorem toNat_strideOfPeriod (period : UInt32) :
    (strideOfPeriod period).toNat = 4294967295 / period.toNat :=
  UInt32.toNat_div _ _

/-! ### Effects -/

def swingOf? (params : EffectParams) (framesPerBeat : UInt32) : Option RackSwing := do
  let period ← framesOfBeats? framesPerBeat params.swingPeriod
  if 0 < period ∧ params.swingDepth ≠ 0 then
    let stride ← strideOfPeriod? period
    return { stride, range := Patch.fixed44 params.swingDepth }
  else return { stride := 0, range := 0 }

def delayOf? (params : EffectParams) (framesPerBeat : UInt32) : Option (Option Tape) := do
  if params.delayPeriod ≠ 0 ∧ params.delayDepth ≠ 0 then
    let depth := params.delayDepth.toFloat32 / 255
    let frames ← framesOfBeats? framesPerBeat params.delayPeriod
    return some (Tape.withMix frames.toNat (0.125 + depth * 0.5) (0.25 + depth * 0.5))
  else return none

def detuneOf? (params : EffectParams) (framesPerBeat : UInt32) : Option (Option RackDetune) := do
  if params.detunePeriod ≠ 0 ∧ params.detuneDepth ≠ 0 then
    let frames ← framesOfBeats? framesPerBeat params.detunePeriod
    let period := max frames 1
    let stride ← strideOfPeriod? period
    let product ← held? 64 (params.detuneDepth.toNat * period.toNat)
    let size ← held? 64 (1 + product / 5000)
    return some { line := Detune.ofFrames size, stride }
  else return none

/-- The rack of a channel, if all numbers of its effects can be held. -/
def make? (c : Channel) (params : EffectParams) (rate framesPerBeat : UInt32) (born : Nat) :
    Option Rack := do
  let swing ← swingOf? params framesPerBeat
  let delay ← delayOf? params framesPerBeat
  let detune ← detuneOf? params framesPerBeat
  return { make c params rate framesPerBeat born with swing, delay, detune }

section

variable {framesPerBeat : UInt32} (hbeat : framesPerBeat.toNat ≤ longestBeat)

include hbeat

theorem beats_mul_le (beats : UInt8) : beats.toNat * framesPerBeat.toNat ≤ 255 * longestBeat := by
  have hbeats := beats.toNat_lt
  exact Nat.mul_le_mul (by omega) hbeat

theorem framesOfBeats?_eq (beats : UInt8) :
    framesOfBeats? framesPerBeat beats = some (framesOfBeats framesPerBeat beats) := by
  have hproduct := beats_mul_le hbeat beats
  simp only [longestBeat] at hproduct
  exact scaled?_eq (by omega) (by omega)

theorem toNat_framesOfBeats (beats : UInt8) :
    (framesOfBeats framesPerBeat beats).toNat = wholeFrames framesPerBeat.toNat beats := by
  have hproduct := beats_mul_le hbeat beats
  simp only [longestBeat] at hproduct
  refine UInt32.toNat_ofNat_of_lt' ?_
  simp only [UInt32.size]
  omega

theorem swingOf?_eq (params : EffectParams) :
    swingOf? params framesPerBeat = some (swingOf params framesPerBeat) := by
  simp only [swingOf?, swingOf, framesOfBeats?_eq hbeat, Option.bind_eq_bind, Option.bind_some]
  split
  next h => rw [strideOfPeriod?_eq (UInt32.lt_iff_toNat_lt.mp h.1)]; rfl
  next => rfl

theorem delayOf?_eq (params : EffectParams) :
    delayOf? params framesPerBeat = some (delayOf params framesPerBeat) := by
  simp only [delayOf?, delayOf, framesOfBeats?_eq hbeat, Option.bind_eq_bind, Option.bind_some]
  split <;> rfl

theorem toNat_detunePeriod (beats : UInt8) :
    (max (framesOfBeats framesPerBeat beats) 1).toNat
      = max (wholeFrames framesPerBeat.toNat beats) 1 := by
  rw [UInt32.toNat_max, toNat_framesOfBeats hbeat]
  rfl

theorem detuneOf?_eq (params : EffectParams) :
    detuneOf? params framesPerBeat = some (detuneOf params framesPerBeat) := by
  have hperiod := toNat_detunePeriod hbeat params.detunePeriod
  have hproduct : params.detuneDepth.toNat
      * (max (framesOfBeats framesPerBeat params.detunePeriod) 1).toNat < 2 ^ 64 := by
    have hdepth := params.detuneDepth.toNat_lt
    have hbeats := beats_mul_le hbeat params.detunePeriod
    simp only [longestBeat] at hbeats
    simp only [wholeFrames] at hperiod
    calc params.detuneDepth.toNat
          * (max (framesOfBeats framesPerBeat params.detunePeriod) 1).toNat
        ≤ 255 * (255 * 13107000) := Nat.mul_le_mul (by omega) (by omega)
      _ < 2 ^ 64 := by decide
  simp only [detuneOf?, detuneOf, framesOfBeats?_eq hbeat, Option.bind_eq_bind, Option.bind_some]
  split
  next =>
    -- A period of no frames counts as one, which leaves the stride a divisor.
    rw [strideOfPeriod?_eq (by omega), Option.bind_some, held?_eq hproduct, Option.bind_some,
      held?_eq (by omega)]
    rfl
  next => rfl

theorem make?_eq (c : Channel) (params : EffectParams) (rate : UInt32) (born : Nat) :
    make? c params rate framesPerBeat born = some (make c params rate framesPerBeat born) := by
  simp only [make?, swingOf?_eq hbeat, delayOf?_eq hbeat, detuneOf?_eq hbeat, Option.bind_eq_bind,
    Option.bind_some]
  rfl

end

/-! ### All effects -/

/-- Whether the effects of a rack have the sizes and strides of their periods, for an instrument and
a length of the beat. -/
structure IsSetUp (params : EffectParams) (framesPerBeat : Nat) (r : Rack) : Prop where
  /-- The tape is as long as its period, and at least one frame. -/
  delay : ∀ t ∈ r.delay,
    1 ≤ t.length ∧ t.length = max (wholeFrames framesPerBeat params.delayPeriod) 1
  /-- The line has at least one frame, and the phase of its head a period of at least one. -/
  detune : ∀ d ∈ r.detune,
    let period := max (wholeFrames framesPerBeat params.detunePeriod) 1
    1 ≤ d.line.ring.size
      ∧ d.line.ring.size = 1 + params.detuneDepth.toNat * period / 5000
      ∧ 1 ≤ period ∧ d.stride.toNat = 4294967295 / period
  /-- A swing that is heard has a period of at least one frame. -/
  swing : 0 < r.swing.range →
    let period := wholeFrames framesPerBeat params.swingPeriod
    1 ≤ period ∧ r.swing.stride.toNat = 4294967295 / period

theorem length_withMix (frames : Nat) (mix feedback : Float32) :
    (Tape.withMix frames mix feedback).length = max frames 1 := rfl

theorem make_isSetUp {framesPerBeat : UInt32} (hbeat : framesPerBeat.toNat ≤ longestBeat)
    (c : Channel) (params : EffectParams) (rate : UInt32) (born : Nat) :
    (make c params rate framesPerBeat born).IsSetUp params framesPerBeat.toNat where
  delay t ht := by
    have hmake : delayOf params framesPerBeat = some t := ht
    unfold delayOf at hmake
    split at hmake
    · cases hmake
      rw [length_withMix, toNat_framesOfBeats hbeat]
      exact ⟨Nat.le_max_right _ _, rfl⟩
    · cases hmake
  detune d hd := by
    have hmake : detuneOf params framesPerBeat = some d := hd
    have hperiod := toNat_detunePeriod hbeat params.detunePeriod
    unfold detuneOf at hmake
    split at hmake
    · cases hmake
      refine ⟨Nat.le_max_right _ _, ?_, Nat.le_max_right _ _, ?_⟩
      · rw [← hperiod]
        exact Nat.max_eq_left (Nat.le_add_right 1 _)
      · rw [toNat_strideOfPeriod, hperiod]
    · cases hmake
  swing hheard := by
    have hmake : (make c params rate framesPerBeat born).swing = swingOf params framesPerBeat := rfl
    rw [hmake] at hheard ⊢
    by_cases hmoves : 0 < framesOfBeats framesPerBeat params.swingPeriod ∧ params.swingDepth ≠ 0
    · have hswing : (swingOf params framesPerBeat).stride
          = strideOfPeriod (framesOfBeats framesPerBeat params.swingPeriod) :=
        congrArg RackSwing.stride (if_pos hmoves)
      have hperiod := UInt32.lt_iff_toNat_lt.mp hmoves.1
      rw [hswing, toNat_strideOfPeriod]
      rw [toNat_framesOfBeats hbeat] at hperiod ⊢
      exact ⟨hperiod, rfl⟩
    · -- Without a period or a depth the swing is flat, and not heard.
      have hflat : (swingOf params framesPerBeat).range = 0 :=
        congrArg RackSwing.range (if_neg hmoves)
      rw [hflat] at hheard
      exact absurd hheard (by decide)

/-- A rack that is set up at the tempo of a synthesizer, or at no tempo, comes out with nothing lost
and nothing divided by zero, and with at least one frame in each ring and each period. -/
theorem setUp_safe (s : Synth) (c : Channel) (params : EffectParams) (born : Nat) :
    s.framesPerBeat? = some s.framesPerBeat
      ∧ make? c params s.format.rate s.framesPerBeat born
          = some (make c params s.format.rate s.framesPerBeat born)
      ∧ (make c params s.format.rate s.framesPerBeat born).IsSetUp params s.framesPerBeat.toNat :=
  ⟨s.framesPerBeat?_eq, make?_eq s.framesPerBeat_le c params s.format.rate born,
    make_isSetUp s.framesPerBeat_le c params s.format.rate born⟩

end Rack

end Tonewheel
