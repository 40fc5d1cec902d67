import Tonewheel.Proofs.Numeric.Arithmetic
import Tonewheel.Proofs.Sound.Description
import Tonewheel.Proofs.Sound.Undisturbed

/-!
# How long sounds are (SPEC_FULL, sections 4.2 and 8)

The frames of a duration are worked out in doubles: the ms are divided by a thousand and multiplied
by the rate, each result is rounded, and the rest is cut off. Where a duration is no whole number of
frames this is exact. Where it is one, the product may have been rounded to less than that number,
and then the sound is one frame short (`frames_counted`).
-/

namespace Tonewheel.Sound

open Double

/-! ### Frames in doubles -/

/-- The frames of a duration before the rest is cut off, both results rounded. -/
def roundedFrames (rate ms : Nat) : ℚ := nearest (nearest (ms / 1000) * rate)

theorem holds_thousand : Holds 1000 .positive 1000 := by
  have hliteral : (1000 : Float) = ⟨Float.Model.ofNat 1000⟩ := by decide +kernel
  rw [hliteral]
  exact holds_ofNat (n := 1000) (by decide)

theorem nearest_seconds_le {ms : Nat} (hms : ms < 2 ^ 16) : nearest (ms / 1000) ≤ 66 := by
  have hfits : nearest 66 = 66 := nearest_of_fits (fits_natCast (n := 66) (by decide))
  have hms' : (ms : ℚ) ≤ 66000 := by exact_mod_cast (by omega : ms ≤ 66000)
  rw [← hfits]
  apply nearest_mono
  rw [div_le_iff₀ (by norm_num)]
  linarith

theorem nearest_seconds_nonneg (ms : Nat) : 0 ≤ nearest ((ms : ℚ) / 1000) :=
  nearest_nonneg (by positivity)

theorem roundedFrames_le {rate ms : Nat} (hms : ms < 2 ^ 16) (hrate : rate < 2 ^ 32) :
    roundedFrames rate ms ≤ 2 ^ 40 := by
  have hfits : nearest (2 ^ 40) = 2 ^ 40 := by
    have hwhole := nearest_of_fits (fits_natCast (n := 2 ^ 40) (by decide))
    push_cast at hwhole
    exact hwhole
  have hrate' : (rate : ℚ) ≤ 2 ^ 32 := by exact_mod_cast hrate.le
  rw [roundedFrames, ← hfits]
  apply nearest_mono
  calc nearest ((ms : ℚ) / 1000) * rate ≤ 66 * 2 ^ 32 :=
        mul_le_mul (nearest_seconds_le hms) hrate' (Nat.cast_nonneg _) (by norm_num)
    _ ≤ 2 ^ 40 := by norm_num

theorem framesOfDuration_eq (rate : UInt32) (ms : UInt16) :
    framesOfDuration rate ms = max 1 ⌊roundedFrames rate.toNat ms.toNat⌋₊ := by
  have hms : ms.toNat < 2 ^ 16 := ms.toNat_lt
  have hrate : rate.toNat < 2 ^ 32 := rate.toNat_lt
  have hmsHolds : Holds ms.toUInt32.toFloat .positive ms.toNat :=
    holds_ofNat (n := ms.toNat) (by omega)
  have hrateHolds : Holds rate.toFloat .positive rate.toNat :=
    holds_ofNat (n := rate.toNat) (by omega)
  have hseconds := nearest_seconds_le hms
  have hframes := roundedFrames_le hms hrate
  have hdivided := (gives_div hmsHolds holds_thousand (by norm_num)).holds_nearest
    (lt_limit (k := 7) (hseconds.trans (by norm_num)) (by decide))
  have hproduct := (gives_mul hdivided hrateHolds).holds_nearest (lt_limit hframes (by decide))
  have hfloor : ⌊roundedFrames rate.toNat ms.toNat⌋₊ ≤ 2 ^ 40 := by
    apply Nat.floor_le_of_le
    push_cast
    exact hframes
  have hcut := toUInt64_of_positive hproduct
  rw [framesOfDuration, hcut]
  show max 1 (min (2 ^ 64 - 1) ⌊roundedFrames rate.toNat ms.toNat⌋₊) = _
  omega

/-! ### Frames exactly -/

/-- Both errors together are less than the least distance of a duration from whole frames. -/
theorem roundedFrames_close {rate ms : Nat} (hms : ms < 2 ^ 16) (hrate : rate ≤ 200000) :
    |roundedFrames rate ms - ms * rate / 1000| < 1 / 1000 := by
  have hms' : (ms : ℚ) < 2 ^ 16 := by exact_mod_cast hms
  have hrate' : (rate : ℚ) ≤ 200000 := by exact_mod_cast hrate
  have hratePos : (0 : ℚ) ≤ rate := Nat.cast_nonneg _
  have hseconds : |nearest ((ms : ℚ) / 1000) - ms / 1000| ≤ 2 ^ ((7 : ℤ) - 54) := by
    apply nearest_close (by positivity) _ (by norm_num)
    rw [div_lt_iff₀ (by norm_num)]
    norm_num
    linarith
  have hscaled : |nearest ((ms : ℚ) / 1000) * rate - ms * rate / 1000|
      ≤ 2 ^ ((7 : ℤ) - 54) * 200000 := by
    have hsplit : nearest ((ms : ℚ) / 1000) * rate - ms * rate / 1000
        = (nearest ((ms : ℚ) / 1000) - ms / 1000) * rate := by ring
    rw [hsplit, abs_mul, abs_of_nonneg hratePos]
    exact mul_le_mul hseconds hrate' hratePos (by positivity)
  have hproduct : |roundedFrames rate ms - nearest ((ms : ℚ) / 1000) * rate|
      ≤ 2 ^ ((24 : ℤ) - 54) := by
    apply nearest_close (mul_nonneg (nearest_seconds_nonneg ms) hratePos) _ (by norm_num)
    calc nearest ((ms : ℚ) / 1000) * rate ≤ 66 * 200000 :=
          mul_le_mul (nearest_seconds_le hms) hrate' hratePos (by norm_num)
      _ < 2 ^ (24 : ℤ) := by norm_num
  calc |roundedFrames rate ms - ms * rate / 1000|
      ≤ |roundedFrames rate ms - nearest ((ms : ℚ) / 1000) * rate|
        + |nearest ((ms : ℚ) / 1000) * rate - ms * rate / 1000| := abs_sub_le _ _ _
    _ ≤ 2 ^ ((24 : ℤ) - 54) + 2 ^ ((7 : ℤ) - 54) * 200000 := add_le_add hproduct hscaled
    _ < 1 / 1000 := by norm_num

/-- Whether a duration is a whole number of frames and its product was rounded to less. -/
def LosesFrame (rate ms : Nat) : Prop :=
  1000 ∣ ms * rate ∧ roundedFrames rate ms < (ms * rate / 1000 : Nat)

theorem floor_roundedFrames {rate ms : Nat} (hms : ms < 2 ^ 16) (hrate : rate ≤ 200000) :
    (¬ LosesFrame rate ms → ⌊roundedFrames rate ms⌋₊ = ms * rate / 1000)
      ∧ (LosesFrame rate ms → ⌊roundedFrames rate ms⌋₊ + 1 = ms * rate / 1000) := by
  obtain ⟨hlow, hhigh⟩ := abs_lt.mp (roundedFrames_close hms hrate)
  have hnonneg : 0 ≤ roundedFrames rate ms :=
    nearest_nonneg (mul_nonneg (nearest_seconds_nonneg ms) (Nat.cast_nonneg _))
  have hdivmod : (ms : ℚ) * rate = 1000 * (ms * rate / 1000 : ℕ) + (ms * rate % 1000 : ℕ) := by
    exact_mod_cast (Nat.div_add_mod (ms * rate) 1000).symm
  have hrest : ((ms * rate % 1000 : ℕ) : ℚ) ≤ 999 := by
    exact_mod_cast Nat.le_of_lt_succ (Nat.mod_lt (ms * rate) (by decide))
  constructor
  · intro hkept
    rw [Nat.floor_eq_iff hnonneg]
    refine ⟨?_, by linarith⟩
    by_cases hwhole : 1000 ∣ ms * rate
    · exact not_lt.mp fun hless => hkept ⟨hwhole, hless⟩
    · have hsome : (1 : ℚ) ≤ (ms * rate % 1000 : ℕ) := by
        exact_mod_cast Nat.pos_of_ne_zero fun hzero => hwhole (Nat.dvd_of_mod_eq_zero hzero)
      linarith
  · rintro ⟨hwhole, hless⟩
    have hnone : ((ms * rate % 1000 : ℕ) : ℚ) = 0 := by
      exact_mod_cast Nat.mod_eq_zero_of_dvd hwhole
    obtain ⟨q, hq⟩ : ∃ q, ms * rate / 1000 = q := ⟨_, rfl⟩
    rw [hq] at hdivmod hless ⊢
    have hpos : 0 < q := by
      have : (0 : ℚ) < q := hnonneg.trans_lt hless
      exact_mod_cast this
    have hbefore : ((q - 1 : ℕ) : ℚ) = q - 1 := by
      rw [Nat.cast_sub hpos, Nat.cast_one]
    have hfloor : ⌊roundedFrames rate ms⌋₊ = q - 1 := by
      rw [Nat.floor_eq_iff hnonneg, hbefore]
      constructor <;> linarith
    omega

theorem not_losesFrame {rate ms : Nat} (hms : ms < 2 ^ 16) (hrate : rate ≤ 200000)
    (heighths : 125 ∣ ms) : ¬ LosesFrame rate ms := by
  rintro ⟨hwhole, hless⟩
  obtain ⟨k, rfl⟩ := heighths
  have hexact (n : ℕ) (hn : n < 2 ^ 53) : nearest ((n : ℚ) / 8) = n / 8 := by
    apply nearest_of_fits
    refine ⟨n, -3, ?_, by decide, ?_⟩
    · rw [abs_of_nonneg (Int.natCast_nonneg n)]
      exact_mod_cast hn
    · push_cast
      norm_num
      ring
  have hseconds : ((125 * k : ℕ) : ℚ) / 1000 = (k : ℚ) / 8 := by
    push_cast
    ring
  have hsmall : k * rate ≤ 2 ^ 16 * 200000 := Nat.mul_le_mul (by omega) hrate
  obtain ⟨q, hq⟩ := hwhole
  have hquotient : 125 * k * rate / 1000 = q := by rw [hq, Nat.mul_div_cancel_left q (by decide)]
  have hframes : k * rate = 8 * q := by
    have hassoc : 125 * k * rate = 125 * (k * rate) := Nat.mul_assoc _ _ _
    omega
  have hrounded : roundedFrames rate (125 * k) = q := by
    have hproduct : (k : ℚ) / 8 * rate = ((k * rate : ℕ) : ℚ) / 8 := by
      push_cast
      ring
    rw [roundedFrames, hseconds, hexact k (by omega), hproduct, hexact (k * rate) (by omega),
      hframes]
    push_cast
    ring
  rw [hquotient, hrounded] at hless
  exact lt_irrefl _ hless

/-! ### Programs and texts -/

/-- How many frames a sound of some ms has. -/
structure Counted (rate ms frames : Nat) : Prop where
  rounded : frames = max 1 ⌊roundedFrames rate ms⌋₊
  kept : ¬ LosesFrame rate ms → frames = max 1 (ms * rate / 1000)
  lost : LosesFrame rate ms → frames = max 1 (ms * rate / 1000 - 1)
  eighths : 125 ∣ ms → frames = max 1 (ms * rate / 1000)

theorem counted_framesOfDuration {rate : UInt32} (hlegal : Rate.isLegal rate = true)
    (ms : UInt16) : Counted rate.toNat ms.toNat (framesOfDuration rate ms) := by
  have hms : ms.toNat < 2 ^ 16 := ms.toNat_lt
  have hrate := (Rate.legal_bounds hlegal).2
  obtain ⟨hkept, hlost⟩ := floor_roundedFrames hms hrate
  have hframes := framesOfDuration_eq rate ms
  refine ⟨hframes, fun h => ?_, fun h => ?_, fun heighths => ?_⟩
  · rw [hframes, hkept h]
  · have hless := hlost h
    omega
  · rw [hframes, hkept (not_losesFrame hms hrate heighths)]

def headerMs (bytes : Bytes) : UInt16 := wordOfBytes (bytes.getD 2 0) (bytes.getD 3 0)

theorem decode_frames {rate : UInt32} {bytes : Bytes} {program : Program}
    (h : Program.decode rate bytes = .ok program) :
    program.frames = framesOfDuration rate (headerMs bytes) := by
  unfold Program.decode at h
  split at h
  · cases h
  next hlong =>
    split at h
    · cases h
    · obtain ⟨⟨ms, c⟩, hms, h⟩ := bind_eq_ok.mp h
      obtain ⟨⟨master, c⟩, -, h⟩ := bind_eq_ok.mp h
      obtain ⟨voices, -, h⟩ := bind_eq_ok.mp h
      cases h
      rcases bytes with _ | ⟨_, _ | ⟨_, _ | ⟨high, _ | ⟨low, rest⟩⟩⟩⟩
      all_goals cases hms
      rfl

theorem compile_length {text : String} {before : Nat} {bytes : Bytes}
    (hcompile : compile text before = .ok bytes) :
    ∃ is, List.Forall₂ Instruction.Given (commandsOf text) is ∧ longestLevel is ≤ 65535
      ∧ ∀ rate, ∃ program, Program.decode rate bytes = .ok program
        ∧ program.frames = framesOfDuration rate (longestLevel is).toUInt16 := by
  obtain ⟨s, hrun, hshort, rfl⟩ := (compile_eq_ok text before bytes).mp hcompile
  obtain ⟨is, hgiven, -, hs⟩ := Script.run_eq_ok {} s _ hrun
  have hlongest : s.duration = longestLevel is := by
    rw [hs]
    exact follow_duration is {}
  rw [hlongest] at hshort
  refine ⟨is, hgiven, hshort, fun rate => ⟨_, decode_encode rate s, ?_⟩⟩
  rw [← hlongest]
  rfl

theorem printAll_size {rate : UInt32} {bytes : Bytes} {program : Program}
    (hlegal : Rate.isLegal rate = true) (hdecode : Program.decode rate bytes = .ok program) :
    ∃ pcm, Printer.printAll rate bytes = .ok pcm ∧ pcm.size = program.frames := by
  have hmake := Printer.make_of_decode hlegal hdecode
  exact ⟨_, Printer.printAll_eq hmake, Printer.size_printed _ _⟩

/-- A program has as many frames as its duration takes, and a text as many as its longest level,
but for one that is lost where the duration is a whole number of frames. -/
theorem frames_counted (rate : UInt32) (hlegal : Rate.isLegal rate = true) :
    (∀ bytes program, Program.decode rate bytes = .ok program →
      Counted rate.toNat (headerMs bytes).toNat program.frames)
    ∧ ∀ text before bytes, compile text before = .ok bytes →
      ∃ is pcm, List.Forall₂ Instruction.Given (commandsOf text) is
        ∧ Printer.printAll rate bytes = .ok pcm
        ∧ Counted rate.toNat (longestLevel is) pcm.size := by
  constructor
  · intro bytes program hdecode
    rw [decode_frames hdecode]
    exact counted_framesOfDuration hlegal (headerMs bytes)
  · intro text before bytes hcompile
    obtain ⟨is, hgiven, hshort, hframes⟩ := compile_length hcompile
    obtain ⟨program, hdecode, hprogram⟩ := hframes rate
    obtain ⟨pcm, hpcm, hsize⟩ := printAll_size hlegal hdecode
    have hms : (longestLevel is).toUInt16.toNat = longestLevel is :=
      Nat.mod_eq_of_lt (Nat.lt_succ_of_le hshort)
    have hcounted := counted_framesOfDuration hlegal (longestLevel is).toUInt16
    rw [hms, ← hprogram, ← hsize] at hcounted
    exact ⟨is, pcm, hgiven, hpcm, hcounted⟩

/-- A voice of 145 ms, which are 29 frames at the lowest rate. -/
def whole29 : Bytes := [0xeb, 0xeb, 0x00, 0x91, 0x01, 0x00]

theorem frames_counted_whole29 :
    ∃ program, Program.decode 200 whole29 = .ok program ∧ Counted 200 145 program.frames := by
  cases hdecode : Program.decode 200 whole29 with
  | error e =>
    have hdecodes : (Program.decode 200 whole29).toOption.isSome = true := by decide +kernel
    rw [hdecode] at hdecodes
    cases hdecodes
  | ok program =>
    exact ⟨program, rfl, (frames_counted 200 (by decide)).1 whole29 program hdecode⟩

/-- The product is a little less than 29, so that one frame is lost. -/
theorem whole_frame_lost :
    ¬ ∀ (rate : UInt32) (bytes : Bytes) (program : Program), Rate.isLegal rate = true →
      Program.decode rate bytes = .ok program →
      program.frames = max 1 ((headerMs bytes).toNat * rate.toNat / 1000) := by
  intro hall
  have hframes : ((Program.decode 200 whole29).toOption.map Program.frames) = some 28 := by
    decide +kernel
  cases hdecode : Program.decode 200 whole29 with
  | error e =>
    rw [hdecode] at hframes
    cases hframes
  | ok program =>
    have hexact := hall 200 whole29 program (by decide) hdecode
    rw [hdecode] at hframes
    have h28 : program.frames = 28 := Option.some.inj hframes
    rw [h28] at hexact
    revert hexact
    decide

end Tonewheel.Sound
