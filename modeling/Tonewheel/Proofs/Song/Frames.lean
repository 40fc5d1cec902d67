import Tonewheel.Proofs.Numeric.Rounding
import Tonewheel.Song.Player

/-!
# Milliseconds as frames

The frames of some ms are rounded to the nearest number of frames, once for each delay
(`delayFrames_near`). Where a ms is a whole number of frames, nothing is lost
(`delayFrames_of_dvd`); at any other rate the rest is lost each time.
-/

namespace Tonewheel.Player

open Single

theorem holds_framesPerMs {rate : UInt32} (hrate : Rate.isLegal rate = true) :
    ∃ c, Holds (Format.framesPerMs rate) c
      ∧ |c - (rate.toNat : ℚ) / 1000| ≤ (rate.toNat : ℚ) / 1000 / 2 ^ 23 := by
  obtain ⟨hlo, hhi⟩ := Rate.legal_bounds hrate
  have hlo' : (200 : ℚ) ≤ rate.toNat := by exact_mod_cast hlo
  have hhi' : (rate.toNat : ℚ) ≤ 200000 := by exact_mod_cast hhi
  have hrateHolds : Holds rate.toFloat32 rate.toNat := holds_ofNat (by omega) (by omega)
  have hthousand : Holds 1000 1000 := holds_ofNat (n := 1000) (by decide) (by decide)
  refine holds_div hrateHolds hthousand ⟨?_, ?_⟩
  · exact le_trans (by norm_num) (div_le_div_of_nonneg_right hlo' (by norm_num))
  · exact (div_le_div_of_nonneg_right hhi' (by norm_num)).trans (by norm_num)

theorem nearest_frames {rate : UInt32} (hrate : Rate.isLegal rate = true) {n : Nat} (hpos : 0 < n)
    (hn : n ≤ 2016) :
    |(nearest (⟨Float32.Model.ofNat n⟩ * Format.framesPerMs rate) : ℚ) - n * (rate.toNat / 1000)|
      ≤ 5 / 8 := by
  obtain ⟨hlo, hhi⟩ := Rate.legal_bounds hrate
  obtain ⟨c, hc, hcnear⟩ := holds_framesPerMs hrate
  have hlo' : (200 : ℚ) ≤ rate.toNat := by exact_mod_cast hlo
  have hhi' : (rate.toNat : ℚ) ≤ 200000 := by exact_mod_cast hhi
  have hpos' : (1 : ℚ) ≤ n := by exact_mod_cast hpos
  have hn' : (n : ℚ) ≤ 2016 := by exact_mod_cast hn
  set r : ℚ := rate.toNat / 1000 with hr
  have hr1 : 1 / 5 ≤ r := by linarith
  have hr2 : r ≤ 200 := by linarith
  have hexact1 : 1 / 5 ≤ n * r := by nlinarith
  have hexact2 : n * r ≤ 403200 := by nlinarith
  have hscaled : |n * c - n * r| ≤ n * r / 2 ^ 23 := by
    rw [← mul_sub, abs_mul, abs_of_nonneg (by linarith), mul_div_assoc]
    exact mul_le_mul_of_nonneg_left hcnear (by linarith)
  have hscaled' := abs_le.mp hscaled
  obtain ⟨p, hp, hpnear⟩ := holds_mul (holds_ofNat hpos (by omega)) hc
    ⟨(by norm_num; linarith), (by norm_num; linarith)⟩
  have hpnear' := abs_le.mp hpnear
  have hround := abs_le.mp (nearest_near hp (by linarith))
  rw [abs_le]
  constructor <;> linarith

theorem nearest_zero_mul {x : Float32} {a : ℚ} (hx : Holds x a) :
    nearest (⟨Float32.Model.ofNat 0⟩ * x) = 0 := by
  obtain ⟨m, e, hpos, hxm, -⟩ := hx
  have hzero : (Float32.Model.ofNat 0).unpack = .zero .positive := rfl
  have hproduct : (⟨Float32.Model.ofNat 0⟩ : Float32) * x = ⟨Float32.Model.ofNat 0⟩ := by
    show Float32.ofModel (Float32.Model.pack
      (Float.Model.UnpackedFloat.mul .binary32 (Float32.Model.ofNat 0).unpack x.toModel.unpack)) = _
    rw [hzero, hxm]
    rfl
  rw [hproduct]
  decide

/-- Where a ms is a whole number of frames, nothing is lost. -/
theorem nearest_frames_of_dvd {rate : UInt32} (hrate : Rate.isLegal rate = true)
    (hdvd : 1000 ∣ rate.toNat) {n : Nat} (hn : n ≤ 2016) :
    nearest (⟨Float32.Model.ofNat n⟩ * Format.framesPerMs rate) * 1000 = n * rate.toNat := by
  obtain ⟨q, hq⟩ := hdvd
  rcases Nat.eq_zero_or_pos n with rfl | hpos
  · obtain ⟨c, hc, -⟩ := holds_framesPerMs hrate
    rw [nearest_zero_mul hc, Nat.zero_mul, Nat.zero_mul]
  · have hnear := nearest_frames hrate hpos hn
    have hwhole : (rate.toNat : ℚ) / 1000 = q := by
      rw [hq]
      push_cast
      ring
    rw [hwhole] at hnear
    generalize nearest (⟨Float32.Model.ofNat n⟩ * Format.framesPerMs rate) = frames at hnear
    have hlt := abs_lt.mp (hnear.trans_lt (by norm_num : (5 : ℚ) / 8 < 1))
    have h1 : n * q < frames + 1 := by
      have : (n : ℚ) * q < frames + 1 := by linarith
      exact_mod_cast this
    have h2 : frames < n * q + 1 := by
      have : (frames : ℚ) < n * q + 1 := by linarith
      exact_mod_cast this
    have heq : frames = n * q := by omega
    rw [heq, hq]
    ring

/-! ### Delays and durations -/

theorem toFloat32_shift (units : UInt8) :
    (units.toUInt16 <<< 5).toFloat32 = ⟨Float32.Model.ofNat (32 * units.toNat)⟩ := by
  have hunits := units.toNat_lt
  have hshift : (units.toUInt16 <<< 5).toNat = 32 * units.toNat := by
    rw [UInt16.toNat_shiftLeft, UInt8.toNat_toUInt16, Nat.shiftLeft_eq]
    show units.toNat * 2 ^ 5 % 2 ^ 16 = _
    omega
  show Float32.ofModel (Float32.Model.ofNat (units.toUInt16 <<< 5).toNat) = _
  rw [hshift]

section

variable {p : Player} {rate : UInt32} (hrate : Rate.isLegal rate = true)
  (hframes : p.framesPerMs = Format.framesPerMs rate)

include hrate hframes

omit hrate in
theorem delayFrames_val (ms : UInt8) :
    (p.delayFrames ms).val
      = max 1 (nearest (⟨Float32.Model.ofNat ms.toNat⟩ * Format.framesPerMs rate)) := by
  have hms : ms.toFloat32 = ⟨Float32.Model.ofNat ms.toNat⟩ := rfl
  rw [← hms, ← hframes, delayFrames]

/-- A delay is off by at most 0.8 frames, which it is for 1 ms at the lowest rate. -/
theorem delayFrames_near {ms : UInt8} (hpos : 0 < ms) :
    |((p.delayFrames ms).val : ℚ) - ms.toNat * (rate.toNat / 1000)| ≤ 4 / 5 := by
  have hms : 0 < ms.toNat := UInt8.lt_iff_toNat_lt.mp hpos
  have hsize := ms.toNat_lt
  have hnear := abs_le.mp (nearest_frames hrate hms (by omega))
  have hlow : (1 : ℚ) / 5 ≤ ms.toNat * (rate.toNat / 1000) := by
    have h1 : (1 : ℚ) ≤ ms.toNat := by exact_mod_cast hms
    have h2 : (200 : ℚ) ≤ rate.toNat := by exact_mod_cast (Rate.legal_bounds hrate).1
    nlinarith
  rw [delayFrames_val hframes ms, abs_le]
  generalize nearest (⟨Float32.Model.ofNat ms.toNat⟩ * Format.framesPerMs rate) = frames at hnear
  rcases Nat.eq_zero_or_pos frames with rfl | hframesPos
  · rw [Nat.max_eq_left (by decide)]
    push_cast at hnear ⊢
    constructor <;> linarith
  · rw [Nat.max_eq_right hframesPos]
    constructor <;> linarith

theorem delayFrames_of_dvd (hdvd : 1000 ∣ rate.toNat) {ms : UInt8} (hpos : 0 < ms) :
    (p.delayFrames ms).val * 1000 = ms.toNat * rate.toNat := by
  have hms : 0 < ms.toNat := UInt8.lt_iff_toNat_lt.mp hpos
  have hsize := ms.toNat_lt
  have hexact := nearest_frames_of_dvd hrate hdvd (n := ms.toNat) (by omega)
  have hrate' := (Rate.legal_bounds hrate).1
  rw [delayFrames_val hframes ms]
  generalize nearest (⟨Float32.Model.ofNat ms.toNat⟩ * Format.framesPerMs rate) = frames at hexact
  have hframesPos : 0 < frames := by
    refine Nat.pos_of_ne_zero fun hzero => ?_
    rw [hzero, Nat.zero_mul] at hexact
    have := Nat.mul_pos hms (by omega : 0 < rate.toNat)
    omega
  rw [Nat.max_eq_right hframesPos, hexact]

theorem durationFrames_of_dvd (hdvd : 1000 ∣ rate.toNat) {units : UInt8} (hunits : units < 64) :
    p.durationFrames units * 1000 = 32 * units.toNat * rate.toNat := by
  have hsize : units.toNat < 64 := UInt8.lt_iff_toNat_lt.mp hunits
  have hexact := nearest_frames_of_dvd hrate hdvd (n := 32 * units.toNat) (by omega)
  have hrate' := (Rate.legal_bounds hrate).2
  have hproduct : 32 * units.toNat * rate.toNat ≤ 2016 * 200000 :=
    Nat.mul_le_mul (by omega) hrate'
  rw [durationFrames, hframes, toFloat32_shift]
  generalize nearest (⟨Float32.Model.ofNat (32 * units.toNat)⟩ * Format.framesPerMs rate) = frames
    at hexact
  rw [min_eq_right (by omega)]
  exact_mod_cast hexact

theorem durationFrames_zero : p.durationFrames 0 = 0 := by
  obtain ⟨c, hc, -⟩ := holds_framesPerMs hrate
  rw [durationFrames, hframes, toFloat32_shift]
  have hnone : nearest (⟨Float32.Model.ofNat (32 * (0 : UInt8).toNat)⟩ * Format.framesPerMs rate)
      = 0 := nearest_zero_mul hc
  rw [hnone]
  rfl

theorem durationFrames_near {units : UInt8} (hunits : units < 64) :
    |(p.durationFrames units : ℚ) - 32 * units.toNat * (rate.toNat / 1000)| ≤ 5 / 8 := by
  have hsize : units.toNat < 64 := UInt8.lt_iff_toNat_lt.mp hunits
  rcases Nat.eq_zero_or_pos units.toNat with hzero | hpos
  · obtain rfl : units = 0 := UInt8.toNat_inj.mp hzero
    rw [durationFrames_zero hrate hframes]
    norm_num
  · have hnear := nearest_frames hrate (n := 32 * units.toNat) (by omega) (by omega)
    have hlimit : (rate.toNat : ℚ) ≤ 200000 := by exact_mod_cast (Rate.legal_bounds hrate).2
    have hunits' : (units.toNat : ℚ) ≤ 64 := by exact_mod_cast hsize.le
    rw [durationFrames, hframes, toFloat32_shift]
    generalize nearest (⟨Float32.Model.ofNat (32 * units.toNat)⟩ * Format.framesPerMs rate) = frames
      at hnear
    push_cast at hnear
    have hsmall : (frames : ℚ) ≤ 0x7fffffff := by
      have hproduct : 32 * (units.toNat : ℚ) * (rate.toNat / 1000) ≤ 32 * 64 * (200000 / 1000) := by
        have hms : (rate.toNat : ℚ) / 1000 ≤ 200000 / 1000 := by linarith
        exact mul_le_mul (by linarith) hms (by positivity) (by norm_num)
      have hupper := (abs_le.mp hnear).2
      norm_num at hproduct
      exact le_trans (by linarith) (by norm_num : (409600 : ℚ) + 5 / 8 ≤ 0x7fffffff)
    have hsmall' : (frames : Int) ≤ 0x7fffffff := by exact_mod_cast hsmall
    rw [min_eq_right hsmall']
    exact_mod_cast hnear

end

end Tonewheel.Player
