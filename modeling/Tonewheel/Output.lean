/-!
# Output formats (SPEC_FULL, sections 6 and 10)

A format is a sample rate and a number of interleaved channels, all of which carry the same mono
signal. Audio is made in passes of at most 1024 samples, in whole frames (`Format.passLimit`).
-/

namespace Tonewheel

inductive FormatError where
  | rate (rate : UInt32)
  | channels (count : Nat)
  deriving Repr, DecidableEq

def FormatError.message : FormatError → String
  | .rate r => s!"sample rate {r.toNat} out of range 200..=200000"
  | .channels n => s!"channel count {n} out of range 1..=8"

def Rate.isLegal (rate : UInt32) : Bool := 200 ≤ rate && rate ≤ 200000

theorem Rate.legal_bounds {rate : UInt32} (hrate : Rate.isLegal rate = true) :
    200 ≤ rate.toNat ∧ rate.toNat ≤ 200000 := by
  simp only [Rate.isLegal, Bool.and_eq_true, decide_eq_true_eq, UInt32.le_iff_toNat_le] at hrate
  exact hrate

abbrev passSamples : Nat := 1024

/-- A supported sample rate and interleaved channel count. -/
structure Format where
  rate : UInt32
  channels : Nat
  rate_legal : Rate.isLegal rate = true := by decide
  channels_pos : 0 < channels := by decide
  channels_le : channels ≤ 8 := by decide
  deriving Repr, DecidableEq

namespace Format

def standard : Format := { rate := 44100, channels := 2 }

/-- A format of the given rate and channel count; a bad rate is reported before a bad count. -/
def make (rate : UInt32) (channels : Nat) : Except FormatError Format :=
  if hr : Rate.isLegal rate = true then
    if hc : 0 < channels ∧ channels ≤ 8 then
      .ok { rate, channels, rate_legal := hr, channels_pos := hc.1, channels_le := hc.2 }
    else .error (.channels channels)
  else .error (.rate rate)

def passLimit (f : Format) : Nat := passSamples / f.channels * f.channels

def framesPerMs (rate : UInt32) : Float32 := rate.toFloat32 / 1000

theorem passLimit_pos (f : Format) : 0 < f.passLimit := by
  have pos := f.channels_pos
  have le := f.channels_le
  have quotient : 0 < passSamples / f.channels :=
    Nat.div_pos (Nat.le_trans le (by decide)) pos
  exact Nat.mul_pos quotient pos

end Format

end Tonewheel
