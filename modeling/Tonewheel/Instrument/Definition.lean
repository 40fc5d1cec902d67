import Tonewheel.Signal.Envelope

/-!
# Instrument definitions (SPEC_FULL, sections 4.3 and 4.4)

A definition is the plain data of one instrument; a channel expands it for its rate. Rates marked
u4.4 count in sixteenths, u8.8 in 256ths. Envelopes are one-byte descriptors and levels are four
nibbles, as in `Dynamics`.
-/

namespace Tonewheel

/-- The parameters of an instrument with shared effects. Periods are in beats at the tempo when the
channel is made. -/
structure EffectParams where
  /-- Levels of the modulation depth. -/
  rangeLevels : UInt16
  /-- Period of the depth's swing, u4.4 beats; zero for none. -/
  swingPeriod : UInt8
  /-- What the swing adds to the depth at most, u4.4. -/
  swingDepth : UInt8
  /-- Modulator rate relative to the carrier, u4.4. -/
  rate : UInt8
  /-- Scale of the modulation depth, u4.4. -/
  scale : UInt8
  /-- Envelope of the loudness. -/
  level : UInt8
  /-- Period of the detune, u4.4 beats; zero for none. -/
  detunePeriod : UInt8
  detuneDepth : UInt8
  overdrive : UInt8
  /-- Period of the echo, u4.4 beats; zero for none. -/
  delayPeriod : UInt8
  delayDepth : UInt8
  deriving Repr, DecidableEq

inductive Definition where
  /-- A square wave with a fixed decay. -/
  | blip
  /-- The definition of another entry. -/
  | alias (target : UInt8)
  /-- Harmonics of a sine. -/
  | wave (harmonics : Vector UInt8 8) (level : UInt8)
  /-- Harmonics of a sine, crossfaded with the plain sine along the levels of `mix`. -/
  | rock (harmonics : Vector UInt8 8) (mix : UInt16) (level : UInt8)
  /-- A carrier and a modulator whose rate follows the note, u4.4. -/
  | fmRelative (rate scale : UInt8) (range : UInt16) (level : UInt8)
  /-- A carrier and a modulator of fixed frequency, u8.8 hertz. -/
  | fmAbsolute (rate : UInt16) (scale : UInt8) (range : UInt16) (level : UInt8)
  /-- White noise through two band-pass filters at the note, widths in hertz. -/
  | sub (width1 width2 : UInt16) (gain level : UInt8)
  | effect (params : EffectParams)
  deriving Repr, DecidableEq

namespace Definition

def isAlias : Definition → Bool
  | .alias _ => true
  | _ => false

/-- A descriptor byte from a profile, attack bits and release bits. -/
def descriptor (profile : Dynamics.Profile) (attack release : UInt8) : UInt8 :=
  profile.bits ||| (attack <<< 3) ||| release

end Definition

end Tonewheel
