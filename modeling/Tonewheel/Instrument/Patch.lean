import Tonewheel.Instrument.Definition
import Tonewheel.Instrument.NoteTable

/-!
# Patches (SPEC_FULL, section 4.4)

A patch is an instrument made ready for one rate: a definition with its envelopes, tables and
frequencies worked out, or a drum kit. A patch never changes. Its mode is its kind without the
parameters.
-/

namespace Tonewheel

inductive Mode where
  | drum
  | blip
  | wave
  | rock
  | fmRelative
  | fmAbsolute
  | sub
  | effect
  deriving Repr, DecidableEq

inductive Patch where
  /-- Notes play the sounds from `base` on. -/
  | drum (base : UInt16)
  | blip
  | wave (table : Wave) (level : Dynamics)
  | rock (table : Wave) (level mix : Dynamics)
  /-- The ratio is modulator steps per carrier step. -/
  | fmRelative (level range : Dynamics) (ratio : Float32)
  /-- The stride is the modulator's phase step. -/
  | fmAbsolute (level range : Dynamics) (stride : UInt32)
  /-- The widths are fractions of the rate. -/
  | sub (level : Dynamics) (width1 width2 gain : Float32)
  | effect (params : EffectParams)

namespace Patch

def mode : Patch → Mode
  | .drum _ => .drum
  | .blip => .blip
  | .wave _ _ => .wave
  | .rock _ _ _ => .rock
  | .fmRelative _ _ _ => .fmRelative
  | .fmAbsolute _ _ _ => .fmAbsolute
  | .sub _ _ _ _ => .sub
  | .effect _ => .effect

def fixed44 (b : UInt8) : Float32 := b.toFloat32 / 16

/-- The phase step of a u8.8 frequency in hertz. -/
def strideOfHertz (rate : UInt32) (hz : UInt16) : UInt32 :=
  (hz.toUInt32.toFloat / 256 / rate.toFloat * 4294967296).toUInt32

/-- The patch of a definition; an alias has none of its own. -/
def ofDefinition (rate : UInt32) (notes : NoteTable) : Definition → Option Patch
  | .alias _ => none
  | .blip => some .blip
  | .wave harmonics level =>
    some (.wave (notes.sine.withHarmonics harmonics.toList) (.ofDescriptor rate level))
  | .rock harmonics mix level =>
    let level := Dynamics.ofDescriptor rate level
    some (.rock (notes.sine.withHarmonics harmonics.toList) level (level.withLevels mix))
  | .fmRelative ratio scale range level =>
    let level := Dynamics.ofDescriptor rate level
    some (.fmRelative level ((level.withLevels range).scale (fixed44 scale)) (fixed44 ratio))
  | .fmAbsolute hz scale range level =>
    let level := Dynamics.ofDescriptor rate level
    some (.fmAbsolute level ((level.withLevels range).scale (fixed44 scale))
      (strideOfHertz rate hz))
  | .sub width1 width2 gain level =>
    some (.sub (.ofDescriptor rate level) (width1.toFloat32 / rate.toFloat32)
      (width2.toFloat32 / rate.toFloat32) gain.toFloat32)
  | .effect params => some (.effect params)

end Patch

end Tonewheel
