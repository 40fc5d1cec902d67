import Tonewheel.Instrument.Definition

/-!
# The instrument bank (SPEC_FULL, section 4.4)

One definition for each program number below 128, in sixteen families of eight. `Bank.resolve`
follows an alias by one step.
-/

namespace Tonewheel.Bank

open Definition (descriptor)

/-- Pianos, programs 0 to 7: Acoustic Grand Piano, Bright Acoustic Piano, Electric Grand Piano,
Honky-Tonk Piano, EP 1 (Rhodes), EP 2 (Chorus), Harpsichord, Clavinet. -/
def pianos : Vector Definition 8 := #v[
  .blip,
  .alias 0x00,
  .fmRelative 0x20 0x40 0x8fc8 (descriptor .tone 0 4),
  .fmRelative 0x18 0x40 0xff82 (descriptor .tone 1 3),
  .rock #v[0x80, 0xc0, 0x40, 0x20, 0x08, 0x00, 0x00, 0x00] 0x0f80 (descriptor .tone 1 3),
  .fmAbsolute 0x0800 0x01 0x0f30 (descriptor .pluck 2 4),
  .fmRelative 0x50 0x50 0xfff0 (descriptor .impulse 0 5),
  .fmRelative 0x40 0x50 0x8f00 (descriptor .pluck 0 5)]

/-- Chromatic percussion, programs 8 to 15: Celesta, Glockenspiel, Music Box, Vibraphone, Marimba,
Xylophone, Tubular Bells, Dulcimer. -/
def chromatic : Vector Definition 8 := #v[
  .fmRelative 0x7a 0x87 0xf87a (descriptor .impulse 0 6),
  .fmRelative 0x30 0x40 0xfff4 (descriptor .impulse 0 3),
  .fmRelative 0x62 0x80 0xff84 (descriptor .impulse 0 5),
  .fmRelative 0x40 0x40 0x0ff4 (descriptor .impulse 1 5),
  .fmRelative 0x80 0x38 0x8ff4 (descriptor .impulse 0 5),
  .fmRelative 0x80 0x30 0xfff4 (descriptor .impulse 0 5),
  .fmRelative 0x38 0x67 0xf8ff (descriptor .impulse 1 6),
  .fmRelative 0x60 0x70 0x8f84 (descriptor .impulse 0 6)]

/-- Organs, programs 16 to 23: Drawbar Organ, Percussive Organ, Rock Organ, Church Organ, Reed
Organ, Accordion (French), Harmonica, Tango Accordion. -/
def organs : Vector Definition 8 := #v[
  .rock #v[0xff, 0x02, 0x55, 0x01, 0x33, 0x00, 0x11, 0x00] 0x2f8c (descriptor .bow 2 5),
  .rock #v[0x00, 0xc0, 0x04, 0x40, 0x01, 0x00, 0x00, 0x00] 0xc2f4 (descriptor .pluck 0 5),
  .rock #v[0xc0, 0x00, 0x60, 0x00, 0x30, 0x00, 0x18, 0x00] 0x0f84 (descriptor .tone 2 4),
  .rock #v[0xc0, 0xa0, 0x60, 0x00, 0x30, 0x00, 0x18, 0x00] 0xfff0 (descriptor .tone 3 6),
  .rock #v[0x00, 0x7c, 0xa5, 0x80, 0x33, 0x60, 0x11, 0x00] 0x0ff0 (descriptor .tone 2 3),
  .alias 0x10,
  .alias 0x10,
  .alias 0x10]

/-- Guitars, programs 24 to 31: Nylon Acoustic Guitar, Steel Acoustic Guitar, Jazz Electric
Guitar, Clean Electric Guitar, Muted Electric Guitar, Overdriven Guitar, Distortion Guitar, Guitar
Harmonics. -/
def guitars : Vector Definition 8 := #v[
  .fmRelative 0x20 0x10 0x4fc0 (descriptor .impulse 0 5),
  .effect ⟨0x0f80, 0x00, 0x00, 0x60, 0x78, (descriptor .pluck 0 4), 0x40, 0x10, 0x00, 0x10, 0x10⟩,
  .effect ⟨0x0fff, 0x10, 0x08, 0x20, 0x40, (descriptor .pluck 0 4), 0x40, 0x10, 0x00, 0x00, 0x00⟩,
  .effect ⟨0x7f84, 0x20, 0x10, 0x20, 0x40, (descriptor .pluck 1 4), 0x10, 0x10, 0x00, 0x08, 0x40⟩,
  .effect ⟨0x0ff0, 0x20, 0x20, 0x20, 0x40, (descriptor .pluck 0 4), 0x10, 0x10, 0x10, 0x10, 0x20⟩,
  .effect ⟨0xff80, 0x40, 0, 0x20, 0x30, (descriptor .pluck 1 4), 0x40, 0x02, 0x60, 0x10, 0x20⟩,
  .effect ⟨0xff44, 0x20, 0x08, 0x08, 0x30, (descriptor .pluck 3 5), 0x10, 0x10, 0xe0, 0x10, 0x10⟩,
  .effect ⟨0x0ff0, 0x00, 0x00, 0x77, 0x80, (descriptor .pluck 3 5), 0x10, 0x10, 0x00, 0x10, 0x10⟩]

/-- Basses, programs 32 to 39: Acoustic Bass, Fingered Electric Bass, Picked Electric Bass,
Fretless Bass, Slap Bass 1, Slap Bass 2, Synth Bass 1, Synth Bass 2. -/
def basses : Vector Definition 8 := #v[
  .fmRelative 0x08 0x18 0x6fd8 (descriptor .tone 1 3),
  .effect ⟨0x8fc4, 0x20, 0x04, 0x08, 0x20, (descriptor .pluck 0 3), 0x00, 0x00, 0x00, 0x00, 0x00⟩,
  .wave #v[0xc0, 0xc0, 0x30, 0x00, 0x10, 0x80, 0x40, 0x20] (descriptor .pluck 1 3),
  .fmRelative 0x08 0x20 0x4f80 (descriptor .tone 3 4),
  .fmRelative 0x08 0x28 0x6f61 (descriptor .pluck 1 3),
  .rock #v[0x40, 0xff, 0xc0, 0x80, 0x40, 0x10, 0x08, 0x02] 0x0f40 (descriptor .pluck 2 4),
  .fmRelative 0x08 0x30 0x4fc2 (descriptor .pluck 2 2),
  .fmRelative 0x08 0x50 0x8ff0 (descriptor .pluck 1 4)]

/-- Strings, programs 40 to 47: Violin, Viola, Cello, Contrabass, Tremolo Strings, Pizzicato
Strings, Orchestral Harp, Timpani. -/
def strings : Vector Definition 8 := #v[
  .rock #v[0x20, 0xc0, 0x70, 0x58, 0x40, 0x20, 0x08, 0x00] 0x8fc0 (descriptor .bow 3 5),
  .rock #v[0xff, 0x80, 0x55, 0x40, 0x33, 0x20, 0x08, 0x00] 0x8fc0 (descriptor .bow 3 5),
  .rock #v[0x40, 0xff, 0x80, 0x55, 0x40, 0x33, 0x20, 0x08] 0x8fc0 (descriptor .bow 3 4),
  .fmRelative 0x08 0x40 0xf888 (descriptor .bow 3 5),
  .effect ⟨0x0fc4, 0x08, 0x02, 0x10, 0x20, (descriptor .bow 0 6), 0x00, 0x00, 0x00, 0x00, 0x00⟩,
  .effect ⟨0x0fc4, 0x08, 0x08, 0x10, 0x30, (descriptor .impulse 0 5), 0x04, 0x10, 0x00, 0x10, 0x10⟩,
  .effect ⟨0x8fc4, 0x00, 0x00, 0x30, 0x30, (descriptor .impulse 0 6), 0x04, 0x10, 0x00, 0x10, 0x20⟩,
  .sub 50 10 150 (descriptor .impulse 1 3)]

/-- Ensembles, programs 48 to 55: String Ensemble 1, String Ensemble 2, Synth Strings 1, Synth
Strings 2, Choir Aahs, Voice Oohs, Synth Voice, Orchestra Hit. -/
def ensembles : Vector Definition 8 := #v[
  .effect ⟨0x8fc4, 0x40, 0x08, 0x18, 0x20, (descriptor .bow 2 5), 0x10, 0x08, 0x00, 0x10, 0x20⟩,
  .alias 0x30,
  .effect ⟨0xcfe4, 0x40, 0x08, 0x08, 0x50, (descriptor .bow 2 5), 0x10, 0x08, 0x00, 0x10, 0x20⟩,
  .alias 0x30,
  .alias 0x30,
  .alias 0x30,
  .alias 0x30,
  .alias 0x30]

/-- Brass, programs 56 to 63: Trumpet, Trombone, Tuba, Muted Trumpet, French Horn, Brass Section,
Synth Brass 1, Synth Brass 2. -/
def brass : Vector Definition 8 := #v[
  .rock #v[0x20, 0xc0, 0x60, 0x50, 0x40, 0x10, 0x08, 0x02] 0xf0f4 (descriptor .bow 3 3),
  .alias 0x38,
  .alias 0x38,
  .alias 0x38,
  .alias 0x38,
  .alias 0x38,
  .alias 0x38,
  .alias 0x38]

/-- Reeds, programs 64 to 71: Soprano Sax, Alto Sax, Tenor Sax, Baritone Sax, Oboe, English Horn,
Bassoon, Clarinet. -/
def reeds : Vector Definition 8 := #v[
  .fmRelative 0x40 0x30 0x4fc2 (descriptor .tone 2 4),
  .alias 0x40,
  .alias 0x40,
  .alias 0x40,
  .alias 0x40,
  .alias 0x40,
  .alias 0x40,
  .rock #v[0x20, 0x8c, 0xe0, 0x00, 0x73, 0x00, 0x31, 0x00] 0x00ff (descriptor .pluck 1 4)]

/-- Pipes, programs 72 to 79: Piccolo, Flute, Recorder, Pan Flute, Blown Bottle, Shakuhachi,
Whistle, Ocarina. -/
def pipes : Vector Definition 8 := #v[
  .blip,
  .alias 0x48,
  .wave #v[0x80, 0x10, 0xf5, 0x00, 0x33, 0x00, 0x11, 0x04] (descriptor .tone 4 3),
  .alias 0x48,
  .sub 25 15 45 (descriptor .tone 1 4),
  .fmRelative 0x43 0x18 0x0f30 (descriptor .pluck 2 4),
  .alias 0x48,
  .fmRelative 0x20 0x28 0x8f00 (descriptor .bow 2 5)]

/-- Synthetic leads, programs 80 to 87: Square Lead, Saw Lead, Calliope, Chiffer, Charang, Voice
Solo, Fifths, Bass and Lead. -/
def leads : Vector Definition 8 := #v[
  .wave #v[0xff, 0x00, 0x55, 0x00, 0x33, 0x00, 0x10, 0x00] (descriptor .tone 1 3),
  .wave #v[0xff, 0x80, 0x55, 0x40, 0x33, 0x20, 0x10, 0x08] (descriptor .tone 2 3),
  .rock #v[0x00, 0xff, 0x20, 0x00, 0x00, 0x00, 0x00, 0x00] 0x0f80 (descriptor .tone 1 5),
  .blip,
  .rock #v[0x00, 0xff, 0x40, 0x20, 0x10, 0x08, 0x00, 0x00] 0x00ff (descriptor .tone 1 4),
  .fmRelative 0x28 0x20 0xf8c4 (descriptor .bow 3 4),
  .fmRelative 0x18 0x40 0x8fc4 (descriptor .tone 3 4),
  .rock #v[0x00, 0x00, 0x00, 0xff, 0x00, 0x00, 0x00, 0x00] 0xcf00 (descriptor .tone 2 4)]

/-- Synthetic pads, programs 88 to 95: Fantasia Pad, Warm Pad, Polysynth Pad, Choir Space Voice,
Bowed Glass, Metallic Pad, Halo Pad, Sweep Pad. -/
def pads : Vector Definition 8 := #v[
  .effect ⟨0xffff, 0x80, 0x20, 0x10, 0x10, (descriptor .bow 0 7), 0x10, 0x18, 0x00, 0x10, 0x20⟩,
  .wave #v[0xff, 0x10, 0x08, 0x02, 0x00, 0x00, 0x00, 0x00] (descriptor .bow 0 3),
  .effect ⟨0xcf40, 0x40, 0x10, 0x10, 0x40, (descriptor .bow 2 5), 0x40, 0x10, 0x00, 0x10, 0x20⟩,
  .sub 40 25 40 (descriptor .bow 3 4),
  .sub 20 40 30 (descriptor .bow 2 5),
  .effect ⟨0xfff0, 0x40, 0x04, 0x76, 0x30, (descriptor .bow 2 6), 0x80, 0x10, 0x00, 0x10, 0x08⟩,
  .rock #v[0x00, 0xff, 0x20, 0x10, 0x08, 0x04, 0x02, 0x01] 0x04f0 (descriptor .bow 3 6),
  .effect ⟨0xffff, 0x40, 0x20, 0x40, 0x30, (descriptor .bow 2 6), 0x40, 0x10, 0x00, 0x10, 0x08⟩]

/-- Synthetic effects, programs 96 to 103: Rain, Soundtrack, Crystal, Atmosphere, Brightness,
Goblins, Echoes, Drops, Sci-Fi Star Theme. -/
def effects : Vector Definition 8 := #v[
  .effect ⟨0x8ff0, 0x80, 0x80, 0x38, 0x60, (descriptor .impulse 2 3), 0x00, 0x00, 0x00, 0x08, 0xa0⟩,
  .alias 0x60,
  .alias 0x60,
  .alias 0x60,
  .alias 0x60,
  .effect ⟨0x8ff0, 0x40, 0x40, 0x08, 0x40, (descriptor .pluck 2 3), 0x00, 0x00, 0x40, 0x10, 0x80⟩,
  .effect ⟨0xf0ff, 0x40, 0x80, 0x20, 0x10, (descriptor .pluck 2 3), 0x10, 0x20, 0x00, 0x08, 0xa0⟩,
  .effect ⟨0x0fff, 0x80, 0x18, 0x20, 0x60, (descriptor .bow 1 5), 0x10, 0x08, 0x08, 0x10, 0x20⟩]

/-- Ethnic instruments, programs 104 to 111: Sitar, Banjo, Shamisen, Koto, Kalimba, Bag Pipe,
Fiddle, Shanai. -/
def ethnic : Vector Definition 8 := #v[
  .blip,
  .alias 0x68,
  .alias 0x68,
  .alias 0x68,
  .alias 0x68,
  .alias 0x68,
  .alias 0x68,
  .alias 0x68]

/-- Percussive instruments, programs 112 to 119: Tinkle Bell, Agogo, Steel Drums, Wood Block,
Taiko, Melodic Tom, Synth Drum, Reverse Cymbal. -/
def percussive : Vector Definition 8 := #v[
  .fmRelative 0x90 0xa0 0xff8f (descriptor .impulse 0 6),
  .fmRelative 0x57 0x40 0xffff (descriptor .impulse 0 5),
  .fmRelative 0x58 0x40 0xf0ff (descriptor .impulse 1 5),
  .fmRelative 0x18 0x20 0x0fff (descriptor .impulse 0 2),
  .fmRelative 0x04 0x30 0xf0ff (descriptor .impulse 1 5),
  .fmRelative 0x18 0x38 0xf8f0 (descriptor .impulse 1 3),
  .effect ⟨0xff80, 0x0a, 0x20, 0x08, 0x20, (descriptor .impulse 0 3), 0x08, 0x04, 0, 0, 0⟩,
  .alias 0x70]

/-- Sound effects, programs 120 to 127: Guitar Fret Noise, Breath Noise, Seashore, Bird Tweet,
Telephone Ring, Helicopter, Applause, Gunshot. -/
def noises : Vector Definition 8 := #v[
  .fmRelative 0x58 0xa0 0xf88f (descriptor .impulse 3 4),
  .sub 40 40 30 (descriptor .pluck 3 3),
  .sub 200 100 5 (descriptor .bow 3 7),
  .fmAbsolute 0x0800 0x12 0xf400 (descriptor .pluck 1 5),
  .fmAbsolute 0x1000 0x08 0xcfc0 (descriptor .impulse 3 3),
  .fmAbsolute 0x0800 0x10 0x0ff0 (descriptor .tone 1 5),
  .blip,
  .sub 400 400 1 (descriptor .impulse 1 4)]

def families : Vector (Vector Definition 8) 16 := #v[
  pianos, chromatic, organs, guitars, basses, strings, ensembles, brass,
  reeds, pipes, leads, pads, effects, ethnic, percussive, noises]

def definitions : Vector Definition 128 := families.flatten.cast (by decide)

/-- The definition of a program, in which `custom` takes the place of program zero. -/
def entry? (custom : Option Definition) (program : UInt8) : Option Definition :=
  match custom with
  | some d => if program = 0 then some d else definitions[program.toNat]?
  | none => definitions[program.toNat]?

def resolve (custom : Option Definition) (program : UInt8) : Option Definition :=
  match entry? custom program with
  | some (.alias target) =>
    match entry? custom target with
    | some (.alias _) => none
    | found => found
  | found => found

end Tonewheel.Bank
