import Tonewheel.Song.Format

/-!
# Writing songs (SPEC_FULL, section 12)

A writer builds a song event by event. Time moves by `wait` alone; notes and wheel positions are
written at the current time. `SongItem.encode` is the form of one item, and `Writer.finish` the
whole song, which starts and loops right after its header.
-/

namespace Tonewheel

/-- The ms that the writer puts into one delay at most. -/
def delayLimitMs : Nat := 63

def durationUnitMs : Nat := 32

/-- An event as bytes: the long form for a note with a duration, which keeps four bits of velocity,
and the short form for one without, which keeps two. -/
def SongEvent.encode : SongEvent → Bytes
  | .note channel key velocity units =>
    if 0 < units then
      [(0x80 : UInt8) ||| (velocity >>> 3), (channel <<< 5) ||| (key >>> 2), (key <<< 6) ||| units]
    else
      [(0x90 : UInt8) ||| ((velocity >>> 3) &&& (0x0c : UInt8)) ||| (channel >>> 1),
        (channel <<< 7) ||| key]
  | .wheel channel position => [(0xa0 : UInt8) ||| channel, (position >>> 6).toUInt8]

def SongItem.encode : SongItem → Bytes
  | .delay ms => [ms]
  | .event e => e.encode

structure Writer where
  tempo : UInt16
  records : Vector ChannelRecord songChannels := Vector.replicate songChannels {}
  /-- The items so far, latest first. -/
  reversed : List SongItem := []
  /-- Time that passed since the last item, in ms. -/
  pending : UInt32 := 0

namespace Writer

/-- The tempo in ms of a tempo in μs, rounded and held within 16 bits and above zero. -/
def tempoOfMicroseconds (us : UInt32) : UInt16 :=
  (max 1 (min 0xffff ((us + 500) / 1000))).toUInt16

def ofTempo (us : UInt32) : Writer := { tempo := tempoOfMicroseconds us }

/-- Sets the record of a channel; a channel that songs do not reach is ignored. -/
def channel (w : Writer) (number : UInt8) (record : ChannelRecord) : Writer :=
  { w with records := w.records.setIfInBounds number.toNat record }

/-- Lets time pass. A gap is counted in 32 bits, so it should be shorter than 50 days. -/
def wait (w : Writer) (ms : UInt32) : Writer := { w with pending := w.pending + ms }

/-- The delays that a time is cut into: as many of the longest as fit, then the rest. -/
def delays (ms : Nat) : List SongItem :=
  if ms = 0 then []
  else .delay (min ms delayLimitMs).toUInt8 :: delays (ms - min ms delayLimitMs)
  termination_by ms
  decreasing_by
    have : delayLimitMs = 63 := rfl
    omega

def flush (w : Writer) : Writer :=
  { w with reversed := (delays w.pending.toNat).reverse ++ w.reversed, pending := 0 }

def put (w : Writer) (event : SongEvent) : Writer :=
  let w := w.flush
  { w with reversed := .event event :: w.reversed }

/-- Writes a note. Durations are cut to units of 32 ms, of which there can be 63. -/
def note (w : Writer) (channel key velocity : UInt8) (ms : UInt32) : Writer :=
  w.put (.note (channel &&& 0x07) (key &&& 0x7f) (velocity &&& 0x7f)
    (min 63 (ms.toNat / durationUnitMs)).toUInt8)

/-- Writes a wheel position of 14 bits, of which the high 8 are kept. -/
def wheel (w : Writer) (channel : UInt8) (position : UInt16) : Writer :=
  w.put (.wheel (channel &&& 0x07) (position &&& 0x3fff))

def recordBytes (r : ChannelRecord) : Bytes := [r.program, r.volume, r.pan, 0]

def header (w : Writer) : Bytes :=
  Song.signature ++ bytesOfWord w.tempo ++ bytesOfWord Song.headerLength.toUInt16
    ++ bytesOfWord Song.headerLength.toUInt16 ++ w.records.toList.flatMap recordBytes

def finish (w : Writer) : Bytes :=
  w.header ++ w.flush.reversed.reverse.flatMap SongItem.encode

end Writer

end Tonewheel
