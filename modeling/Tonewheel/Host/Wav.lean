import Tonewheel.Bytes

/-!
# WAV files (SPEC_FULL, section 13)

Interleaved 16-bit words as an uncompressed WAV file: a header that describes them, then the words,
low byte first. `Wav.words` reads the words of such a file back.
-/

namespace Tonewheel.Host.Wav

/-- A number as `count` bytes, low byte first. -/
def littleEndian (count n : Nat) : Bytes :=
  (List.range count).map fun i => (n >>> (8 * i)).toUInt8

def wordBytes (w : Int) : Bytes := littleEndian 2 (w % 0x10000).toNat

def tag (name : String) : Bytes := name.toList.map fun c => c.toNat.toUInt8

/-- The 16 bytes that stand for uncompressed words in the extended description. -/
def pcmIdentifier : Bytes :=
  [0x01, 0x00, 0x00, 0x00, 0x00, 0x00, 0x10, 0x00, 0x80, 0x00, 0x00, 0xaa, 0x00, 0x38, 0x9b, 0x71]

/-- The description of the words. More than two channels take the extended one, which has a mask of
speakers with a bit for each channel. -/
def description (rate channels : Nat) : Bytes :=
  let fields := littleEndian 2 channels ++ littleEndian 4 rate
    ++ littleEndian 4 (rate * channels * 2) ++ littleEndian 2 (channels * 2) ++ littleEndian 2 16
  if channels ≤ 2 then littleEndian 2 1 ++ fields
  else
    littleEndian 2 0xfffe ++ fields ++ littleEndian 2 22 ++ littleEndian 2 16
      ++ littleEndian 4 ((1 <<< channels) - 1) ++ pcmIdentifier

def header (rate channels size : Nat) : Bytes :=
  let d := description rate channels
  tag "RIFF" ++ littleEndian 4 (d.length + 20 + size) ++ tag "WAVE"
    ++ tag "fmt " ++ littleEndian 4 d.length ++ d
    ++ tag "data" ++ littleEndian 4 size

def encode (rate channels : Nat) (words : Array Int) : Bytes :=
  header rate channels (2 * words.size) ++ words.toList.flatMap wordBytes

def wordOfPair (low high : UInt8) : Int := ((high.toNat * 256 + low.toNat : Nat) : Int).bmod 0x10000

/-- The words of some bytes; a single byte at the end is dropped. -/
def wordsOfBytes : Bytes → List Int
  | low :: high :: rest => wordOfPair low high :: wordsOfBytes rest
  | _ => []

/-- The number of some bytes, low byte first. -/
def ofLittleEndian (bytes : Bytes) : Nat := bytes.foldr (fun b n => b.toNat + 256 * n) 0

/-- The length of a file's header, which has 28 bytes besides the description. -/
def headerLength (file : Bytes) : Nat := 28 + ofLittleEndian ((file.drop 16).take 4)

def words (file : Bytes) : List Int := wordsOfBytes (file.drop (headerLength file))

end Tonewheel.Host.Wav
