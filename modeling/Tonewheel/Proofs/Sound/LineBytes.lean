import Tonewheel.Proofs.Sound.Fields

/-!
# The bytes of a line

Each number of a line has a slot: a time, or a fixed-point field (`Slot`). A line that has numerals
in its slots stands for the bytes of the held values, behind an opcode or around a count
(`Encodes`). It is accepted wherever its command may come (`Script.accept_of_encodes`), and what it
says is written as these bytes (`Instruction.encode_of_given`).
-/

namespace Tonewheel.Sound

open Double

/-! ### Slots -/

inductive Slot where
  | time
  | number (f : FixedField)

/-- Whether a token is a numeral for a slot, and the value that is held for it. -/
def Slot.Holds (token : List Char) (k : ℕ) : Slot → Prop
  | .time => ∃ n, Integer.Numeral token n ∧ k = heldMs n
  | .number f => ∃ v, Decimal.Numeral token v ∧ |nearest v| < 2 ^ 1024 ∧ k = f.held v

/-- The bytes of a held value: one in a u0.8 field, else two. -/
def Slot.store (k : ℕ) : Slot → Bytes
  | .number .u08 => [k.toUInt8]
  | _ => bytesOfWord k.toUInt16

/-- Whether some tokens start with numerals for some slots, and the bytes of their values. -/
inductive Laid : List Slot → List (List Char) → Bytes → Prop where
  | nil {tokens : List (List Char)} : Laid [] tokens []
  | cons {slot : Slot} {slots : List Slot} {token : List Char} {tokens : List (List Char)} {k : ℕ}
      {bytes : Bytes} (hk : slot.Holds token k) (hrest : Laid slots tokens bytes) :
      Laid (slot :: slots) (token :: tokens) (slot.store k ++ bytes)

def pointSlots (f : FixedField) : ℕ → List Slot
  | 0 => []
  | n + 1 => .time :: .number f :: pointSlots f n

/-! ### Lines -/

/-- The forms of an argument: some numbers, a list of coefficients, or a curve. -/
inductive Form where
  | fields (fs : List FixedField)
  | list
  | curve (f : FixedField)

/-- Whether some tokens are numerals for a form, and their bytes. -/
def Form.Encodes (tokens : List (List Char)) (bytes : Bytes) : Form → Prop
  | .fields fs => Laid (fs.map .number) tokens bytes
  | .list => ∃ body, Laid (List.replicate tokens.length (.number .u08)) tokens body
      ∧ tokens.length ≤ 255 ∧ bytes = tokens.length.toUInt8 :: body
  | .curve f => ∃ first rest start n body, tokens = first :: rest ∧ Laid [.number f] [first] start
      ∧ rest.length = 2 * n ∧ n ≤ 255 ∧ Laid (pointSlots f n) rest body
      ∧ bytes = start ++ n.toUInt8 :: body

namespace ProcessKind

def form : ProcessKind → Form
  | .level => .curve .u016
  | .gain => .fields [.u88]
  | .clip => .fields [.u08]
  | .delay => .fields [.u16, .u08, .u08, .u08, .u08]
  | .bandPass => .fields [.u16, .u16]
  | .notch => .fields [.u16, .u16]
  | .lowPass => .fields [.u16]
  | .highPass => .fields [.u16]

def opcode : ProcessKind → UInt8
  | .level => 1
  | .gain => 2
  | .clip => 3
  | .delay => 4
  | .bandPass => 5
  | .notch => 6
  | .lowPass => 7
  | .highPass => 8

end ProcessKind

/-- Whether an argument of a command is numerals where it has numbers, and the bytes of it. -/
def Command.Encodes (arg : List Char) (bytes : Bytes) : Command → Prop
  | .master => (Form.fields [.u88]).Encodes [arg] bytes
  | .endVoice => bytes = []
  | .feature .shape => ∃ w : Waveform, w.name = String.ofList arg ∧ bytes = [w.code]
  | .feature .harmonics => Form.list.Encodes (Text.words arg) bytes
  | .feature .fm => (Form.fields [.u88, .u88]).Encodes (Text.words arg) bytes
  | .feature .fmCurve => (Form.curve .u016).Encodes (Text.words arg) bytes
  | .feature .rate => (Form.curve .u16).Encodes (Text.words arg) bytes
  | .feature .rateSweep => (Form.fields [.u88, .u16]).Encodes (Text.words arg) bytes
  | .process kind => ∃ body, kind.form.Encodes (Text.words arg) body ∧ bytes = kind.opcode :: body

/-- Whether a line has numerals where it has numbers, and the bytes of it. -/
def Encodes (line : Line) (bytes : Bytes) : Prop :=
  ∃ c, commandOf line = some c ∧ c.Encodes line.2 bytes

def Feature.encode : (f : Feature) → f.Value → Bytes
  | .shape, w => [Waveform.code w]
  | .harmonics, h => Harmonics.encode h
  | .fm, m => bytesOfWord (Modulation.rate m) ++ bytesOfWord (Modulation.range m)
  | .fmCurve, c => Curve.encode c
  | .rate, c => Curve.encode c
  | .rateSweep, s => bytesOfWord (Sweep.rate s) ++ bytesOfWord (Sweep.cents s)

def Instruction.encode : Instruction → Bytes
  | .master factor => bytesOfWord factor
  | .endVoice => []
  | .feature f value => f.encode value
  | .process p => p.encode

/-! ### Reading slots -/

theorem number_of_holds {f : FixedField} {token : List Char} {k : ℕ}
    (h : (Slot.number f).Holds token k) : ∃ x, readNumber token = .ok x ∧ f.put x = k := by
  obtain ⟨v, hv, hsmall, rfl⟩ := h
  obtain ⟨x, hx, hput⟩ := (readNumber_of_numeral hv).1 hsmall
  exact ⟨x, hx, hput f⟩

def FixedField.bytes : FixedField → Float → Bytes
  | .u88, x => bytesOfWord (fixed88 x)
  | .u08, x => [fixed08 x]
  | .u16, x => bytesOfWord (whole16 x)
  | .u016, x => bytesOfWord (fixed016 x)

theorem store_put (f : FixedField) (x : Float) : (Slot.number f).store (f.put x) = f.bytes x := by
  cases f with
  | u08 => exact congrArg (fun byte => [byte]) UInt8.ofNat_toNat
  | u88 | u16 | u016 => exact congrArg bytesOfWord UInt16.ofNat_toNat

theorem store_of_holds {f : FixedField} {token : List Char} {k : ℕ} {x : Float}
    (h : (Slot.number f).Holds token k) (hx : readNumber token = .ok x) :
    (Slot.number f).store k = f.bytes x := by
  obtain ⟨y, hy, rfl⟩ := number_of_holds h
  rw [hx] at hy
  cases hy
  exact store_put f x

theorem store_of_time {token : List Char} {k : ℕ} {ms : UInt16} (h : Slot.time.Holds token k)
    (hms : readMs token = .ok ms) : Slot.time.store k = bytesOfWord ms := by
  obtain ⟨n, hn, rfl⟩ := h
  obtain ⟨n', hread, hheld⟩ := readMs_eq_ok.mp hms
  have hn' := ((Integer.read_eq_some (oneSign_of_numeral hn)).mp hread).1
  rw [numeral_unique hn hn', ← hheld]
  exact congrArg bytesOfWord UInt16.ofNat_toNat

theorem Laid.leading {fs : List FixedField} {tokens : List (List Char)} {bytes : Bytes}
    (h : Laid (fs.map .number) tokens bytes) : LeadingNumbers fs.length tokens := by
  induction fs generalizing tokens bytes with
  | nil => trivial
  | cons f fs ih =>
    cases h with
    | cons hk hrest =>
      obtain ⟨x, hx, -⟩ := number_of_holds hk
      exact ⟨⟨x, hx⟩, ih hrest⟩

def storeAll : List FixedField → List Float → Bytes
  | f :: fs, x :: xs => f.bytes x ++ storeAll fs xs
  | _, _ => []

theorem storeAll_one (f : FixedField) (x : Float) : storeAll [f] [x] = f.bytes x :=
  List.append_nil _

theorem Laid.stored {fs : List FixedField} {tokens : List (List Char)} {bytes : Bytes} {xs : List Float}
    (h : Laid (fs.map .number) tokens bytes) (hxs : Numbers tokens xs)
    (hlength : xs.length = fs.length) : bytes = storeAll fs xs := by
  induction fs generalizing tokens bytes xs with
  | nil =>
    cases h
    rfl
  | cons f fs ih =>
    cases h with
    | cons hk hrest =>
      cases hxs with
      | nil => cases hlength
      | cons hx hxs =>
        rw [storeAll, store_of_holds hk hx, ih hrest hxs (Nat.succ.inj hlength)]

theorem Laid.coefficients {tokens : List (List Char)} {body : Bytes} {xs : List Float}
    (h : Laid (List.replicate tokens.length (.number .u08)) tokens body)
    (hxs : List.Forall₂ (fun token x => readNumber token = .ok x) tokens xs) :
    body = xs.map fixed08 := by
  induction hxs generalizing body with
  | nil =>
    cases h
    rfl
  | @cons token x tokens xs hx _ ih =>
    cases h with
    | cons hk hrest =>
      rw [store_of_holds hk hx, ih hrest]
      rfl

theorem Laid.numeric {tokens : List (List Char)} {body : Bytes}
    (h : Laid (List.replicate tokens.length (.number .u08)) tokens body) :
    ∀ token ∈ tokens, Numeric token := by
  induction tokens generalizing body with
  | nil => simp
  | cons token tokens ih =>
    cases h with
    | cons hk hrest =>
      obtain ⟨x, hx, -⟩ := number_of_holds hk
      exact List.forall_mem_cons.mpr ⟨⟨x, hx⟩, ih hrest⟩

theorem Laid.pairs {f : FixedField} {n : ℕ} {first : List Char} {tokens : List (List Char)}
    {body : Bytes} (h : Laid (pointSlots f n) tokens body) (hlength : tokens.length = 2 * n)
    (hplain : ∀ token ∈ timeTokens (first :: tokens), Integer.Plain token) :
    ∃ times, Pairs Reads tokens times ∧ times.length = n := by
  induction n generalizing first tokens body with
  | zero =>
    obtain rfl := List.eq_nil_of_length_eq_zero hlength
    exact ⟨[], .nil, rfl⟩
  | succ n ih =>
    cases h with
    | cons htime hrest =>
      cases hrest with
      | cons hvalue hrest =>
        obtain ⟨ms, hms, -⟩ := htime
        obtain ⟨x, hx, -⟩ := number_of_holds hvalue
        obtain ⟨hfirst, hplain⟩ := List.forall_mem_cons.mp hplain
        simp only [List.length_cons] at hlength
        obtain ⟨times, hpairs, hcount⟩ := ih hrest (by omega) hplain
        have hread := (hfirst.read_eq_some ms).mpr hms
        exact ⟨ms :: times, .cons hread ⟨x, hx⟩ hpairs, congrArg (· + 1) hcount⟩

theorem Laid.points {f : FixedField} {field : Float → UInt16} {n : ℕ} {tokens : List (List Char)}
    {body : Bytes} {points : List Breakpoint}
    (hfield : ∀ x, f.bytes x = bytesOfWord (field x))
    (h : Laid (pointSlots f n) tokens body) (hlength : tokens.length = 2 * n)
    (hpoints : PointsGiven field tokens points) :
    points.length = n ∧ body = points.flatMap fun p => bytesOfWord p.ms ++ bytesOfWord p.value := by
  induction hpoints generalizing n body with
  | nil =>
    obtain rfl : n = 0 := by
      simp only [List.length_nil] at hlength
      omega
    cases h
    exact ⟨rfl, rfl⟩
  | @cons time value tokens ms x points hms hx _ ih =>
    cases n with
    | zero => cases hlength
    | succ n =>
      cases h with
      | cons htime hrest =>
        cases hrest with
        | cons hvalue hrest =>
          simp only [List.length_cons] at hlength
          obtain ⟨hcount, rfl⟩ := ih hrest (by omega)
          refine ⟨congrArg (· + 1) hcount, ?_⟩
          rw [store_of_time htime hms, store_of_holds hvalue hx, hfield, List.flatMap_cons,
            List.append_assoc]

/-! ### Reading lines -/

theorem Form.envelope_of_encodes {f : FixedField} {tokens : List (List Char)} {bytes : Bytes}
    (h : (Form.curve f).Encodes tokens bytes)
    (hplain : ∀ token ∈ timeTokens tokens, Integer.Plain token) :
    ∃ times, Envelope Reads tokens times := by
  obtain ⟨first, rest, start, n, body, rfl, hstart, hlength, hfew, hbody, -⟩ := h
  obtain ⟨times, hpairs, rfl⟩ := hbody.pairs hlength hplain
  cases hstart with
  | cons hk _ =>
    obtain ⟨x, hx, -⟩ := number_of_holds hk
    exact ⟨times, first, rest, rfl, ⟨x, hx⟩, hpairs, hfew⟩

theorem Form.leading_of_encodes {fs : List FixedField} {tokens : List (List Char)} {bytes : Bytes}
    (h : (Form.fields fs).Encodes tokens bytes) : LeadingNumbers fs.length tokens := Laid.leading h

def Command.PlainIn (arg : List Char) (c : Command) : Prop :=
  c.takesEnvelope = true → ∀ token ∈ timeTokens (Text.words arg), Integer.Plain token

/-- An argument of numerals is one that its command takes, but for the length of a level curve. -/
theorem Command.takes_of_encodes {c : Command} {arg : List Char} {bytes : Bytes}
    (h : c.Encodes arg bytes) (hplain : c.PlainIn arg) (hlevel : c ≠ .process .level) :
    c.Takes Reads arg := by
  cases c with
  | master => exact (Form.leading_of_encodes h).1
  | endVoice => trivial
  | feature f =>
    cases f with
    | shape =>
      obtain ⟨w, hw, -⟩ := h
      exact ⟨w, hw⟩
    | harmonics =>
      obtain ⟨body, hbody, hfew, -⟩ := h
      exact ⟨hbody.numeric, hfew⟩
    | fm | rateSweep => exact Form.leading_of_encodes h
    | fmCurve | rate => exact Form.envelope_of_encodes h (hplain rfl)
  | process kind =>
    obtain ⟨body, hbody, -⟩ := h
    cases kind with
    | level => exact absurd rfl hlevel
    | gain | clip | delay | bandPass | notch | lowPass | highPass =>
      exact Form.leading_of_encodes hbody

theorem Process.read_of_encodes {kind : ProcessKind} {arg : List Char} {bytes : Bytes}
    (h : (Command.process kind).Encodes arg bytes) (hplain : (Command.process kind).PlainIn arg) :
    ∃ p, Process.read kind arg = .ok p := by
  by_cases hlevel : kind = .level
  · subst hlevel
    obtain ⟨body, hbody, -⟩ := h
    have henvelope := Form.envelope_of_encodes hbody (hplain rfl)
    obtain ⟨c, hc⟩ := (exists_curve fixed016 arg).mpr henvelope
    exact ⟨.level c, bind_eq_ok.mpr ⟨c, hc, rfl⟩⟩
  · have hother : Command.process kind ≠ .process .level := fun hsame => hlevel (by cases hsame; rfl)
    have htakes := Command.takes_of_encodes h hplain hother
    obtain ⟨p, hp, -⟩ := (Process.read_iff kind arg).mpr htakes
    exact ⟨p, hp⟩

/-- A line of numerals is accepted wherever its command may come, if its times are plain. -/
theorem Script.accept_of_encodes {s : Script} {line : Line} {c : Command} {bytes : Bytes}
    (hc : commandOf line = some c) (hallows : s.Allows c) (h : c.Encodes line.2 bytes)
    (hplain : c.PlainIn line.2) : ∃ s', s.accept line.1 line.2 = .ok s' := by
  unfold accept
  dsimp only
  rw [commandOf] at hc
  rw [hc]
  cases c with
  | master =>
    obtain ⟨x, hx⟩ := Command.takes_of_encodes h hplain (by simp)
    have hfirst : s.voices = [] := hallows
    refine ⟨_, (if_neg ?_).trans (bind_eq_ok.mpr ⟨x, hx, rfl⟩)⟩
    simp [hfirst]
  | endVoice => exact ⟨_, rfl⟩
  | feature f =>
    obtain ⟨o, ho⟩ := (Oscillator.read_iff s.current.oscillator f line.2).mpr
      (Command.takes_of_encodes h hplain (by simp))
    exact ⟨_, bind_eq_ok.mpr ⟨(), (VoiceScript.admit_iff _ _ f).mpr hallows,
      bind_eq_ok.mpr ⟨o, ho, rfl⟩⟩⟩
  | process kind =>
    obtain ⟨p, hp⟩ := Process.read_of_encodes h hplain
    exact ⟨_, bind_eq_ok.mpr ⟨p, hp, rfl⟩⟩

/-! ### Writing lines -/

theorem Curve.encode_of_given {f : FixedField} {field : Float → UInt16} {arg : List Char}
    {c : Curve} {bytes : Bytes} (hfield : ∀ x, f.bytes x = bytesOfWord (field x))
    (hgiven : c.Given field arg) (h : (Form.curve f).Encodes (Text.words arg) bytes) :
    c.encode = bytes := by
  obtain ⟨first, rest, x, hwords, hx, hstart, hpoints⟩ := hgiven
  obtain ⟨first', rest', start, n, body, hwords', hfirst, hlength, -, hbody, rfl⟩ := h
  rw [hwords] at hwords'
  cases hwords'
  obtain ⟨hcount, rfl⟩ := hbody.points hfield hlength hpoints
  have hword : start = storeAll [f] [x] := Laid.stored hfirst (.cons hx .nil) rfl
  rw [Curve.encode, hstart, hcount, hword, storeAll_one, hfield]

theorem Waveform.eq_of_name {w w' : Waveform} (h : w.name = w'.name) : w = w' := by
  revert h
  cases w <;> cases w' <;> decide

theorem Feature.encode_of_given {f : Feature} {value : f.Value} {arg : List Char} {bytes : Bytes}
    (hgiven : f.Given arg value) (h : (Command.feature f).Encodes arg bytes) :
    f.encode value = bytes := by
  cases f with
  | shape =>
    obtain ⟨w, hw, rfl⟩ := h
    obtain rfl := Waveform.eq_of_name (hw.trans hgiven.symm)
    rfl
  | harmonics =>
    obtain ⟨xs, hxs, hcoefficients⟩ := hgiven
    obtain ⟨body, hbody, -, rfl⟩ := h
    have hlength := hxs.length_eq
    rw [hbody.coefficients hxs, hlength]
    show (Harmonics.coefficients value).length.toUInt8 :: Harmonics.coefficients value = _
    rw [hcoefficients, List.length_map]
  | fm =>
    obtain ⟨rate, range, hnumbers, rfl⟩ := hgiven
    exact (Laid.stored h hnumbers rfl).symm
  | fmCurve => exact Curve.encode_of_given (fun _ => rfl) hgiven h
  | rate => exact Curve.encode_of_given (fun _ => rfl) hgiven h
  | rateSweep =>
    obtain ⟨rate, cents, hnumbers, rfl⟩ := hgiven
    exact (Laid.stored h hnumbers rfl).symm

theorem Process.encode_of_given {kind : ProcessKind} {p : Process} {arg : List Char}
    {bytes : Bytes} (hgiven : p.Given arg kind) (h : (Command.process kind).Encodes arg bytes) :
    p.encode = bytes := by
  obtain ⟨body, hbody, rfl⟩ := h
  cases kind with
  | level =>
    obtain ⟨c, hc, rfl⟩ := hgiven
    exact congrArg (1 :: ·) (Curve.encode_of_given (fun _ => rfl) hc hbody)
  | delay =>
    obtain ⟨ms, dry, wet, store, feedback, hnumbers, rfl⟩ := hgiven
    rw [Laid.stored hbody hnumbers rfl]
    rfl
  | bandPass | notch =>
    obtain ⟨mid, width, hnumbers, rfl⟩ := hgiven
    rw [Laid.stored hbody hnumbers rfl]
    rfl
  | gain | clip | lowPass | highPass =>
    obtain ⟨x, hnumbers, rfl⟩ := hgiven
    rw [Laid.stored hbody hnumbers rfl]
    rfl

theorem Instruction.encode_of_given {i : Instruction} {line : Line} {bytes : Bytes}
    (hgiven : i.Given line) (h : Encodes line bytes) : i.encode = bytes := by
  obtain ⟨c, hc, h⟩ := h
  cases i with
  | master factor =>
    obtain ⟨hmaster, x, hx, rfl⟩ := hgiven
    rw [hmaster] at hc
    cases hc
    exact (Laid.stored h (.cons hx .nil) rfl).symm
  | endVoice =>
    have hend : commandOf line = some .endVoice := hgiven
    rw [hend] at hc
    cases hc
    exact h.symm
  | feature f value =>
    obtain ⟨hfeature, hvalue⟩ := hgiven
    rw [hfeature] at hc
    cases hc
    exact Feature.encode_of_given hvalue h
  | process p =>
    obtain ⟨kind, hprocess, hp⟩ := hgiven
    rw [hprocess] at hc
    cases hc
    exact Process.encode_of_given hp h

end Tonewheel.Sound
