import Mathlib.Data.List.Forall2
import Tonewheel.Proofs.Reading
import Tonewheel.Sound.Source

/-!
# Sound text line by line

Each line of sound text that is not blank is a command with its argument (`commands`). What a line
says is an instruction, all of its numbers brought into their fields (`Instruction.Given`). A text
that is accepted says one instruction a line, and its script is what these make of the empty script
one after another (`run_eq_ok`).
-/

namespace Tonewheel.Sound

/-! ### Tokens -/

inductive Numbers : List (List Char) → List Float → Prop where
  | nil {tokens : List (List Char)} : Numbers tokens []
  | cons {token : List Char} {tokens : List (List Char)} {x : Float} {xs : List Float}
      (hx : readNumber token = .ok x) (hxs : Numbers tokens xs) :
      Numbers (token :: tokens) (x :: xs)

/-- Whether a list of tokens is pairs of a time and a number, with the points they stand for. -/
inductive PointsGiven (field : Float → UInt16) : List (List Char) → List Breakpoint → Prop where
  | nil : PointsGiven field [] []
  | cons {time value : List Char} {tokens : List (List Char)} {ms : UInt16} {x : Float}
      {points : List Breakpoint} (hms : readMs time = .ok ms) (hx : readNumber value = .ok x)
      (hpoints : PointsGiven field tokens points) :
      PointsGiven field (time :: value :: tokens) (⟨ms, field x⟩ :: points)

/-- Whether an argument is a first number and pairs of a time and a number, with their curve. -/
def Curve.Given (field : Float → UInt16) (arg : List Char) (c : Curve) : Prop :=
  ∃ first rest x, Text.words arg = first :: rest ∧ readNumber first = .ok x
    ∧ c.start = field x ∧ PointsGiven field rest c.points

/-- Whether an argument is numbers and nothing else, with their coefficients. -/
def Harmonics.Given (arg : List Char) (h : Harmonics) : Prop :=
  ∃ xs, List.Forall₂ (fun token x => readNumber token = .ok x) (Text.words arg) xs
    ∧ h.coefficients = xs.map fixed08

theorem readNumber_nil (x : Float) : readNumber [] ≠ .ok x := by
  intro h
  cases h

theorem readNumber_headD {tokens : List (List Char)} {x : Float}
    (h : readNumber (tokens.headD []) = .ok x) :
    ∃ first rest, tokens = first :: rest ∧ readNumber first = .ok x := by
  cases tokens with
  | nil => exact absurd h (readNumber_nil x)
  | cons first rest => exact ⟨first, rest, rfl, h⟩

theorem readField_eq_ok {tokens rest : List (List Char)} {x : Float}
    (h : readField tokens = .ok (x, rest)) :
    ∃ first, tokens = first :: rest ∧ readNumber first = .ok x := by
  obtain ⟨y, hy, h⟩ := bind_eq_ok.mp h
  cases h
  obtain ⟨first, rest, rfl, hfirst⟩ := readNumber_headD hy
  exact ⟨first, rfl, hfirst⟩

theorem Numbers.of_readField {tokens rest : List (List Char)} {x : Float} {xs : List Float}
    (h : readField tokens = .ok (x, rest)) (hxs : Numbers rest xs) : Numbers tokens (x :: xs) := by
  obtain ⟨first, rfl, hfirst⟩ := readField_eq_ok h
  exact .cons hfirst hxs

theorem readPoints_eq_ok (field : Float → UInt16) {tokens : List (List Char)}
    {points : List Breakpoint} (h : readPoints field tokens = .ok points) :
    PointsGiven field tokens points := by
  fun_induction readPoints field tokens generalizing points with
  | case1 =>
    cases h
    exact .nil
  | case2 ms =>
    obtain ⟨ms', -, h⟩ := bind_eq_ok.mp h
    cases h
  | case3 time value rest ih =>
    obtain ⟨ms, hms, h⟩ := bind_eq_ok.mp h
    obtain ⟨x, hx, h⟩ := bind_eq_ok.mp h
    obtain ⟨points', hpoints, h⟩ := bind_eq_ok.mp h
    cases h
    exact .cons hms hx (ih hpoints)

theorem readCurve_eq_ok (field : Float → UInt16) {arg : List Char} {c : Curve}
    (h : readCurve field arg = .ok c) : c.Given field arg := by
  obtain ⟨x, hx, h⟩ := bind_eq_ok.mp h
  obtain ⟨points, hpoints, h⟩ := bind_eq_ok.mp h
  obtain ⟨first, rest, hwords, hfirst⟩ := readNumber_headD hx
  split at h
  · cases h
    rw [hwords] at hpoints
    exact ⟨first, rest, x, hwords, hfirst, rfl, readPoints_eq_ok field hpoints⟩
  · cases h

theorem mapM_readNumber {tokens : List (List Char)} {coefficients : List UInt8}
    (h : (tokens.mapM fun token => fixed08 <$> readNumber token) = .ok coefficients) :
    ∃ xs, List.Forall₂ (fun token x => readNumber token = .ok x) tokens xs
      ∧ coefficients = xs.map fixed08 := by
  induction tokens generalizing coefficients with
  | nil =>
    cases h
    exact ⟨[], .nil, rfl⟩
  | cons token tokens ih =>
    rw [List.mapM_cons] at h
    obtain ⟨c, hc, h⟩ := bind_eq_ok.mp h
    obtain ⟨cs, hcs, h⟩ := bind_eq_ok.mp h
    cases h
    obtain ⟨x, hx, rfl⟩ := map_eq_ok.mp hc
    obtain ⟨xs, hxs, rfl⟩ := ih hcs
    exact ⟨x :: xs, .cons hx hxs, rfl⟩

theorem readHarmonics_eq_ok {arg : List Char} {h : Harmonics}
    (hread : readHarmonics arg = .ok h) : h.Given arg := by
  obtain ⟨coefficients, hcoefficients, hread⟩ := bind_eq_ok.mp hread
  obtain ⟨xs, hxs, rfl⟩ := mapM_readNumber hcoefficients
  split at hread
  · cases hread
    exact ⟨xs, hxs, rfl⟩
  · cases hread

theorem readWaveform_eq_ok {arg : List Char} {w : Waveform} (h : readWaveform arg = .ok w) :
    w.name = String.ofList arg := by
  unfold readWaveform at h
  split at h
  next w' hfind =>
    cases h
    simpa using List.find?_some hfind
  next => cases h

/-! ### Features -/

def Feature.Value : Feature → Type
  | .shape => Waveform
  | .harmonics => Harmonics
  | .fm => Modulation
  | .fmCurve => Curve
  | .rate => Curve
  | .rateSweep => Sweep

def Feature.Given (arg : List Char) : (f : Feature) → f.Value → Prop
  | .shape, w => Waveform.name w = String.ofList arg
  | .harmonics, h => Harmonics.Given arg h
  | .fm, m => ∃ rate range, Numbers (Text.words arg) [rate, range]
      ∧ m = Modulation.mk (fixed88 rate) (fixed88 range)
  | .fmCurve, c => Curve.Given fixed016 arg c
  | .rate, c => Curve.Given whole16 arg c
  | .rateSweep, s => ∃ rate cents, Numbers (Text.words arg) [rate, cents]
      ∧ s = Sweep.mk (fixed88 rate) (whole16 cents)

namespace Oscillator

def get (o : Oscillator) : (f : Feature) → Option f.Value
  | .shape => o.shape
  | .harmonics => o.harmonics
  | .fm => o.fm
  | .fmCurve => o.fmCurve
  | .rate => o.rate
  | .rateSweep => o.rateSweep

def set (o : Oscillator) : (f : Feature) → f.Value → Oscillator
  | .shape, w => { o with shape := some w }
  | .harmonics, h => { o with harmonics := some h }
  | .fm, m => { o with fm := some m }
  | .fmCurve, c => { o with fmCurve := some c }
  | .rate, c => { o with rate := some c }
  | .rateSweep, s => { o with rateSweep := some s }

theorem get_set_self (o : Oscillator) (f : Feature) (value : f.Value) :
    (o.set f value).get f = some value := by
  cases f <;> rfl

theorem get_set_of_ne (o : Oscillator) (f g : Feature) (value : f.Value) (h : g ≠ f) :
    (o.set f value).get g = o.get g := by
  cases f <;> cases g <;> first | rfl | exact absurd rfl h

theorem isSome_get (o : Oscillator) (f : Feature) : (o.get f).isSome = o.has f := by
  cases f <;> rfl

theorem read_eq_ok (o o' : Oscillator) (f : Feature) {arg : List Char}
    (h : o.read f arg = .ok o') : ∃ value, f.Given arg value ∧ o' = o.set f value := by
  cases f with
  | shape =>
    obtain ⟨w, hw, h⟩ := bind_eq_ok.mp h
    cases h
    exact ⟨w, readWaveform_eq_ok hw, rfl⟩
  | harmonics =>
    obtain ⟨coefficients, hcoefficients, h⟩ := bind_eq_ok.mp h
    cases h
    exact ⟨coefficients, readHarmonics_eq_ok hcoefficients, rfl⟩
  | fm =>
    obtain ⟨⟨rate, rest⟩, hrate, h⟩ := bind_eq_ok.mp h
    obtain ⟨⟨range, rest'⟩, hrange, h⟩ := bind_eq_ok.mp h
    cases h
    have hall := Numbers.of_readField hrate (.of_readField hrange .nil)
    exact ⟨_, ⟨rate, range, hall, rfl⟩, rfl⟩
  | fmCurve =>
    obtain ⟨c, hc, h⟩ := bind_eq_ok.mp h
    cases h
    exact ⟨c, readCurve_eq_ok fixed016 hc, rfl⟩
  | rate =>
    obtain ⟨c, hc, h⟩ := bind_eq_ok.mp h
    cases h
    exact ⟨c, readCurve_eq_ok whole16 hc, rfl⟩
  | rateSweep =>
    obtain ⟨⟨rate, rest⟩, hrate, h⟩ := bind_eq_ok.mp h
    obtain ⟨⟨cents, rest'⟩, hcents, h⟩ := bind_eq_ok.mp h
    cases h
    have hall := Numbers.of_readField hrate (.of_readField hcents .nil)
    exact ⟨_, ⟨rate, cents, hall, rfl⟩, rfl⟩

end Oscillator

/-! ### Processes -/

def Process.Given (arg : List Char) (p : Process) : ProcessKind → Prop
  | .level => ∃ c, Curve.Given fixed016 arg c ∧ p = .level c
  | .gain => ∃ factor, Numbers (Text.words arg) [factor] ∧ p = .gain (fixed88 factor)
  | .clip => ∃ limit, Numbers (Text.words arg) [limit] ∧ p = .clip (fixed08 limit)
  | .delay => ∃ ms dry wet store feedback,
      Numbers (Text.words arg) [ms, dry, wet, store, feedback]
      ∧ p = .delay (whole16 ms) (fixed08 dry) (fixed08 wet) (fixed08 store) (fixed08 feedback)
  | .bandPass => ∃ mid width, Numbers (Text.words arg) [mid, width]
      ∧ p = .bandPass (whole16 mid) (whole16 width)
  | .notch => ∃ mid width, Numbers (Text.words arg) [mid, width]
      ∧ p = .notch (whole16 mid) (whole16 width)
  | .lowPass => ∃ freq, Numbers (Text.words arg) [freq] ∧ p = .lowPass (whole16 freq)
  | .highPass => ∃ freq, Numbers (Text.words arg) [freq] ∧ p = .highPass (whole16 freq)

theorem Process.read_eq_ok (kind : ProcessKind) {arg : List Char} {p : Process}
    (h : Process.read kind arg = .ok p) : p.Given arg kind := by
  cases kind with
  | level =>
    obtain ⟨c, hc, h⟩ := bind_eq_ok.mp h
    cases h
    exact ⟨c, readCurve_eq_ok fixed016 hc, rfl⟩
  | gain =>
    obtain ⟨⟨factor, rest⟩, hfactor, h⟩ := bind_eq_ok.mp h
    cases h
    exact ⟨factor, .of_readField hfactor .nil, rfl⟩
  | clip =>
    obtain ⟨⟨limit, rest⟩, hlimit, h⟩ := bind_eq_ok.mp h
    cases h
    exact ⟨limit, .of_readField hlimit .nil, rfl⟩
  | delay =>
    obtain ⟨⟨ms, rest₁⟩, hms, h⟩ := bind_eq_ok.mp h
    obtain ⟨⟨dry, rest₂⟩, hdry, h⟩ := bind_eq_ok.mp h
    obtain ⟨⟨wet, rest₃⟩, hwet, h⟩ := bind_eq_ok.mp h
    obtain ⟨⟨store, rest₄⟩, hstore, h⟩ := bind_eq_ok.mp h
    obtain ⟨⟨feedback, rest₅⟩, hfeedback, h⟩ := bind_eq_ok.mp h
    cases h
    have htail := Numbers.of_readField hstore (.of_readField hfeedback .nil)
    have hall := Numbers.of_readField hms (.of_readField hdry (.of_readField hwet htail))
    exact ⟨ms, dry, wet, store, feedback, hall, rfl⟩
  | bandPass =>
    obtain ⟨⟨mid, rest⟩, hmid, h⟩ := bind_eq_ok.mp h
    obtain ⟨⟨width, rest'⟩, hwidth, h⟩ := bind_eq_ok.mp h
    cases h
    exact ⟨mid, width, .of_readField hmid (.of_readField hwidth .nil), rfl⟩
  | notch =>
    obtain ⟨⟨mid, rest⟩, hmid, h⟩ := bind_eq_ok.mp h
    obtain ⟨⟨width, rest'⟩, hwidth, h⟩ := bind_eq_ok.mp h
    cases h
    exact ⟨mid, width, .of_readField hmid (.of_readField hwidth .nil), rfl⟩
  | lowPass =>
    obtain ⟨⟨freq, rest⟩, hfreq, h⟩ := bind_eq_ok.mp h
    cases h
    exact ⟨freq, .of_readField hfreq .nil, rfl⟩
  | highPass =>
    obtain ⟨⟨freq, rest⟩, hfreq, h⟩ := bind_eq_ok.mp h
    cases h
    exact ⟨freq, .of_readField hfreq .nil, rfl⟩

/-! ### Instructions -/

inductive Instruction where
  | master (factor : UInt16)
  | endVoice
  | feature (f : Feature) (value : f.Value)
  | process (p : Process)

def commandOf (line : List Char × List Char) : Option Command :=
  Command.ofKeyword? (String.ofList line.1)

def Instruction.Given (line : List Char × List Char) : Instruction → Prop
  | .master factor => commandOf line = some .master
      ∧ ∃ x, readNumber line.2 = .ok x ∧ factor = fixed88 x
  | .endVoice => commandOf line = some .endVoice
  | .feature f value => commandOf line = some (.feature f) ∧ f.Given line.2 value
  | .process p => ∃ kind, commandOf line = some (.process kind) ∧ p.Given line.2 kind

namespace Script

def current (s : Script) : VoiceScript := s.unclosed.getD {}

def follow (s : Script) : Instruction → Script
  | .master factor => { s with master := factor }
  | .endVoice => { s with closed := s.closed ++ s.unclosed.toList, unclosed := none }
  | .feature f value =>
    let voice := s.current
    { s with unclosed := some { voice with oscillator := voice.oscillator.set f value } }
  | .process p =>
    let voice := s.current
    { s with unclosed := some { voice with chain := voice.chain ++ [p] } }

/-- Whether an instruction finds its place free: a feature is given once in a voice. -/
def Admits (s : Script) : Instruction → Prop
  | .feature f _ => s.current.oscillator.get f = none
  | _ => True

def AdmitsAll (s : Script) : List Instruction → Prop
  | [] => True
  | i :: is => s.Admits i ∧ (s.follow i).AdmitsAll is

end Script

theorem VoiceScript.admit_eq_ok (v : VoiceScript) (keyword : String) (f : Feature)
    (h : v.admit keyword f = .ok ()) : v.oscillator.get f = none := by
  unfold VoiceScript.admit at h
  split at h
  · cases h
  · split at h
    · cases h
    next hfree =>
      rw [← Oscillator.isSome_get, Bool.not_eq_true, Option.isSome_eq_false_iff,
        Option.isNone_iff_eq_none] at hfree
      exact hfree

theorem Script.accept_eq_ok (s s' : Script) (line : List Char × List Char)
    (h : s.accept line.1 line.2 = .ok s') :
    ∃ i : Instruction, i.Given line ∧ s.Admits i ∧ s' = s.follow i := by
  unfold Script.accept at h
  dsimp only at h
  split at h
  next => cases h
  next hcommand =>
    split at h
    · cases h
    · obtain ⟨x, hx, h⟩ := bind_eq_ok.mp h
      cases h
      exact ⟨.master (fixed88 x), ⟨hcommand, x, hx, rfl⟩, trivial, rfl⟩
  next hcommand =>
    cases h
    exact ⟨.endVoice, hcommand, trivial, rfl⟩
  next f hcommand =>
    obtain ⟨⟨⟩, hallowed, h⟩ := bind_eq_ok.mp h
    obtain ⟨o, ho, h⟩ := bind_eq_ok.mp h
    cases h
    obtain ⟨value, hvalue, rfl⟩ := Oscillator.read_eq_ok _ _ f ho
    exact ⟨.feature f value, ⟨hcommand, hvalue⟩, VoiceScript.admit_eq_ok _ _ f hallowed, rfl⟩
  next kind hcommand =>
    obtain ⟨p, hp, h⟩ := bind_eq_ok.mp h
    cases h
    exact ⟨.process p, ⟨kind, hcommand, Process.read_eq_ok kind hp⟩, trivial, rfl⟩

/-! ### Texts -/

def commands (raws : List (List Char)) : List (List Char × List Char) :=
  ((raws.map Text.clean).filter fun line => !line.isEmpty).map Text.splitKeyword

def commandsOf (text : String) : List (List Char × List Char) :=
  commands (Text.lines text.toList)

theorem commands_append (raws more : List (List Char)) :
    commands (raws ++ more) = commands raws ++ commands more := by
  simp only [commands, List.map_append, List.filter_append]

theorem trimEnd_newline (cs : List Char) : Text.trimEnd (cs ++ ['\n']) = Text.trimEnd cs := by
  rw [Text.trimEnd, Text.trimEnd, List.reverse_append]
  rfl

theorem clean_newline (raw : List Char) : Text.clean (raw ++ ['\n']) = Text.clean raw := by
  have htrim : ∀ cs, Text.trimEnd (Text.trimStart (cs ++ ['\n']))
      = Text.trimEnd (Text.trimStart cs) := by
    intro cs
    rw [Text.trimStart, Text.trimStart, List.dropWhile_append]
    split
    next hblank =>
      rw [List.isEmpty_iff] at hblank
      rw [hblank]
      rfl
    next => exact trimEnd_newline _
  rw [Text.clean, Text.clean, List.takeWhile_append]
  split
  next hall =>
    have hself : raw.takeWhile (· ≠ '#') = raw :=
      (List.takeWhile_prefix _).eq_of_length hall
    rw [hself]
    exact htrim raw
  next => rfl

/-- A line feed behind a text ends its last line, or a line of its own. -/
theorem foldr_consLine (cs : List Char) (more : List (List Char)) :
    (∃ init last, Text.lines cs = init ++ [last]
        ∧ cs.foldr Text.consLine (['\n'] :: more) = init ++ (last ++ ['\n']) :: more)
      ∨ cs.foldr Text.consLine (['\n'] :: more) = Text.lines cs ++ ['\n'] :: more := by
  induction cs with
  | nil => exact .inr rfl
  | cons c cs ih =>
    have hlines : Text.lines (c :: cs) = Text.consLine c (Text.lines cs) := rfl
    rw [hlines, List.foldr_cons]
    rcases ih with ⟨init, last, hinit, hmore⟩ | hmore
    · left
      rw [hinit, hmore]
      by_cases hfeed : c = '\n'
      · exact ⟨[c] :: init, last, by simp [Text.consLine, hfeed], by simp [Text.consLine, hfeed]⟩
      · cases init with
        | nil =>
          exact ⟨[], c :: last, by simp [Text.consLine, hfeed], by simp [Text.consLine, hfeed]⟩
        | cons first init =>
          exact ⟨(c :: first) :: init, last, by simp [Text.consLine, hfeed],
            by simp [Text.consLine, hfeed]⟩
    · rw [hmore]
      by_cases hfeed : c = '\n'
      · exact .inr (by simp [Text.consLine, hfeed])
      · cases Text.lines cs with
        | nil =>
          exact .inl ⟨[], [c], by simp [Text.consLine, hfeed], by simp [Text.consLine, hfeed]⟩
        | cons first rest => exact .inr (by simp [Text.consLine, hfeed])

/-- The commands of two texts with a line feed between them are those of both. -/
theorem commandsOf_append (text more : String) :
    commandsOf (text ++ "\n" ++ more) = commandsOf text ++ commandsOf more := by
  have hlines : Text.lines (text ++ "\n" ++ more).toList
      = text.toList.foldr Text.consLine (['\n'] :: Text.lines more.toList) := by
    rw [String.toList_append, String.toList_append, Text.lines, List.foldr_append,
      List.foldr_append]
    rfl
  have hblank : commands [['\n']] = [] := by decide
  rw [commandsOf, hlines]
  rcases foldr_consLine text.toList (Text.lines more.toList) with ⟨init, last, hinit, hmore⟩ | hmore
  · have hlast : commands [last ++ ['\n']] = commands [last] := by
      rw [commands, commands, List.map_singleton, List.map_singleton, clean_newline]
    have hcons : init ++ (last ++ ['\n']) :: Text.lines more.toList
        = init ++ ([last ++ ['\n']] ++ Text.lines more.toList) := rfl
    rw [hmore, hcons, commands_append, commands_append, hlast, commandsOf, hinit, commands_append,
      List.append_assoc]
    rfl
  · have hcons : Text.lines text.toList ++ ['\n'] :: Text.lines more.toList
        = Text.lines text.toList ++ ([['\n']] ++ Text.lines more.toList) := rfl
    rw [hmore, hcons, commands_append, commands_append, hblank]
    rfl

namespace Script

def run (s : Script) (lines : List (List Char × List Char)) : Except Fault Script :=
  lines.foldlM (fun s line => s.accept line.1 line.2) s

theorem acceptLine_clean (s : Script) (raw : List Char) :
    s.acceptLine (Text.clean raw) = s.run (commands [raw]) := by
  unfold acceptLine commands
  cases hblank : (Text.clean raw).isEmpty with
  | true => simp [hblank, run, pure, Except.pure]
  | false =>
    have hone : ∀ line, s.run [line] = s.accept line.1 line.2 := by
      intro line
      rw [run, List.foldlM_cons]
      cases s.accept line.1 line.2 <;> rfl
    simp [hblank, hone]

theorem run_append (s : Script) (lines more : List (List Char × List Char)) :
    s.run (lines ++ more) = s.run lines >>= fun s => s.run more :=
  List.foldlM_append

theorem acceptLines_eq_ok (s s' : Script) (line : Nat) (raws : List (List Char)) :
    s.acceptLines line raws = .ok s'
      ↔ s.run (commands raws) = .ok s' ∧ s'.duration ≤ durationLimit := by
  induction raws generalizing s line with
  | nil =>
    rw [acceptLines]
    split
    next hlong =>
      constructor
      · intro h
        cases h
      · rintro ⟨h, hshort⟩
        cases h
        omega
    next hshort =>
      constructor
      · intro h
        cases h
        exact ⟨rfl, Nat.le_of_not_lt hshort⟩
      · rintro ⟨h, -⟩
        cases h
        rfl
  | cons raw raws ih =>
    have hcommands : commands (raw :: raws) = commands [raw] ++ commands raws :=
      commands_append [raw] raws
    rw [acceptLines, hcommands, run_append, ← acceptLine_clean]
    cases s.acceptLine (Text.clean raw) with
    | error fault =>
      constructor
      · intro h
        cases h
      · rintro ⟨h, -⟩
        cases h
    | ok next => exact ih next (line + 1)

/-- Commands that are accepted say one instruction each, and the script follows them all. -/
theorem run_eq_ok (s s' : Script) (lines : List (List Char × List Char))
    (h : s.run lines = .ok s') :
    ∃ is : List Instruction, List.Forall₂ Instruction.Given lines is
      ∧ s.AdmitsAll is ∧ s' = is.foldl follow s := by
  induction lines generalizing s with
  | nil =>
    cases h
    exact ⟨[], .nil, trivial, rfl⟩
  | cons line lines ih =>
    obtain ⟨next, hnext, h⟩ := bind_eq_ok.mp h
    obtain ⟨i, hgiven, hadmits, rfl⟩ := accept_eq_ok s next line hnext
    obtain ⟨is, hgivens, hadmitsAll, hs'⟩ := ih (s.follow i) h
    exact ⟨i :: is, .cons hgiven hgivens, ⟨hadmits, hadmitsAll⟩, hs'⟩

end Script

end Tonewheel.Sound
