import Mathlib.Data.List.Induction
import Tonewheel.Proofs.Numeric.Integers
import Tonewheel.Proofs.Sound.Description

/-!
# The grammar of sound text (SPEC_FULL, section 4.1)

The lines of a sound are known commands with the arguments that these take (`Command.Takes`). No
`master` comes after a line that opens a voice, and in each voice, which is what stands between
`endvoice` lines, features come before processes and in their order (`Grammatical`). A text compiles
just when its lines are grammatical with the integers that the reader knows (`compile_iff_reads`).
These are the integer numerals, as long as they are plain (`compiles_iff_grammatical`).
-/

namespace Tonewheel.Sound

/-! ### Arguments -/

def Numeric (token : List Char) : Prop := ∃ x, readNumber token = .ok x

def LeadingNumbers : Nat → List (List Char) → Prop
  | 0, _ => True
  | n + 1, token :: tokens => Numeric token ∧ LeadingNumbers n tokens
  | _ + 1, [] => False

/-- A time in ms, held within 16 bits. -/
def heldMs (n : Int) : Nat := (max 0 (min 0xffff n)).toNat

def totalMs (times : List Int) : Nat := times.foldl (fun total n => total + heldMs n) 0

section

variable (integer : List Char → Int → Prop)

/-- Whether a list of tokens is pairs of an integer and a number. -/
inductive Pairs : List (List Char) → List Int → Prop where
  | nil : Pairs [] []
  | cons {time value : List Char} {tokens : List (List Char)} {n : Int} {times : List Int}
      (htime : integer time n) (hvalue : Numeric value) (hrest : Pairs tokens times) :
      Pairs (time :: value :: tokens) (n :: times)

/-- Whether a list of tokens is a number and at most 255 pairs of an integer and a number. -/
def Envelope (tokens : List (List Char)) (times : List Int) : Prop :=
  ∃ first rest, tokens = first :: rest ∧ Numeric first ∧ Pairs integer rest times
    ∧ times.length ≤ 255

/-- Whether a command takes an argument. -/
def Command.Takes (arg : List Char) : Command → Prop
  | .master => Numeric arg
  | .endVoice => True
  | .feature .shape => ∃ w : Waveform, w.name = String.ofList arg
  | .feature .harmonics =>
    (∀ token ∈ Text.words arg, Numeric token) ∧ (Text.words arg).length ≤ 255
  | .feature .fm => LeadingNumbers 2 (Text.words arg)
  | .feature .fmCurve => ∃ times, Envelope integer (Text.words arg) times
  | .feature .rate => ∃ times, Envelope integer (Text.words arg) times
  | .feature .rateSweep => LeadingNumbers 2 (Text.words arg)
  | .process .level => ∃ times, Envelope integer (Text.words arg) times ∧ totalMs times ≤ 65535
  | .process .gain => LeadingNumbers 1 (Text.words arg)
  | .process .clip => LeadingNumbers 1 (Text.words arg)
  | .process .delay => LeadingNumbers 5 (Text.words arg)
  | .process .bandPass => LeadingNumbers 2 (Text.words arg)
  | .process .notch => LeadingNumbers 2 (Text.words arg)
  | .process .lowPass => LeadingNumbers 1 (Text.words arg)
  | .process .highPass => LeadingNumbers 1 (Text.words arg)

/-! ### Lines -/

abbrev Line : Type := List Char × List Char

/-- Whether a line opens a voice, or goes on with one. -/
def OpensVoice (line : Line) : Prop :=
  ∃ c, commandOf line = some c ∧ c ≠ .master ∧ c ≠ .endVoice

def endsVoice (line : Line) : Bool := commandOf line = some .endVoice

def Command.BeforeFeature (g : Feature) : Command → Prop
  | .feature f => f.rank < g.rank
  | .process _ => False
  | _ => True

def InOrder (first second : Line) : Prop :=
  ∀ c g, commandOf first = some c → commandOf second = some (.feature g) → c.BeforeFeature g

/-- Whether some lines make up a sound. -/
structure Grammatical (lines : List Line) : Prop where
  arguments : ∀ line ∈ lines, ∃ c, commandOf line = some c ∧ c.Takes integer line.2
  mastersFirst : lines.Pairwise fun first second =>
    OpensVoice first → commandOf second ≠ some .master
  featuresFirst : ∀ voice ∈ lines.splitOnP endsVoice, voice.Pairwise InOrder

end

/-! ### Reading arguments -/

def Reads (token : List Char) (n : Int) : Prop := Integer.read token = some n

theorem toNat_heldMs (n : Int) : (heldMs n).toUInt16.toNat = heldMs n := by
  have hsmall : heldMs n < 2 ^ 16 := by
    unfold heldMs
    omega
  exact Nat.mod_eq_of_lt hsmall

theorem readMs_eq_ok {token : List Char} {ms : UInt16} :
    readMs token = .ok ms ↔ ∃ n, Reads token n ∧ ms.toNat = heldMs n := by
  unfold readMs Reads
  cases hread : Integer.read token with
  | none => simp
  | some n =>
    simp only [Except.ok.injEq, Option.some.injEq, exists_eq_left']
    constructor
    · rintro rfl
      exact toNat_heldMs n
    · intro hms
      exact UInt16.toNat_inj.mp ((toNat_heldMs n).trans hms.symm)

theorem PointsGiven.pairs {field : Float → UInt16} {tokens : List (List Char)}
    {points : List Breakpoint} (h : PointsGiven field tokens points) :
    ∃ times, Pairs Reads tokens times ∧ points.map (·.ms.toNat) = times.map heldMs := by
  induction h with
  | nil => exact ⟨[], .nil, rfl⟩
  | cons hms hx _ ih =>
    obtain ⟨n, hread, hheld⟩ := readMs_eq_ok.mp hms
    obtain ⟨times, hpairs, hsame⟩ := ih
    exact ⟨n :: times, .cons hread ⟨_, hx⟩ hpairs, congrArg₂ List.cons hheld hsame⟩

theorem Pairs.readPoints (field : Float → UInt16) {tokens : List (List Char)} {times : List Int}
    (h : Pairs Reads tokens times) :
    ∃ points, Sound.readPoints field tokens = .ok points
      ∧ points.map (·.ms.toNat) = times.map heldMs := by
  induction h with
  | nil => exact ⟨[], rfl, rfl⟩
  | @cons time value tokens n times htime hvalue _ ih =>
    obtain ⟨x, hx⟩ := hvalue
    obtain ⟨points, hpoints, hsame⟩ := ih
    have hms := readMs_eq_ok.mpr ⟨n, htime, toNat_heldMs n⟩
    refine ⟨⟨(heldMs n).toUInt16, field x⟩ :: points, ?_,
      congrArg₂ List.cons (toNat_heldMs n) hsame⟩
    rw [Sound.readPoints, hms, ok_bind, hx, ok_bind, hpoints, ok_bind]
    rfl

theorem duration_of_points {c : Curve} {times : List Int}
    (h : c.points.map (·.ms.toNat) = times.map heldMs) : c.duration = totalMs times := by
  have hsums : (c.points.map (·.ms.toNat)).foldl (· + ·) 0
      = (times.map heldMs).foldl (· + ·) 0 := by rw [h]
  rwa [List.foldl_map, List.foldl_map] at hsums

theorem readCurve_iff (field : Float → UInt16) (arg : List Char) (ms : Nat) :
    (∃ c, readCurve field arg = .ok c ∧ c.duration = ms)
      ↔ ∃ times, Envelope Reads (Text.words arg) times ∧ totalMs times = ms := by
  constructor
  · rintro ⟨c, hread, rfl⟩
    obtain ⟨first, rest, x, hwords, hfirst, -, hpoints⟩ := readCurve_eq_ok field hread
    obtain ⟨times, hpairs, hsame⟩ := hpoints.pairs
    have hlength := congrArg List.length hsame
    rw [List.length_map, List.length_map] at hlength
    exact ⟨times, ⟨first, rest, hwords, ⟨x, hfirst⟩, hpairs, hlength ▸ c.length_le⟩,
      (duration_of_points hsame).symm⟩
  · rintro ⟨times, ⟨first, rest, hwords, ⟨x, hfirst⟩, hpairs, hshort⟩, rfl⟩
    obtain ⟨points, hpoints, hsame⟩ := hpairs.readPoints field
    have hlength := congrArg List.length hsame
    rw [List.length_map, List.length_map] at hlength
    have hfew : points.length ≤ 255 := by omega
    refine ⟨⟨field x, points, hfew⟩, ?_, duration_of_points hsame⟩
    unfold readCurve
    rw [hwords]
    dsimp only [List.headD_cons, List.tail_cons]
    rw [hfirst, ok_bind, hpoints, ok_bind, dif_pos hfew]
    rfl

theorem readHarmonics_iff (arg : List Char) :
    (∃ h, readHarmonics arg = .ok h)
      ↔ (∀ token ∈ Text.words arg, Numeric token) ∧ (Text.words arg).length ≤ 255 := by
  have hall (tokens : List (List Char)) (hnumeric : ∀ token ∈ tokens, Numeric token) :
      ∃ coefficients, (tokens.mapM fun token => fixed08 <$> readNumber token) = .ok coefficients
        ∧ coefficients.length = tokens.length := by
    induction tokens with
    | nil => exact ⟨[], rfl, rfl⟩
    | cons token tokens ih =>
      obtain ⟨x, hx⟩ := hnumeric token List.mem_cons_self
      obtain ⟨coefficients, hread, hlength⟩ :=
        ih fun other hother => hnumeric other (List.mem_cons_of_mem _ hother)
      refine ⟨fixed08 x :: coefficients, ?_, congrArg (· + 1) hlength⟩
      rw [List.mapM_cons, hx, hread]
      rfl
  constructor
  · rintro ⟨h, hread⟩
    obtain ⟨xs, hxs, hsame⟩ := readHarmonics_eq_ok hread
    have hfew := h.length_le
    rw [hsame, List.length_map, ← hxs.length_eq] at hfew
    refine ⟨?_, hfew⟩
    clear hsame
    generalize Text.words arg = tokens at hxs
    induction hxs with
    | nil => simp
    | cons hx _ ih => exact List.forall_mem_cons.mpr ⟨⟨_, hx⟩, ih⟩
  · rintro ⟨hnumeric, hfew⟩
    obtain ⟨coefficients, hread, hlength⟩ := hall _ hnumeric
    rw [← hlength] at hfew
    refine ⟨⟨coefficients, hfew⟩, ?_⟩
    unfold readHarmonics
    rw [hread, ok_bind, dif_pos hfew]
    rfl

theorem readWaveform_iff (arg : List Char) :
    (∃ w, readWaveform arg = .ok w) ↔ ∃ w : Waveform, w.name = String.ofList arg := by
  constructor
  · rintro ⟨w, hw⟩
    exact ⟨w, readWaveform_eq_ok hw⟩
  · rintro ⟨w, hw⟩
    have hlisted : w ∈ Waveform.all := by cases w <;> decide
    unfold readWaveform
    split
    next found _ => exact ⟨found, rfl⟩
    next hnone => exact absurd hw (by simpa using List.find?_eq_none.mp hnone w hlisted)

/-! ### Reading fields -/

theorem leadingNumbers_succ (n : Nat) (tokens : List (List Char)) :
    LeadingNumbers (n + 1) tokens
      ↔ ∃ x rest, readField tokens = .ok (x, rest) ∧ LeadingNumbers n rest := by
  constructor
  · intro h
    cases tokens with
    | nil => exact h.elim
    | cons token tokens =>
      obtain ⟨⟨x, hx⟩, hrest⟩ := h
      refine ⟨x, tokens, ?_, hrest⟩
      show (do let v ← readNumber token; return (v, tokens)) = _
      rw [hx]
      rfl
  · rintro ⟨x, rest, hfield, hrest⟩
    obtain ⟨first, rfl, hfirst⟩ := readField_eq_ok hfield
    exact ⟨⟨x, hfirst⟩, hrest⟩

theorem exists_bind_ok {ε α β : Type} {x : Except ε α} {f : α → Except ε β} :
    (∃ b, x >>= f = .ok b) ↔ ∃ a, x = .ok a ∧ ∃ b, f a = .ok b := by
  constructor
  · rintro ⟨b, h⟩
    obtain ⟨a, hx, hf⟩ := bind_eq_ok.mp h
    exact ⟨a, hx, b, hf⟩
  · rintro ⟨a, hx, b, hf⟩
    exact ⟨b, bind_eq_ok.mpr ⟨a, hx, hf⟩⟩

theorem exists_bind_pure {ε α β : Type} {x : Except ε α} {f : α → β} :
    (∃ b, x >>= (fun a => pure (f a)) = .ok b) ↔ ∃ a, x = .ok a := by
  rw [exists_bind_ok]
  exact exists_congr fun a => and_iff_left ⟨f a, rfl⟩

theorem exists_field {β : Type} {tokens : List (List Char)}
    {k : Float × List (List Char) → Except Fault β} (n : Nat)
    (hk : ∀ x rest, (∃ b, k (x, rest) = .ok b) ↔ LeadingNumbers n rest) :
    (∃ b, readField tokens >>= k = .ok b) ↔ LeadingNumbers (n + 1) tokens := by
  rw [exists_bind_ok, leadingNumbers_succ]
  constructor
  · rintro ⟨⟨x, rest⟩, hfield, h⟩
    exact ⟨x, rest, hfield, (hk x rest).mp h⟩
  · rintro ⟨x, rest, hfield, h⟩
    exact ⟨(x, rest), hfield, (hk x rest).mpr h⟩

theorem exists_pure {β : Type} (b : β) (tokens : List (List Char)) :
    (∃ b', (pure b : Except Fault β) = .ok b') ↔ LeadingNumbers 0 tokens :=
  ⟨fun _ => trivial, fun _ => ⟨b, rfl⟩⟩

theorem exists_curve (field : Float → UInt16) (arg : List Char) :
    (∃ c, readCurve field arg = .ok c) ↔ ∃ times, Envelope Reads (Text.words arg) times := by
  constructor
  · rintro ⟨c, hc⟩
    obtain ⟨times, henvelope, -⟩ := (readCurve_iff field arg _).mp ⟨c, hc, rfl⟩
    exact ⟨times, henvelope⟩
  · rintro ⟨times, henvelope⟩
    obtain ⟨c, hc, -⟩ := (readCurve_iff field arg _).mpr ⟨times, henvelope, rfl⟩
    exact ⟨c, hc⟩

/-! ### Commands -/

theorem Oscillator.read_iff (o : Oscillator) (f : Feature) (arg : List Char) :
    (∃ o', o.read f arg = .ok o') ↔ (Command.feature f).Takes Reads arg := by
  cases f with
  | shape => exact exists_bind_pure.trans (readWaveform_iff arg)
  | harmonics => exact exists_bind_pure.trans (readHarmonics_iff arg)
  | fm => exact exists_field 1 fun _ _ => exists_field 0 fun _ _ => exists_pure _ _
  | fmCurve => exact exists_bind_pure.trans (exists_curve fixed016 arg)
  | rate => exact exists_bind_pure.trans (exists_curve whole16 arg)
  | rateSweep => exact exists_field 1 fun _ _ => exists_field 0 fun _ _ => exists_pure _ _

theorem duration_of_given {kind : ProcessKind} {arg : List Char} {p : Process}
    (h : p.Given arg kind) (hkind : kind ≠ .level) : (Instruction.process p).duration = 0 := by
  cases kind with
  | level => exact absurd rfl hkind
  | delay =>
    obtain ⟨_, _, _, _, _, -, rfl⟩ := h
    rfl
  | bandPass | notch =>
    obtain ⟨_, _, -, rfl⟩ := h
    rfl
  | gain | clip | lowPass | highPass =>
    obtain ⟨_, -, rfl⟩ := h
    rfl

/-- A process is read from the argument that its command takes, which for a level curve is one that
is not too long. -/
theorem Process.read_iff (kind : ProcessKind) (arg : List Char) :
    (∃ p, Process.read kind arg = .ok p
        ∧ (Instruction.process p).duration ≤ Script.durationLimit)
      ↔ (Command.process kind).Takes Reads arg := by
  have hshort (hkind : kind ≠ .level) : (∃ p, Process.read kind arg = .ok p
        ∧ (Instruction.process p).duration ≤ Script.durationLimit)
      ↔ ∃ p, Process.read kind arg = .ok p := by
    refine exists_congr fun p => and_iff_left_of_imp fun hp => ?_
    rw [duration_of_given (Process.read_eq_ok kind hp) hkind]
    exact Nat.zero_le _
  cases kind with
  | level =>
    constructor
    · rintro ⟨p, hp, hlimit⟩
      obtain ⟨c, hc, hp⟩ := bind_eq_ok.mp hp
      cases hp
      obtain ⟨times, henvelope, hms⟩ := (readCurve_iff fixed016 arg _).mp ⟨c, hc, rfl⟩
      exact ⟨times, henvelope, hms ▸ hlimit⟩
    · rintro ⟨times, henvelope, hlimit⟩
      obtain ⟨c, hc, hms⟩ := (readCurve_iff fixed016 arg _).mpr ⟨times, henvelope, rfl⟩
      exact ⟨.level c, bind_eq_ok.mpr ⟨c, hc, rfl⟩, Nat.le_trans (Nat.le_of_eq hms) hlimit⟩
  | delay =>
    exact (hshort nofun).trans <| exists_field 4 fun _ _ => exists_field 3 fun _ _ =>
      exists_field 2 fun _ _ => exists_field 1 fun _ _ => exists_field 0 fun _ _ =>
        exists_pure _ _
  | bandPass | notch =>
    exact (hshort nofun).trans <| exists_field 1 fun _ _ => exists_field 0 fun _ _ =>
      exists_pure _ _
  | gain | clip | lowPass | highPass =>
    exact (hshort nofun).trans <| exists_field 0 fun _ _ => exists_pure _ _

theorem Feature.mem_all (f : Feature) : f ∈ Feature.all := by
  cases f <;> decide

theorem Feature.eq_of_rank {f g : Feature} (h : f.rank = g.rank) : f = g := by
  revert h
  cases f <;> cases g <;> decide

theorem VoiceScript.admit_iff (v : VoiceScript) (keyword : String) (f : Feature) :
    v.admit keyword f = .ok ()
      ↔ v.chain = [] ∧ ∀ g, v.oscillator.has g = true → g.rank < f.rank := by
  unfold VoiceScript.admit
  split
  next hchain =>
    simp only [Bool.not_eq_true', List.isEmpty_eq_false_iff] at hchain
    simp [hchain]
  next hchain =>
    simp only [Bool.not_eq_true, Bool.not_eq_false', List.isEmpty_iff] at hchain
    split
    next hgiven =>
      constructor
      · intro h
        cases h
      · rintro ⟨-, hbefore⟩
        exact absurd (hbefore f hgiven) (Nat.lt_irrefl _)
    next hfree =>
      have hlater : (Feature.all.any fun g => f.rank < g.rank && v.oscillator.has g) = true
          ↔ ∃ g, f.rank < g.rank ∧ v.oscillator.has g = true := by
        simp [List.any_eq_true, Feature.mem_all]
      split
      next hany =>
        obtain ⟨g, hrank, hg⟩ := hlater.mp hany
        constructor
        · intro h
          cases h
        · rintro ⟨-, hbefore⟩
          have hless := hbefore g hg
          omega
      next hnone =>
        refine ⟨fun _ => ⟨hchain, fun g hg => ?_⟩, fun _ => rfl⟩
        have hnotLater : ¬ f.rank < g.rank := fun hrank => hnone (hlater.mpr ⟨g, hrank, hg⟩)
        have hother : g.rank ≠ f.rank := fun hsame => hfree (Feature.eq_of_rank hsame ▸ hg)
        omega

/-- Whether a command may come where a script is. -/
def Script.Allows (s : Script) : Command → Prop
  | .master => s.voices = []
  | .feature f => s.current.chain = [] ∧ ∀ g, s.current.oscillator.has g = true → g.rank < f.rank
  | _ => True

theorem Script.accept_iff {s : Script} (hlimit : s.duration ≤ durationLimit) (line : Line) :
    (∃ s', s.accept line.1 line.2 = .ok s' ∧ s'.duration ≤ durationLimit)
      ↔ ∃ c, commandOf line = some c ∧ s.Allows c ∧ c.Takes Reads line.2 := by
  have hkept {i : Instruction} (hi : i.duration = 0) : (s.follow i).duration ≤ durationLimit := by
    rw [follow_duration_step, hi]
    exact Nat.max_le.mpr ⟨hlimit, Nat.zero_le _⟩
  unfold accept
  dsimp only
  cases hc : commandOf line with
  | none =>
    rw [commandOf] at hc
    rw [hc]
    simp
  | some c =>
    rw [commandOf] at hc
    rw [hc]
    simp only [Option.some.injEq, exists_eq_left']
    cases c with
    | master =>
      show (∃ s', (if !s.voices.isEmpty then _ else _) = _ ∧ _) ↔ s.voices = [] ∧ Numeric line.2
      split
      next hvoices =>
        simp only [Bool.not_eq_true', List.isEmpty_eq_false_iff] at hvoices
        simp [hvoices]
      next hvoices =>
        simp only [Bool.not_eq_true, Bool.not_eq_false', List.isEmpty_iff] at hvoices
        constructor
        · rintro ⟨s', h, -⟩
          obtain ⟨x, hx, -⟩ := bind_eq_ok.mp h
          exact ⟨hvoices, x, hx⟩
        · rintro ⟨-, x, hx⟩
          exact ⟨_, bind_eq_ok.mpr ⟨x, hx, rfl⟩, hkept (i := .master (fixed88 x)) rfl⟩
    | endVoice =>
      exact ⟨fun _ => ⟨trivial, trivial⟩, fun _ => ⟨_, rfl, hkept (i := .endVoice) rfl⟩⟩
    | feature f =>
      constructor
      · rintro ⟨s', h, -⟩
        obtain ⟨⟨⟩, hadmit, h⟩ := bind_eq_ok.mp h
        obtain ⟨o, ho, -⟩ := bind_eq_ok.mp h
        exact ⟨(VoiceScript.admit_iff _ _ f).mp hadmit, (Oscillator.read_iff _ f _).mp ⟨o, ho⟩⟩
      · rintro ⟨hallows, htakes⟩
        obtain ⟨o, ho⟩ := (Oscillator.read_iff s.current.oscillator f _).mpr htakes
        obtain ⟨value, -, rfl⟩ := Oscillator.read_eq_ok _ _ f ho
        exact ⟨_, bind_eq_ok.mpr ⟨(), (VoiceScript.admit_iff _ _ f).mpr hallows,
          bind_eq_ok.mpr ⟨_, ho, rfl⟩⟩, hkept (i := .feature f value) rfl⟩
    | process kind =>
      constructor
      · rintro ⟨s', h, hshort⟩
        obtain ⟨p, hp, h⟩ := bind_eq_ok.mp h
        cases h
        have hlong : max s.duration (Instruction.process p).duration ≤ durationLimit :=
          Nat.le_trans (Nat.le_of_eq (follow_duration_step s (.process p)).symm) hshort
        exact ⟨trivial, (Process.read_iff kind _).mp ⟨p, hp, (Nat.max_le.mp hlong).2⟩⟩
      · rintro ⟨-, htakes⟩
        obtain ⟨p, hp, hshort⟩ := (Process.read_iff kind _).mpr htakes
        have hduration := follow_duration_step s (.process p)
        refine ⟨_, bind_eq_ok.mpr ⟨p, hp, rfl⟩, ?_⟩
        exact Nat.le_trans (Nat.le_of_eq hduration) (Nat.max_le.mpr ⟨hlimit, hshort⟩)

/-! ### The voice of the last line -/

theorem exists_splitOnP_append {α : Type} (p : α → Bool) (xs : List α) :
    ∃ init last, xs.splitOnP p = init ++ [last]
      ∧ ∀ x, (xs ++ [x]).splitOnP p
          = if p x then init ++ [last, []] else init ++ [last ++ [x]] := by
  induction xs with
  | nil =>
    refine ⟨[], [], rfl, fun x => ?_⟩
    rw [List.nil_append, List.splitOnP_cons_eq_if_modifyHead]
    split <;> rfl
  | cons y ys ih =>
    obtain ⟨init, last, hsplit, happend⟩ := ih
    rw [List.splitOnP_cons_eq_if_modifyHead, hsplit]
    by_cases hy : p y = true
    · refine ⟨[] :: init, last, if_pos hy, fun x => ?_⟩
      rw [List.cons_append, List.splitOnP_cons_eq_if_modifyHead, if_pos hy, happend]
      split <;> rfl
    · rw [if_neg hy]
      cases init with
      | nil =>
        refine ⟨[], y :: last, rfl, fun x => ?_⟩
        rw [List.cons_append, List.splitOnP_cons_eq_if_modifyHead, if_neg hy, happend]
        split <;> rfl
      | cons first init =>
        refine ⟨(y :: first) :: init, last, rfl, fun x => ?_⟩
        rw [List.cons_append, List.splitOnP_cons_eq_if_modifyHead, if_neg hy, happend]
        split <;> rfl

def lastVoice (lines : List Line) : List Line := (lines.splitOnP endsVoice).getLastD []

theorem lastVoice_append (lines : List Line) (line : Line) :
    lastVoice (lines ++ [line]) = if endsVoice line then [] else lastVoice lines ++ [line] := by
  obtain ⟨init, last, hsplit, happend⟩ := exists_splitOnP_append endsVoice lines
  unfold lastVoice
  rw [happend, hsplit]
  split
  · rw [List.append_cons, List.getLastD_concat]
  · rw [List.getLastD_concat, List.getLastD_concat]

theorem pairwise_voices_append (order : Line → Line → Prop) (lines : List Line) (line : Line) :
    (∀ voice ∈ (lines ++ [line]).splitOnP endsVoice, voice.Pairwise order)
      ↔ (∀ voice ∈ lines.splitOnP endsVoice, voice.Pairwise order)
        ∧ (endsVoice line = false → ∀ other ∈ lastVoice lines, order other line) := by
  obtain ⟨init, last, hsplit, happend⟩ := exists_splitOnP_append endsVoice lines
  unfold lastVoice
  rw [happend, hsplit, List.getLastD_concat]
  cases hends : endsVoice line with
  | true =>
    rw [if_pos rfl, List.forall_mem_append, List.forall_mem_append, List.forall_mem_cons]
    simp
  | false =>
    rw [if_neg Bool.false_ne_true, List.forall_mem_append, List.forall_mem_append,
      List.forall_mem_singleton, List.forall_mem_singleton, List.pairwise_append, and_assoc]
    simp

/-- Whether a command may come behind some lines. -/
def MayFollow (lines : List Line) : Command → Prop
  | .master => ∀ other ∈ lines, ¬ OpensVoice other
  | .feature g => ∀ other ∈ lastVoice lines, ∀ c, commandOf other = some c → c.BeforeFeature g
  | _ => True

/-- Whether some lines come in the order of a sound, whatever their arguments are. -/
structure Ordered (lines : List Line) : Prop where
  mastersFirst : lines.Pairwise fun first second =>
    OpensVoice first → commandOf second ≠ some .master
  featuresFirst : ∀ voice ∈ lines.splitOnP endsVoice, voice.Pairwise InOrder

theorem Ordered.append_iff (lines : List Line) {line : Line} {c : Command}
    (hc : commandOf line = some c) :
    Ordered (lines ++ [line]) ↔ Ordered lines ∧ MayFollow lines c := by
  constructor
  · rintro ⟨hmasters, hfeatures⟩
    rw [List.pairwise_append] at hmasters
    rw [pairwise_voices_append] at hfeatures
    refine ⟨⟨hmasters.1, hfeatures.1⟩, ?_⟩
    cases c with
    | master =>
      exact fun other hother hopens => hmasters.2.2 other hother line List.mem_cons_self hopens hc
    | feature g =>
      have hends : endsVoice line = false := by simp [endsVoice, hc]
      exact fun other hother c' hc' => hfeatures.2 hends other hother c' g hc' hc
    | _ => trivial
  · rintro ⟨⟨hmasters, hfeatures⟩, hfollows⟩
    constructor
    · refine List.pairwise_append.mpr ⟨hmasters, List.pairwise_singleton _ _, ?_⟩
      intro other hother line' hline' hopens hmaster
      obtain rfl := List.mem_singleton.mp hline'
      obtain rfl := Option.some.inj (hc.symm.trans hmaster)
      exact hfollows other hother hopens
    · refine (pairwise_voices_append InOrder lines line).mpr ⟨hfeatures, ?_⟩
      intro _ other hother c' g hc' hg
      obtain rfl := Option.some.inj (hc.symm.trans hg)
      exact hfollows other hother c' hc'

theorem grammatical_iff (integer : List Char → Int → Prop) (lines : List Line) :
    Grammatical integer lines
      ↔ (∀ line ∈ lines, ∃ c, commandOf line = some c ∧ c.Takes integer line.2)
        ∧ Ordered lines :=
  ⟨fun h => ⟨h.arguments, h.mastersFirst, h.featuresFirst⟩,
    fun h => ⟨h.1, h.2.mastersFirst, h.2.featuresFirst⟩⟩

theorem Grammatical.append_iff (integer : List Char → Int → Prop) (lines : List Line)
    (line : Line) :
    Grammatical integer (lines ++ [line])
      ↔ Grammatical integer lines
        ∧ ∃ c, commandOf line = some c ∧ MayFollow lines c ∧ c.Takes integer line.2 := by
  rw [grammatical_iff, grammatical_iff, List.forall_mem_append, List.forall_mem_singleton]
  constructor
  · rintro ⟨⟨harguments, c, hc, htakes⟩, hordered⟩
    obtain ⟨hbefore, hfollows⟩ := (Ordered.append_iff lines hc).mp hordered
    exact ⟨⟨harguments, hbefore⟩, c, hc, hfollows, htakes⟩
  · rintro ⟨⟨harguments, hordered⟩, c, hc, hfollows, htakes⟩
    exact ⟨⟨harguments, c, hc, htakes⟩, (Ordered.append_iff lines hc).mpr ⟨hordered, hfollows⟩⟩

/-! ### Runs -/

theorem Oscillator.has_set (o : Oscillator) (f g : Feature) (value : f.Value) :
    (o.set f value).has g = true ↔ g = f ∨ o.has g = true := by
  rw [← isSome_get, ← isSome_get]
  by_cases hg : g = f
  · subst hg
    simp [get_set_self]
  · simp [get_set_of_ne, hg]

/-- What a script that has read some lines knows about them. -/
structure Script.Knows (s : Script) (lines : List Line) : Prop where
  voices : s.voices = [] ↔ ∀ line ∈ lines, ¬ OpensVoice line
  features : ∀ f, s.current.oscillator.has f = true
    ↔ ∃ line ∈ lastVoice lines, commandOf line = some (.feature f)
  chain : s.current.chain = []
    ↔ ∀ line ∈ lastVoice lines, ∀ kind, commandOf line ≠ some (.process kind)

namespace Script.Knows

variable {s : Script} {lines : List Line}

theorem nil : Knows {} [] where
  voices := by simp [Script.voices]
  features f := by cases f <;> simp [lastVoice, Script.current, Oscillator.has]
  chain := by simp [lastVoice, Script.current]

theorem allows_iff (h : s.Knows lines) (c : Command) : s.Allows c ↔ MayFollow lines c := by
  cases c with
  | master => exact h.voices
  | feature g =>
    constructor
    · rintro ⟨hchain, hbefore⟩ other hother c hc
      cases c with
      | feature f => exact hbefore f ((h.features f).mpr ⟨other, hother, hc⟩)
      | process kind => exact absurd hc (h.chain.mp hchain other hother kind)
      | _ => trivial
    · intro hfollows
      refine ⟨h.chain.mpr fun other hother kind hc => hfollows other hother _ hc, fun f hf => ?_⟩
      obtain ⟨other, hother, hc⟩ := (h.features f).mp hf
      exact hfollows other hother _ hc
  | _ => exact Iff.rfl

theorem follow (h : s.Knows lines) {line : Line} {i : Instruction} (hi : i.Given line) :
    (s.follow i).Knows (lines ++ [line]) := by
  obtain ⟨hvoices, hfeatures, hchain⟩ := h
  have hopens {c : Command} (hc : commandOf line = some c) :
      OpensVoice line ↔ c ≠ .master ∧ c ≠ .endVoice := by simp [OpensVoice, hc]
  have hends {c : Command} (hc : commandOf line = some c) (hother : c ≠ .endVoice) :
      lastVoice (lines ++ [line]) = lastVoice lines ++ [line] := by
    simp [lastVoice_append, endsVoice, hc, hother]
  cases i with
  | master factor =>
    obtain ⟨hc, -⟩ := hi
    refine ⟨?_, fun f => ?_, ?_⟩
    · rw [List.forall_mem_append, List.forall_mem_singleton, hopens hc]
      exact hvoices.trans (by simp)
    · rw [hends hc (by simp)]
      exact (hfeatures f).trans (by simp [hc])
    · rw [hends hc (by simp), List.forall_mem_append, List.forall_mem_singleton]
      exact hchain.trans (by simp [hc])
  | endVoice =>
    have hc : commandOf line = some .endVoice := hi
    have hlast : lastVoice (lines ++ [line]) = [] := by simp [lastVoice_append, endsVoice, hc]
    refine ⟨?_, fun f => ?_, ?_⟩
    · rw [List.forall_mem_append, List.forall_mem_singleton, hopens hc, ← hvoices]
      simp [Script.follow, Script.voices]
    · rw [hlast]
      cases f <;> simp [Script.follow, Script.current, Oscillator.has]
    · rw [hlast]
      simp [Script.follow, Script.current]
  | feature f value =>
    obtain ⟨hc, -⟩ := hi
    refine ⟨?_, fun g => ?_, ?_⟩
    · rw [List.forall_mem_append, List.forall_mem_singleton, hopens hc]
      simp [Script.follow, Script.voices]
    · rw [hends hc (by simp)]
      refine (Oscillator.has_set s.current.oscillator f g value).trans ?_
      rw [hfeatures g]
      simp [hc, or_comm, eq_comm, or_and_right, exists_or]
    · rw [hends hc (by simp), List.forall_mem_append, List.forall_mem_singleton]
      exact hchain.trans (by simp [hc])
  | process p =>
    obtain ⟨kind, hc, -⟩ := hi
    refine ⟨?_, fun f => ?_, ?_⟩
    · rw [List.forall_mem_append, List.forall_mem_singleton, hopens hc]
      simp [Script.follow, Script.voices]
    · rw [hends hc (by simp)]
      exact (hfeatures f).trans (by simp [hc])
    · rw [hends hc (by simp), List.forall_mem_append, List.forall_mem_singleton]
      simp [Script.follow, Script.current, hc]

end Script.Knows

namespace Script

theorem run_concat (s : Script) (lines : List Line) (line : Line) :
    s.run (lines ++ [line]) = s.run lines >>= fun s => s.accept line.1 line.2 := by
  rw [run_append]
  refine congrArg (s.run lines >>= ·) (funext fun t => ?_)
  rw [run, List.foldlM_cons]
  cases t.accept line.1 line.2 <;> rfl

theorem knows_of_run {s : Script} {lines : List Line} (h : run {} lines = .ok s) :
    s.Knows lines := by
  induction lines using List.reverseRecOn generalizing s with
  | nil =>
    cases h
    exact .nil
  | append_singleton lines line ih =>
    rw [run_concat] at h
    obtain ⟨t, ht, h⟩ := bind_eq_ok.mp h
    obtain ⟨i, hi, -, rfl⟩ := accept_eq_ok t s line h
    exact (ih ht).follow hi

theorem run_iff (lines : List Line) :
    (∃ s, run {} lines = .ok s ∧ s.duration ≤ durationLimit) ↔ Grammatical Reads lines := by
  induction lines using List.reverseRecOn with
  | nil =>
    refine ⟨fun _ => ⟨nofun, .nil, ?_⟩, fun _ => ⟨{}, rfl, Nat.zero_le _⟩⟩
    rintro voice hvoice
    obtain rfl := List.mem_singleton.mp hvoice
    exact .nil
  | append_singleton lines line ih =>
    rw [Grammatical.append_iff, ← ih]
    constructor
    · rintro ⟨s', h, hlimit'⟩
      rw [run_concat] at h
      obtain ⟨s, hs, h⟩ := bind_eq_ok.mp h
      -- A sound that is short enough was so before its last line.
      have hlimit : s.duration ≤ durationLimit := by
        obtain ⟨i, -, -, rfl⟩ := accept_eq_ok s s' line h
        rw [follow_duration_step] at hlimit'
        exact (Nat.max_le.mp hlimit').1
      obtain ⟨c, hc, hallows, htakes⟩ := (accept_iff hlimit line).mp ⟨s', h, hlimit'⟩
      exact ⟨⟨s, hs, hlimit⟩, c, hc, ((knows_of_run hs).allows_iff c).mp hallows, htakes⟩
    · rintro ⟨⟨s, hs, hlimit⟩, c, hc, hfollows, htakes⟩
      have hallows := ((knows_of_run hs).allows_iff c).mpr hfollows
      obtain ⟨s', h, hlimit'⟩ := (accept_iff hlimit line).mpr ⟨c, hc, hallows, htakes⟩
      refine ⟨s', ?_, hlimit'⟩
      rw [run_concat, hs]
      exact h

end Script

theorem compile_iff_reads (text : String) (before : Nat) :
    (∃ bytes, compile text before = .ok bytes) ↔ Grammatical Reads (commandsOf text) := by
  rw [← Script.run_iff]
  constructor
  · rintro ⟨bytes, h⟩
    obtain ⟨s, hrun, hshort, -⟩ := (compile_eq_ok text before bytes).mp h
    exact ⟨s, hrun, hshort⟩
  · rintro ⟨s, hrun, hshort⟩
    exact ⟨_, (compile_eq_ok text before _).mpr ⟨s, hrun, hshort, rfl⟩⟩

/-! ### Plain times -/

def timeTokens : List (List Char) → List (List Char)
  | _ :: time :: rest => time :: timeTokens rest
  | _ => []

def Command.takesEnvelope : Command → Bool
  | .feature .fmCurve => true
  | .feature .rate => true
  | .process .level => true
  | _ => false

/-- Whether the times of some lines have no second sign, and at most 63 bits where they are
integers. -/
def PlainTimes (lines : List Line) : Prop :=
  ∀ line ∈ lines, ∀ c, commandOf line = some c → c.takesEnvelope = true →
    ∀ token ∈ timeTokens (Text.words line.2), Integer.Plain token

section

variable {integer integer' : List Char → Int → Prop}

theorem Pairs.imp {first : List Char} {tokens : List (List Char)} {times : List Int}
    (h : Pairs integer tokens times)
    (himp : ∀ token ∈ timeTokens (first :: tokens), ∀ n, integer token n → integer' token n) :
    Pairs integer' tokens times := by
  induction h generalizing first with
  | nil => exact .nil
  | cons htime hvalue _ ih =>
    obtain ⟨himpTime, himpRest⟩ := List.forall_mem_cons.mp himp
    exact .cons (himpTime _ htime) hvalue (ih himpRest)

theorem Envelope.imp {tokens : List (List Char)} {times : List Int}
    (h : Envelope integer tokens times)
    (himp : ∀ token ∈ timeTokens tokens, ∀ n, integer token n → integer' token n) :
    Envelope integer' tokens times := by
  obtain ⟨first, rest, rfl, hfirst, hpairs, hshort⟩ := h
  exact ⟨first, rest, rfl, hfirst, hpairs.imp himp, hshort⟩

theorem Command.Takes.imp {c : Command} {arg : List Char} (h : c.Takes integer arg)
    (himp : c.takesEnvelope = true → ∀ token ∈ timeTokens (Text.words arg), ∀ n,
      integer token n → integer' token n) : c.Takes integer' arg := by
  rcases c with _ | _ | f | kind
  · exact h
  · exact h
  · cases f with
    | fmCurve | rate =>
      obtain ⟨times, henvelope⟩ := h
      exact ⟨times, henvelope.imp (himp rfl)⟩
    | _ => exact h
  · cases kind with
    | level =>
      obtain ⟨times, henvelope, hshort⟩ := h
      exact ⟨times, henvelope.imp (himp rfl), hshort⟩
    | _ => exact h

theorem Grammatical.imp {lines : List Line} (h : Grammatical integer lines)
    (himp : ∀ line ∈ lines, ∀ c, commandOf line = some c → c.takesEnvelope = true →
      ∀ token ∈ timeTokens (Text.words line.2), ∀ n, integer token n → integer' token n) :
    Grammatical integer' lines where
  arguments line hline := by
    obtain ⟨c, hc, htakes⟩ := h.arguments line hline
    exact ⟨c, hc, htakes.imp (himp line hline c hc)⟩
  mastersFirst := h.mastersFirst
  featuresFirst := h.featuresFirst

end

/-- A text compiles just when it is grammatical, as long as its times are plain. -/
theorem compiles_iff_grammatical {text : String} (hplain : PlainTimes (commandsOf text))
    (before : Nat) :
    (∃ bytes, compile text before = .ok bytes)
      ↔ Grammatical Integer.Numeral (commandsOf text) := by
  rw [compile_iff_reads]
  constructor
  · intro h
    refine h.imp fun line hline c hc htakes token htoken n => ?_
    exact ((hplain line hline c hc htakes token htoken).read_eq_some n).mp
  · intro h
    refine h.imp fun line hline c hc htakes token htoken n => ?_
    exact ((hplain line hline c hc htakes token htoken).read_eq_some n).mpr

/-- A square wave that fades out in 20 ms. -/
def fadingSquare : String := "shape square\nlevel 1 0x14 0 # fades"

theorem compiles_iff_grammatical_fadingSquare :
    PlainTimes (commandsOf fadingSquare) ∧ (∃ bytes, compile fadingSquare 0 = .ok bytes)
      ∧ Grammatical Integer.Numeral (commandsOf fadingSquare) := by
  have hlines : commandsOf fadingSquare
      = [("shape".toList, "square".toList), ("level".toList, "1 0x14 0".toList)] := by
    decide +kernel
  have hplain : PlainTimes (commandsOf fadingSquare) := by
    rw [hlines]
    intro line hline c hc htakes token htoken
    rcases List.mem_cons.mp hline with rfl | hline
    · cases hc
      cases htakes
    · obtain rfl := List.mem_singleton.mp hline
      have htimes : timeTokens (Text.words "1 0x14 0".toList) = ["0x14".toList] := by decide
      rw [htimes] at htoken
      obtain rfl := List.mem_singleton.mp htoken
      exact Integer.plain_of_read (n := 20) (by decide) (by decide)
  have hcompiles : ∃ bytes, compile fadingSquare 0 = .ok bytes := by
    have hsome : (compile fadingSquare 0).toOption.isSome = true := by decide +kernel
    cases hcompile : compile fadingSquare 0 with
    | error e =>
      rw [hcompile] at hsome
      cases hsome
    | ok bytes => exact ⟨bytes, rfl⟩
  exact ⟨hplain, hcompiles, (compiles_iff_grammatical hplain 0).mp hcompiles⟩

theorem numeric_of_read {token : List Char} (h : (readNumber token).toOption.isSome = true) :
    Numeric token := by
  unfold Numeric
  cases hread : readNumber token with
  | error e =>
    rw [hread] at h
    cases h
  | ok x => exact ⟨x, rfl⟩

/-- A swing of the rate that takes more ms than 63 bits hold. -/
def endlessRate : String := "rate 440 99999999999999999999 220"

/-- An integer of any size is a time, but the reader refuses what does not fit 64 bits. -/
theorem huge_time_refused :
    ¬ ∀ (text : String) (before : Nat), (∃ bytes, compile text before = .ok bytes)
      ↔ Grammatical Integer.Numeral (commandsOf text) := by
  intro hall
  have hlines : commandsOf endlessRate
      = [("rate".toList, "440 99999999999999999999 220".toList)] := by
    decide +kernel
  have hwords : Text.words "440 99999999999999999999 220".toList
      = ["440".toList, "99999999999999999999".toList, "220".toList] := by
    decide +kernel
  have htime : Integer.Numeral "99999999999999999999".toList 99999999999999999999 :=
    ⟨_, .decimal (by decide) (List.all_eq_true.mp (by decide)), by decide +kernel⟩
  have hpairs : Pairs Integer.Numeral ["99999999999999999999".toList, "220".toList]
      [99999999999999999999] :=
    .cons htime (numeric_of_read (by decide +kernel)) .nil
  have hgrammatical : Grammatical Integer.Numeral (commandsOf endlessRate) := by
    rw [hlines]
    refine ⟨fun line hline => ?_, List.pairwise_singleton _ _, fun voice hvoice => ?_⟩
    · obtain rfl := List.mem_singleton.mp hline
      exact ⟨.feature .rate, rfl, _, _, _, hwords, numeric_of_read (by decide +kernel), hpairs,
        by decide⟩
    · obtain rfl := List.mem_singleton.mp hvoice
      exact List.pairwise_singleton _ _
  obtain ⟨bytes, hcompile⟩ := (hall endlessRate 0).mpr hgrammatical
  have hrefused : (compile endlessRate 0).toOption = none := by decide +kernel
  rw [hcompile] at hrefused
  cases hrefused

end Tonewheel.Sound
