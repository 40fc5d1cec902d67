import Tonewheel.Proofs.Sound.LineBytes

/-!
# Numbers out of range are clamped (SPEC_FULL, section 4.1)

A voice is written as its features byte and then the bytes of its lines, one after another
(`Script.Written`). So a text of numerals is accepted if its lines are in order and its times are
plain, and what comes out of it is the held values (`numbers_clamped`). A time of more than 63 bits
is refused although it has a value to hold.
-/

namespace Tonewheel.Sound

open Double

/-! ### Voices -/

def VoiceScript.body (v : VoiceScript) : Bytes := v.encode.tail

theorem VoiceScript.encode_eq (v : VoiceScript) : v.encode = v.oscillator.features :: v.body := rfl

def Oscillator.fieldOf (o : Oscillator) (f : Feature) : Bytes := fieldBytes f.encode (o.get f)

theorem VoiceScript.body_eq (v : VoiceScript) :
    v.body = Feature.all.flatMap v.oscillator.fieldOf ++ v.chain.flatMap Process.encode := by
  simp [body, encode, Oscillator.encode, Feature.all, Oscillator.fieldOf, Oscillator.get]
  rfl

theorem Feature.all_split (f : Feature) : ∃ before after, Feature.all = before ++ f :: after
    ∧ (∀ g ∈ before, g ≠ f) ∧ ∀ g ∈ after, f.rank < g.rank := by
  cases f with
  | shape => exact ⟨[], _, rfl, by decide, by decide⟩
  | harmonics => exact ⟨[.shape], _, rfl, by decide, by decide⟩
  | fm => exact ⟨[.shape, .harmonics], _, rfl, by decide, by decide⟩
  | fmCurve => exact ⟨[.shape, .harmonics, .fm], _, rfl, by decide, by decide⟩
  | rate => exact ⟨[.shape, .harmonics, .fm, .fmCurve], _, rfl, by decide, by decide⟩
  | rateSweep => exact ⟨[.shape, .harmonics, .fm, .fmCurve, .rate], _, rfl, by decide, by decide⟩

theorem VoiceScript.body_feature {v : VoiceScript} {f : Feature} (value : f.Value)
    (hchain : v.chain = []) (hbefore : ∀ g, v.oscillator.has g = true → g.rank < f.rank) :
    ({ v with oscillator := v.oscillator.set f value } : VoiceScript).body
      = v.body ++ f.encode value := by
  obtain ⟨before, after, hall, hother, hlater⟩ := f.all_split
  have hnone (g : Feature) (hg : ¬ g.rank < f.rank) : v.oscillator.fieldOf g = [] := by
    have hfree : v.oscillator.get g = none := by
      rw [← Option.not_isSome_iff_eq_none, Oscillator.isSome_get]
      exact fun hhas => hg (hbefore g hhas)
    rw [Oscillator.fieldOf, hfree]
    rfl
  have hsame (g : Feature) (hg : g ≠ f) :
      (v.oscillator.set f value).fieldOf g = v.oscillator.fieldOf g := by
    rw [Oscillator.fieldOf, Oscillator.get_set_of_ne _ _ _ _ hg]
    rfl
  have hself : (v.oscillator.set f value).fieldOf f = f.encode value := by
    rw [Oscillator.fieldOf, Oscillator.get_set_self]
    rfl
  have hkept : before.flatMap (v.oscillator.set f value).fieldOf
      = before.flatMap v.oscillator.fieldOf :=
    List.flatMap_congr fun g hg => hsame g (hother g hg)
  have hempty : after.flatMap v.oscillator.fieldOf = [] :=
    List.flatMap_eq_nil_iff.mpr fun g hg => hnone g (by have := hlater g hg; omega)
  have hempty' : after.flatMap (v.oscillator.set f value).fieldOf = [] := by
    rw [← hempty]
    refine List.flatMap_congr fun g hg => hsame g ?_
    rintro rfl
    exact absurd (hlater _ hg) (lt_irrefl _)
  rw [body_eq, body_eq, hall, hchain]
  simp only [List.flatMap_append, List.flatMap_cons, List.flatMap_nil, List.append_nil]
  rw [hkept, hself, hempty, hempty', hnone f (lt_irrefl _)]
  simp

theorem VoiceScript.body_process (v : VoiceScript) (p : Process) :
    ({ v with chain := v.chain ++ [p] } : VoiceScript).body = v.body ++ p.encode := by
  rw [body_eq, body_eq, List.flatMap_append, ← List.append_assoc]
  simp

/-! ### Scripts -/

theorem splitOnP_concat {α : Type} {p : α → Bool} {xs : List α} {init : List (List α)}
    {last : List α} (h : xs.splitOnP p = init ++ [last]) (x : α) :
    (xs ++ [x]).splitOnP p = if p x then init ++ [last, []] else init ++ [last ++ [x]] := by
  obtain ⟨init', last', hsplit, happend⟩ := exists_splitOnP_append p xs
  obtain ⟨hinit, hlast⟩ := List.append_inj' (hsplit.symm.trans h) rfl
  cases hlast
  rw [← hinit]
  exact happend x

def bodyOf (group : List Instruction) : Bytes := group.flatMap Instruction.encode

/-- Whether the voices of a script are written as the instructions between their ends: the closed
ones, and the open one unless there is nothing in it yet. -/
def Script.Written (s : Script) (is : List Instruction) : Prop :=
  ∃ init last, (is.filter fun i => i.master?.isNone).splitOnP Instruction.isEnd = init ++ [last]
    ∧ s.closed.map VoiceScript.body = (init.filter fun group => !group.isEmpty).map bodyOf
    ∧ s.unclosed.toList.map VoiceScript.body
      = ([last].filter fun group => !group.isEmpty).map bodyOf

namespace Script.Written

variable {s : Script} {is : List Instruction}

theorem nil : Written {} [] := ⟨[], [], rfl, rfl, rfl⟩

theorem voices (h : s.Written is) :
    List.Forall₂ (fun group v => v.encode = v.oscillator.features :: bodyOf group)
      (voiceGroups is) s.voices := by
  obtain ⟨init, last, hsplit, hclosed, hopen⟩ := h
  have hbodies : s.voices.map VoiceScript.body = (voiceGroups is).map bodyOf := by
    rw [voiceGroups, hsplit, List.filter_append, List.map_append, Script.voices, List.map_append,
      hclosed, hopen]
  have hsame : List.Forall₂ Eq ((voiceGroups is).map bodyOf) (s.voices.map VoiceScript.body) := by
    rw [hbodies]
    exact List.forall₂_refl _
  rw [List.forall₂_map_left_iff, List.forall₂_map_right_iff] at hsame
  refine hsame.imp fun group v hbody => ?_
  rw [VoiceScript.encode_eq, ← hbody]

theorem body_current {last : List Instruction}
    (hopen : s.unclosed.toList.map VoiceScript.body
      = ([last].filter fun group => !group.isEmpty).map bodyOf) :
    s.current.body = bodyOf last := by
  unfold Script.current
  cases last with
  | nil =>
    cases hunclosed : s.unclosed with
    | none => rfl
    | some v =>
      rw [hunclosed] at hopen
      cases hopen
  | cons i last =>
    cases hunclosed : s.unclosed with
    | none =>
      rw [hunclosed] at hopen
      cases hopen
    | some v =>
      rw [hunclosed] at hopen
      exact (List.cons.inj hopen).1

theorem extend {s' : Script} {i : Instruction} {v : VoiceScript} (h : s.Written is)
    (hmaster : i.master? = none) (hend : i.isEnd = false) (hclosed : s'.closed = s.closed)
    (hopen : s'.unclosed = some v) (hbody : v.body = s.current.body ++ i.encode) :
    s'.Written (is ++ [i]) := by
  obtain ⟨init, last, hsplit, hbefore, hlast⟩ := h
  refine ⟨init, last ++ [i], ?_, ?_, ?_⟩
  · have hkept : [i].filter (fun i => i.master?.isNone) = [i] := by simp [hmaster]
    rw [List.filter_append, hkept, splitOnP_concat hsplit, hend, if_neg Bool.false_ne_true]
  · rw [hclosed, hbefore]
  · have hsome : [last ++ [i]].filter (fun group => !group.isEmpty) = [last ++ [i]] := by simp
    rw [hopen, hsome]
    show [v.body] = [bodyOf (last ++ [i])]
    rw [hbody, body_current hlast]
    simp [bodyOf]

theorem follow (h : s.Written is) {line : Line} {c : Command} {i : Instruction}
    (hi : i.Given line) (hc : commandOf line = some c) (hallows : s.Allows c) :
    (s.follow i).Written (is ++ [i]) := by
  cases i with
  | master factor =>
    have hdropped : (is ++ [Instruction.master factor]).filter (fun i => i.master?.isNone)
        = is.filter fun i => i.master?.isNone := by
      rw [List.filter_append]
      exact List.append_nil _
    unfold Written
    rw [hdropped]
    exact h
  | endVoice =>
    obtain ⟨init, last, hsplit, hbefore, hlast⟩ := h
    refine ⟨init ++ [last], [], ?_, ?_, rfl⟩
    · rw [List.filter_append, List.append_assoc]
      exact splitOnP_concat hsplit .endVoice
    · rw [List.filter_append, List.map_append, ← hbefore, ← hlast]
      exact List.map_append
  | feature f value =>
    obtain ⟨hfeature, -⟩ := hi
    rw [hfeature] at hc
    cases hc
    exact h.extend rfl rfl rfl rfl (VoiceScript.body_feature value hallows.1 hallows.2)
  | process p => exact h.extend rfl rfl rfl rfl (VoiceScript.body_process s.current p)

end Script.Written

/-! ### Texts -/

def Line.Yields (line : Line) (i : Instruction) : Prop :=
  i.Given line ∧ ∀ bytes, Encodes line bytes → i.encode = bytes

/-- Lines of numerals in order are all accepted, and each is written as its bytes. -/
theorem Script.run_of_encodes {lines : List Line} (hordered : Ordered lines)
    (hencodes : ∀ line ∈ lines, ∃ bytes, Encodes line bytes) (hplain : PlainTimes lines) :
    ∃ is, run {} lines = .ok (is.foldl follow {}) ∧ List.Forall₂ Line.Yields lines is
      ∧ (is.foldl follow {}).Written is := by
  induction lines using List.reverseRecOn with
  | nil => exact ⟨[], rfl, .nil, .nil⟩
  | append_singleton lines line ih =>
    unfold PlainTimes at hplain
    rw [List.forall_mem_append, List.forall_mem_singleton] at hencodes hplain
    obtain ⟨hbefore, bytes, c, hc, hbytes⟩ := hencodes
    obtain ⟨hordered, hfollows⟩ := (Ordered.append_iff lines hc).mp hordered
    obtain ⟨is, hrun, hyields, hwritten⟩ := ih hordered hbefore hplain.1
    have hallows := ((knows_of_run hrun).allows_iff c).mpr hfollows
    obtain ⟨s', haccept⟩ := accept_of_encodes hc hallows hbytes (hplain.2 c hc)
    obtain ⟨i, hi, -, rfl⟩ := accept_eq_ok _ _ line haccept
    have hsaid : Line.Yields line i := ⟨hi, fun _ h => Instruction.encode_of_given hi h⟩
    refine ⟨is ++ [i], ?_, List.rel_append hyields (.cons hsaid .nil), ?_⟩
    · rw [run_concat, hrun, ok_bind, haccept, List.foldl_append]
      rfl
    · rw [List.foldl_append]
      exact hwritten.follow hi hc hallows

/-- What becomes of a text of numerals: each line is accepted, its bytes stand in its voice, and
the whole is compiled unless it lasts too long. -/
structure Clamped (text : String) (before : ℕ) (is : List Instruction) (s : Script) : Prop where
  yields : List.Forall₂ Line.Yields (commandsOf text) is
  accepted : Script.run {} (commandsOf text) = .ok s
  voices : List.Forall₂ (fun group v => v.encode = v.oscillator.features :: bodyOf group)
    (voiceGroups is) s.voices
  master : s.master = lastMaster is
  duration : s.duration = longestLevel is
  compiled : longestLevel is ≤ Script.durationLimit → compile text before = .ok s.encode

/-- Numerals that come in order are accepted and held in their fields, as long as no time has more
than 63 bits; and a larger numeral is not held as less. -/
theorem numbers_clamped {text : String} (before : ℕ) (hordered : Ordered (commandsOf text))
    (hencodes : ∀ line ∈ commandsOf text, ∃ bytes, Encodes line bytes)
    (hplain : PlainTimes (commandsOf text)) :
    (∃ is s, Clamped text before is s)
      ∧ (∀ n m, n ≤ m → heldMs n ≤ heldMs m)
      ∧ ∀ (f : FixedField) (v w : ℚ), v ≤ w → f.held v ≤ f.held w := by
  refine ⟨?_, fun _ _ => heldMs_mono, fun f _ _ => f.held_mono⟩
  obtain ⟨is, hrun, hyields, hwritten⟩ := Script.run_of_encodes hordered hencodes hplain
  have hduration : (is.foldl Script.follow {}).duration = longestLevel is := follow_duration is {}
  refine ⟨is, is.foldl Script.follow {}, hyields, hrun, hwritten.voices, follow_master is {},
    hduration, fun hshort => ?_⟩
  exact (compile_eq_ok text before _).mpr ⟨_, hrun, hduration ▸ hshort, rfl⟩

/-- A level curve whose one point is beyond both of its fields. -/
def overfullLevel : String := "level 0 99999 2e9"

theorem nearest_small {n : ℕ} (h : n < 2 ^ 53) : |nearest (n : ℚ)| < 2 ^ 1024 := by
  rw [nearest_of_fits (fits_natCast h), abs_of_nonneg n.cast_nonneg]
  exact lt_limit (k := 53) (by exact_mod_cast h.le) (by decide)

theorem numbers_clamped_overfullLevel :
    (∃ is s, Clamped overfullLevel 0 is s)
      ∧ (compile overfullLevel 0).toOption
        = some [0xeb, 0xeb, 0xff, 0xff, 0x01, 0x00, 0x00, 0x01, 0x00, 0x00, 0x01, 0xff, 0xff, 0xff,
            0xff] := by
  have hlines : commandsOf overfullLevel = [("level".toList, "0 99999 2e9".toList)] := by
    decide +kernel
  have hwords : Text.words "0 99999 2e9".toList
      = ["0".toList, "99999".toList, "2e9".toList] := by
    decide +kernel
  have hzero : (Slot.number .u016).Holds "0".toList (FixedField.held .u016 (0 : ℕ)) :=
    ⟨_, Decimal.numeral_iff.mpr ⟨false, 0, 0, by decide +kernel, by norm_num⟩,
      nearest_small (by decide), rfl⟩
  have htime : Slot.time.Holds "99999".toList (heldMs 99999) :=
    ⟨_, ⟨99999, .decimal (by decide) (List.all_eq_true.mp (by decide)), rfl⟩, rfl⟩
  have hvalue : (Slot.number .u016).Holds "2e9".toList (FixedField.held .u016 (2000000000 : ℕ)) :=
    ⟨_, Decimal.numeral_iff.mpr ⟨false, 2, 9, by decide +kernel, by norm_num⟩,
      nearest_small (by decide), rfl⟩
  have hordered : Ordered (commandsOf overfullLevel) := by
    rw [hlines]
    refine ⟨List.pairwise_singleton _ _, fun voice hvoice => ?_⟩
    obtain rfl := List.mem_singleton.mp hvoice
    exact List.pairwise_singleton _ _
  have hencodes : ∀ line ∈ commandsOf overfullLevel, ∃ bytes, Encodes line bytes := by
    rw [hlines]
    intro line hline
    obtain rfl := List.mem_singleton.mp hline
    exact ⟨_, .process .level, rfl, _, ⟨_, _, _, 1, _, hwords, .cons hzero .nil, rfl, by decide,
      .cons htime (.cons hvalue .nil), rfl⟩, rfl⟩
  have hplain : PlainTimes (commandsOf overfullLevel) := by
    rw [hlines]
    intro line hline c hc htakes token htoken
    obtain rfl := List.mem_singleton.mp hline
    have htimes : timeTokens (Text.words "0 99999 2e9".toList) = ["99999".toList] := by
      decide +kernel
    rw [htimes] at htoken
    obtain rfl := List.mem_singleton.mp htoken
    exact Integer.plain_of_read (n := 99999) (by decide) (by decide)
  exact ⟨(numbers_clamped 0 hordered hencodes hplain).1, by decide +kernel⟩

/-- An integer numeral of any size has a value to hold, but one of 64 bits is refused. -/
theorem huge_level_time_refused :
    ¬ ∀ token n, Integer.Numeral token n →
      ∃ bytes, compile (String.ofList ("level 0 ".toList ++ token ++ " 1".toList)) 0 = .ok bytes := by
  intro hall
  have htime : Integer.Numeral "99999999999999999999".toList 99999999999999999999 :=
    ⟨_, .decimal (by decide) (List.all_eq_true.mp (by decide)), by decide +kernel⟩
  obtain ⟨bytes, hcompile⟩ := hall _ _ htime
  have hrefused : (compile (String.ofList
      ("level 0 ".toList ++ "99999999999999999999".toList ++ " 1".toList)) 0).toOption = none := by
    decide +kernel
  rw [hcompile] at hrefused
  cases hrefused

end Tonewheel.Sound
