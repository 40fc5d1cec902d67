import Tonewheel.Proofs.Sound.Layout
import Tonewheel.Proofs.Sound.Lines

/-!
# Sound text and the program it describes (SPEC_FULL, sections 4.1 and 4.2)

The instructions of a text fall into voices at each `endVoice` (`voiceGroups`). A group describes a
voice: for each feature it has the one instruction that gives it or none, and its processes are the
chain (`Describes`). What is decoded from the compiled text is the program of the voices so
described, of the last master gain and of the longest level curve (`compile_describes`).
-/

namespace Tonewheel.Sound

/-! ### Instructions by kind -/

namespace Instruction

def value? (f : Feature) : Instruction → Option f.Value
  | .feature g value => if h : g = f then some (h ▸ value) else none
  | _ => none

def process? : Instruction → Option Process
  | .process p => some p
  | _ => none

def master? : Instruction → Option UInt16
  | .master factor => some factor
  | _ => none

def isEnd : Instruction → Bool
  | .endVoice => true
  | _ => false

def duration : Instruction → Nat
  | .process (.level curve) => curve.duration
  | _ => 0

end Instruction

def voiceGroups (is : List Instruction) : List (List Instruction) :=
  ((is.filter fun i => i.master?.isNone).splitOnP Instruction.isEnd).filter
    fun group => !group.isEmpty

def lastMaster (is : List Instruction) : UInt16 :=
  ((is.filterMap Instruction.master?).getLast?).getD 0x0100

def longestLevel (is : List Instruction) : Nat := (is.map Instruction.duration).foldl max 0

/-- Whether a group of instructions describes a voice: it gives each feature that the voice has
once and no other, and its processes are the chain of the voice. -/
structure Describes (group : List Instruction) (v : VoiceScript) : Prop where
  features : ∀ f, group.filterMap (Instruction.value? f) = (v.oscillator.get f).toList
  chain : group.filterMap Instruction.process? = v.chain

/-! ### Voices -/

theorem Describes.nil : Describes [] {} where
  features f := by cases f <;> rfl
  chain := rfl

theorem Describes.feature {group : List Instruction} {v : VoiceScript} (h : Describes group v)
    (f : Feature) (value : f.Value) (hfree : v.oscillator.get f = none) :
    Describes (group ++ [.feature f value])
      { v with oscillator := v.oscillator.set f value } where
  features g := by
    rw [List.filterMap_append, h.features g]
    by_cases hg : g = f
    · subst hg
      rw [hfree, Oscillator.get_set_self]
      simp [Instruction.value?]
    · rw [Oscillator.get_set_of_ne _ _ _ _ hg]
      simp [Instruction.value?, Ne.symm hg]
  chain := by
    rw [List.filterMap_append, h.chain]
    exact List.append_nil _

theorem Describes.process {group : List Instruction} {v : VoiceScript} (h : Describes group v)
    (p : Process) : Describes (group ++ [.process p]) { v with chain := v.chain ++ [p] } where
  features f := by
    rw [List.filterMap_append, h.features f]
    exact List.append_nil _
  chain := by
    rw [List.filterMap_append, h.chain]
    rfl

/-- Whether the instructions of an open voice so far describe it; without any there is none. -/
def DescribesOpen (group : List Instruction) (unclosed : Option VoiceScript) : Prop :=
  List.Forall₂ Describes ([group].filter fun group => !group.isEmpty) unclosed.toList

theorem DescribesOpen.current {group : List Instruction} {s : Script}
    (h : DescribesOpen group s.unclosed) : Describes group s.current := by
  unfold DescribesOpen at h
  unfold Script.current
  cases group with
  | nil =>
    cases hopen : s.unclosed with
    | none => exact Describes.nil
    | some v =>
      rw [hopen] at h
      cases h
  | cons i group =>
    cases hopen : s.unclosed with
    | none =>
      rw [hopen] at h
      cases h
    | some v =>
      rw [hopen] at h
      cases h with
      | cons hv _ => exact hv

theorem DescribesOpen.of_describes {group : List Instruction} {i : Instruction} {v : VoiceScript}
    (h : Describes (group ++ [i]) v) : DescribesOpen (group ++ [i]) (some v) := by
  have hsome : (group ++ [i]).isEmpty = false := by simp
  unfold DescribesOpen
  rw [List.filter_cons_of_pos (by rw [hsome]; rfl)]
  exact .cons h .nil

/-- The voices of a script that has followed some instructions are what these describe. The
instructions of the open voice so far are `before`, the last of them first. -/
theorem follow_voices (is : List Instruction) (s : Script) (before : List Instruction)
    (hopen : DescribesOpen before.reverse s.unclosed) (hadmits : s.AdmitsAll is) :
    ∃ voices, (is.foldl Script.follow s).voices = s.closed ++ voices
      ∧ List.Forall₂ Describes
          (((is.filter fun i => i.master?.isNone).splitOnPPrepend Instruction.isEnd before).filter
            fun group => !group.isEmpty)
          voices := by
  induction is generalizing s before with
  | nil => exact ⟨s.unclosed.toList, rfl, hopen⟩
  | cons i is ih =>
    obtain ⟨hallowed, hadmits⟩ := hadmits
    cases i with
    | master factor =>
      exact ih (s.follow (.master factor)) before hopen hadmits
    | endVoice =>
      obtain ⟨voices, hvoices, hdescribes⟩ := ih (s.follow .endVoice) [] .nil hadmits
      refine ⟨s.unclosed.toList ++ voices, ?_, ?_⟩
      · rw [List.foldl_cons, hvoices]
        exact List.append_assoc _ _ _
      · have hsplit : (((Instruction.endVoice :: is).filter fun i => i.master?.isNone)
              |>.splitOnPPrepend Instruction.isEnd before)
            = [before.reverse] ++ ((is.filter fun i => i.master?.isNone)
              |>.splitOnP Instruction.isEnd) := rfl
        rw [hsplit, List.filter_append]
        exact List.rel_append hopen hdescribes
    | feature f value =>
      have hnext := DescribesOpen.of_describes (hopen.current.feature f value hallowed)
      rw [← List.reverse_cons] at hnext
      exact ih (s.follow (.feature f value)) (.feature f value :: before) hnext hadmits
    | process p =>
      have hnext := DescribesOpen.of_describes (hopen.current.process p)
      rw [← List.reverse_cons] at hnext
      exact ih (s.follow (.process p)) (.process p :: before) hnext hadmits

/-! ### Master gain and length -/

theorem follow_master (is : List Instruction) (s : Script) :
    (is.foldl Script.follow s).master
      = ((is.filterMap Instruction.master?).getLast?).getD s.master := by
  induction is generalizing s with
  | nil => rfl
  | cons i is ih =>
    rw [List.foldl_cons, ih]
    cases i with
    | master factor =>
      have hmaster : (Instruction.master factor :: is).filterMap Instruction.master?
          = factor :: is.filterMap Instruction.master? := rfl
      rw [hmaster, List.getLast?_cons]
      rfl
    | endVoice => rfl
    | feature f value => rfl
    | process p => rfl

theorem duration_process (v : VoiceScript) (p : Process) :
    ({ v with chain := v.chain ++ [p] } : VoiceScript).duration
      = max v.duration (Instruction.process p).duration := by
  simp only [VoiceScript.duration, List.foldl_append, List.foldl_cons, List.foldl_nil]
  cases p with
  | level curve => rfl
  | _ => exact (Nat.max_eq_left (Nat.zero_le _)).symm

def Script.closedDuration (s : Script) : Nat :=
  s.closed.foldl (fun longest v => max longest v.duration) 0

theorem duration_eq (s : Script) : s.duration = max s.closedDuration s.current.duration := by
  rw [Script.duration, Script.voices, List.foldl_append, Script.current]
  cases s.unclosed with
  | none => exact (Nat.max_eq_left (Nat.zero_le _)).symm
  | some v => rfl

theorem follow_duration_step (s : Script) (i : Instruction) :
    (s.follow i).duration = max s.duration i.duration := by
  cases i with
  | master factor => exact (Nat.max_eq_left (Nat.zero_le _)).symm
  | endVoice =>
    rw [Script.duration, Script.voices]
    exact (congrArg (fun voices : List VoiceScript =>
      voices.foldl (fun longest v => max longest v.duration) 0) (List.append_nil _)).trans
      (Nat.max_eq_left (Nat.zero_le _)).symm
  | feature f value =>
    rw [duration_eq, duration_eq s]
    exact (Nat.max_eq_left (Nat.zero_le _)).symm
  | process p =>
    rw [duration_eq, duration_eq s, Nat.max_assoc, ← duration_process]
    rfl

theorem follow_duration (is : List Instruction) (s : Script) :
    (is.foldl Script.follow s).duration = (is.map Instruction.duration).foldl max s.duration := by
  induction is generalizing s with
  | nil => rfl
  | cons i is ih =>
    rw [List.foldl_cons, ih, follow_duration_step]
    rfl

/-! ### Texts -/

def describedProgram (rate : UInt32) (ms master : UInt16) (voices : List VoiceScript) : Program :=
  { frames := framesOfDuration rate ms
    master := valueOfFixed88 master
    voices := (voices.filter VoiceScript.isAudible).map (VoiceScript.voice rate) }

theorem compile_eq_ok (text : String) (before : Nat) (bytes : Bytes) :
    compile text before = .ok bytes
      ↔ ∃ s, Script.run {} (commandsOf text) = .ok s ∧ s.duration ≤ Script.durationLimit
          ∧ bytes = s.encode := by
  rw [compile, map_eq_ok]
  constructor
  · rintro ⟨s, hs, rfl⟩
    obtain ⟨hrun, hshort⟩ := (Script.acceptLines_eq_ok _ _ _ _).mp hs
    exact ⟨s, hrun, hshort, rfl⟩
  · rintro ⟨s, hrun, hshort, rfl⟩
    exact ⟨s, (Script.acceptLines_eq_ok _ _ _ _).mpr ⟨hrun, hshort⟩, rfl⟩

/-- One more `endvoice` is accepted and changes nothing about what the script stands for. -/
theorem run_endVoice (s : Script) (line : List Char × List Char)
    (hline : commandOf line = some .endVoice) :
    s.run [line] = .ok (s.follow .endVoice)
      ∧ ∀ rate, (s.follow .endVoice).program rate = s.program rate := by
  constructor
  · have haccept : s.accept line.1 line.2 = .ok (s.follow .endVoice) := by
      unfold commandOf at hline
      rw [Script.accept, hline]
      rfl
    rw [Script.run, List.foldlM_cons, haccept]
    rfl
  · intro rate
    have hvoices : (s.follow .endVoice).voices = s.voices := List.append_nil _
    rw [Script.program, Script.program, Script.sounding, Script.sounding, Script.duration,
      Script.duration, hvoices]
    rfl

/-- What is decoded from a compiled text is what its lines describe, and one more line that ends
the last voice makes no difference. -/
theorem compile_describes (text : String) (before : Nat) (bytes : Bytes)
    (hcompile : compile text before = .ok bytes) :
    ∃ (is : List Instruction) (voices : List VoiceScript) (ms : UInt16),
      List.Forall₂ Instruction.Given (commandsOf text) is
      ∧ List.Forall₂ Describes (voiceGroups is) voices
      ∧ ms.toNat = longestLevel is
      ∧ (∀ rate, Program.decode rate bytes
          = .ok (describedProgram rate ms (lastMaster is) voices))
      ∧ ∀ (closed : String) (line : List Char × List Char), commandOf line = some .endVoice →
          commandsOf closed = commandsOf text ++ [line] →
          ∃ closedBytes, compile closed before = .ok closedBytes
            ∧ ∀ rate, Program.decode rate closedBytes = Program.decode rate bytes := by
  obtain ⟨s, hrun, hshort, rfl⟩ := (compile_eq_ok text before bytes).mp hcompile
  obtain ⟨is, hgiven, hadmits, hs⟩ := Script.run_eq_ok {} s _ hrun
  obtain ⟨voices, hvoices, hdescribes⟩ := follow_voices is {} [] .nil hadmits
  have hmaster : s.master = lastMaster is := by
    rw [hs]
    exact follow_master is {}
  have hlongest : s.duration = longestLevel is := by
    rw [hs]
    exact follow_duration is {}
  have hs' : s.voices = voices := by
    rw [hs]
    exact hvoices
  refine ⟨is, voices, s.duration.toUInt16, hgiven, hdescribes, ?_, ?_, ?_⟩
  · rw [← hlongest]
    exact Nat.mod_eq_of_lt (Nat.lt_of_le_of_lt hshort (by decide))
  · intro rate
    rw [decode_encode, Script.program, Script.sounding, hs', hmaster]
    rfl
  · intro closed line hline hclosed
    obtain ⟨hend, hsame⟩ := run_endVoice s line hline
    have hrunClosed : Script.run {} (commandsOf closed) = .ok (s.follow .endVoice) := by
      rw [hclosed, Script.run_append, hrun, ok_bind, hend]
    have hshortClosed : (s.follow .endVoice).duration ≤ Script.durationLimit := by
      rw [follow_duration_step]
      exact Nat.max_le.mpr ⟨hshort, Nat.zero_le _⟩
    refine ⟨_, (compile_eq_ok closed before _).mpr ⟨_, hrunClosed, hshortClosed, rfl⟩, ?_⟩
    intro rate
    rw [decode_encode, decode_encode, hsame]

/-- A voice that fades out, a silent one, and noise that is left open. -/
def openNoise : String :=
  "master 0.5\nshape square\nlevel 1 20 0 # fades\nendvoice\nshape silence\nendvoice\n"
    ++ "shape noise\ngain 0.5"

theorem compile_describes_openNoise :
    ∃ bytes closedBytes, compile openNoise 0 = .ok bytes
      ∧ compile (openNoise ++ "\n" ++ "endvoice") 0 = .ok closedBytes
      ∧ closedBytes ≠ bytes
      ∧ Program.decode 200 closedBytes = Program.decode 200 bytes := by
  have hopen : (compile openNoise 0).toOption
      = some [0xeb, 0xeb, 0x00, 0x14, 0x00, 0x80, 0x01, 0x01, 0x01, 0xff, 0xff, 0x01, 0x00, 0x14,
          0x00, 0x00, 0x00, 0x01, 0x06, 0x00, 0x01, 0x05, 0x02, 0x00, 0x80] := by
    decide +kernel
  have hlonger : ((compile (openNoise ++ "\n" ++ "endvoice") 0).toOption.map List.length)
      = some 26 := by
    decide +kernel
  have hend : commandsOf "endvoice" = [("endvoice".toList, [])] := by decide +kernel
  have hclosed : commandsOf (openNoise ++ "\n" ++ "endvoice")
      = commandsOf openNoise ++ [("endvoice".toList, [])] := by
    rw [commandsOf_append, hend]
  cases hcompile : compile openNoise 0 with
  | error e =>
    rw [hcompile] at hopen
    cases hopen
  | ok bytes =>
    rw [hcompile] at hopen
    cases hopen
    obtain ⟨is, voices, ms, -, -, -, -, hends⟩ := compile_describes openNoise 0 _ hcompile
    obtain ⟨closedBytes, hclosedBytes, hsame⟩ := hends _ _ (by decide +kernel) hclosed
    rw [hclosedBytes] at hlonger
    refine ⟨_, closedBytes, rfl, hclosedBytes, ?_, hsame 200⟩
    intro hequal
    rw [hequal] at hlonger
    revert hlonger
    decide

end Tonewheel.Sound
