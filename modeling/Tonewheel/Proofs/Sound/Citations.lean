import Tonewheel.Host.Command
import Tonewheel.Proofs.Sound.Banks
import Tonewheel.Proofs.Sound.Lines
import Tonewheel.Store

/-!
# The lines that errors cite (SPEC_FULL, section 4.1)

A sound is read line by line, and the error that ends the reading is about the line on which it
ended (`Script.Fails`). A block of a bank is compiled with the number of its fence, which makes its
errors cite lines of the whole bank (`Cites`). So does every error of a bank, whether the bank is
compiled block by block or put into a store (`bank_error_cites`).
-/

namespace Tonewheel.Sound

/-! ### Faults -/

def Fault.isOfLine : Fault → Bool
  | .durationTooLong _ | .badSoundId _ | .unexpectedOuterLine | .unclosedBlock => false
  | _ => true

def BlamesLine {α : Type} (x : Except Fault α) : Prop :=
  ∀ fault, x = .error fault → fault.isOfLine = true

theorem BlamesLine.ok {α : Type} (a : α) : BlamesLine (.ok a) := by
  intro fault h
  cases h

theorem BlamesLine.error {α : Type} {fault : Fault} (h : fault.isOfLine = true) :
    BlamesLine (.error fault : Except Fault α) := by
  intro other hother
  cases hother
  exact h

theorem BlamesLine.bind {α β : Type} {x : Except Fault α} {f : α → Except Fault β}
    (hx : BlamesLine x) (hf : ∀ a, BlamesLine (f a)) : BlamesLine (x >>= f) := by
  intro fault h
  rcases bind_eq_error.mp h with hfault | ⟨a, -, hfault⟩
  · exact hx fault hfault
  · exact hf a fault hfault

theorem BlamesLine.bind_pure {α β : Type} {x : Except Fault α} (f : α → β) (hx : BlamesLine x) :
    BlamesLine (x >>= fun a => pure (f a)) :=
  hx.bind fun a => .ok (f a)

theorem readNumber_blames (token : List Char) : BlamesLine (readNumber token) := by
  unfold readNumber
  split
  · split
    · exact .ok _
    · exact .error rfl
  · exact .error rfl

theorem readField_blames (tokens : List (List Char)) : BlamesLine (readField tokens) :=
  .bind_pure _ (readNumber_blames _)

theorem readMs_blames (token : List Char) : BlamesLine (readMs token) := by
  unfold readMs
  split
  · exact .ok _
  · exact .error rfl

theorem readPoints_blames (field : Float → UInt16) (tokens : List (List Char)) :
    BlamesLine (readPoints field tokens) := by
  fun_induction readPoints field tokens with
  | case1 => exact .ok _
  | case2 ms => exact (readMs_blames ms).bind fun _ => .error rfl
  | case3 ms value rest ih =>
    exact (readMs_blames ms).bind fun _ => (readNumber_blames value).bind fun _ => .bind_pure _ ih

theorem readCurve_blames (field : Float → UInt16) (arg : List Char) :
    BlamesLine (readCurve field arg) := by
  refine (readNumber_blames _).bind fun first => (readPoints_blames field _).bind fun points => ?_
  split
  · exact .ok _
  · exact .error rfl

theorem readHarmonics_blames (arg : List Char) : BlamesLine (readHarmonics arg) := by
  have hall (tokens : List (List Char)) :
      BlamesLine (tokens.mapM fun token => fixed08 <$> readNumber token) := by
    induction tokens with
    | nil => exact .ok _
    | cons token tokens ih =>
      rw [List.mapM_cons]
      refine BlamesLine.bind ?_ fun _ => .bind_pure _ ih
      rw [map_eq_pure_bind]
      exact .bind_pure _ (readNumber_blames token)
  refine (hall _).bind fun coefficients => ?_
  split
  · exact .ok _
  · exact .error rfl

theorem readWaveform_blames (arg : List Char) : BlamesLine (readWaveform arg) := by
  unfold readWaveform
  split
  · exact .ok _
  · exact .error rfl

theorem Oscillator.read_blames (o : Oscillator) (f : Feature) (arg : List Char) :
    BlamesLine (o.read f arg) := by
  cases f with
  | shape => exact .bind_pure _ (readWaveform_blames arg)
  | harmonics => exact .bind_pure _ (readHarmonics_blames arg)
  | fmCurve | rate => exact .bind_pure _ (readCurve_blames _ arg)
  | fm | rateSweep => exact (readField_blames _).bind fun _ => .bind_pure _ (readField_blames _)

theorem Process.read_blames (kind : ProcessKind) (arg : List Char) :
    BlamesLine (Process.read kind arg) := by
  cases kind with
  | level => exact .bind_pure _ (readCurve_blames _ arg)
  | delay =>
    exact (readField_blames _).bind fun _ => (readField_blames _).bind fun _ =>
      (readField_blames _).bind fun _ => (readField_blames _).bind fun _ =>
        .bind_pure _ (readField_blames _)
  | bandPass | notch =>
    exact (readField_blames _).bind fun _ => .bind_pure _ (readField_blames _)
  | gain | clip | lowPass | highPass => exact .bind_pure _ (readField_blames _)

theorem VoiceScript.admit_blames (v : VoiceScript) (keyword : String) (f : Feature) :
    BlamesLine <| v.admit keyword f := by
  unfold VoiceScript.admit
  split
  · exact .error rfl
  · split
    · exact .error rfl
    · split
      · exact .error rfl
      · exact .ok _

namespace Script

theorem accept_blames (s : Script) (keyword arg : List Char) :
    BlamesLine (s.accept keyword arg) := by
  unfold accept
  dsimp only
  split
  · exact .error rfl
  · split
    · exact .error rfl
    · exact .bind_pure _ (readNumber_blames arg)
  · exact .ok _
  · exact (VoiceScript.admit_blames _ _ _).bind fun _ =>
      .bind_pure _ (Oscillator.read_blames _ _ arg)
  · exact .bind_pure _ (Process.read_blames _ arg)

theorem acceptLine_eq_error {s : Script} {line : List Char} {fault : Fault}
    (h : s.acceptLine line = .error fault) : line ≠ [] ∧ fault.isOfLine = true := by
  unfold acceptLine at h
  split at h
  · cases h
  next hline => exact ⟨fun hnil => hline (by rw [hnil]; rfl), accept_blames s _ _ fault h⟩

/-! ### Lines of a sound -/

/-- Whether the lines of a sound come to a fault, from a script on, and the number of lines that
are read until then. -/
inductive Fails (s : Script) (raws : List (List Char)) : Nat → Fault → Prop where
  | rejected {before after : List (List Char)} {raw : List Char} {s' : Script} {fault : Fault}
      (hsplit : raws = before ++ raw :: after) (hearlier : s.run (commands before) = .ok s')
      (hraw : s'.acceptLine (Text.clean raw) = .error fault) :
      Fails s raws (before.length + 1) fault
  | tooLong {s' : Script} (hall : s.run (commands raws) = .ok s')
      (hlong : durationLimit < s'.duration) :
      Fails s raws raws.length (.durationTooLong s'.duration)

theorem run_cons_eq_ok {s s' : Script} {raw : List Char} {raws : List (List Char)} :
    s.run (commands (raw :: raws)) = .ok s'
      ↔ ∃ next, s.acceptLine (Text.clean raw) = .ok next ∧ next.run (commands raws) = .ok s' := by
  have hcommands : commands (raw :: raws) = commands [raw] ++ commands raws :=
    commands_append [raw] raws
  rw [hcommands, run_append, ← acceptLine_clean]
  exact bind_eq_ok

theorem Fails.cons {s next : Script} {raw : List Char} {raws : List (List Char)} {n : Nat}
    {fault : Fault} (hnext : s.acceptLine (Text.clean raw) = .ok next)
    (h : next.Fails raws n fault) : s.Fails (raw :: raws) (n + 1) fault := by
  cases h with
  | @rejected before after other s' _ hsplit hearlier hraw =>
    have hcons : raw :: raws = (raw :: before) ++ other :: after := by rw [hsplit, List.cons_append]
    exact .rejected hcons (run_cons_eq_ok.mpr ⟨next, hnext, hearlier⟩) hraw
  | tooLong hall hlong => exact .tooLong (run_cons_eq_ok.mpr ⟨next, hnext, hall⟩) hlong

theorem acceptLines_append {s s' : Script} {before : List (List Char)}
    (h : s.run (commands before) = .ok s') (line : Nat) (rest : List (List Char)) :
    s.acceptLines line (before ++ rest) = s'.acceptLines (line + before.length) rest := by
  induction before generalizing s line with
  | nil =>
    cases h
    rfl
  | cons raw before ih =>
    obtain ⟨next, hnext, hrest⟩ := run_cons_eq_ok.mp h
    have hlength : line + (before.length + 1) = line + 1 + before.length := by omega
    rw [List.cons_append, acceptLines, hnext, List.length_cons, hlength]
    exact ih hrest (line + 1)

theorem acceptLines_eq_error {s : Script} {line : Nat} {raws : List (List Char)} {e : SourceError} :
    s.acceptLines line raws = .error e ↔ ∃ n, s.Fails raws n e.fault ∧ e.line = line + n := by
  constructor
  · intro h
    induction raws generalizing s line with
    | nil =>
      unfold acceptLines at h
      split at h
      next hlong =>
        cases h
        exact ⟨0, .tooLong rfl hlong, rfl⟩
      next => cases h
    | cons raw raws ih =>
      unfold acceptLines at h
      cases hnext : s.acceptLine (Text.clean raw) with
      | error fault =>
        rw [hnext] at h
        cases h
        have hfirst : raw :: raws = [] ++ raw :: raws := rfl
        exact ⟨1, .rejected hfirst rfl hnext, rfl⟩
      | ok next =>
        rw [hnext] at h
        obtain ⟨n, hfails, hline⟩ := ih h
        exact ⟨n + 1, hfails.cons hnext, by omega⟩
  · rintro ⟨n, hfails, hline⟩
    obtain ⟨eline, fault⟩ := e
    dsimp only at hfails hline
    subst hline
    cases hfails with
    | rejected hsplit hearlier hraw =>
      rw [hsplit, acceptLines_append hearlier, acceptLines, hraw, ← Nat.add_assoc]
    | tooLong hall hlong =>
      have hread := acceptLines_append hall line []
      rw [List.append_nil, acceptLines, if_pos hlong] at hread
      exact hread

end Script

/-! ### Blocks -/

/-- Whether an error of a block is about the line of the bank that it cites. A line is cited that is
not accepted behind the earlier ones of its block, or the last one of a sound that is too long. -/
inductive Cites (text : String) (b : BankBlock) (inner : List (List Char)) :
    SourceError → Prop where
  | rejected {before after : List (List Char)} {raw : List Char} {s : Script} {fault : Fault}
      (hinner : inner = before ++ raw :: after)
      (hplace : (Text.lines text.toList)[b.fence + before.length]? = some raw)
      (hearlier : Script.run {} (commands before) = .ok s)
      (hraw : s.acceptLine (Text.clean raw) = .error fault)
      (hcontent : Text.clean raw ≠ []) (hfault : fault.isOfLine = true) :
      Cites text b inner ⟨b.fence + before.length + 1, fault⟩
  | tooLong {before : List (List Char)} {last : List Char} {s : Script}
      (hinner : inner = before ++ [last])
      (hplace : (Text.lines text.toList)[b.fence + before.length]? = some last)
      (hall : Script.run {} (commands inner) = .ok s)
      (hlong : Script.durationLimit < s.duration) :
      Cites text b inner ⟨b.fence + before.length + 1, .durationTooLong s.duration⟩

theorem BlockOf.place {text : String} {b : BankBlock} {before after : List (List Char)}
    {raw : List Char} (h : BlockOf text b (before ++ raw :: after)) :
    (Text.lines text.toList)[b.fence + before.length]? = some raw := by
  obtain ⟨-, rest, hrest⟩ := h.lines_text
  rw [← List.getElem?_drop, ← hrest]
  simp

theorem BlockOf.compile_eq_error {text : String} {b : BankBlock} {inner : List (List Char)}
    {e : SourceError} (hb : BlockOf text b inner) :
    compile b.text b.fence = .error e ↔ Cites text b inner e := by
  rw [compile, map_eq_error, Script.ofText, hb.lines_text.1, Script.acceptLines_eq_error]
  constructor
  · rintro ⟨n, hfails, hline⟩
    obtain ⟨line, fault⟩ := e
    dsimp only at hfails hline
    rw [hline]
    cases hfails with
    | rejected hsplit hearlier hraw =>
      subst hsplit
      obtain ⟨hcontent, hfault⟩ := Script.acceptLine_eq_error hraw
      exact .rejected rfl hb.place hearlier hraw hcontent hfault
    | tooLong hall hlong =>
      rcases List.eq_nil_or_concat' inner with rfl | ⟨before, last, rfl⟩
      · -- A sound of no lines lasts no time.
        cases hall
        cases hlong
      · rw [List.length_append]
        exact .tooLong rfl hb.place hall hlong
  · intro hcites
    cases hcites with
    | @rejected before _ _ _ _ hinner _ hearlier hraw =>
      exact ⟨before.length + 1, .rejected hinner hearlier hraw, rfl⟩
    | tooLong hinner _ hall hlong =>
      refine ⟨inner.length, .tooLong hall hlong, ?_⟩
      rw [hinner, List.length_append]
      rfl

/-! ### Banks -/

theorem compileBank_eq_error {text : String} {e : SourceError}
    (h : Host.Command.compileBank text = .error e) :
    (∃ b ∈ (readBank text).blocks, compile b.text b.fence = .error e)
      ∨ (readBank text).error = some e := by
  have hblocks (blocks : List BankBlock) (herror : (blocks.mapM fun block =>
      (compile block.text block.fence).map fun bytes => (block.id, bytes)) = .error e) :
      ∃ b ∈ blocks, compile b.text b.fence = .error e := by
    induction blocks with
    | nil => cases herror
    | cons b blocks ih =>
      rw [List.mapM_cons] at herror
      rcases bind_eq_error.mp herror with hb | ⟨sound, -, herror⟩
      · exact ⟨b, List.mem_cons_self, map_eq_error.mp hb⟩
      · rcases bind_eq_error.mp herror with hrest | ⟨sounds, -, herror⟩
        · obtain ⟨failing, hmem, hfailing⟩ := ih hrest
          exact ⟨failing, List.mem_cons_of_mem _ hmem, hfailing⟩
        · cases herror
  rcases bind_eq_error.mp h with herror | ⟨sounds, -, herror⟩
  · exact .inl (hblocks _ herror)
  · right
    split at herror
    next hread =>
      cases herror
      exact hread
    next => cases herror

theorem insertBlocks_eq_error {qualifier : UInt16} {anonymousId : Option UInt16}
    {blocks : List BankBlock} {count : Nat} {s : Store} {e : SourceError}
    (h : (Store.insertBlocks qualifier anonymousId blocks count s).1 = .error e) :
    ∃ b ∈ blocks, compile b.text b.fence = .error e := by
  induction blocks generalizing count s with
  | nil => cases h
  | cons b blocks ih =>
    have hlater (count : Nat) (s : Store)
        (hrest : (Store.insertBlocks qualifier anonymousId blocks count s).1 = .error e) :
        ∃ b' ∈ b :: blocks, compile b'.text b'.fence = .error e := by
      obtain ⟨failing, hmem, hfailing⟩ := ih hrest
      exact ⟨failing, List.mem_cons_of_mem _ hmem, hfailing⟩
    unfold Store.insertBlocks at h
    split at h
    · exact hlater _ _ h
    · split at h
      next hb =>
        cases h
        exact ⟨b, List.mem_cons_self, hb⟩
      · exact hlater _ _ h

theorem insertBank_eq_error {s : Store} {qualifier : UInt16} {text : String}
    {anonymousId : Option UInt16} {e : SourceError}
    (h : (s.insertBank qualifier text anonymousId).1 = .error e) :
    (∃ b ∈ (readBank text).blocks, compile b.text b.fence = .error e)
      ∨ (readBank text).error = some e := by
  unfold Store.insertBank at h
  dsimp only at h
  split at h
  next hread =>
    cases h
    exact .inr hread
  next => exact .inl (insertBlocks_eq_error h)

/-- The errors of a block are those that cite the line of the bank they are about, and every error
of a bank that is compiled or put into a store is one of a block or cites a line between the
blocks. -/
theorem bank_error_cites (text : String) (store : Store) (qualifier : UInt16)
    (anonymousId : Option UInt16) :
    (∀ b inner e, BlockOf text b inner →
        (compile b.text b.fence = .error e ↔ Cites text b inner e))
      ∧ ∀ e, Host.Command.compileBank text = .error e
          ∨ (store.insertBank qualifier text anonymousId).1 = .error e →
        (∃ b ∈ (readBank text).blocks, ∃ inner, BlockOf text b inner ∧ Cites text b inner e)
          ∨ OuterError (Text.lines text.toList) e := by
  constructor
  · intro b inner e hb
    exact hb.compile_eq_error
  · intro e h
    have hsource : (∃ b ∈ (readBank text).blocks, compile b.text b.fence = .error e)
        ∨ (readBank text).error = some e := by
      rcases h with h | h
      · exact compileBank_eq_error h
      · exact insertBank_eq_error h
    rcases hsource with ⟨b, hmem, he⟩ | herror
    · obtain ⟨inner, hb⟩ := (of_readBank text).blocks b hmem
      exact .inl ⟨b, hmem, inner, hb, hb.compile_eq_error.mp he⟩
    · exact .inr ((of_readBank text).error e herror)

/-- A bank of two sounds, the second of which has two shapes. -/
def twiceShaped : String :=
  "sound 1 # a tone\r\nshape sine\r\nend\r\n\r\n"
    ++ "sound 2\r\nshape sine\r\n# again\r\nshape noise\r\nend"

theorem bank_error_cites_twiceShaped :
    Host.Command.compileBank twiceShaped = .error ⟨8, .repeatedFeature "shape"⟩
      ∧ ((∃ b ∈ (readBank twiceShaped).blocks, ∃ inner, BlockOf twiceShaped b inner
            ∧ Cites twiceShaped b inner ⟨8, .repeatedFeature "shape"⟩)
          ∨ OuterError (Text.lines twiceShaped.toList) ⟨8, .repeatedFeature "shape"⟩) := by
  have hcompile : Host.Command.compileBank twiceShaped
      = .error ⟨8, .repeatedFeature "shape"⟩ := by
    decide +kernel
  exact ⟨hcompile, (bank_error_cites twiceShaped {} 0 none).2 _ (.inl hcompile)⟩

end Tonewheel.Sound
