import Tonewheel.Proofs.Synth.Attendance
import Tonewheel.Proofs.Synth.Confinement
import Tonewheel.Proofs.Synth.Handover

/-!
# Banks and programs (SPEC_FULL, section 4.5)

The program word of a channel has three fields of seven bits: the program, the low bank and the high
bank. Controllers and program changes each write one of them. A bank value is not cut to seven bits,
so one of 0x80 or more also sets the bit above its field (`testBit_write`). As long as none comes, the
word stays below 21 bits and holds what was written last in each field
(`program_fields_apart`).
-/

namespace Tonewheel.Synth

/-! ### Fields -/

inductive Field where
  | program
  | lowBank
  | highBank
  deriving Repr, DecidableEq

def Field.shift : Field → Nat
  | .program => 0
  | .lowBank => 7
  | .highBank => 14

def Field.Has (f : Field) (n : Nat) : Prop := f.shift ≤ n ∧ n < f.shift + 7

instance (f : Field) (n : Nat) : Decidable (f.Has n) := inferInstanceAs (Decidable (_ ∧ _))

def Field.ChangesOnly (f : Field) (before after : UInt32) : Prop :=
  ∀ n, ¬f.Has n → after.toNat.testBit n = before.toNat.testBit n

structure Setting where
  field : Field
  value : UInt8
  deriving Repr, DecidableEq

namespace Setting

def write (word : UInt32) (x : Setting) : UInt32 :=
  match x.field with
  | .program => withProgram word x.value
  | .lowBank => withLowBank word x.value
  | .highBank => withHighBank word x.value

/-- Whether a value sets the bit above its field. -/
def Leaks (x : Setting) : Prop := x.field ≠ .program ∧ 0x80 ≤ x.value

instance (x : Setting) : Decidable x.Leaks := inferInstanceAs (Decidable (_ ∧ _))

end Setting

/-! ### Bits -/

theorem testBit_byte (x : UInt8) {n : Nat} (h : 8 ≤ n) : x.toNat.testBit n = false := by
  refine Nat.testBit_lt_two_pow ?_
  have hx : x.toNat < 2 ^ 8 := x.toNat_lt
  have hpow : 2 ^ 8 ≤ 2 ^ n := Nat.pow_le_pow_right (by decide) h
  omega

theorem testBit_word (x : UInt32) {n : Nat} (h : 32 ≤ n) : x.toNat.testBit n = false := by
  refine Nat.testBit_lt_two_pow ?_
  have hx : x.toNat < 2 ^ 32 := x.toNat_lt
  have hpow : 2 ^ 32 ≤ 2 ^ n := Nat.pow_le_pow_right (by decide) h
  omega

theorem testBit_seven (x : UInt8) : x.toNat.testBit 7 = decide (0x80 ≤ x) := by
  have hx := x.toNat_lt
  rw [Nat.testBit_eq_decide_div_mod_eq, decide_eq_decide, UInt8.le_iff_toNat_le]
  show x.toNat / 2 ^ 7 % 2 = 1 ↔ 128 ≤ x.toNat
  omega

theorem testBit_sevenBits (x : UInt8) (n : Nat) :
    (x &&& (0x7f : UInt8)).toNat.testBit n = (x.toNat.testBit n && decide (n < 7)) := by
  have hmask : (0x7f : UInt8).toNat = 2 ^ 7 - 1 := rfl
  rw [UInt8.toNat_and, hmask, Nat.testBit_and, Nat.testBit_two_pow_sub_one]

theorem Field.shift_le (f : Field) : f.shift ≤ 14 := by
  cases f <;> decide

theorem testBit_shifted (f : Field) (value : UInt8) (n : Nat) :
    (value.toUInt32 <<< UInt32.ofNat f.shift).toNat.testBit n
      = (decide (f.shift ≤ n) && value.toNat.testBit (n - f.shift)) := by
  have hf := f.shift_le
  have hshift : (UInt32.ofNat f.shift).toNat % 32 = f.shift := by
    rw [UInt32.toNat_ofNat']
    omega
  have hsmall : value.toNat <<< f.shift < 2 ^ 32 := by
    rw [Nat.shiftLeft_eq]
    calc value.toNat * 2 ^ f.shift
        ≤ value.toNat * 2 ^ 14 := Nat.mul_le_mul_left _ (Nat.pow_le_pow_right (by decide) hf)
      _ < 2 ^ 32 := by have hvalue := value.toNat_lt; omega
  rw [UInt32.toNat_shiftLeft, hshift, UInt8.toNat_toUInt32, Nat.mod_eq_of_lt hsmall,
    Nat.testBit_shiftLeft]

/-- The bits of a word in which a byte takes the place of a field. -/
theorem testBit_put (f : Field) (mask : UInt32)
    (hmask : ∀ n < 32, mask.toNat.testBit n = !decide (f.Has n)) (word : UInt32) (value : UInt8)
    (n : Nat) :
    ((word &&& mask) ||| (value.toUInt32 <<< UInt32.ofNat f.shift)).toNat.testBit n
      = if f.Has n then value.toNat.testBit (n - f.shift)
        else word.toNat.testBit n || (decide (n = f.shift + 7) && decide (0x80 ≤ value)) := by
  have hf := f.shift_le
  rw [UInt32.toNat_or, UInt32.toNat_and, Nat.testBit_or, Nat.testBit_and, testBit_shifted]
  -- Outside the field the mask keeps what the word has, where it has bits.
  have hkept (hout : ¬f.Has n) :
      (word.toNat.testBit n && mask.toNat.testBit n) = word.toNat.testBit n := by
    rcases Nat.lt_or_ge n 32 with hn | hn
    · rw [hmask n hn, decide_eq_false hout, Bool.not_false, Bool.and_true]
    · rw [testBit_word word hn, Bool.false_and]
  by_cases hin : f.Has n
  · have hn : n < 32 := by
      have hhigh := hin.2
      omega
    rw [if_pos hin, hmask n hn, decide_eq_true hin, decide_eq_true hin.1, Bool.not_true,
      Bool.and_false, Bool.false_or, Bool.true_and]
  · rw [if_neg hin, hkept hin, ← testBit_seven]
    unfold Field.Has at hin
    rcases Nat.lt_trichotomy n (f.shift + 7) with hlow | rfl | hhigh
    · have hbelow : ¬f.shift ≤ n := by omega
      have hne : n ≠ f.shift + 7 := Nat.ne_of_lt hlow
      simp [hbelow, hne]
    · simp
    · have hne : n ≠ f.shift + 7 := Nat.ne_of_gt hhigh
      have habove : value.toNat.testBit (n - f.shift) = false := testBit_byte value (by omega)
      simp [hne, habove]

/-- What a word is made of once a value is written: the value in its field, and elsewhere what the
word was and, above the field, the eighth bit of a bank value. -/
theorem Setting.testBit_write (x : Setting) (word : UInt32) (n : Nat) :
    (x.write word).toNat.testBit n
      = if x.field.Has n then x.value.toNat.testBit (n - x.field.shift)
        else word.toNat.testBit n || (decide (n = x.field.shift + 7) && decide x.Leaks) := by
  obtain ⟨field, value⟩ := x
  have hbank (hfield : field ≠ .program) :
      decide (Leaks ⟨field, value⟩) = decide (0x80 ≤ value) :=
    decide_eq_decide.mpr ⟨fun h => h.2, fun h => ⟨hfield, h⟩⟩
  cases field with
  | program =>
    -- A program is cut to seven bits before it is written, so it has no eighth bit to leak.
    have hleaks : decide (Leaks ⟨.program, value⟩) = false := decide_eq_false fun h => h.1 rfl
    have hlow : decide ((0x80 : UInt8) ≤ value &&& 0x7f) = false := by
      rw [← testBit_seven, testBit_sevenBits]
      exact Bool.and_false _
    have hput := testBit_put .program 0xffffff80 (by decide) word (value &&& 0x7f) n
    have hshift : (value &&& 0x7f).toUInt32 <<< UInt32.ofNat Field.program.shift
        = (value &&& 0x7f).toUInt32 := UInt32.shiftLeft_zero
    rw [hlow, hshift, testBit_sevenBits] at hput
    rw [hleaks]
    refine hput.trans ?_
    split
    next hin =>
      have hseven : n - Field.program.shift < 7 := hin.2
      rw [decide_eq_true hseven, Bool.and_true]
    next => rfl
  | lowBank =>
    rw [hbank (by decide)]
    exact testBit_put .lowBank _ (by decide) word value n
  | highBank =>
    rw [hbank (by decide)]
    exact testBit_put .highBank _ (by decide) word value n

/-- A value changes only its field, unless it sets the bit above it. -/
theorem Setting.changesOnly_iff (x : Setting) (word : UInt32) :
    x.field.ChangesOnly word (x.write word)
      ↔ ¬x.Leaks ∨ word.toNat.testBit (x.field.shift + 7) = true := by
  constructor
  · intro honly
    have habove : ¬x.field.Has (x.field.shift + 7) := fun h => Nat.lt_irrefl _ h.2
    have hbit := honly _ habove
    rw [x.testBit_write, if_neg habove, decide_eq_true rfl, Bool.true_and] at hbit
    by_cases hleaks : x.Leaks
    · rw [decide_eq_true hleaks, Bool.or_true] at hbit
      exact .inr hbit.symm
    · exact .inl hleaks
  · intro hsafe n hout
    rw [x.testBit_write, if_neg hout]
    by_cases habove : n = x.field.shift + 7
    · rcases hsafe with hleaks | hset
      · rw [decide_eq_false hleaks, Bool.and_false, Bool.or_false]
      · rw [habove, hset, Bool.true_or]
    · rw [decide_eq_false habove, Bool.false_and, Bool.or_false]

/-! ### Many settings -/

def lastSetting (f : Field) (xs : List Setting) : Option UInt8 :=
  (xs.filter fun x => x.field = f).getLast?.map Setting.value

/-- The word of a high bank, a low bank and a program, seven bits of each. -/
def joined (high low program : UInt8) : UInt32 :=
  ((high &&& 0x7f).toUInt32 <<< 14) ||| ((low &&& 0x7f).toUInt32 <<< 7)
    ||| (program &&& 0x7f).toUInt32

theorem Field.Has.unique {f g : Field} {n : Nat} (hf : f.Has n) (hg : g.Has n) : f = g := by
  unfold Field.Has at hf hg
  cases f <;> cases g <;> simp only [Field.shift] at hf hg <;> first | rfl | omega

theorem Field.exists_has {n : Nat} : (∃ f : Field, f.Has n) ↔ n < 21 := by
  constructor
  · rintro ⟨f, hf⟩
    have hshift := f.shift_le
    have hhigh := hf.2
    omega
  · intro hn
    rcases Nat.lt_or_ge n 7 with h | h
    · exact ⟨.program, Nat.zero_le n, h⟩
    · rcases Nat.lt_or_ge n 14 with h' | h'
      · exact ⟨.lowBank, h, h'⟩
      · exact ⟨.highBank, h', hn⟩

theorem Setting.write_lt {x : Setting} (hx : ¬x.Leaks) {word : UInt32}
    (hword : word.toNat < 2 ^ 21) : (x.write word).toNat < 2 ^ 21 := by
  refine Nat.lt_pow_two_of_testBit _ fun n hn => ?_
  have hout : ¬x.field.Has n := fun hin => Nat.not_lt.mpr hn (Field.exists_has.mp ⟨_, hin⟩)
  have hpow : 2 ^ 21 ≤ 2 ^ n := Nat.pow_le_pow_right (by decide) hn
  rw [x.testBit_write, if_neg hout, decide_eq_false hx, Bool.and_false, Bool.or_false]
  exact Nat.testBit_lt_two_pow (Nat.lt_of_lt_of_le hword hpow)

theorem writes_lt {xs : List Setting} (hxs : ∀ x ∈ xs, ¬x.Leaks) {word : UInt32}
    (hword : word.toNat < 2 ^ 21) : (xs.foldl Setting.write word).toNat < 2 ^ 21 := by
  induction xs generalizing word with
  | nil => exact hword
  | cons x xs ih =>
    exact ih (fun y hy => hxs y (List.mem_cons_of_mem x hy))
      (Setting.write_lt (hxs x List.mem_cons_self) hword)

theorem testBit_writes {xs : List Setting} (hxs : ∀ x ∈ xs, ¬x.Leaks) (word : UInt32) {f : Field}
    {v : UInt8} (hlast : lastSetting f xs = some v) {n : Nat} (hn : f.Has n) :
    (xs.foldl Setting.write word).toNat.testBit n = v.toNat.testBit (n - f.shift) := by
  induction xs using List.reverseRecOn with
  | nil => cases hlast
  | append_singleton xs x ih =>
    rw [List.foldl_append, List.foldl_cons, List.foldl_nil, x.testBit_write]
    by_cases hfield : x.field = f
    · have hvalue : lastSetting f (xs ++ [x]) = some x.value := by
        simp [lastSetting, hfield]
      rw [hvalue, Option.some.injEq] at hlast
      rw [hfield, if_pos hn, hlast]
    · have hrest : lastSetting f (xs ++ [x]) = lastSetting f xs := by
        simp [lastSetting, hfield]
      have hout : ¬x.field.Has n := fun hin => hfield (hin.unique hn)
      have hleaks := hxs x (List.mem_append_right xs List.mem_cons_self)
      rw [if_neg hout, decide_eq_false hleaks, Bool.and_false, Bool.or_false]
      exact ih (fun y hy => hxs y (List.mem_append_left [x] hy)) (hrest ▸ hlast)

theorem testBit_placed (f : Field) (v : UInt8) (n : Nat) :
    ((v &&& 0x7f).toUInt32 <<< UInt32.ofNat f.shift).toNat.testBit n
      = (decide (f.Has n) && v.toNat.testBit (n - f.shift)) := by
  rw [testBit_shifted, testBit_sevenBits]
  by_cases hin : f.Has n
  · have hseven : n - f.shift < 7 := by
      have hhigh := hin.2
      omega
    rw [decide_eq_true hin, decide_eq_true hin.1, decide_eq_true hseven, Bool.and_true]
  · rw [decide_eq_false hin, Bool.false_and]
    unfold Field.Has at hin
    by_cases hlow : f.shift ≤ n
    · have hpast : ¬n - f.shift < 7 := by omega
      rw [decide_eq_false hpast, Bool.and_false, Bool.and_false]
    · rw [decide_eq_false hlow, Bool.false_and]

theorem testBit_joined (high low program : UInt8) (n : Nat) :
    (joined high low program).toNat.testBit n
      = (decide (Field.highBank.Has n) && high.toNat.testBit (n - Field.highBank.shift)
          || decide (Field.lowBank.Has n) && low.toNat.testBit (n - Field.lowBank.shift)
          || decide (Field.program.Has n) && program.toNat.testBit (n - Field.program.shift)) := by
  have hshift : (program &&& 0x7f).toUInt32
      = (program &&& 0x7f).toUInt32 <<< UInt32.ofNat Field.program.shift :=
    UInt32.shiftLeft_zero.symm
  rw [joined, UInt32.toNat_or, UInt32.toNat_or, Nat.testBit_or, Nat.testBit_or, hshift,
    testBit_placed .program]
  exact congrArg₂ _ (congrArg₂ _ (testBit_placed .highBank high n) (testBit_placed .lowBank low n))
    rfl

theorem writes_eq_joined {xs : List Setting} (hxs : ∀ x ∈ xs, ¬x.Leaks) {word : UInt32}
    (hword : word.toNat < 2 ^ 21) {high low program : UInt8}
    (hhigh : lastSetting .highBank xs = some high) (hlow : lastSetting .lowBank xs = some low)
    (hprogram : lastSetting .program xs = some program) :
    xs.foldl Setting.write word = joined high low program := by
  apply UInt32.toNat_inj.mp
  refine Nat.eq_of_testBit_eq fun n => ?_
  rw [testBit_joined]
  have hbit {f : Field} {v : UInt8} (hlast : lastSetting f xs = some v) (hn : f.Has n) :=
    testBit_writes hxs word hlast hn
  -- A bit is in one field, whose last value it comes from, or above all of them.
  by_cases hin : ∃ f : Field, f.Has n
  · obtain ⟨f, hn⟩ := hin
    have hothers (g : Field) (hne : g ≠ f) : decide (g.Has n) = false :=
      decide_eq_false fun hg => hne (hg.unique hn)
    cases f with
    | highBank =>
      rw [hbit hhigh hn, decide_eq_true hn, hothers .lowBank (by decide),
        hothers .program (by decide)]
      simp
    | lowBank =>
      rw [hbit hlow hn, decide_eq_true hn, hothers .highBank (by decide),
        hothers .program (by decide)]
      simp
    | program =>
      rw [hbit hprogram hn, decide_eq_true hn, hothers .highBank (by decide),
        hothers .lowBank (by decide)]
      simp
  · have hnone (f : Field) : decide (f.Has n) = false := decide_eq_false fun h => hin ⟨f, h⟩
    have habove : 21 ≤ n := Nat.not_lt.mp fun hn => hin (Field.exists_has.mpr hn)
    have hpow : 2 ^ 21 ≤ 2 ^ n := Nat.pow_le_pow_right (by decide) habove
    have hlt := writes_lt hxs hword
    rw [hnone, hnone, hnone, Nat.testBit_lt_two_pow (Nat.lt_of_lt_of_le hlt hpow)]
    rfl

/-! ### Steps -/

def settingOf : Action → Option Setting
  | .control key value =>
    if key = controlBankHigh then some ⟨.highBank, value⟩
    else if key = controlBankLow then some ⟨.lowBank, value⟩
    else none
  | .program number => some ⟨.program, number⟩
  | _ => none

def Step.setting? (i : Fin channelCount) : Step → Option Setting
  | .event e => if channelIndex? e.channel = some i then settingOf e.action else none
  | _ => none

/-- Whether a step replaces the program word of a channel, as the start and the end of a song do. -/
def Step.Replaces (i : Fin channelCount) (s : Synth) : Step → Prop
  | .setUp j _ => j = i
  | .endSong => s.song.isSome ∧ i.val < songChannels
  | _ => False

theorem program_write {s t : Synth} {j : Fin channelCount} {x : Setting}
    (h : t.programs = s.programs.set j (x.write (s.programs.get j)) j.isLt) (i : Fin channelCount) :
    t.programs.get i
      = (if some j = some i then some x else none).elim (s.programs.get i)
          (Setting.write (s.programs.get i)) := by
  rw [h]
  by_cases hij : i = j
  · subst hij
    rw [if_pos rfl, get_set_self]
    rfl
  · rw [if_neg fun hji => hij (Option.some.inj hji).symm, get_set_ne _ _ hij]
    rfl

/-- A bank controller and a program change write to the word of their channel. -/
theorem program_perform (s : Synth) (channel : UInt8) (a : Action) (i : Fin channelCount) :
    (s.perform channel a).programs.get i
      = (if channelIndex? channel = some i then settingOf a else none).elim (s.programs.get i)
          (Setting.write (s.programs.get i)) := by
  have hkept {t : Synth} (h : s.PlaysOnly t) (ha : settingOf a = none) :
      t.programs.get i
        = (if channelIndex? channel = some i then settingOf a else none).elim (s.programs.get i)
            (Setting.write (s.programs.get i)) := by
    rw [h.programs, ha, ite_self]
    rfl
  cases a with
  | noteOff note =>
    exact hkept (.onChannel s channel fun j =>
      .withChannel s j fun t c => .stopNote t c note) rfl
  | noteOn note velocity =>
    exact hkept (.onChannel s channel fun j =>
      .withChannel s j fun t c => .startNote t c note velocity _) rfl
  | noteOnce note velocity duration =>
    exact hkept (.onChannel s channel fun j =>
      .withChannel s j fun t c => .startNote t c note velocity duration) rfl
  | control key value =>
    show (s.onChannel channel fun j => s.control j key value).programs.get i = _
    unfold onChannel
    cases channelIndex? channel with
    | none => rfl
    | some j =>
      show (s.control j key value).programs.get i = _
      by_cases hhigh : key = controlBankHigh
      · have hsetting : settingOf (.control key value) = some ⟨.highBank, value⟩ := if_pos hhigh
        rw [hsetting]
        refine program_write ?_ i
        rw [control, if_pos hhigh]
        rfl
      · by_cases hlow : key = controlBankLow
        · have hsetting : settingOf (.control key value) = some ⟨.lowBank, value⟩ := by
            rw [settingOf, if_neg hhigh, if_pos hlow]
          rw [hsetting]
          refine program_write ?_ i
          rw [control, if_neg hhigh, if_pos hlow]
          rfl
        · have hsetting : settingOf (.control key value) = none := by
            rw [settingOf, if_neg hhigh, if_neg hlow]
          rw [hsetting, ite_self, control, if_neg hhigh, if_neg hlow]
          split
          · rfl
          · have hplays : s.PlaysOnly (s.withChannel j fun s c => s.controlChannel j c key value) :=
              .withChannel s j fun t c => .controlChannel t j c key value
            rw [hplays.programs]
            rfl
  | program number =>
    show (s.onChannel channel fun j => s.changeProgram j number).programs.get i = _
    unfold onChannel
    cases channelIndex? channel with
    | none => rfl
    | some j =>
      refine program_write (x := ⟨.program, number⟩) ?_ i
      unfold changeProgram
      dsimp only
      split <;> rfl
  | wheel position =>
    exact hkept (.onChannel s channel fun j =>
      .withChannel s j fun t c => .moveWheel t j c position) rfl
  | reset => exact hkept (.reset s channel) rfl
  | nothing => exact hkept (.refl s) rfl

/-- A step that does not replace a word writes to it what it sets, if anything. -/
theorem program_run {s : Synth} {σ : Step} {i : Fin channelCount} (h : ¬σ.Replaces i s) :
    (σ.run s).programs.get i
      = (σ.setting? i).elim (s.programs.get i) (Setting.write (s.programs.get i)) := by
  cases σ with
  | event e => exact s.program_perform e.channel e.action i
  | playSound key trim =>
    exact congrArg (·.get i) (PlaysOnly.of_sounds (s.playSound_sounds key trim)).programs
  | playSoundBytes bytes trim =>
    exact congrArg (·.get i) (PlaysOnly.of_sounds (s.playSoundBytes_sounds bytes trim)).programs
  | seek beats =>
    show (s.seek beats).programs.get i = _
    unfold Synth.seek
    split <;> rfl
  | endSong =>
    show s.endSong.programs.get i = s.programs.get i
    unfold Synth.endSong
    split
    · rfl
    next hsong =>
      have hcaller : ¬i.val < songChannels := fun hi => h ⟨by rw [hsong]; rfl, hi⟩
      exact (Vector.getElem_mapIdx i.isLt).trans (if_neg hcaller)
  | setUp j record =>
    show (s.setUpChannel j record).programs.get i = s.programs.get i
    rw [programs_setUpChannel, get_set_ne _ _ fun hij => h hij.symm]
  | _ => rfl

theorem program_replaced {s : Synth} {σ : Step} {i : Fin channelCount} (h : σ.Replaces i s) :
    ((σ.run s).programs.get i).toNat < 2 ^ 21 := by
  cases σ with
  | setUp j record =>
    obtain rfl : j = i := h
    show ((s.setUpChannel j record).programs.get j).toNat < 2 ^ 21
    rw [programs_setUpChannel, get_set_self, UInt8.toNat_toUInt32]
    have hlt := record.program.toNat_lt
    omega
  | endSong =>
    obtain ⟨hsong, hi⟩ := h
    show (s.endSong.programs.get i).toNat < 2 ^ 21
    rw [programs_endSong hsong hi]
    decide
  | _ => cases h

/-! ### Channels of songs -/

def Step.SparesCaller : Step → Prop
  | .setUp i _ => i.val < songChannels
  | _ => True

theorem Step.OfUpdate.sparesCaller {σ : Step} (h : σ.OfUpdate) : σ.SparesCaller := by
  cases σ with
  | setUp i record => exact h
  | _ => trivial

theorem sparesCaller_install (s : Synth) (song : Option Player) :
    ∀ σ ∈ s.installSteps song, σ.SparesCaller := by
  intro σ hσ
  unfold installSteps at hσ
  split at hσ
  · exact (ofTurn_takeOver song σ hσ).ofUpdate.sparesCaller
  · rcases List.mem_cons.mp hσ with rfl | hσ
    · trivial
    · rw [List.mem_singleton.mp hσ]
      trivial

theorem sparesCaller_steps (s : Synth) (c : Call) : ∀ σ ∈ s.steps c, σ.SparesCaller := by
  intro σ hσ
  cases c with
  | message m =>
    cases m with
    | playSong id force repeats =>
      simp only [steps, messageSteps, playSongSteps] at hσ
      split at hσ
      · cases hσ
      · split at hσ
        · exact s.sparesCaller_install _ σ hσ
        · exact s.sparesCaller_install _ σ hσ
        · split at hσ
          · exact s.sparesCaller_install _ σ hσ
          · cases hσ
    | _ =>
      rw [List.mem_singleton.mp hσ]
      trivial
  | playSongBytes bytes repeats =>
    simp only [steps, playSongBytesSteps] at hσ
    split at hσ
    · rcases List.mem_cons.mp hσ with rfl | hσ
      · trivial
      · rw [List.mem_singleton.mp hσ]
        trivial
    · split at hσ
      · exact s.sparesCaller_install _ σ hσ
      · cases hσ
  | render samples => exact (s.ofUpdate_render samples σ hσ).sparesCaller
  | renderWords samples => exact (ofUpdate_wordPasses _ s samples σ hσ).sparesCaller
  | _ =>
    rw [List.mem_singleton.mp hσ]
    trivial

theorem sparesCaller_history (s : Synth) (calls : List Call) :
    ∀ σ ∈ s.history calls, σ.SparesCaller := by
  induction calls generalizing s with
  | nil =>
    intro σ hσ
    cases hσ
  | cons c calls ih =>
    intro σ hσ
    rcases List.mem_append.mp hσ with hσ | hσ
    · exact s.sparesCaller_steps c σ hσ
    · exact ih (s.apply c) σ hσ

/-! ### Histories -/

section Histories

variable (format : Format) (calls : List Call) (i : Fin channelCount)

/-- The program word of a channel after the first `k` steps of some calls. -/
def programAfter (k : Nat) : UInt32 := (Moment.after format calls k).synth.programs.get i

/-- What the steps from the `j`th on set on a channel, up to the `k`th. -/
def settingsBetween (j k : Nat) : List Setting :=
  ((((ofFormat format).history calls).take k).drop j).filterMap (Step.setting? i)

/-- Whether none of these steps replaces the program word of a channel of songs. -/
def NoneReplaces (j k : Nat) : Prop :=
  i.val < songChannels → ∀ t σ, j ≤ t → t < k → ((ofFormat format).history calls)[t]? = some σ →
    ¬σ.Replaces i (Moment.after format calls t).synth

variable {format calls i} {j k : Nat}

theorem settingsBetween_self : settingsBetween format calls i k k = [] := by
  have hnone : (((ofFormat format).history calls).take k).drop k = [] :=
    List.drop_eq_nil_of_le (List.length_take_le k _)
  rw [settingsBetween, hnone]
  rfl

theorem settingsBetween_succ {σ : Step} (hj : j ≤ k)
    (h : ((ofFormat format).history calls)[k]? = some σ) :
    settingsBetween format calls i j (k + 1)
      = settingsBetween format calls i j k ++ (σ.setting? i).toList := by
  have hk : k < ((ofFormat format).history calls).length := (List.getElem?_eq_some_iff.mp h).1
  have hlength : j ≤ (((ofFormat format).history calls).take k).length := by
    rw [List.length_take]
    omega
  rw [settingsBetween, List.take_add_one, h, Option.toList_some, List.drop_append_of_le_length hlength,
    List.filterMap_append]
  rfl

theorem settingsBetween_end (h : ((ofFormat format).history calls)[k]? = none) :
    settingsBetween format calls i j (k + 1) = settingsBetween format calls i j k := by
  rw [settingsBetween, List.take_add_one, h, Option.toList_none, List.append_nil]
  rfl

theorem NoneReplaces.of_caller (hi : songChannels ≤ i.val) {t : Nat} {σ : Step}
    (h : ((ofFormat format).history calls)[t]? = some σ) (s : Synth) : ¬σ.Replaces i s := by
  have hspares := sparesCaller_history (ofFormat format) calls σ (List.mem_of_getElem? h)
  intro hreplaces
  cases σ with
  | setUp j record =>
    obtain rfl : j = i := hreplaces
    exact Nat.not_lt.mpr hi hspares
  | endSong => exact Nat.not_lt.mpr hi hreplaces.2
  | _ => cases hreplaces

theorem NoneReplaces.not_replaces (h : NoneReplaces format calls i j k) {t : Nat} {σ : Step}
    (hj : j ≤ t) (hk : t < k) (hσ : ((ofFormat format).history calls)[t]? = some σ) :
    ¬σ.Replaces i (Moment.after format calls t).synth := by
  rcases Nat.lt_or_ge i.val songChannels with hi | hi
  · exact h hi t σ hj hk hσ
  · exact NoneReplaces.of_caller hi hσ _

theorem programAfter_eq (hj : j ≤ k) (h : NoneReplaces format calls i j k) :
    programAfter format calls i k
      = (settingsBetween format calls i j k).foldl Setting.write (programAfter format calls i j) := by
  induction k, hj using Nat.le_induction with
  | base =>
    rw [settingsBetween_self]
    rfl
  | succ k hj ih =>
    have hbefore : NoneReplaces format calls i j k :=
      fun hi t σ ht htk => h hi t σ ht (Nat.lt_succ_of_lt htk)
    cases hnext : ((ofFormat format).history calls)[k]? with
    | none =>
      rw [settingsBetween_end hnext, ← ih hbefore, programAfter, Moment.after_end hnext]
      rfl
    | some σ =>
      have hrun := program_run (h.not_replaces hj (Nat.lt_succ_self k) hnext)
      rw [settingsBetween_succ hj hnext, List.foldl_append, ← ih hbefore, programAfter,
        (Moment.after_succ hnext).2]
      refine hrun.trans ?_
      cases σ.setting? i with
      | none => rfl
      | some x => rfl

theorem programAfter_lt (hj : j ≤ k) (hword : (programAfter format calls i j).toNat < 2 ^ 21)
    (h : ∀ x ∈ settingsBetween format calls i j k, ¬x.Leaks) :
    (programAfter format calls i k).toNat < 2 ^ 21 := by
  induction k, hj using Nat.le_induction with
  | base => exact hword
  | succ k hj ih =>
    cases hnext : ((ofFormat format).history calls)[k]? with
    | none =>
      rw [settingsBetween_end hnext] at h
      rw [programAfter, Moment.after_end hnext]
      exact ih h
    | some σ =>
      rw [settingsBetween_succ hj hnext] at h
      have hbefore := ih fun x hx => h x (List.mem_append_left _ hx)
      rw [programAfter, (Moment.after_succ hnext).2]
      by_cases hreplaces : σ.Replaces i (Moment.after format calls k).synth
      · exact program_replaced hreplaces
      · refine (congrArg UInt32.toNat (program_run hreplaces)).trans_lt ?_
        cases hsetting : σ.setting? i with
        | none => exact hbefore
        | some x =>
          have hx : x ∈ (σ.setting? i).toList := by
            rw [hsetting]
            exact List.mem_singleton_self x
          exact Setting.write_lt (h x (List.mem_append_right _ hx)) hbefore

end Histories

/-- Banks and program of a channel stay in their fields: a setting changes its field only, unless it
sets the bit above it, and without such settings the word stays below 21 bits and is made of the last
values, once there is one for each field and no song came or went since. -/
theorem program_fields_apart (format : Format) (calls : List Call) (i : Fin channelCount) (k : Nat) :
    programAfter format calls i 0 = 0
      ∧ (∀ σ x, ((ofFormat format).history calls)[k]? = some σ → σ.setting? i = some x →
          (x.field.ChangesOnly (programAfter format calls i k) (programAfter format calls i (k + 1))
            ↔ ¬x.Leaks
              ∨ (programAfter format calls i k).toNat.testBit (x.field.shift + 7) = true))
      ∧ ∀ j ≤ k, (programAfter format calls i j).toNat < 2 ^ 21 →
          (∀ x ∈ settingsBetween format calls i j k, ¬x.Leaks) →
          (programAfter format calls i k).toNat < 2 ^ 21
            ∧ (NoneReplaces format calls i j k → ∀ high low program,
                lastSetting .highBank (settingsBetween format calls i j k) = some high →
                lastSetting .lowBank (settingsBetween format calls i j k) = some low →
                lastSetting .program (settingsBetween format calls i j k) = some program →
                programAfter format calls i k = joined high low program) := by
  refine ⟨?_, fun σ x hnext hx => ?_, fun j hj hword hsafe => ⟨programAfter_lt hj hword hsafe, ?_⟩⟩
  · exact Vector.getElem_replicate i.isLt
  · have hkeeps : ¬σ.Replaces i (Moment.after format calls k).synth := by
      cases σ with
      | event e => exact id
      | _ => cases hx
    have hwrite : programAfter format calls i (k + 1) = x.write (programAfter format calls i k) := by
      rw [programAfter, (Moment.after_succ hnext).2]
      refine (program_run hkeeps).trans ?_
      rw [hx]
      rfl
    rw [hwrite]
    exact x.changesOnly_iff _
  · intro hnone high low program hhigh hlow hprogram
    rw [programAfter_eq hj hnone]
    exact writes_eq_joined hsafe hword hhigh hlow hprogram

/-! ### A bank select -/

def controlCall (key value : UInt8) : Call :=
  .message (.event { channel := 9, opcode := Event.opControl, a := key, b := value, duration := 0 })

def programCall (number : UInt8) : Call :=
  .message (.event { channel := 9, opcode := Event.opProgram, a := number, b := 0, duration := 0 })

def bankCalls : List Call :=
  [controlCall controlBankLow 3, programCall 25, controlCall controlBankHigh 2,
    controlCall controlBankLow 5]

theorem program_fields_apart_bank :
    (∀ x ∈ settingsBetween slow bankCalls 9 0 4, ¬x.Leaks)
      ∧ NoneReplaces slow bankCalls 9 0 4
      ∧ programAfter slow bankCalls 9 4 = joined 2 5 25 := by
  have hsafe : ∀ x ∈ settingsBetween slow bankCalls 9 0 4, ¬x.Leaks := by decide +kernel
  have hnone : NoneReplaces slow bankCalls 9 0 4 := fun hlow => absurd hlow (by decide)
  have hword := (program_fields_apart slow bankCalls 9 4).2.2 0 (by decide) (by decide +kernel)
    hsafe
  exact ⟨hsafe, hnone, hword.2 hnone 2 5 25 (by decide +kernel) (by decide +kernel)
    (by decide +kernel)⟩

/-- A high bank of 0x80 sets a bit above all fields, which later settings leave alone. -/
theorem high_bank_leaks :
    ¬ ∀ (format : Format) (calls : List Call) (i : Fin channelCount) (k : Nat),
      (∀ σ x, ((ofFormat format).history calls)[k]? = some σ → σ.setting? i = some x →
          x.field.ChangesOnly (programAfter format calls i k) (programAfter format calls i (k + 1)))
        ∧ (programAfter format calls i k).toNat < 2 ^ 21
        ∧ ∀ j ≤ k, NoneReplaces format calls i j k → ∀ high low program,
            lastSetting .highBank (settingsBetween format calls i j k) = some high →
            lastSetting .lowBank (settingsBetween format calls i j k) = some low →
            lastSetting .program (settingsBetween format calls i j k) = some program →
            programAfter format calls i k = joined high low program := by
  intro hall
  have hword := (hall slow
    [controlCall controlBankHigh 0x80, controlCall controlBankLow 0, programCall 5] 9 3).2.2 0
    (by decide) (fun hlow => absurd hlow (by decide)) 0x80 0 5 (by decide +kernel)
    (by decide +kernel) (by decide +kernel)
  revert hword
  decide +kernel

end Tonewheel.Synth
