import Mathlib.Data.List.Infix
import Tonewheel.Proofs.Reading
import Tonewheel.Proofs.Sound.Streaming

/-!
# Sound programs that are cut short

Data may end between any two of its bytes. A reader of fields is steady: where data is cut short
(`Cursor.CutTo`), it reads the same, or it says that data is truncated. A chain and the list of
voices may end where data does, so cutting them short can also leave a front part of them. All other
errors go by bytes that are there, so what was no error before is none after the cut
(`decode_take`).
-/

namespace Tonewheel

/-! ### Cuts -/

namespace Cursor

def last (c : Cursor) : Nat := c.offset + c.rest.length

/-- Whether a cursor is further on in the same data. -/
structure Passes (c c' : Cursor) : Prop where
  offset : c.offset ≤ c'.offset
  last : c'.last = c.last

/-- Whether a cursor is at the same place in data that is cut short. -/
structure CutTo (c d : Cursor) : Prop where
  offset : d.offset = c.offset
  rest : d.rest <+: c.rest

theorem Passes.refl (c : Cursor) : c.Passes c := ⟨Nat.le_refl _, rfl⟩

theorem Passes.trans {a b c : Cursor} (hab : a.Passes b) (hbc : b.Passes c) : a.Passes c :=
  ⟨hab.offset.trans hbc.offset, hbc.last.trans hab.last⟩

theorem Passes.length_le {c c' : Cursor} (h : c.Passes c') : c'.rest.length ≤ c.rest.length := by
  have hoffset := h.offset
  have hlast := h.last
  unfold Cursor.last at hlast
  omega

theorem Passes.length_lt {c c' : Cursor} (h : c.Passes c') (hoffset : c.offset < c'.offset) :
    c'.rest.length < c.rest.length := by
  have hlast := h.last
  unfold Cursor.last at hlast
  omega

theorem passes_byte (b : UInt8) (rest : Bytes) (offset : Nat) :
    Passes ⟨b :: rest, offset⟩ ⟨rest, offset + 1⟩ := by
  refine ⟨Nat.le_succ _, ?_⟩
  simp only [Cursor.last, List.length_cons]
  omega

theorem CutTo.nil {c d : Cursor} (h : c.CutTo d) (hnil : c.rest = []) : d.rest = [] :=
  List.prefix_nil.mp (hnil ▸ h.rest)

theorem CutTo.exists_eq {rest : Bytes} {offset : Nat} {d : Cursor} (h : CutTo ⟨rest, offset⟩ d) :
    ∃ left, d = ⟨left, offset⟩ ∧ left <+: rest := by
  obtain ⟨left, offset'⟩ := d
  obtain ⟨hoffset, hleft⟩ := h
  exact ⟨left, congrArg (Cursor.mk left) hoffset, hleft⟩

theorem CutTo.cons_cases {b : UInt8} {rest : Bytes} {offset : Nat} {d : Cursor}
    (h : CutTo ⟨b :: rest, offset⟩ d) :
    d = ⟨[], offset⟩
      ∨ ∃ left, d = ⟨b :: left, offset⟩ ∧ CutTo ⟨rest, offset + 1⟩ ⟨left, offset + 1⟩ := by
  obtain ⟨left, rfl, hleft⟩ := h.exists_eq
  cases left with
  | nil => exact .inl rfl
  | cons b' left =>
    obtain ⟨rfl, hrest⟩ := List.cons_prefix_cons.mp hleft
    exact .inr ⟨left, rfl, rfl, hrest⟩

end Cursor

/-! ### Steady readers -/

/-- What a reader of a value can come to in data that is cut short: it reads the same, or data is
truncated. -/
def Noticed {α : Type} (a : α) (c' d : Cursor) (outcome : Except DecodeError (α × Cursor)) : Prop :=
  (∃ d', outcome = .ok (a, d') ∧ c'.CutTo d' ∧ d.Passes d')
    ∨ ∃ p, outcome = .error (.truncated p) ∧ p ≤ d.last

namespace Noticed

variable {α β : Type} {a : α} {c' d d₁ : Cursor} {outcome : Except DecodeError (α × Cursor)}

theorem earlier (hd : d.Passes d₁) (h : Noticed a c' d₁ outcome) : Noticed a c' d outcome := by
  rcases h with ⟨d', hd', hcut, hpassed⟩ | ⟨p, hd', hp⟩
  · exact .inl ⟨d', hd', hcut, hd.trans hpassed⟩
  · exact .inr ⟨p, hd', hd.last ▸ hp⟩

/-- What goes on behind a value is what goes on at the same place in the cut data, unless this is
truncated. -/
theorem bind {Outcome : Except DecodeError β → Prop}
    {second : α × Cursor → Except DecodeError β} (h : Noticed a c' d outcome)
    (htruncated : ∀ p ≤ d.last, Outcome (.error (.truncated p)))
    (hsecond : ∀ d', c'.CutTo d' → d.Passes d' → Outcome (second (a, d'))) :
    Outcome (outcome >>= second) := by
  rcases h with ⟨d', rfl, hcut, hpassed⟩ | ⟨p, rfl, hp⟩
  · exact hsecond d' hcut hpassed
  · exact htruncated p hp

end Noticed

/-- Whether a reader moves on in its data, and notices when this is cut short. -/
def Steady {α : Type} (reader : Cursor → Except DecodeError (α × Cursor)) : Prop :=
  ∀ c a c', reader c = .ok (a, c') →
    c.Passes c' ∧ ∀ d, c.CutTo d → Noticed a c' d (reader d)

namespace Steady

variable {α β : Type}

theorem ok (a : α) : Steady fun c => .ok (a, c) := by
  rintro c _ _ ⟨⟩
  exact ⟨.refl c, fun d hcut => .inl ⟨d, rfl, hcut, .refl d⟩⟩

theorem error (e : DecodeError) : Steady fun _ => (.error e : Except _ (α × Cursor)) := by
  rintro c a c' ⟨⟩

theorem bind {first : Cursor → Except DecodeError (α × Cursor)}
    {second : α × Cursor → Except DecodeError (β × Cursor)} (hfirst : Steady first)
    (hsecond : ∀ a, Steady fun c => second (a, c)) : Steady fun c => first c >>= second := by
  intro c b c' h
  obtain ⟨⟨a, c₁⟩, hread, hrest⟩ := bind_eq_ok.mp h
  obtain ⟨hpasses, hnotices⟩ := hfirst c a c₁ hread
  obtain ⟨hpasses', hnotices'⟩ := hsecond a c₁ b c' hrest
  refine ⟨hpasses.trans hpasses', fun d hcut => ?_⟩
  exact (hnotices d hcut).bind (fun p hp => .inr ⟨p, rfl, hp⟩) fun d₁ hcut₁ hd₁ =>
    (hnotices' d₁ hcut₁).earlier hd₁

theorem value {x : Except DecodeError α} {second : α → Cursor → Except DecodeError (β × Cursor)}
    (hsecond : ∀ a, Steady (second a)) : Steady fun c => x >>= fun a => second a c := by
  cases x with
  | error e => exact error e
  | ok a => exact hsecond a

theorem byte : Steady Cursor.byte := by
  rintro ⟨rest, offset⟩ a c' h
  cases rest with
  | nil => cases h
  | cons b rest =>
    cases h
    refine ⟨Cursor.passes_byte a rest offset, fun d hcut => ?_⟩
    rcases hcut.cons_cases with rfl | ⟨left, rfl, hrest⟩
    · exact .inr ⟨_, rfl, Nat.le_add_right _ _⟩
    · exact .inl ⟨_, rfl, hrest, Cursor.passes_byte a left offset⟩

theorem word : Steady Cursor.word := by
  rintro ⟨rest, offset⟩ a c' h
  match rest, h with
  | high :: low :: rest, h =>
    cases h
    have hpasses : ∀ left, Cursor.Passes ⟨high :: low :: left, offset⟩ ⟨left, offset + 2⟩ :=
      fun left => (Cursor.passes_byte high _ offset).trans (Cursor.passes_byte low left _)
    refine ⟨hpasses rest, fun d hcut => ?_⟩
    obtain ⟨left, rfl, hleft⟩ := hcut.exists_eq
    match left, hleft with
    | [], _ => exact .inr ⟨_, rfl, Nat.le_add_right _ _⟩
    | [_], _ => exact .inr ⟨_, rfl, Nat.le_add_right _ _⟩
    | high' :: low' :: left, hleft =>
      obtain ⟨rfl, htail⟩ := List.cons_prefix_cons.mp hleft
      obtain ⟨rfl, hrest⟩ := List.cons_prefix_cons.mp htail
      exact .inl ⟨_, rfl, ⟨rfl, hrest⟩, hpasses left⟩

theorem take (n : Nat) : Steady fun c => c.take n := by
  rintro ⟨rest, offset⟩ a c' h
  have hpasses : ∀ left : Bytes, n ≤ left.length →
      Cursor.Passes ⟨left, offset⟩ ⟨left.drop n, offset + n⟩ := fun left hfits => by
    refine ⟨Nat.le_add_right _ _, ?_⟩
    simp only [Cursor.last, List.length_drop]
    omega
  dsimp only [Cursor.take] at h
  split at h
  next hfits =>
    cases h
    refine ⟨hpasses rest hfits, fun d hcut => ?_⟩
    obtain ⟨left, rfl, hleft⟩ := hcut.exists_eq
    dsimp only [Cursor.take]
    split
    next hfits' =>
      have hsame : left.take n = rest.take n := by
        obtain ⟨more, rfl⟩ := hleft
        rw [List.take_append_of_le_length hfits']
      rw [hsame]
      exact .inl ⟨_, rfl, ⟨rfl, hleft.drop n⟩, hpasses left hfits'⟩
    next => exact .inr ⟨_, rfl, Nat.le_add_right _ _⟩
  next => cases h

end Steady

namespace Sound

open Steady (word byte take ok error value)

/-! ### Fields -/

theorem steady_fixed88 : Steady readFixed88 := word.bind fun _ => ok _

theorem steady_targets (rate : UInt32) (scale : Float32) (n : Nat) :
    Steady (Ramp.readTargets rate scale n) := by
  induction n with
  | zero => exact ok []
  | succ n ih => exact word.bind fun ms => word.bind fun value => ih.bind fun rest => ok _

theorem steady_ramp (rate : UInt32) (scale : Float32) : Steady (Ramp.read rate scale) :=
  word.bind fun _ => byte.bind fun count =>
    (steady_targets rate scale count.toNat).bind fun _ => ok _

theorem steady_stage (rate : UInt32) (opcode : UInt8) : Steady (readStage rate opcode) := by
  unfold readStage
  generalize opcode.toNat = code
  match code with
  | 0x01 => exact (steady_ramp rate _).bind fun _ => ok _
  | 0x02 => exact steady_fixed88.bind fun _ => ok _
  | 0x03 => exact byte.bind fun _ => ok _
  | 0x04 => exact word.bind fun _ => (take 4).bind fun _ => ok _
  | 0x05 => exact word.bind fun _ => word.bind fun _ => ok _
  | 0x06 => exact word.bind fun _ => word.bind fun _ => ok _
  | 0x07 => exact word.bind fun _ => ok _
  | 0x08 => exact word.bind fun _ => ok _
  | 0 => exact error _
  | code + 9 => exact error _

theorem steady_readIf {α : Type} {field : Cursor → Except DecodeError (α × Cursor)}
    (hfield : Steady field) (present : Bool) (default : α) :
    Steady (readIf present default field) := by
  cases present with
  | true => exact hfield
  | false => exact ok default

theorem steady_modulation : Steady readModulation :=
  steady_fixed88.bind fun _ => steady_fixed88.bind fun _ => ok _

theorem steady_swing (rate : UInt32) : Steady (readSwing rate) :=
  steady_fixed88.bind fun _ => word.bind fun _ => ok _

theorem steady_coefficients : Steady readCoefficients := byte.bind fun count => take count.toNat

def readFeatures (rate : UInt32) (features : UInt8) (c : Cursor) :
    Except DecodeError ((Generator × Carrier) × Cursor) := do
  let (shape, c) ← readIf (announces features .shape) 0 Cursor.byte c
  let (coefficients, c) ← readIf (announces features .harmonics) [] readCoefficients c
  let ((modulatorRate, depth), c) ← readIf (announces features .fm) (0, 1) readModulation c
  let (range, c) ←
    readIf (announces features .fmCurve) (Ramp.hold depth) (Ramp.read rate (depth / 65535)) c
  let (carrierRate, c) ←
    readIf (announces features .rate) (Ramp.hold (440 / rate.toFloat32))
      (Ramp.read rate (1 / rate.toFloat32)) c
  let (swing, c) ← readIf (announces features .rateSweep) none (readSwing rate) c
  if unknownFeatures features ≠ 0 then .error (.unknownFeatures (unknownFeatures features))
  else
    let (wave, generator) ←
      chooseGenerator shape coefficients swing carrierRate (announces features .fm)
    return ((generator, { wave, rate := carrierRate, range, modulatorRate }), c)

theorem readVoice_cons (rate : UInt32) (features : UInt8) (rest : Bytes) (offset : Nat) :
    readVoice rate ⟨features :: rest, offset⟩ = do
      let ((generator, carrier), c) ← readFeatures rate features ⟨rest, offset + 1⟩
      let (chain, c) ← readChain rate c.rest.length c
      return ({ generator, carrier, chain }, c) := by
  have hbyte : Cursor.byte ⟨features :: rest, offset⟩ = .ok (features, ⟨rest, offset + 1⟩) := rfl
  unfold readVoice readFeatures
  rw [hbyte, ok_bind]
  simp only [bind_assoc]
  refine bind_congr fun shape => ?_
  refine bind_congr fun coefficients => ?_
  refine bind_congr fun modulation => ?_
  refine bind_congr fun range => ?_
  refine bind_congr fun carrierRate => ?_
  refine bind_congr fun swing => ?_
  split
  · rfl
  · rw [bind_assoc]
    rfl

theorem steady_features (rate : UInt32) (features : UInt8) :
    Steady (readFeatures rate features) := by
  unfold readFeatures
  refine (steady_readIf byte _ _).bind fun shape => ?_
  refine (steady_readIf steady_coefficients _ _).bind fun coefficients => ?_
  refine (steady_readIf steady_modulation _ _).bind fun modulation => ?_
  refine (steady_readIf (steady_ramp rate _) _ _).bind fun range => ?_
  refine (steady_readIf (steady_ramp rate _) _ _).bind fun carrierRate => ?_
  refine (steady_readIf (steady_swing rate) _ _).bind fun swing => ?_
  by_cases hunknown : unknownFeatures features ≠ 0
  · simp only [if_pos hunknown]
    exact error _
  · simp only [if_neg hunknown]
    exact value fun _ => ok _

/-! ### Chains -/

/-- What can come of a value that may end where data does: it is read as before, or a front part of
it up to the end of data, or data is truncated. -/
def EndsEarly {α : Type} (front : α → Prop) (a : α) (c' d : Cursor)
    (outcome : Except DecodeError (α × Cursor)) : Prop :=
  Noticed a c' d outcome ∨ ∃ b d', outcome = .ok (b, d') ∧ front b ∧ d'.rest = []

namespace EndsEarly

variable {α β : Type} {front : α → Prop} {a : α} {c' d d₁ : Cursor}
  {outcome : Except DecodeError (α × Cursor)}

theorem truncated {p : Nat} (h : p ≤ d.last) :
    EndsEarly front a c' d (.error (.truncated p)) := .inl (.inr ⟨p, rfl, h⟩)

theorem earlier (hd : d.Passes d₁) (h : EndsEarly front a c' d₁ outcome) :
    EndsEarly front a c' d outcome :=
  h.imp_left (.earlier hd)

theorem map {front' : β → Prop} (h : EndsEarly front a c' d outcome) (f : α → β)
    (hf : ∀ b, front b → front' (f b)) :
    EndsEarly front' (f a) c' d (outcome >>= fun r => .ok (f r.1, r.2)) := by
  rcases h with hnoticed | ⟨b, d', rfl, hb, hend⟩
  · exact hnoticed.bind (fun _ => truncated) fun d' hcut hpassed =>
      .inl (.inl ⟨d', rfl, hcut, hpassed⟩)
  · exact .inr ⟨f b, d', rfl, hf b hb, hend⟩

end EndsEarly

theorem readChain_nil (rate : UInt32) (fuel : Nat) {c : Cursor} (h : c.rest = []) :
    readChain rate fuel c = .ok ([], c) := by
  cases fuel with
  | zero => rfl
  | succ fuel => rw [readChain, h]

theorem endsEarly_nil (rate : UInt32) (fuel : Nat) (stages : List ChainStage) (c' : Cursor)
    {d : Cursor} (h : d.rest = []) :
    EndsEarly (· <+: stages) stages c' d (readChain rate fuel d) :=
  .inr ⟨[], d, readChain_nil rate fuel h, List.nil_prefix, h⟩

theorem readChain_cut (rate : UInt32) {fuel : Nat} {c c' : Cursor} {stages : List ChainStage}
    (h : readChain rate fuel c = .ok (stages, c')) (hfuel : c.rest.length ≤ fuel) :
    c.Passes c' ∧ ∀ (d : Cursor) (fuel' : Nat), c.CutTo d → d.rest.length ≤ fuel' →
      EndsEarly (· <+: stages) stages c' d (readChain rate fuel' d) := by
  induction fuel generalizing c stages with
  | zero =>
    have hnil : c.rest = [] := List.eq_nil_of_length_eq_zero (Nat.le_zero.mp hfuel)
    cases h
    exact ⟨.refl _, fun d fuel' hcut _ => endsEarly_nil _ _ _ _ (hcut.nil hnil)⟩
  | succ fuel ih =>
    obtain ⟨rest, offset⟩ := c
    cases rest with
    | nil =>
      cases h
      exact ⟨.refl _, fun d fuel' hcut _ => endsEarly_nil _ _ _ _ (hcut.nil rfl)⟩
    | cons opcode rest =>
      have hopcode := Cursor.passes_byte opcode rest offset
      rw [readChain] at h
      dsimp only at h
      by_cases hcloses : opcode = 0
      · rw [if_pos hcloses] at h
        cases h
        refine ⟨hopcode, fun d fuel' hcut hfuel' => ?_⟩
        rcases hcut.cons_cases with rfl | ⟨left, rfl, hrest⟩
        · exact endsEarly_nil _ _ _ _ rfl
        · obtain ⟨fuel', rfl⟩ := Nat.exists_eq_add_of_le' (Nat.le_of_add_left_le hfuel')
          rw [readChain]
          dsimp only
          rw [if_pos hcloses]
          exact .inl (.inl ⟨_, rfl, hrest, Cursor.passes_byte opcode left offset⟩)
      · rw [if_neg hcloses] at h
        obtain ⟨⟨stage, c₁⟩, hstage, h⟩ := bind_eq_ok.mp h
        obtain ⟨⟨more, c₂⟩, hmore, h⟩ := bind_eq_ok.mp h
        cases h
        obtain ⟨hpasses, hnotices⟩ := steady_stage rate opcode _ _ _ hstage
        have hleft := hpasses.length_le.trans (Nat.le_of_succ_le_succ hfuel)
        obtain ⟨hpasses', hends⟩ := ih hmore hleft
        refine ⟨hopcode.trans (hpasses.trans hpasses'), fun d fuel' hcut hfuel' => ?_⟩
        rcases hcut.cons_cases with rfl | ⟨left, rfl, hrest⟩
        · exact endsEarly_nil _ _ _ _ rfl
        · obtain ⟨fuel', rfl⟩ := Nat.exists_eq_add_of_le' (Nat.le_of_add_left_le hfuel')
          have hopcode' := Cursor.passes_byte opcode left offset
          rw [readChain]
          dsimp only
          rw [if_neg hcloses]
          refine .earlier hopcode' ((hnotices _ hrest).bind (fun _ => .truncated) ?_)
          intro d₁ hcut₁ hd₁
          have hleft' := hd₁.length_le.trans (Nat.le_of_succ_le_succ hfuel')
          exact .earlier hd₁ ((hends d₁ fuel' hcut₁ hleft').map (stage :: ·) fun front hfront =>
            List.cons_prefix_cons.mpr ⟨rfl, hfront⟩)

/-! ### Voices -/

theorem readVoice_cut (rate : UInt32) {c c' : Cursor} {voice : Voice}
    (h : readVoice rate c = .ok (voice, c')) :
    c.Passes c' ∧ c.offset < c'.offset ∧ ∀ d, c.CutTo d →
      EndsEarly (fun w => ∃ chain, chain <+: voice.chain ∧ w = voice.withChain chain) voice c' d
        (readVoice rate d) := by
  obtain ⟨rest, offset⟩ := c
  cases rest with
  | nil => cases h
  | cons features rest =>
    rw [readVoice_cons] at h
    obtain ⟨⟨⟨generator, carrier⟩, c₁⟩, hfeatures, h⟩ := bind_eq_ok.mp h
    obtain ⟨⟨chain, c₂⟩, hchain, h⟩ := bind_eq_ok.mp h
    cases h
    obtain ⟨hpasses, hnotices⟩ := steady_features rate features _ _ _ hfeatures
    obtain ⟨hpasses', hends⟩ := readChain_cut rate hchain (Nat.le_refl _)
    have hlater := hpasses.trans hpasses'
    refine ⟨(Cursor.passes_byte features rest offset).trans hlater, hlater.offset, fun d hcut => ?_⟩
    rcases hcut.cons_cases with rfl | ⟨left, rfl, hrest⟩
    · exact .truncated (Nat.le_add_right _ _)
    · have hfeature := Cursor.passes_byte features left offset
      rw [readVoice_cons]
      refine .earlier hfeature ((hnotices _ hrest).bind (fun _ => .truncated) ?_)
      intro d₁ hcut₁ hd₁
      refine .earlier hd₁ (.map (hends d₁ _ hcut₁ (Nat.le_refl _))
        (fun chain : List ChainStage => (⟨generator, carrier, chain⟩ : Voice)) ?_)
      exact fun front hfront => ⟨front, hfront, rfl⟩

/-- Whether some voices are the first ones of a list, the last of them with all of its chain or with
a front part of it. -/
inductive Shortened (voices : List Voice) : List Voice → Prop where
  | whole {front : List Voice} (hfront : front <+: voices) : Shortened voices front
  | partly {front rest : List Voice} {v : Voice} {chain : List ChainStage}
      (hvoices : voices = front ++ v :: rest) (hchain : chain <+: v.chain) :
      Shortened voices (front ++ [v.withChain chain])

namespace Shortened

variable {voices front : List Voice}

theorem nil (voices : List Voice) : Shortened voices [] := whole List.nil_prefix

theorem cons (v : Voice) (h : Shortened voices front) : Shortened (v :: voices) (v :: front) := by
  cases h with
  | whole hfront => exact whole (List.cons_prefix_cons.mpr ⟨rfl, hfront⟩)
  | @partly front rest w chain hvoices hchain =>
    show Shortened (v :: voices) ((v :: front) ++ [w.withChain chain])
    exact partly (congrArg (v :: ·) hvoices) hchain

theorem keep (v : Voice) (h : Shortened voices front) :
    Shortened (if v.isSilent then voices else v :: voices)
      (if v.isSilent then front else v :: front) := by
  split
  · exact h
  · exact h.cons v

theorem keep_last (v : Voice) (voices : List Voice) {chain : List ChainStage}
    (hchain : chain <+: v.chain) :
    Shortened (if v.isSilent then voices else v :: voices)
      (if (v.withChain chain).isSilent then [] else [v.withChain chain]) := by
  have hsilent : (v.withChain chain).isSilent = v.isSilent := rfl
  rw [hsilent]
  split
  · exact nil voices
  · show Shortened (v :: voices) ([] ++ [v.withChain chain])
    exact partly rfl hchain

end Shortened

/-- What can come of data that is read to its end, when it is cut short. -/
def Cropped {α : Type} (front : α → Prop) (last : Nat) (outcome : Except DecodeError α) : Prop :=
  (∃ p, outcome = .error (.truncated p) ∧ p ≤ last) ∨ ∃ b, outcome = .ok b ∧ front b

namespace Cropped

variable {α β : Type} {front : α → Prop} {last : Nat} {outcome : Except DecodeError α}

theorem truncated {p : Nat} (h : p ≤ last) :
    Cropped front last (.error (.truncated p)) := .inl ⟨p, rfl, h⟩

theorem earlier {d d₁ : Cursor} (hd : d.Passes d₁) (h : Cropped front d₁.last outcome) :
    Cropped front d.last outcome :=
  hd.last ▸ h

theorem map {front' : β → Prop} (h : Cropped front last outcome) (f : α → β)
    (hf : ∀ b, front b → front' (f b)) :
    Cropped front' last (outcome >>= fun b => .ok (f b)) := by
  rcases h with ⟨p, rfl, hp⟩ | ⟨b, rfl, hb⟩
  · exact truncated hp
  · exact .inr ⟨f b, rfl, hf b hb⟩

end Cropped

theorem readVoices_nil (rate : UInt32) (fuel : Nat) {c : Cursor} (h : c.rest = []) :
    readVoices rate fuel c = .ok [] := by
  cases fuel with
  | zero => rfl
  | succ fuel => rw [readVoices, h, List.isEmpty_nil, if_pos rfl]

theorem cropped_nil (rate : UInt32) (fuel : Nat) (voices : List Voice) {d : Cursor}
    (h : d.rest = []) : Cropped (Shortened voices) d.last (readVoices rate fuel d) :=
  .inr ⟨[], readVoices_nil rate fuel h, .nil voices⟩

theorem readVoices_succ (rate : UInt32) (fuel : Nat) {c : Cursor} (h : c.rest ≠ []) :
    readVoices rate (fuel + 1) c = do
      let (voice, c) ← readVoice rate c
      let voices ← readVoices rate fuel c
      return if voice.isSilent then voices else voice :: voices := by
  rw [readVoices, if_neg (mt List.isEmpty_iff.mp h)]

theorem readVoices_cut (rate : UInt32) {fuel : Nat} {c : Cursor} {voices : List Voice}
    (h : readVoices rate fuel c = .ok voices) (hfuel : c.rest.length ≤ fuel) (d : Cursor)
    (fuel' : Nat) (hcut : c.CutTo d) (hfuel' : d.rest.length ≤ fuel') :
    Cropped (Shortened voices) d.last (readVoices rate fuel' d) := by
  induction fuel generalizing c voices d fuel' with
  | zero =>
    have hnil : c.rest = [] := List.eq_nil_of_length_eq_zero (Nat.le_zero.mp hfuel)
    exact cropped_nil _ _ _ (hcut.nil hnil)
  | succ fuel ih =>
    by_cases hend : d.rest = []
    · exact cropped_nil _ _ _ hend
    · have hfuelled : fuel' ≠ 0 := by
        rintro rfl
        exact hend (List.eq_nil_of_length_eq_zero (Nat.le_zero.mp hfuel'))
      obtain ⟨fuel', rfl⟩ := Nat.exists_eq_succ_of_ne_zero hfuelled
      rw [readVoices_succ rate fuel (mt hcut.nil hend)] at h
      obtain ⟨⟨voice, c₁⟩, hvoice, h⟩ := bind_eq_ok.mp h
      obtain ⟨more, hmore, h⟩ := bind_eq_ok.mp h
      cases h
      obtain ⟨hpasses, hoffset, hends⟩ := readVoice_cut rate hvoice
      have hleft := hpasses.length_lt hoffset
      rw [Nat.succ_eq_add_one, readVoices_succ rate fuel' hend]
      rcases hends d hcut with hnoticed | ⟨_, d₁, hd₁, ⟨chain, hchain, rfl⟩, hend₁⟩
      · refine hnoticed.bind (fun _ => .truncated) fun d₁ hcut₁ hd₁ => .earlier hd₁ ?_
        have hleft' := hd₁.length_lt (hcut.offset ▸ hcut₁.offset ▸ hoffset)
        exact (ih hmore (by omega) d₁ fuel' hcut₁ (by omega)).map
          (fun voices => if voice.isSilent then voices else voice :: voices) fun _ => .keep voice
      · rw [hd₁, ok_bind]
        dsimp only
        rw [readVoices_nil rate fuel' hend₁]
        exact .inr ⟨_, rfl, .keep_last voice more hchain⟩

/-! ### Programs -/

def readBody (rate : UInt32) (c : Cursor) : Except DecodeError Program := do
  let (ms, c) ← c.word
  let (master, c) ← readFixed88 c
  let voices ← readVoices rate c.rest.length c
  return { frames := framesOfDuration rate ms, master, voices }

theorem header_of_decode {rate : UInt32} {bytes : Bytes} {program : Program}
    (h : Program.decode rate bytes = .ok program) :
    ¬bytes.length < headerLength ∧ bytes.take 2 = signature := by
  unfold Program.decode at h
  split at h
  next => cases h
  next hlong =>
    split at h
    next => cases h
    next hsigned => exact ⟨hlong, not_not.mp hsigned⟩

theorem decode_eq_readBody (rate : UInt32) {bytes : Bytes} (hlong : ¬bytes.length < headerLength)
    (hsigned : bytes.take 2 = signature) :
    Program.decode rate bytes = readBody rate ⟨bytes.drop 2, 2⟩ := by
  rw [Program.decode, if_neg hlong, if_neg (not_not_intro hsigned)]
  rfl

theorem readBody_cut (rate : UInt32) {c : Cursor} {program : Program}
    (h : readBody rate c = .ok program) (d : Cursor) (hcut : c.CutTo d) :
    Cropped (fun p => ∃ voices, p = { program with voices } ∧ Shortened program.voices voices)
      d.last (readBody rate d) := by
  obtain ⟨⟨ms, c₁⟩, hms, h⟩ := bind_eq_ok.mp h
  obtain ⟨⟨master, c₂⟩, hmaster, h⟩ := bind_eq_ok.mp h
  obtain ⟨voices, hvoices, h⟩ := bind_eq_ok.mp h
  cases h
  unfold readBody
  refine ((word _ _ _ hms).2 d hcut).bind (fun _ => .truncated) fun d₁ hcut₁ hd₁ => .earlier hd₁ ?_
  refine ((steady_fixed88 _ _ _ hmaster).2 d₁ hcut₁).bind (fun _ => .truncated)
    fun d₂ hcut₂ hd₂ => .earlier hd₂ ?_
  exact (readVoices_cut rate hvoices (Nat.le_refl _) d₂ _ hcut₂ (Nat.le_refl _)).map
    (fun voices => (⟨framesOfDuration rate ms, master, voices⟩ : Program))
    fun front hfront => ⟨front, rfl, hfront⟩

/-- What is left of a program that can be decoded when its data is cut short: data is truncated, and
the place of this is within what is left, or there is a program with the same frames and master and
with the first voices, of which the last may end within its chain. -/
theorem decode_take (rate : UInt32) (bytes : Bytes) (program : Program) (k : Nat)
    (h : Program.decode rate bytes = .ok program) :
    (∃ p, Program.decode rate (bytes.take k) = .error (.truncated p) ∧ p ≤ k)
      ∨ ∃ voices, Program.decode rate (bytes.take k) = .ok { program with voices }
        ∧ Shortened program.voices voices := by
  have hlength : (bytes.take k).length ≤ k := List.length_take_le k bytes
  by_cases hshort : (bytes.take k).length < headerLength
  · exact .inl ⟨_, if_pos hshort, hlength⟩
  · have hk : headerLength ≤ k := (Nat.le_of_not_lt hshort).trans hlength
    obtain ⟨hlong, hsigned⟩ := header_of_decode h
    rw [decode_eq_readBody rate hlong hsigned] at h
    have hsigned' : (bytes.take k).take 2 = signature := by
      rw [List.take_take, Nat.min_eq_left (le_trans (by decide) hk), hsigned]
    have hcut : Cursor.CutTo ⟨bytes.drop 2, 2⟩ ⟨(bytes.take k).drop 2, 2⟩ :=
      ⟨rfl, (List.take_prefix k bytes).drop 2⟩
    have hlast : Cursor.last ⟨(bytes.take k).drop 2, 2⟩ ≤ k := by
      simp only [Cursor.last, List.length_drop]
      unfold headerLength at hshort
      omega
    rw [decode_eq_readBody rate hshort hsigned']
    rcases readBody_cut rate h _ hcut with ⟨p, hread, hp⟩ | ⟨_, hread, voices, rfl, hvoices⟩
    · exact .inl ⟨p, hread, hp.trans hlast⟩
    · exact .inr ⟨voices, hread, hvoices⟩

/-- A voice with a gain and a clip, cut short behind its gain. -/
theorem decode_take_behind_gain :
    ∃ program, Program.decode 8000 [0xeb, 0xeb, 0, 100, 1, 0, 0, 2, 1, 0, 3, 0xff, 0] = .ok program
      ∧ ((∃ p, Program.decode 8000 [0xeb, 0xeb, 0, 100, 1, 0, 0, 2, 1, 0] = .error (.truncated p)
          ∧ p ≤ 10)
        ∨ ∃ voices, Program.decode 8000 [0xeb, 0xeb, 0, 100, 1, 0, 0, 2, 1, 0]
            = .ok { program with voices } ∧ Shortened program.voices voices) :=
  ⟨_, rfl, decode_take 8000 [0xeb, 0xeb, 0, 100, 1, 0, 0, 2, 1, 0, 3, 0xff, 0] _ 10 rfl⟩

end Sound

end Tonewheel
