import Tonewheel.Proofs.Reading
import Tonewheel.Sound.Program

/-!
# Scripts as programs

What a script stands for at a rate can be said without its bytes (`Script.program`): a ramp for each
curve, a stage for each process, a voice for each voice that is not silent. The bytes of a script
are read back as exactly that (`decode_encode`), whether or not the last voice is closed.
-/

namespace Tonewheel.Sound

/-! ### Curves -/

def valueOfFixed88 (w : UInt16) : Float32 := (w >>> 8).toFloat32 + (w &&& 0xff).toFloat32 / 256

theorem reads_fixed88 (w : UInt16) : Reads readFixed88 (bytesOfWord w) (valueOfFixed88 w) :=
  (Reads.word w).map valueOfFixed88

def Breakpoint.target (rate : UInt32) (scale : Float32) (p : Breakpoint) : Target :=
  { frames := Ramp.framesOfMs rate p.ms, value := p.value.toFloat32 * scale }

def Curve.ramp (rate : UInt32) (scale : Float32) (c : Curve) : Ramp :=
  Ramp.toward (c.start.toFloat32 * scale) (c.points.map (Breakpoint.target rate scale))

theorem toNat_count (n : Nat) (h : n ≤ 255) : n.toUInt8.toNat = n :=
  Nat.mod_eq_of_lt (Nat.lt_of_le_of_lt h (by decide))

theorem reads_targets (rate : UInt32) (scale : Float32) (points : List Breakpoint) :
    Reads (Ramp.readTargets rate scale points.length)
      (points.flatMap fun p => bytesOfWord p.ms ++ bytesOfWord p.value)
      (points.map (Breakpoint.target rate scale)) := by
  induction points with
  | nil => exact Reads.ok []
  | cons p points ih =>
    have hrest := (Reads.word p.value).pair ih fun value targets =>
      (Breakpoint.mk p.ms value).target rate scale :: targets
    have hpoint := (Reads.word p.ms).bind
      (fun ms c => c.word >>= fun r => Ramp.readTargets rate scale points.length r.2 >>= fun s =>
        .ok ((Breakpoint.mk ms r.1).target rate scale :: s.1, s.2))
      hrest
    rw [← List.append_assoc] at hpoint
    exact hpoint

theorem reads_curve (rate : UInt32) (scale : Float32) (c : Curve) :
    Reads (Ramp.read rate scale) c.encode (c.ramp rate scale) := by
  have htargets := reads_targets rate scale c.points
  rw [← toNat_count c.points.length c.length_le] at htargets
  have hcount := (Reads.byte c.points.length.toUInt8).bind
    (fun count c' => Ramp.readTargets rate scale count.toNat c' >>= fun r =>
      .ok (Ramp.toward (c.start.toFloat32 * scale) r.1, r.2))
    (htargets.map _)
  exact (Reads.word c.start).bind
    (fun start c' => c'.byte >>= fun r => Ramp.readTargets rate scale r.1.toNat r.2 >>= fun s =>
      .ok (Ramp.toward (start.toFloat32 * scale) s.1, s.2))
    hcount

/-! ### Chains -/

def Process.stage (rate : UInt32) : Process → ChainStage
  | .level curve => .level (curve.ramp rate (1 / 65535))
  | .gain factor => .gain (valueOfFixed88 factor)
  | .clip limit => .clip (unitOfByte limit)
  | .delay ms dry wet store feedback =>
    .delay (Tape.withCoefficients (max 1 (ms.toNat * rate.toNat / 1000)) (unitOfByte dry)
      (unitOfByte wet) (unitOfByte store) (unitOfByte feedback))
  | .bandPass mid width =>
    .filter (.ofWeights (.bandPass (relativeFrequency rate mid) (relativeFrequency rate width)))
  | .notch mid width =>
    .filter (.ofWeights (.notch (relativeFrequency rate mid) (relativeFrequency rate width)))
  | .lowPass freq => .filter (.ofWeights (.lowPass (relativeFrequency rate freq)))
  | .highPass freq => .filter (.ofWeights (.highPass (relativeFrequency rate freq)))

/-- Every process is an operation code that does not close a chain, and operands of a stage. -/
theorem encode_process (rate : UInt32) (p : Process) :
    ∃ opcode operands, p.encode = opcode :: operands ∧ opcode ≠ 0
      ∧ Reads (readStage rate opcode) operands (p.stage rate) := by
  cases p with
  | level curve =>
    exact ⟨0x01, _, rfl, by decide, (reads_curve rate _ curve).map ChainStage.level⟩
  | gain factor => exact ⟨0x02, _, rfl, by decide, (reads_fixed88 factor).map ChainStage.gain⟩
  | clip limit =>
    have hlimit := (Reads.byte limit).map fun b => ChainStage.clip (unitOfByte b)
    exact ⟨0x03, _, rfl, by decide, hlimit⟩
  | delay ms dry wet store feedback =>
    have hunits := (Reads.word ms).pair (Reads.take [dry, wet, store, feedback]) fun ms unit =>
      ChainStage.delay (Tape.withCoefficients (max 1 (ms.toNat * rate.toNat / 1000))
        (unitOfByte (unit.getD 0 0)) (unitOfByte (unit.getD 1 0)) (unitOfByte (unit.getD 2 0))
        (unitOfByte (unit.getD 3 0)))
    exact ⟨0x04, _, rfl, by decide, hunits⟩
  | bandPass mid width =>
    have hband := (Reads.word mid).pair (Reads.word width) fun mid width =>
      ChainStage.filter (.ofWeights (.bandPass (relativeFrequency rate mid)
        (relativeFrequency rate width)))
    exact ⟨0x05, _, rfl, by decide, hband⟩
  | notch mid width =>
    have hband := (Reads.word mid).pair (Reads.word width) fun mid width =>
      ChainStage.filter (.ofWeights (.notch (relativeFrequency rate mid)
        (relativeFrequency rate width)))
    exact ⟨0x06, _, rfl, by decide, hband⟩
  | lowPass freq =>
    have hfreq := (Reads.word freq).map fun w =>
      ChainStage.filter (.ofWeights (.lowPass (relativeFrequency rate w)))
    exact ⟨0x07, _, rfl, by decide, hfreq⟩
  | highPass freq =>
    have hfreq := (Reads.word freq).map fun w =>
      ChainStage.filter (.ofWeights (.highPass (relativeFrequency rate w)))
    exact ⟨0x08, _, rfl, by decide, hfreq⟩

/-- What may stand behind a chain: its closing byte with `rest` after it, or the end of data. -/
def EndsChain (tail rest : Bytes) : Prop := tail = 0 :: rest ∨ tail = [] ∧ rest = []

theorem readChain_end (rate : UInt32) (tail rest : Bytes) (hends : EndsChain tail rest)
    (fuel offset : Nat) (hfuel : tail.length ≤ fuel) :
    ∃ offset', readChain rate fuel ⟨tail, offset⟩ = .ok ([], ⟨rest, offset'⟩) := by
  rcases hends with rfl | ⟨rfl, rfl⟩
  · cases fuel with
    | zero => exact absurd hfuel (by simp)
    | succ fuel => exact ⟨offset + 1, rfl⟩
  · cases fuel with
    | zero => exact ⟨offset, rfl⟩
    | succ fuel => exact ⟨offset, rfl⟩

theorem readChain_encode (rate : UInt32) (chain : List Process) (tail rest : Bytes)
    (hends : EndsChain tail rest) (fuel offset : Nat)
    (hfuel : (chain.flatMap Process.encode ++ tail).length ≤ fuel) :
    ∃ offset', readChain rate fuel ⟨chain.flatMap Process.encode ++ tail, offset⟩
      = .ok (chain.map (Process.stage rate), ⟨rest, offset'⟩) := by
  induction chain generalizing fuel offset with
  | nil => exact readChain_end rate tail rest hends fuel offset hfuel
  | cons p chain ih =>
    obtain ⟨opcode, operands, hencode, hopcode, hstage⟩ := encode_process rate p
    have hbytes : (p :: chain).flatMap Process.encode ++ tail
        = opcode :: (operands ++ (chain.flatMap Process.encode ++ tail)) := by
      rw [List.flatMap_cons, hencode, List.cons_append, List.cons_append, List.append_assoc]
    rw [hbytes] at hfuel ⊢
    cases fuel with
    | zero => exact absurd hfuel (by simp)
    | succ fuel =>
      have hrest : (chain.flatMap Process.encode ++ tail).length ≤ fuel := by
        simp only [List.length_cons, List.length_append] at hfuel ⊢
        omega
      obtain ⟨offset', hread⟩ := ih fuel (offset + 1 + operands.length) hrest
      refine ⟨offset', ?_⟩
      rw [readChain]
      simp only [if_neg hopcode]
      rw [hstage, ok_bind, hread]
      rfl

/-! ### Oscillators -/

def Waveform.shape? : Waveform → Option Shape
  | .sine => some .sine
  | .square => some .square
  | .sawUp => some .sawUp
  | .sawDown => some .sawDown
  | .triangle => some .triangle
  | .noise => none
  | .silence => none

def Sweep.swing (rate : UInt32) (s : Sweep) : RateSwing :=
  { phase := 0
    stride := valueOfFixed88 s.rate * Single.tau / rate.toFloat32
    range := s.cents.toFloat32 / 1200 }

namespace Oscillator

def waveform (o : Oscillator) : Waveform := o.shape.getD .sine

def wave (o : Oscillator) : Wave :=
  match o.waveform.shape?, o.harmonics with
  | none, _ => .silent
  | some s, none => .ofShape s
  | some s, some h =>
    if h.coefficients.isEmpty then .ofShape s else (Wave.ofShape s).withHarmonics h.coefficients

def modulation (o : Oscillator) : Float32 × Float32 :=
  o.fm.elim (0, 1) fun m => (valueOfFixed88 m.rate * Single.tau, valueOfFixed88 m.range)

def depthRamp (rate : UInt32) (o : Oscillator) : Ramp :=
  o.fmCurve.elim (Ramp.hold o.modulation.2) (Curve.ramp rate (o.modulation.2 / 65535))

/-- The course of the carrier rate, 440 Hz if none is given. -/
def rateRamp (rate : UInt32) (o : Oscillator) : Ramp :=
  o.rate.elim (Ramp.hold (440 / rate.toFloat32)) (Curve.ramp rate (1 / rate.toFloat32))

def swing (rate : UInt32) (o : Oscillator) : Option RateSwing :=
  o.rateSweep.elim none fun s => some (s.swing rate)

def generator (rate : UInt32) (o : Oscillator) : Generator :=
  match o.waveform with
  | .noise => .noise
  | .silence => .silent
  | _ =>
    match o.swing rate with
    | some swing => .swinging swing
    | none =>
      if (o.rateRamp rate).targets.isEmpty && !o.fm.isSome then
        .flat 0 ((o.rateRamp rate).value * 4294967296).toUInt32
      else .modulated

end Oscillator

def featureBits (shape harmonics fm fmCurve rate rateSweep : Bool) : UInt8 :=
  let bits : UInt8 := if shape then 0 ||| Feature.shape.bit else 0
  let bits := if harmonics then bits ||| Feature.harmonics.bit else bits
  let bits := if fm then bits ||| Feature.fm.bit else bits
  let bits := if fmCurve then bits ||| Feature.fmCurve.bit else bits
  let bits := if rate then bits ||| Feature.rate.bit else bits
  if rateSweep then bits ||| Feature.rateSweep.bit else bits

theorem announces_featureBits : ∀ a b c d e f : Bool,
    announces (featureBits a b c d e f) .shape = a
      ∧ announces (featureBits a b c d e f) .harmonics = b
      ∧ announces (featureBits a b c d e f) .fm = c
      ∧ announces (featureBits a b c d e f) .fmCurve = d
      ∧ announces (featureBits a b c d e f) .rate = e
      ∧ announces (featureBits a b c d e f) .rateSweep = f
      ∧ unknownFeatures (featureBits a b c d e f) = 0 := by
  decide

theorem features_eq (o : Oscillator) :
    o.features = featureBits o.shape.isSome o.harmonics.isSome o.fm.isSome o.fmCurve.isSome
      o.rate.isSome o.rateSweep.isSome := rfl

theorem announces_features (o : Oscillator) (f : Feature) :
    announces o.features f = o.has f := by
  obtain ⟨hshape, hharmonics, hfm, hfmCurve, hrate, hrateSweep, -⟩ :=
    announces_featureBits o.shape.isSome o.harmonics.isSome o.fm.isSome o.fmCurve.isSome
      o.rate.isSome o.rateSweep.isSome
  rw [features_eq]
  cases f with
  | shape => exact hshape
  | harmonics => exact hharmonics
  | fm => exact hfm
  | fmCurve => exact hfmCurve
  | rate => exact hrate
  | rateSweep => exact hrateSweep

theorem unknownFeatures_features (o : Oscillator) : unknownFeatures o.features = 0 := by
  rw [features_eq]
  exact (announces_featureBits _ _ _ _ _ _).2.2.2.2.2.2

theorem reads_field {α β : Type} (field : Option α) (default : β) (encode : α → Bytes)
    (reader : Cursor → Except DecodeError (β × Cursor)) (value : α → β)
    (h : ∀ a, Reads reader (encode a) (value a)) :
    Reads (readIf field.isSome default reader) (fieldBytes encode field)
      (field.elim default value) := by
  cases field with
  | none => exact Reads.ok default
  | some a => exact h a

theorem reads_shape (o : Oscillator) :
    Reads (readIf o.shape.isSome 0 Cursor.byte)
      (fieldBytes (fun w : Waveform => [w.code]) o.shape) (o.shape.elim 0 Waveform.code) :=
  reads_field _ _ _ _ _ fun w => Reads.byte w.code

theorem reads_coefficients (h : Harmonics) : Reads readCoefficients h.encode h.coefficients := by
  have htake := Reads.take h.coefficients
  rw [← toNat_count h.coefficients.length h.length_le] at htake
  exact (Reads.byte h.coefficients.length.toUInt8).bind (fun count c => c.take count.toNat) htake

theorem reads_harmonics (o : Oscillator) :
    Reads (readIf o.harmonics.isSome [] readCoefficients)
      (fieldBytes Harmonics.encode o.harmonics) (o.harmonics.elim [] Harmonics.coefficients) :=
  reads_field _ _ _ _ _ reads_coefficients

theorem reads_fm (o : Oscillator) :
    Reads (readIf o.fm.isSome (0, 1) readModulation)
      (fieldBytes (fun m : Modulation => bytesOfWord m.rate ++ bytesOfWord m.range) o.fm)
      o.modulation :=
  reads_field _ _ _ _ _ fun m => (reads_fixed88 m.rate).pair (reads_fixed88 m.range)
    fun rate range => (rate * Single.tau, range)

theorem reads_fmCurve (rate : UInt32) (o : Oscillator) :
    Reads (readIf o.fmCurve.isSome (Ramp.hold o.modulation.2)
        (Ramp.read rate (o.modulation.2 / 65535)))
      (fieldBytes Curve.encode o.fmCurve) (o.depthRamp rate) :=
  reads_field _ _ _ _ _ (reads_curve rate _)

theorem reads_rate (rate : UInt32) (o : Oscillator) :
    Reads (readIf o.rate.isSome (Ramp.hold (440 / rate.toFloat32))
        (Ramp.read rate (1 / rate.toFloat32)))
      (fieldBytes Curve.encode o.rate) (o.rateRamp rate) :=
  reads_field _ _ _ _ _ (reads_curve rate _)

theorem reads_rateSweep (rate : UInt32) (o : Oscillator) :
    Reads (readIf o.rateSweep.isSome none (readSwing rate))
      (fieldBytes (fun s : Sweep => bytesOfWord s.rate ++ bytesOfWord s.cents) o.rateSweep)
      (o.swing rate) :=
  reads_field _ _ _ _ _ fun s => (reads_fixed88 s.rate).pair (Reads.word s.cents)
    fun hz cents => some (RateSwing.mk 0 (hz * Single.tau / rate.toFloat32)
      (cents.toFloat32 / 1200))

theorem chooseGenerator_eq (rate : UInt32) (o : Oscillator) :
    chooseGenerator (o.shape.elim 0 Waveform.code) (o.harmonics.elim [] Harmonics.coefficients)
        (o.swing rate) (o.rateRamp rate) o.fm.isSome
      = .ok (o.wave, o.generator rate) := by
  have hcode : o.shape.elim 0 Waveform.code = o.waveform.code := by
    rw [Oscillator.waveform]
    cases o.shape <;> rfl
  rw [hcode, Oscillator.wave, Oscillator.generator]
  cases o.waveform <;> cases o.harmonics <;> rfl

/-! ### Voices -/

def VoiceScript.voice (rate : UInt32) (v : VoiceScript) : Voice :=
  { generator := v.oscillator.generator rate
    chain := v.chain.map (Process.stage rate)
    carrier :=
      { wave := v.oscillator.wave
        rate := v.oscillator.rateRamp rate
        range := v.oscillator.depthRamp rate
        modulatorRate := v.oscillator.modulation.1 } }

theorem encode_voice (v : VoiceScript) (tail : Bytes) :
    v.encode ++ tail
      = [v.oscillator.features]
        ++ (fieldBytes (fun w : Waveform => [w.code]) v.oscillator.shape
        ++ (fieldBytes Harmonics.encode v.oscillator.harmonics
        ++ (fieldBytes (fun m : Modulation => bytesOfWord m.rate ++ bytesOfWord m.range)
              v.oscillator.fm
        ++ (fieldBytes Curve.encode v.oscillator.fmCurve
        ++ (fieldBytes Curve.encode v.oscillator.rate
        ++ (fieldBytes (fun s : Sweep => bytesOfWord s.rate ++ bytesOfWord s.cents)
              v.oscillator.rateSweep
        ++ (v.chain.flatMap Process.encode ++ tail))))))) := by
  simp only [VoiceScript.encode, Oscillator.encode, List.append_assoc, List.cons_append,
    List.nil_append]

theorem readVoice_encode (rate : UInt32) (v : VoiceScript) (tail rest : Bytes)
    (hends : EndsChain tail rest) (offset : Nat) :
    ∃ offset', readVoice rate ⟨v.encode ++ tail, offset⟩
      = .ok (v.voice rate, ⟨rest, offset'⟩) := by
  rw [encode_voice, readVoice, Reads.byte, ok_bind]
  simp only [announces_features, Oscillator.has, unknownFeatures_features]
  rw [reads_shape, ok_bind, reads_harmonics, ok_bind, reads_fm, ok_bind]
  dsimp only
  rw [reads_fmCurve, ok_bind, reads_rate, ok_bind, reads_rateSweep, ok_bind]
  simp only [ne_eq, not_true_eq_false, if_false]
  rw [chooseGenerator_eq, ok_bind]
  dsimp only
  obtain ⟨offset', hchain⟩ := readChain_encode rate v.chain tail rest hends _ _ (Nat.le_refl _)
  rw [hchain, ok_bind]
  exact ⟨offset', rfl⟩

def VoiceScript.isAudible (v : VoiceScript) : Bool := v.oscillator.waveform != .silence

theorem isSilent_voice (rate : UInt32) (v : VoiceScript) :
    (v.voice rate).isSilent = !v.isAudible := by
  have hgenerator : (v.voice rate).generator = v.oscillator.generator rate := rfl
  rw [VoiceScript.isAudible, Voice.isSilent, hgenerator, Oscillator.generator]
  cases v.oscillator.waveform with
  | noise => rfl
  | silence => rfl
  | _ =>
    cases v.oscillator.swing rate with
    | some swing => rfl
    | none =>
      generalize ((v.oscillator.rateRamp rate).targets.isEmpty && !v.oscillator.fm.isSome) = plain
      cases plain <;> rfl

theorem readVoices_voice (rate : UInt32) (v : VoiceScript) (tail rest : Bytes)
    (hends : EndsChain tail rest) (fuel offset : Nat) :
    ∃ offset', readVoices rate (fuel + 1) ⟨v.encode ++ tail, offset⟩
      = (readVoices rate fuel ⟨rest, offset'⟩).map fun voices =>
          if v.isAudible then v.voice rate :: voices else voices := by
  obtain ⟨offset', hvoice⟩ := readVoice_encode rate v tail rest hends offset
  refine ⟨offset', ?_⟩
  have hsome : (v.encode ++ tail).isEmpty = false := rfl
  rw [readVoices]
  simp only [hsome, Bool.false_eq_true, if_false]
  rw [hvoice, ok_bind, isSilent_voice]
  cases readVoices rate fuel ⟨rest, offset'⟩ with
  | error e => rfl
  | ok voices => cases v.isAudible <;> rfl

def Script.sounding (rate : UInt32) (s : Script) : List Voice :=
  (s.voices.filter VoiceScript.isAudible).map (VoiceScript.voice rate)

theorem readVoices_unclosed (rate : UInt32) (unclosed : Option VoiceScript) (fuel offset : Nat)
    (hfuel : (fieldBytes VoiceScript.encode unclosed).length ≤ fuel) :
    readVoices rate fuel ⟨fieldBytes VoiceScript.encode unclosed, offset⟩
      = .ok ((unclosed.toList.filter VoiceScript.isAudible).map (VoiceScript.voice rate)) := by
  have hnone : ∀ fuel offset, readVoices rate fuel ⟨[], offset⟩ = .ok [] := by
    intro fuel offset
    cases fuel <;> rfl
  cases unclosed with
  | none => exact hnone fuel offset
  | some v =>
    cases fuel with
    | zero => exact absurd hfuel (by simp [fieldBytes, VoiceScript.encode, Oscillator.encode])
    | succ fuel =>
      obtain ⟨offset', hvoice⟩ := readVoices_voice rate v [] [] (.inr ⟨rfl, rfl⟩) fuel offset
      rw [List.append_nil, hnone] at hvoice
      rw [fieldBytes, hvoice]
      cases haudible : v.isAudible <;> simp [Except.map, haudible]

def closedBytes (closed : List VoiceScript) : Bytes := closed.flatMap fun v => v.encode ++ [0x00]

theorem readVoices_encode (rate : UInt32) (closed : List VoiceScript)
    (unclosed : Option VoiceScript) (fuel offset : Nat)
    (hfuel : (closedBytes closed ++ fieldBytes VoiceScript.encode unclosed).length ≤ fuel) :
    readVoices rate fuel ⟨closedBytes closed ++ fieldBytes VoiceScript.encode unclosed, offset⟩
      = .ok (((closed ++ unclosed.toList).filter VoiceScript.isAudible).map
          (VoiceScript.voice rate)) := by
  induction closed generalizing fuel offset with
  | nil => exact readVoices_unclosed rate unclosed fuel offset hfuel
  | cons v closed ih =>
    have hbytes : closedBytes (v :: closed) ++ fieldBytes VoiceScript.encode unclosed
        = v.encode ++ 0x00 :: (closedBytes closed ++ fieldBytes VoiceScript.encode unclosed) := by
      simp only [closedBytes, List.flatMap_cons, List.append_assoc, List.cons_append,
        List.nil_append]
    rw [hbytes] at hfuel ⊢
    cases fuel with
    | zero => exact absurd hfuel (by simp)
    | succ fuel =>
      have hrest : (closedBytes closed ++ fieldBytes VoiceScript.encode unclosed).length
          ≤ fuel := by
        rw [List.length_append, List.length_cons] at hfuel
        omega
      obtain ⟨offset', hvoice⟩ := readVoices_voice rate v _ _ (.inl rfl) fuel offset
      rw [hvoice, ih fuel offset' hrest, List.cons_append]
      cases haudible : v.isAudible <;> simp [Except.map, haudible]

/-! ### Programs -/

def Script.program (rate : UInt32) (s : Script) : Program :=
  { frames := framesOfDuration rate s.duration.toUInt16
    master := valueOfFixed88 s.master
    voices := s.sounding rate }

theorem decode_encode (rate : UInt32) (s : Script) :
    Program.decode rate s.encode = .ok (s.program rate) := by
  have hbytes : s.encode = signature ++ (bytesOfWord s.duration.toUInt16 ++ (bytesOfWord s.master
      ++ (closedBytes s.closed ++ fieldBytes VoiceScript.encode s.unclosed))) := by
    simp only [Script.encode, closedBytes, List.append_assoc]
  have hlong : ¬s.encode.length < headerLength := by
    rw [hbytes]
    simp only [List.length_append, signature, bytesOfWord, List.length_cons, headerLength]
    omega
  have hsigned : s.encode.take 2 = signature := by
    rw [hbytes]
    rfl
  have hdrop : s.encode.drop 2 = bytesOfWord s.duration.toUInt16 ++ (bytesOfWord s.master
      ++ (closedBytes s.closed ++ fieldBytes VoiceScript.encode s.unclosed)) := by
    rw [hbytes]
    rfl
  rw [Program.decode, if_neg hlong, if_neg (not_not_intro hsigned), hdrop]
  rw [Reads.word, ok_bind]
  dsimp only
  rw [reads_fixed88, ok_bind]
  dsimp only
  rw [readVoices_encode rate s.closed s.unclosed _ _ (Nat.le_refl _), ok_bind]
  rfl

end Tonewheel.Sound
