import Tonewheel.Proofs.Signal.Finishing
import Tonewheel.Proofs.Sounding.Parts

/-!
# How voices retire (SPEC_FULL, section 4.4)

A voice that is let go is defunct once it has made the frames of its tail, which is what attack,
decay and release of its loudness take, or one frame for a blip (`Voice.retires`). What carries the
bound is the count of the frames that a voice has left: rendering takes the frames it makes from the
count (`Voice.framesLeft_render`), bends leave it, and letting go brings it down to the tail.
-/

namespace Tonewheel

/-- The most steps that an envelope takes after it is let go. -/
def Contour.tail (c : Contour) : Nat :=
  c.attackTime.toNat + c.decayTime.toNat + c.releaseTime.toNat + 5

theorem Contour.Fits.tail_eq {c : Contour} (h : c.Fits) :
    (c.tail : Int) = c.attackTime + c.decayTime + c.releaseTime + 5 := by
  have hattack := (h .attack).1
  have hdecay := (h .decay).1
  have hrelease := (h .release).1
  simp only [Contour.timeOf] at hattack hdecay hrelease
  unfold Contour.tail
  omega

theorem Envelope.Walks.render {e : Envelope} {c : Contour} (h : e.Walks c) (n : Nat) :
    (e.render n).2.Walks c := by
  induction n generalizing e with
  | zero => exact h
  | succ n ih =>
    have hrest := ih h.step
    unfold Envelope.render at hrest ⊢
    rwa [Block.generate_succ]

/-- The dynamics of a patch's loudness, none for blips and for patches without voices. -/
def Patch.level? : Patch → Option Dynamics
  | .drum _ | .blip | .effect _ => none
  | .wave _ level | .rock _ level _ | .fmRelative level _ _ | .fmAbsolute level _ _
  | .sub level _ _ _ => some level

theorem Patch.level?_ofDefinition {rate : UInt32} {notes : NoteTable} {definition : Definition}
    {patch : Patch} (h : ofDefinition rate notes definition = some patch) {d : Dynamics}
    (hlevel : patch.level? = some d) : ∃ descriptor, d = .ofDescriptor rate descriptor := by
  cases definition <;> cases h <;> cases hlevel <;> exact ⟨_, rfl⟩

/-! ### Tones -/

namespace Tone

/-- The frames after which a tone that is let go has run out. -/
def tail (tone : Tone) : Nat :=
  match tone.level? with
  | none => 1
  | some level => level.contour.tail

/-- The frames after which a tone has run out, if it is not let go before. A blip has to miss one. -/
def framesLeft : Tone → Nat
  | .blip left _ => left.toNat + 1
  | .wave _ level | .rock _ level _ | .fm level _ _ _ | .sub level _ _ => level.stepsLeft

theorem framesLeft_of_level? {tone : Tone} {level : Envelope} (h : tone.level? = some level) :
    tone.framesLeft = level.stepsLeft ∧ tone.release.framesLeft = level.release.stepsLeft := by
  cases tone <;> cases h <;> exact ⟨rfl, rfl⟩

/-- Whether a tone runs out within a number of frames, at whatever time it is let go. -/
structure EndsIn (tone : Tone) (frames : Nat) : Prop where
  pos : 1 ≤ frames
  level : ∀ level ∈ tone.level?, ∃ c : Contour, level.Walks c ∧ c.tail ≤ frames

theorem level?_release (tone : Tone) : tone.release.level? = tone.level?.map Envelope.release := by
  cases tone <;> rfl

theorem EndsIn.of_level? {tone tone' : Tone} {frames : Nat} (h : tone.EndsIn frames)
    {f : Envelope → Envelope} (hlevel : tone'.level? = tone.level?.map f)
    (hf : ∀ (e : Envelope) (c : Contour), e.Walks c → (f e).Walks c) : tone'.EndsIn frames := by
  refine ⟨h.pos, fun level hafter => ?_⟩
  rw [hlevel] at hafter
  obtain ⟨before, hbefore, rfl⟩ := Option.map_eq_some_iff.mp hafter
  obtain ⟨c, hwalks, htail⟩ := h.level before hbefore
  exact ⟨c, hf before c hwalks, htail⟩

theorem EndsIn.release {tone : Tone} {frames : Nat} (h : tone.EndsIn frames) :
    tone.release.EndsIn frames :=
  h.of_level? tone.level?_release fun _ _ hwalks => hwalks.release

theorem EndsIn.generate {tone : Tone} {frames : Nat} (h : tone.EndsIn frames) (sine : Wave)
    (stride phase : UInt32) (noise : Noise) (n : Nat) :
    (Block.generate (step sine stride) n ⟨tone, phase, noise⟩).2.tone.EndsIn frames :=
  h.of_level? (level?_generate sine stride n ⟨tone, phase, noise⟩) fun _ _ hwalks => hwalks.render n

/-- A tone that is let go has not more left than its tail, and it does not run out by that alone. -/
theorem EndsIn.framesLeft_release {tone : Tone} {frames : Nat} (h : tone.EndsIn frames) :
    tone.release.framesLeft ≤ frames := by
  cases hlevel : tone.level? with
  | none =>
    obtain ⟨left, amount, rfl⟩ := Voice.exists_blip_of_level? hlevel
    exact h.pos
  | some level =>
    obtain ⟨c, hwalks, htail⟩ := h.level level hlevel
    have hrelease := hwalks.stepsLeft_release_le
    rw [(framesLeft_of_level? hlevel).2]
    unfold Contour.tail at htail
    omega

theorem framesLeft_release_pos {tone : Tone} (h : 0 < tone.framesLeft) :
    0 < tone.release.framesLeft := by
  cases hlevel : tone.level? with
  | none =>
    obtain ⟨left, amount, rfl⟩ := Voice.exists_blip_of_level? hlevel
    exact Nat.one_pos
  | some level =>
    rw [(framesLeft_of_level? hlevel).1] at h
    rw [(framesLeft_of_level? hlevel).2]
    refine Nat.pos_of_ne_zero fun hzero => Nat.ne_of_gt h (Envelope.stepsLeft_eq_zero.mpr ?_)
    have hfinished := Envelope.stepsLeft_eq_zero.mp hzero
    unfold Envelope.release at hfinished
    cases hstage : level.stage <;> simp [hstage] at hfinished ⊢

theorem framesLeft_release_le_self (tone : Tone) : tone.release.framesLeft ≤ tone.framesLeft := by
  cases tone with
  | blip left amount => exact Nat.succ_le_succ (Nat.zero_le _)
  | wave table level | rock table level mix | fm level range phase stride | sub level first second =>
    exact level.stepsLeft_release_le

variable {c : Channel} {notes : NoteTable} {rate : UInt32} {note velocity : UInt8} {duration : Int}
  {tone : Tone}

theorem level?_ofNote (h : ofNote c notes rate note velocity duration = some tone)
    {level : Envelope} (hlevel : tone.level? = some level) :
    ∃ d, c.patch.level? = some d
      ∧ ∃ gain, level = (Envelope.ofNote d velocity duration).scale gain := by
  unfold ofNote at h
  split at h <;> cases h <;> cases hlevel
  all_goals
    next hpatch =>
      rw [hpatch]
      exact ⟨_, rfl, _, rfl⟩

theorem endsIn_ofNote (h : ofNote c notes rate note velocity duration = some tone) :
    0 < tone.framesLeft ∧ tone.EndsIn tone.tail := by
  cases hlevel : tone.level? with
  | none =>
    obtain ⟨left, amount, rfl⟩ := Voice.exists_blip_of_level? hlevel
    exact ⟨Nat.succ_pos _, Nat.le_refl 1, fun level hlevel => by cases hlevel⟩
  | some level =>
    have htail : tone.tail = level.contour.tail := by rw [tail, hlevel]
    obtain ⟨d, -, gain, rfl⟩ := level?_ofNote h hlevel
    rw [(framesLeft_of_level? hlevel).1, htail]
    refine ⟨Nat.pos_of_ne_zero fun hzero => ?_, Nat.succ_pos _, fun level' hlevel' => ?_⟩
    · cases Envelope.stepsLeft_eq_zero.mp hzero
    · cases hlevel.symm.trans hlevel'
      exact ⟨_, Envelope.Walks.ofContour _, Nat.le_refl _⟩

theorem tail_ofNote (h : ofNote c notes rate note velocity duration = some tone)
    {patchRate : UInt32} (hrate : Rate.isLegal patchRate = true) {patchNotes : NoteTable}
    {definition : Definition}
    (hpatch : Patch.ofDefinition patchRate patchNotes definition = some c.patch)
    {level : Envelope} (hlevel : tone.level? = some level) :
    (tone.tail : Int)
      = level.contour.attackTime + level.contour.decayTime + level.contour.releaseTime + 5 := by
  have htail : tone.tail = level.contour.tail := by rw [tail, hlevel]
  obtain ⟨d, hd, gain, rfl⟩ := level?_ofNote h hlevel
  obtain ⟨descriptor, rfl⟩ := Patch.level?_ofDefinition hpatch hd
  rw [htail]
  exact (Dynamics.fits_ofDescriptor hrate descriptor velocity).contour.tail_eq

end Tone

/-! ### Voices -/

namespace Voice

/-- What can happen to a voice. The noise is at another place each time, since other voices draw from
it in between. -/
inductive Move where
  | render (noise : Noise) (frames : Nat)
  | bend (amount : Float32)
  | release

def Move.frames : Move → Nat
  | .render _ frames => frames
  | .bend _ => 0
  | .release => 0

def framesOf (ms : List Move) : Nat := (ms.map Move.frames).sum

def move (sine : Wave) (v : Voice) : Move → Voice
  | .render noise frames => (v.render sine noise frames).2.1
  | .bend amount => v.setBend amount
  | .release => v.release

def moves (sine : Wave) (v : Voice) (ms : List Move) : Voice := ms.foldl (move sine) v

def framesLeft (v : Voice) : Nat := if v.isDefunct then 0 else v.tone.framesLeft

/-- What is true of a voice from its beginning on: its tone has not run out before it is defunct, and
has a tail. -/
structure Runs (v : Voice) (tail : Nat) : Prop where
  live : v.isDefunct = false → 0 < v.tone.framesLeft
  endsIn : v.tone.EndsIn tail

variable (sine : Wave) {v : Voice}

theorem moves_append (v : Voice) (ms more : List Move) :
    v.moves sine (ms ++ more) = (v.moves sine ms).moves sine more :=
  List.foldl_append

theorem framesLeft_eq_zero {tail : Nat} (h : v.Runs tail) :
    v.framesLeft = 0 ↔ v.isDefunct = true := by
  have hlive := h.live
  unfold framesLeft
  cases hdefunct : v.isDefunct with
  | true => simp
  | false => simpa using Nat.ne_of_gt (hlive hdefunct)

theorem framesLeft_render (noise : Noise) (n : Nat) :
    (v.render sine noise n).2.1.framesLeft = v.framesLeft - n := by
  cases hlive : v.isDefunct with
  | true =>
    rw [render_isDefunct sine noise hlive, framesLeft, if_pos hlive, Nat.zero_sub]
  | false =>
    have hleft : v.framesLeft = v.tone.framesLeft := by
      rw [framesLeft, if_neg (Bool.eq_false_iff.mp hlive)]
    cases hlevel : v.tone.level? with
    | none =>
      obtain ⟨left, amount, htone⟩ := exists_blip_of_level? hlevel
      rw [render_blip sine noise hlive htone, hleft, htone]
      simp only [framesLeft, Tone.framesLeft, decide_eq_true_eq]
      split <;> omega
    | some level =>
      have hafter := Tone.level?_generate sine v.stride n ⟨v.tone, v.phase, noise⟩
      simp only [hlevel, Option.map_some] at hafter
      rw [render_sustained sine noise hlive hlevel, hleft, (Tone.framesLeft_of_level? hlevel).1,
        ← Envelope.stepsLeft_render]
      simp only [framesLeft, (Tone.framesLeft_of_level? hafter).1]
      split
      next hfinished => exact (Envelope.stepsLeft_eq_zero.mpr (eq_of_beq hfinished)).symm
      next => rfl

namespace Runs

variable {tail : Nat}

theorem setBend (h : v.Runs tail) (amount : Float32) : (v.setBend amount).Runs tail :=
  ⟨h.live, h.endsIn⟩

theorem release (h : v.Runs tail) : v.release.Runs tail :=
  ⟨fun hlive => Tone.framesLeft_release_pos (h.live hlive), h.endsIn.release⟩

theorem render (h : v.Runs tail) (noise : Noise) (n : Nat) :
    (v.render sine noise n).2.1.Runs tail := by
  cases hlive : v.isDefunct with
  | true => rwa [render_isDefunct sine noise hlive]
  | false =>
    cases hlevel : v.tone.level? with
    | none =>
      obtain ⟨left, amount, htone⟩ := exists_blip_of_level? hlevel
      rw [render_blip sine noise hlive htone]
      exact ⟨fun _ => Nat.succ_pos _, h.endsIn.pos, fun level hlevel => by cases hlevel⟩
    | some level =>
      have hafter := Tone.level?_generate sine v.stride n ⟨v.tone, v.phase, noise⟩
      simp only [hlevel, Option.map_some] at hafter
      rw [render_sustained sine noise hlive hlevel]
      refine ⟨fun hgoes => ?_, h.endsIn.generate sine v.stride v.phase noise n⟩
      rw [(Tone.framesLeft_of_level? hafter).1]
      refine Nat.pos_of_ne_zero fun hzero => ?_
      rw [Envelope.isFinished, Envelope.stepsLeft_eq_zero.mp hzero] at hgoes
      cases hgoes

theorem moves (h : v.Runs tail) (ms : List Move) : (v.moves sine ms).Runs tail := by
  induction ms generalizing v with
  | nil => exact h
  | cons m ms ih =>
    cases m with
    | render noise frames => exact ih (h.render sine noise frames)
    | bend amount => exact ih (h.setBend amount)
    | release => exact ih h.release

theorem framesLeft_release_le (h : v.Runs tail) : v.release.framesLeft ≤ tail := by
  unfold framesLeft
  split
  · exact Nat.zero_le _
  · exact h.endsIn.framesLeft_release

end Runs

theorem framesLeft_release_le_self (v : Voice) : v.release.framesLeft ≤ v.framesLeft := by
  have htone := v.tone.framesLeft_release_le_self
  have hlive : v.release.isDefunct = v.isDefunct := rfl
  unfold framesLeft
  rw [hlive]
  split
  · exact Nat.le_refl 0
  · exact htone

theorem framesLeft_moves_le (v : Voice) (ms : List Move) :
    (v.moves sine ms).framesLeft ≤ v.framesLeft - framesOf ms := by
  induction ms generalizing v with
  | nil => exact Nat.le_refl _
  | cons m ms ih =>
    have hrest := ih (v.move sine m)
    have hframes : framesOf (m :: ms) = m.frames + framesOf ms := List.sum_cons
    have hmove : (v.move sine m).framesLeft ≤ v.framesLeft - m.frames := by
      cases m with
      | render noise frames => exact Nat.le_of_eq (framesLeft_render sine noise frames)
      | bend amount => exact Nat.le_refl _
      | release => exact v.framesLeft_release_le_self
    rw [hframes]
    exact Nat.le_trans hrest (by omega)

section Begin

variable {c : Channel} {notes : NoteTable} {rate : UInt32} {note velocity : UInt8} {duration : Int}
  {born : Nat}

theorem ofNote_of_begin? (h : begin? c notes rate note velocity duration born = some v) :
    Tone.ofNote c notes rate note velocity duration = some v.tone := by
  unfold begin? at h
  split at h
  · cases h
  · obtain ⟨tone, htone, rfl⟩ := Option.map_eq_some_iff.mp h
    exact htone

/-- A voice that is let go is defunct with the first frames that complete its tail, in every mode and
whatever happened to it before. The tail is a frame for a blip, and else it is the sum of attack,
decay and release and five more. A defunct voice stays so; it adds nothing to the sound and leaves
the noise to others. -/
theorem retires (h : begin? c notes rate note velocity duration born = some v) :
    (∀ before after : List Move, v.tone.tail ≤ framesOf after →
        (v.moves sine (before ++ .release :: after)).isDefunct = true)
      ∧ (v.tone.level? = none → v.tone.tail = 1)
      ∧ (∀ patchRate patchNotes definition, Rate.isLegal patchRate = true →
          Patch.ofDefinition patchRate patchNotes definition = some c.patch →
          ∀ level, v.tone.level? = some level →
            (v.tone.tail : Int)
              = level.contour.attackTime + level.contour.decayTime + level.contour.releaseTime + 5)
      ∧ ∀ ms : List Move, (v.moves sine ms).isDefunct = true →
        (∀ more : List Move, (v.moves sine (ms ++ more)).isDefunct = true)
          ∧ ∀ (noise : Noise) (n : Nat) (out : Block),
            let made := (v.moves sine ms).render sine noise n
            Block.mix out made.1 = out ∧ made.2.1 = v.moves sine ms ∧ made.2.2 = noise := by
  have htone := ofNote_of_begin? h
  obtain ⟨hpos, hends⟩ := Tone.endsIn_ofNote htone
  have hruns (ms : List Move) := Runs.moves sine ⟨fun _ => hpos, hends⟩ ms
  refine ⟨fun before after htail => ?_, fun hlevel => by rw [Tone.tail, hlevel],
    fun patchRate patchNotes definition hrate hpatch level hlevel =>
      Tone.tail_ofNote htone hrate hpatch hlevel,
    fun ms hdefunct => ⟨fun more => ?_, fun noise n out => ?_⟩⟩
  · refine (framesLeft_eq_zero (hruns _)).mp ?_
    have hafter := framesLeft_moves_le sine (v.moves sine before).release after
    have hreleased := (hruns before).framesLeft_release_le
    rw [moves_append]
    exact Nat.le_zero.mp (Nat.le_trans hafter (by omega))
  · refine (framesLeft_eq_zero (hruns _)).mp ?_
    have hmore := framesLeft_moves_le sine (v.moves sine ms) more
    rw [(framesLeft_eq_zero (hruns ms)).mpr hdefunct, Nat.zero_sub, ← moves_append] at hmore
    exact Nat.le_zero.mp hmore
  · rw [render_isDefunct sine noise hdefunct]
    exact ⟨by simp [Block.mix], rfl, rfl⟩

end Begin

/-- A tone at 8000 frames a second that is held without end, let go in its attack and rendered in
two parts. -/
theorem retires_heldTone :
    let notes : NoteTable := ⟨Wave.silent, .replicate 128 0, .replicate 128 0⟩
    let level : Dynamics := .ofDescriptor 8000 0x80
    let c : Channel := { id := 9, program := 0, patch := .fmAbsolute level level 0 }
    let before : List Move := [.render ⟨1⟩ 20, .bend 1]
    let after : List Move := [.render ⟨2⟩ 300, .render ⟨3⟩ 300]
    ∃ v, begin? c notes 8000 60 100 Envelope.held 0 = some v ∧ v.tone.tail ≤ framesOf after
      ∧ (v.moves Wave.silent (before ++ .release :: after)).isDefunct = true := by
  intro notes level c before after
  cases hbegin : begin? c notes 8000 60 100 Envelope.held 0 with
  | none => cases hbegin
  | some v =>
    have htail : v.tone.tail ≤ framesOf after := by
      cases hbegin
      decide +kernel
    exact ⟨v, rfl, htail, (retires Wave.silent hbegin).1 before after htail⟩

end Voice

end Tonewheel
