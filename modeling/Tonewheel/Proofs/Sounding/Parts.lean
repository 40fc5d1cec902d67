import Tonewheel.Pcm.Playback
import Tonewheel.Proofs.Pool
import Tonewheel.Proofs.Signal.Cuts
import Tonewheel.Proofs.Sounding.Fade

/-!
# Sounding in two parts

What sounds can be made in one part or in two. The two come to the same as long as nothing finishes
in the first part, since what has finished is looked for where a part ends (`Voice.render_add`,
`Rack.render_add`); a playback always comes to the same (`Playback.render_add`).
-/

namespace Tonewheel

/-- Whether an envelope has not finished after any smaller number of steps. -/
def Envelope.Lasts (e : Envelope) (n : Nat) : Prop := ∀ j < n, (e.render j).2.isFinished = false

instance (e : Envelope) (n : Nat) : Decidable (e.Lasts n) :=
  inferInstanceAs (Decidable (∀ j < n, (e.render j).2.isFinished = false))

theorem Envelope.render_add (e : Envelope) (j k : Nat) :
    e.render (j + k) = ((e.render j).1 ++ ((e.render j).2.render k).1, ((e.render j).2.render k).2) :=
  Block.generate_add step j k e

theorem Envelope.Lasts.render {e : Envelope} {j k : Nat} (h : e.Lasts (j + k)) :
    (e.render j).2.Lasts k := by
  intro i hi
  have hlater := h (j + i) (Nat.add_lt_add_left hi j)
  rw [render_add] at hlater
  exact hlater

/-! ### Voices -/

namespace Tone

/-- What a tone's loudness runs along, none for blips. -/
def level? : Tone → Option Envelope
  | .blip _ _ => none
  | .wave _ level => some level
  | .rock _ level _ => some level
  | .fm level _ _ _ => some level
  | .sub level _ _ => some level

def drawsNoise : Tone → Bool
  | .sub _ _ _ => true
  | _ => false

variable (sine : Wave) (stride : UInt32)

theorem level?_step (s : Running) :
    (step sine stride s).2.tone.level? = s.tone.level?.map fun e => e.step.2 := by
  obtain ⟨tone, phase, noise⟩ := s
  cases tone <;> rfl

theorem level?_generate (n : Nat) (s : Running) :
    (Block.generate (step sine stride) n s).2.tone.level?
      = s.tone.level?.map fun e => (e.render n).2 := by
  induction n generalizing s with
  | zero =>
    show s.tone.level? = s.tone.level?.map id
    rw [Option.map_id, id]
  | succ n ih =>
    rw [Block.generate_succ, ih, level?_step, Option.map_map]
    refine Option.map_congr fun e _ => ?_
    show (e.step.2.render n).2 = (e.render (n + 1)).2
    rw [Envelope.render, Envelope.render, Block.generate_succ]

theorem generate_blip (n : Nat) (left : Int) (level : Float32) (phase : UInt32) (noise : Noise) :
    (Block.generate (step sine stride) n ⟨.blip left level, phase, noise⟩).2.tone
        = .blip (left - n) level
      ∧ (Block.generate (step sine stride) n ⟨.blip left level, phase, noise⟩).2.noise = noise := by
  induction n generalizing left phase with
  | zero =>
    rw [Int.ofNat_zero, Int.sub_zero]
    exact ⟨rfl, rfl⟩
  | succ n ih =>
    rw [Block.generate_succ]
    have hrest := ih (left - 1) (phase + stride)
    rw [Int.sub_sub, Int.add_comm] at hrest
    exact hrest

theorem isFinished_eq {tone : Tone} {level : Envelope} (h : tone.level? = some level) :
    tone.isFinished = level.isFinished := by
  cases tone <;> cases h <;> rfl

/-- Tones other than noise neither hear the noise nor use it up. -/
theorem generate_noise (n : Nat) (tone : Tone) (phase : UInt32) (noise noise' : Noise)
    (h : tone.drawsNoise = false) :
    (Block.generate (step sine stride) n ⟨tone, phase, noise⟩)
      = ((Block.generate (step sine stride) n ⟨tone, phase, noise'⟩).1,
          { (Block.generate (step sine stride) n ⟨tone, phase, noise'⟩).2 with noise }) := by
  induction n generalizing tone phase with
  | zero => rfl
  | succ n ih =>
    rw [Block.generate_succ, Block.generate_succ]
    cases tone with
    | sub level first second => cases h
    | _ =>
      simp only [step]
      rw [ih]
      rfl

theorem drawsNoise_generate (n : Nat) (s : Running) :
    (Block.generate (step sine stride) n s).2.tone.drawsNoise = s.tone.drawsNoise := by
  induction n generalizing s with
  | zero => rfl
  | succ n ih =>
    rw [Block.generate_succ, ih]
    obtain ⟨tone, phase, noise⟩ := s
    cases tone <;> rfl

end Tone

namespace Voice

/-- Whether a voice that sounds goes on for some more frames at least, or stops by itself. -/
def Lasts (v : Voice) (n : Nat) : Prop := v.isDefunct = true ∨ ∀ level ∈ v.tone.level?, level.Lasts n

instance (v : Voice) (n : Nat) : Decidable (v.Lasts n) :=
  inferInstanceAs (Decidable (v.isDefunct = true ∨ ∀ level ∈ v.tone.level?, level.Lasts n))

def drawsNoise (v : Voice) : Bool := !v.isDefunct && v.tone.drawsNoise

variable (sine : Wave) {v : Voice} (noise : Noise)

theorem render_live (h : v.isDefunct = false) (n : Nat) :
    render sine v noise n
      = ((Block.generate (Tone.step sine v.stride) (reach v.tone n) ⟨v.tone, v.phase, noise⟩).1,
          { v with
            tone := (Block.generate (Tone.step sine v.stride) (reach v.tone n)
              ⟨v.tone, v.phase, noise⟩).2.tone
            phase := (Block.generate (Tone.step sine v.stride) (reach v.tone n)
              ⟨v.tone, v.phase, noise⟩).2.phase
            isDefunct := endsWith v.tone (Block.generate (Tone.step sine v.stride) (reach v.tone n)
              ⟨v.tone, v.phase, noise⟩).2.tone n },
          (Block.generate (Tone.step sine v.stride) (reach v.tone n)
            ⟨v.tone, v.phase, noise⟩).2.noise) := by
  rw [render, if_neg (Bool.eq_false_iff.mp h)]

theorem render_isDefunct (h : v.isDefunct = true) (n : Nat) :
    render sine v noise n = (#[], v, noise) := by
  rw [render, if_pos h]

theorem render_noise (h : v.drawsNoise = false) (n : Nat) (noise' : Noise) :
    render sine v noise n
      = ((render sine v noise' n).1, (render sine v noise' n).2.1, noise) := by
  cases hlive : v.isDefunct with
  | true => rw [render_isDefunct sine noise hlive, render_isDefunct sine noise' hlive]
  | false =>
    rw [drawsNoise, hlive] at h
    rw [render_live sine noise hlive, render_live sine noise' hlive,
      Tone.generate_noise sine v.stride _ v.tone v.phase noise noise' h]

theorem noise_render (h : v.drawsNoise = false) (n : Nat) : (render sine v noise n).2.2 = noise :=
  congrArg (fun r => r.2.2) (render_noise sine noise h n noise)

theorem drawsNoise_render (h : v.drawsNoise = false) (n : Nat) :
    (render sine v noise n).2.1.drawsNoise = false := by
  cases hlive : v.isDefunct with
  | true => rwa [render_isDefunct sine noise hlive]
  | false =>
    rw [drawsNoise, hlive] at h
    rw [render_live sine noise hlive, drawsNoise, Tone.drawsNoise_generate]
    exact (congrArg _ h).trans (Bool.and_false _)

theorem reach_of_level? {tone : Tone} {level : Envelope} (h : tone.level? = some level) (n : Nat) :
    reach tone n = n := by
  cases tone with
  | blip left amount => cases h
  | _ => rfl

theorem endsWith_of_level? {tone : Tone} {level : Envelope} (h : tone.level? = some level)
    (after : Tone) (n : Nat) : endsWith tone after n = after.isFinished := by
  cases tone with
  | blip left amount => cases h
  | _ => rfl

theorem render_sustained {level : Envelope} (h : v.isDefunct = false)
    (hlevel : v.tone.level? = some level) (n : Nat) :
    render sine v noise n
      = ((Block.generate (Tone.step sine v.stride) n ⟨v.tone, v.phase, noise⟩).1,
          { v with
            tone := (Block.generate (Tone.step sine v.stride) n ⟨v.tone, v.phase, noise⟩).2.tone
            phase := (Block.generate (Tone.step sine v.stride) n ⟨v.tone, v.phase, noise⟩).2.phase
            isDefunct := (level.render n).2.isFinished },
          (Block.generate (Tone.step sine v.stride) n ⟨v.tone, v.phase, noise⟩).2.noise) := by
  have hafter := Tone.level?_generate sine v.stride n ⟨v.tone, v.phase, noise⟩
  dsimp only at hafter
  rw [hlevel] at hafter
  rw [render_live sine noise h, reach_of_level? hlevel, endsWith_of_level? hlevel,
    Tone.isFinished_eq hafter]

theorem render_blip {left : Int} {amount : Float32} (h : v.isDefunct = false)
    (htone : v.tone = .blip left amount) (n : Nat) :
    render sine v noise n
      = ((Block.generate (Tone.step sine v.stride) (min n left.toNat)
            ⟨.blip left amount, v.phase, noise⟩).1,
          { v with
            tone := .blip (left - (min n left.toNat : Nat)) amount
            phase := (Block.generate (Tone.step sine v.stride) (min n left.toNat)
              ⟨.blip left amount, v.phase, noise⟩).2.phase
            isDefunct := decide (min n left.toNat < n) },
          noise) := by
  obtain ⟨htone', hnoise⟩ :=
    Tone.generate_blip sine v.stride (min n left.toNat) left amount v.phase noise
  rw [render_live sine noise h, htone]
  simp only [reach, endsWith, htone', hnoise]
  rfl

theorem render_add_sustained {level : Envelope} (hlive : v.isDefunct = false)
    (hlevel : v.tone.level? = some level) {j : Nat} (hgoes : (level.render j).2.isFinished = false)
    (k : Nat) :
    render sine v noise (j + k)
      = ((render sine v noise j).1
          ++ (render sine (render sine v noise j).2.1 (render sine v noise j).2.2 k).1,
        (render sine (render sine v noise j).2.1 (render sine v noise j).2.2 k).2) := by
  have hcut := Block.generate_add (Tone.step sine v.stride) j k ⟨v.tone, v.phase, noise⟩
  have hlevel' := Tone.level?_generate sine v.stride j ⟨v.tone, v.phase, noise⟩
  dsimp only at hlevel'
  rw [hlevel, Option.map_some] at hlevel'
  rw [render_sustained sine noise hlive hlevel, render_sustained sine noise hlive hlevel, hgoes]
  dsimp only
  rw [render_sustained sine _ rfl hlevel', hcut, level.render_add]

theorem render_add_blip {left : Int} {amount : Float32} (hlive : v.isDefunct = false)
    (htone : v.tone = .blip left amount) (j : Nat) {k : Nat} (hk : 0 < k) :
    render sine v noise (j + k)
      = ((render sine v noise j).1
          ++ (render sine (render sine v noise j).2.1 (render sine v noise j).2.2 k).1,
        (render sine (render sine v noise j).2.1 (render sine v noise j).2.2 k).2) := by
  rw [render_blip sine noise hlive htone, render_blip sine noise hlive htone]
  rcases Nat.lt_or_ge left.toNat j with hstops | hgoes
  · have hreach : min j left.toNat = left.toNat := Nat.min_eq_right (Nat.le_of_lt hstops)
    have hreach' : min (j + k) left.toNat = left.toNat := Nat.min_eq_right (by omega)
    have hover : decide (left.toNat < j + k) = decide (left.toNat < j) :=
      decide_eq_decide.mpr ⟨fun _ => hstops, fun _ => by omega⟩
    rw [hreach, hreach', hover, render_isDefunct sine noise (decide_eq_true hstops),
      Array.append_empty]
  · have hreach : min j left.toNat = j := Nat.min_eq_left hgoes
    have hreach' : min (j + k) left.toNat = j + min k (left - j).toNat := by omega
    have hplays : decide (j < j) = false := decide_eq_false (Nat.lt_irrefl j)
    have hover : decide (j + min k (left - j).toNat < j + k) = decide (min k (left - j).toNat < k) :=
      decide_eq_decide.mpr Nat.add_lt_add_iff_left
    have hleft : left - (j + min k (left - j).toNat : Nat)
        = left - j - (min k (left - j).toNat : Nat) := by
      rw [Int.natCast_add, Int.sub_sub]
    obtain ⟨htone', hnoise⟩ := Tone.generate_blip sine v.stride j left amount v.phase noise
    have hcut := Block.generate_add (Tone.step sine v.stride) j (min k (left - j).toNat)
      ⟨.blip left amount, v.phase, noise⟩
    rw [hreach, hreach', hplays, hover, hleft, hcut, render_blip sine noise rfl rfl]
    dsimp only
    generalize Block.generate (Tone.step sine v.stride) j ⟨.blip left amount, v.phase, noise⟩
      = first at htone' hnoise ⊢
    obtain ⟨block, tone, phase, noise'⟩ := first
    obtain rfl : tone = _ := htone'
    obtain rfl : noise' = noise := hnoise
    rfl

theorem exists_blip_of_level? {tone : Tone} (h : tone.level? = none) :
    ∃ left amount, tone = .blip left amount := by
  cases tone with
  | blip left amount => exact ⟨left, amount, rfl⟩
  | _ => cases h

/-- A voice that does not finish before its time is over makes in two parts what it makes in one. -/
theorem render_add {j k : Nat} (hk : 0 < k) (hlasts : v.Lasts (j + k)) :
    render sine v noise (j + k)
      = ((render sine v noise j).1
          ++ (render sine (render sine v noise j).2.1 (render sine v noise j).2.2 k).1,
        (render sine (render sine v noise j).2.1 (render sine v noise j).2.2 k).2) := by
  cases hlive : v.isDefunct with
  | true =>
    simp only [render_isDefunct sine noise hlive]
    rfl
  | false =>
    have hgoes := hlasts.resolve_left (Bool.eq_false_iff.mp hlive)
    cases hlevel : v.tone.level? with
    | some level =>
      exact render_add_sustained sine noise hlive hlevel (hgoes level hlevel j (by omega)) k
    | none =>
      obtain ⟨left, amount, htone⟩ := exists_blip_of_level? hlevel
      exact render_add_blip sine noise hlive htone j hk

/-- What a voice makes falls short of its time only if the voice is over then. -/
theorem cut_render (j k : Nat) :
    Block.Cut j (render sine v noise j).1
      (render sine (render sine v noise j).2.1 (render sine v noise j).2.2 k).1 := by
  cases hlive : v.isDefunct with
  | true =>
    simp only [render_isDefunct sine noise hlive]
    exact .inr ⟨Nat.zero_le j, rfl⟩
  | false =>
    cases hlevel : v.tone.level? with
    | some level =>
      rw [render_sustained sine noise hlive hlevel]
      exact .inl (Block.size_generate _ _ _)
    | none =>
      obtain ⟨left, amount, htone⟩ := exists_blip_of_level? hlevel
      rw [render_blip sine noise hlive htone]
      rcases Nat.lt_or_ge left.toNat j with hstops | hgoes
      · have hreach : min j left.toNat = left.toNat := Nat.min_eq_right (Nat.le_of_lt hstops)
        rw [hreach, render_isDefunct sine noise (decide_eq_true hstops)]
        refine .inr ⟨?_, rfl⟩
        rw [Block.size_generate]
        exact Nat.le_of_lt hstops
      · refine .inl ((Block.size_generate _ _ _).trans (Nat.min_eq_left hgoes))

theorem Lasts.render {j k : Nat} (h : v.Lasts (j + k)) :
    (Voice.render sine v noise j).2.1.Lasts k := by
  cases hlive : v.isDefunct with
  | true =>
    rw [render_isDefunct sine noise hlive]
    exact .inl hlive
  | false =>
    rw [render_live sine noise hlive]
    refine .inr fun level hlevel => ?_
    rw [Tone.level?_generate] at hlevel
    obtain ⟨before, hbefore, rfl⟩ := Option.map_eq_some_iff.mp hlevel
    rw [reach_of_level? hbefore]
    exact (h.resolve_left (Bool.eq_false_iff.mp hlive) before hbefore).render

end Voice

/-! ### Racks -/

namespace EffectVoice

/-- Whether a voice that sounds goes on for some more frames at least. -/
def Lasts (v : EffectVoice) (n : Nat) : Prop := v.level.isFinished = true ∨ v.level.Lasts n

instance (v : EffectVoice) (n : Nat) : Decidable (v.Lasts n) :=
  inferInstanceAs (Decidable (v.level.isFinished = true ∨ v.level.Lasts n))

theorem level_scan (v : EffectVoice) (swing : Block) :
    (Block.scan step v swing).2.level = (v.level.render swing.size).2 := by
  induction swing using Block.front_induction generalizing v with
  | empty => rfl
  | front x rest ih =>
    rw [Block.scan_front, ih, Array.size_append, Envelope.render_add]
    rfl

end EffectVoice

theorem Fade.run_append {f : Fade} {x y : Block} (hy : 0 < y.size)
    (h : f.left ≤ 0 ∨ (x ++ y).size ≤ f.left) :
    f.run (x ++ y) = ((f.run x).1 ++ ((f.run x).2.run y).1, ((f.run x).2.run y).2) := by
  rw [Array.size_append] at h
  by_cases hfades : 0 < f.left
  · have hleft := f.scan_left x
    have hfades' : 0 < (Block.scan step f x).2.left := by omega
    rw [run, if_pos hfades, run, if_pos hfades, run, if_pos hfades', Block.scan_append]
  · rw [run, if_neg hfades, run, if_neg hfades, run, if_neg hfades]

namespace Rack

/-! #### Voices -/

theorem size_mix_scan (v : EffectVoice) {swing mixed : Block} (h : mixed.size = swing.size) :
    (Block.mix mixed (Block.scan EffectVoice.step v swing).1).size = swing.size := by
  rw [Block.size_mix _ _ (by rw [Block.size_scan, h]), h]

theorem renderVoices_append {first second a b : Block} (ha : a.size = first.size)
    (hb : b.size = second.size) (hsecond : 0 < second.size) {vs : List EffectVoice}
    (hlasts : ∀ v ∈ vs, v.Lasts (first.size + second.size)) :
    renderVoices (first ++ second) vs (a ++ b)
      = ((renderVoices first vs a).1 ++ (renderVoices second (renderVoices first vs a).2 b).1,
          (renderVoices second (renderVoices first vs a).2 b).2) := by
  induction vs generalizing a b with
  | nil => rfl
  | cons v vs ih =>
    have hrest : ∀ w ∈ vs, w.Lasts (first.size + second.size) :=
      fun w hw => hlasts w (List.mem_cons_of_mem v hw)
    rw [renderVoices, renderVoices]
    cases hover : v.level.isFinished with
    | true =>
      rw [if_pos rfl, if_pos rfl, renderVoices, if_pos hover, ih ha hb hrest]
    | false =>
      have hlive := (hlasts v List.mem_cons_self).resolve_left (Bool.eq_false_iff.mp hover)
      have hlive' : ¬(Block.scan EffectVoice.step v first).2.level.isFinished = true := by
        rw [EffectVoice.level_scan, hlive first.size (by omega)]
        exact Bool.false_ne_true
      have hmix : Block.mix (a ++ b) (Block.scan EffectVoice.step v (first ++ second)).1
          = Block.mix a (Block.scan EffectVoice.step v first).1
            ++ Block.mix b
              (Block.scan EffectVoice.step (Block.scan EffectVoice.step v first).2 second).1 := by
        rw [Block.scan_append, Block.mix_append _ _ _ _ (by rw [ha, Block.size_scan])
          (by rw [hb, Block.size_scan])]
      have hstate : (Block.scan EffectVoice.step v (first ++ second)).2
          = (Block.scan EffectVoice.step (Block.scan EffectVoice.step v first).2 second).2 := by
        rw [Block.scan_append]
      rw [if_neg Bool.false_ne_true, if_neg Bool.false_ne_true]
      dsimp only
      rw [renderVoices, if_neg hlive', hmix, hstate]
      dsimp only
      rw [ih (size_mix_scan v ha) (size_mix_scan _ hb) hrest]

theorem renderVoices_lasts {swing mixed : Block} {vs : List EffectVoice} {k : Nat}
    (hlasts : ∀ v ∈ vs, v.Lasts (swing.size + k)) :
    ∀ v ∈ (renderVoices swing vs mixed).2, v.Lasts k := by
  induction vs generalizing mixed with
  | nil => exact fun v hv => absurd hv List.not_mem_nil
  | cons v vs ih =>
    have hrest := fun w hw => hlasts w (List.mem_cons_of_mem v hw)
    rw [renderVoices]
    cases hover : v.level.isFinished with
    | true =>
      rw [if_pos rfl]
      exact List.forall_mem_cons.mpr ⟨.inl hover, ih hrest⟩
    | false =>
      have hlive := (hlasts v List.mem_cons_self).resolve_left (Bool.eq_false_iff.mp hover)
      rw [if_neg Bool.false_ne_true]
      refine List.forall_mem_cons.mpr ⟨.inr ?_, ih hrest⟩
      rw [EffectVoice.level_scan]
      exact hlive.render

theorem renderVoices_finished {rest : List EffectVoice}
    (hover : ∀ v ∈ rest, v.level.isFinished = true) (swing : Block) (vs : List EffectVoice)
    (mixed : Block) :
    renderVoices swing (vs ++ rest) mixed
      = ((renderVoices swing vs mixed).1, (renderVoices swing vs mixed).2 ++ rest) := by
  induction vs generalizing mixed with
  | nil =>
    induction rest with
    | nil => rfl
    | cons v rest ih =>
      have hrest := ih fun w hw => hover w (List.mem_cons_of_mem v hw)
      rw [List.nil_append] at hrest ⊢
      conv_lhs => rw [renderVoices, if_pos (hover v List.mem_cons_self), hrest]
      rfl
  | cons v vs ih =>
    rw [List.cons_append, renderVoices, renderVoices]
    split
    · rw [ih]
      rfl
    · dsimp only
      rw [ih]
      rfl

theorem renderVoices_trim (swing : Block) (vs : List EffectVoice) (mixed : Block) :
    (renderVoices swing (Pool.trimDefunct vs) mixed).1 = (renderVoices swing vs mixed).1
      ∧ Pool.trimDefunct (renderVoices swing (Pool.trimDefunct vs) mixed).2
        = Pool.trimDefunct (renderVoices swing vs mixed).2 := by
  obtain ⟨rest, hsplit, hover⟩ := Pool.exists_trimDefunct_append vs
  have hrender := renderVoices_finished hover swing (Pool.trimDefunct vs) mixed
  rw [← hsplit] at hrender
  rw [hrender]
  exact ⟨rfl, (Pool.trimDefunct_append hover _).symm⟩

/-! #### Effects -/

theorem range_generate (sine : Wave) (n : Nat) (s : RackSwing) :
    (Block.generate (RackSwing.step sine) n s).2.range = s.range := by
  induction n generalizing s with
  | zero => rfl
  | succ n ih =>
    rw [Block.generate_succ, ih]
    rfl

theorem renderSwing_add (sine : Wave) (s : RackSwing) (j k : Nat) :
    renderSwing sine s (j + k)
      = ((renderSwing sine s j).1 ++ (renderSwing sine (renderSwing sine s j).2 k).1,
          (renderSwing sine (renderSwing sine s j).2 k).2) := by
  unfold renderSwing
  split
  next hmoves =>
    rw [range_generate, if_pos hmoves, Block.generate_add]
  next hflat =>
    rw [Block.silence_add]

theorem runOptional_append {σ : Type} (step : σ → Float32 → Float32 × σ) (effect : Option σ)
    (x y : Block) :
    runOptional step effect (x ++ y)
      = ((runOptional step effect x).1 ++ (runOptional step (runOptional step effect x).2 y).1,
          (runOptional step (runOptional step effect x).2 y).2) := by
  cases effect with
  | none => rfl
  | some s =>
    unfold runOptional
    dsimp only
    rw [Block.scan_append]

theorem map_if_append (p : Prop) [Decidable p] (f : Float32 → Float32) (x y : Block) :
    (if p then (x ++ y).map f else x ++ y)
      = (if p then x.map f else x) ++ (if p then y.map f else y) := by
  split
  · exact Array.map_append
  · rfl

def sound (sine : Wave) (r : Rack) (n : Nat) : Block × Rack :=
  let swing := renderSwing sine r.swing n
  let voices := renderVoices swing.1 r.voices (.silence n)
  let driven :=
    if 0 < r.drive then voices.1.map fun x => Single.clamp (-r.clip) r.clip (x * r.drive)
    else voices.1
  let detuned := runOptional (RackDetune.step sine) r.detune driven
  let delayed := runOptional Tape.step r.delay detuned.1
  (if r.trim < 1 then delayed.1.map (· * r.trim) else delayed.1,
    { r with
      voices := Pool.trimDefunct voices.2
      swing := swing.2
      detune := detuned.2
      delay := delayed.2 })

theorem render_sound (sine : Wave) {r : Rack} (h : r.isDefunct = false) {n : Nat}
    (hn : n ≤ passSamples) :
    render sine r n
      = ((r.fade.run (r.sound sine n).1).1,
          { (r.sound sine n).2 with fade := (r.fade.run (r.sound sine n).1).2 }) := by
  rw [render, h, if_neg Bool.false_ne_true, Nat.min_eq_left hn]
  rfl

theorem sound_add (sine : Wave) {r : Rack} {j k : Nat} (hk : 0 < k)
    (hlasts : ∀ v ∈ r.voices, v.Lasts (j + k)) :
    r.sound sine (j + k)
      = ((r.sound sine j).1 ++ ((r.sound sine j).2.sound sine k).1,
          ((r.sound sine j).2.sound sine k).2) := by
  have hfirst : (Block.silence j).size = (renderSwing sine r.swing j).1.size := by
    rw [Block.size_silence, size_renderSwing]
  have hsecond : (Block.silence k).size
      = (renderSwing sine (renderSwing sine r.swing j).2 k).1.size := by
    rw [Block.size_silence, size_renderSwing]
  have hlasts' : ∀ v ∈ r.voices, v.Lasts ((renderSwing sine r.swing j).1.size
      + (renderSwing sine (renderSwing sine r.swing j).2 k).1.size) := by
    rwa [size_renderSwing, size_renderSwing]
  have hvoices := renderVoices_append hfirst hsecond (by rwa [size_renderSwing]) hlasts'
  obtain ⟨hblock, htrim⟩ := renderVoices_trim (renderSwing sine (renderSwing sine r.swing j).2 k).1
    (renderVoices (renderSwing sine r.swing j).1 r.voices (.silence j)).2 (.silence k)
  unfold sound
  rw [renderSwing_add, Block.silence_add]
  dsimp only
  rw [hvoices, hblock, htrim]
  dsimp only
  rw [map_if_append, runOptional_append]
  dsimp only
  rw [runOptional_append]
  dsimp only
  rw [map_if_append]

/-- Whether a rack that sounds loses no voice before its time is over, and does not fade out. -/
def Lasts (r : Rack) (n : Nat) : Prop :=
  r.isDefunct = true ∨ (∀ v ∈ r.voices, v.Lasts n) ∧ (r.fade.left ≤ 0 ∨ n ≤ r.fade.left)

instance (r : Rack) (n : Nat) : Decidable (r.Lasts n) :=
  inferInstanceAs (Decidable (r.isDefunct = true
    ∨ (∀ v ∈ r.voices, v.Lasts n) ∧ (r.fade.left ≤ 0 ∨ n ≤ r.fade.left)))

theorem sound_lasts (sine : Wave) {r : Rack} {j k : Nat} (h : ∀ v ∈ r.voices, v.Lasts (j + k)) :
    ∀ v ∈ (r.sound sine j).2.voices, v.Lasts k := by
  intro v hv
  refine renderVoices_lasts ?_ v ((Pool.trimDefunct_prefix _).subset hv)
  rw [size_renderSwing]
  exact h

theorem size_sound (sine : Wave) (r : Rack) (n : Nat) : (r.sound sine n).1.size = n :=
  r.size_unfaded sine n

theorem render_add (sine : Wave) {r : Rack} {j k : Nat} (hk : 0 < k) (hpass : j + k ≤ passSamples)
    (hlasts : r.Lasts (j + k)) :
    render sine r (j + k)
      = ((render sine r j).1 ++ (render sine (render sine r j).2 k).1,
          (render sine (render sine r j).2 k).2) := by
  cases hover : r.isDefunct with
  | true =>
    rw [render_defunct sine r _ hover, render_defunct sine r _ hover]
    dsimp only
    rw [render_defunct sine r _ hover]
    rfl
  | false =>
    obtain ⟨hvoices, hfades⟩ := hlasts.resolve_left (Bool.eq_false_iff.mp hover)
    have hsize : (r.sound sine j).1.size = j := r.size_sound sine j
    have hsize' : ((r.sound sine j).2.sound sine k).1.size = k := size_sound sine _ k
    have hfade := Fade.run_append (f := r.fade) (x := (r.sound sine j).1)
      (y := ((r.sound sine j).2.sound sine k).1) (by omega)
      (by rw [Array.size_append, hsize, hsize']; exact hfades)
    have hgoes : (r.fade.run (r.sound sine j).1).2.isOver = false := by
      have hplays : r.fade.isOver = false := hover
      unfold Fade.run
      split
      · rw [Fade.scan_isOver, hplays, hsize, Bool.false_or]
        exact decide_eq_false (by omega)
      · exact hplays
    have hsecond := render_sound sine
      (r := { (r.sound sine j).2 with fade := (r.fade.run (r.sound sine j).1).2 }) hgoes
      (Nat.le_trans (Nat.le_add_left k j) hpass)
    rw [render_sound sine hover hpass, render_sound sine hover (by omega), hsecond,
      sound_add sine hk hvoices]
    dsimp only
    rw [hfade]
    rfl

theorem Lasts.render (sine : Wave) {r : Rack} {j k : Nat} (hpass : j + k ≤ passSamples)
    (h : r.Lasts (j + k)) : (Rack.render sine r j).2.Lasts k := by
  cases hover : r.isDefunct with
  | true =>
    rw [render_defunct sine r _ hover]
    exact .inl hover
  | false =>
    obtain ⟨hvoices, hfades⟩ := h.resolve_left (Bool.eq_false_iff.mp hover)
    rw [render_sound sine hover (by omega)]
    refine .inr ⟨sound_lasts sine hvoices, ?_⟩
    show (r.fade.run (r.sound sine j).1).2.left ≤ 0 ∨ k ≤ (r.fade.run (r.sound sine j).1).2.left
    unfold Fade.run
    split
    · rw [Fade.scan_left, size_sound]
      omega
    next hplays => exact .inl (Int.not_lt.mp hplays)

theorem cut_render (sine : Wave) (r : Rack) {j : Nat} (hj : j ≤ passSamples) (k : Nat) :
    Block.Cut j (render sine r j).1 (render sine (render sine r j).2 k).1 := by
  cases hover : r.isDefunct with
  | true =>
    rw [render_defunct sine r _ hover, render_defunct sine r _ hover]
    exact .inr ⟨Nat.zero_le j, rfl⟩
  | false => exact .inl (size_render sine r j hj hover)

end Rack

/-! ### Playbacks -/

namespace Playback

variable (shelf : Shelf) (p : Playback) (j k : Nat)

theorem render_add :
    render shelf p (j + k)
      = ((render shelf p j).1 ++ (render shelf (render shelf p j).2 k).1,
          (render shelf (render shelf p j).2 k).2) := by
  have hread := (Block.extract_add (shelf.read p.pcm) p.position j k).1
  unfold render
  dsimp only
  rw [Array.size_map, hread, Array.map_append, Array.size_append, Array.size_map, Array.size_map,
    ← Nat.add_assoc]

theorem cut_render :
    Block.Cut j (render shelf p j).1 (render shelf (render shelf p j).2 k).1 := by
  have hcut := (Block.extract_add (shelf.read p.pcm) p.position j k).2
  unfold render
  dsimp only
  rw [Array.size_map]
  exact hcut.map _

end Playback

end Tonewheel
