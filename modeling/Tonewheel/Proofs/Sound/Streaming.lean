import Tonewheel.Proofs.Signal.Blocks
import Tonewheel.Sound.Printer

/-!
# Voices as streams

A voice of a sound program makes its samples one after another, so `m + n` of them are `m` and then
`n` (`Voice.render_add`). All voices of a program draw from one generator of noise, and in each part
one voice draws all its words before the next one does. With at most one voice of noise no other
voice can come in between, and then a whole program streams too (`renderVoices_add`).
-/

namespace Tonewheel.Sound

/-! ### Chains -/

theorem runChain_cons (stage : ChainStage) (stages : List ChainStage) (block : Block) :
    runChain (stage :: stages) block
      = ((runChain stages (Block.scan ChainStage.step stage block).1).1,
          (Block.scan ChainStage.step stage block).2
            :: (runChain stages (Block.scan ChainStage.step stage block).1).2) := rfl

theorem runChain_append (stages : List ChainStage) (a b : Block) :
    runChain stages (a ++ b)
      = ((runChain stages a).1 ++ (runChain (runChain stages a).2 b).1,
          (runChain (runChain stages a).2 b).2) := by
  induction stages generalizing a b with
  | nil => rfl
  | cons stage stages ih =>
    simp only [runChain_cons]
    rw [Block.scan_append, ih]

theorem size_runChain (stages : List ChainStage) (block : Block) :
    (runChain stages block).1.size = block.size := by
  induction stages generalizing block with
  | nil => rfl
  | cons stage stages ih => rw [runChain_cons, ih, Block.size_scan]

/-! ### One voice -/

namespace Voice

def withChain (v : Voice) (chain : List ChainStage) : Voice := { v with chain }

theorem emit_withChain (v : Voice) (chain : List ChainStage) (noise : Noise) :
    emit (v.withChain chain, noise)
      = ((emit (v, noise)).1, (emit (v, noise)).2.1.withChain chain, (emit (v, noise)).2.2) := by
  obtain ⟨generator, carrier, chain'⟩ := v
  cases generator <;> rfl

theorem generate_withChain (v : Voice) (chain : List ChainStage) (noise : Noise) (n : Nat) :
    Block.generate emit n (v.withChain chain, noise)
      = ((Block.generate emit n (v, noise)).1,
          (Block.generate emit n (v, noise)).2.1.withChain chain,
          (Block.generate emit n (v, noise)).2.2) :=
  Block.generate_map (fun s : Voice × Noise => (s.1.withChain chain, s.2)) emit emit
    (fun s => emit_withChain s.1 chain s.2) n (v, noise)

theorem emit_chain (v : Voice) (noise : Noise) : (emit (v, noise)).2.1.chain = v.chain := by
  obtain ⟨generator, carrier, chain⟩ := v
  cases generator <;> rfl

theorem generate_chain (v : Voice) (noise : Noise) (n : Nat) :
    (Block.generate emit n (v, noise)).2.1.chain = v.chain := by
  induction n generalizing v noise with
  | zero => rfl
  | succ n ih =>
    rw [Block.generate_succ]
    exact (ih _ _).trans (emit_chain v noise)

theorem render_eq (v : Voice) (noise : Noise) (n : Nat) :
    v.render noise n
      = ((runChain v.chain (Block.generate emit n (v, noise)).1).1,
          (Block.generate emit n (v, noise)).2.1.withChain
            (runChain v.chain (Block.generate emit n (v, noise)).1).2,
          (Block.generate emit n (v, noise)).2.2) := by
  rw [← generate_chain v noise n]
  rfl

/-- `m + n` samples of a voice are `m` samples and then `n`. -/
theorem render_add (v : Voice) (noise : Noise) (m n : Nat) :
    v.render noise (m + n)
      = ((v.render noise m).1
            ++ ((v.render noise m).2.1.render (v.render noise m).2.2 n).1,
          ((v.render noise m).2.1.render (v.render noise m).2.2 n).2) := by
  simp only [render_eq, generate_withChain]
  rw [Block.generate_add, runChain_append]
  rfl

@[simp]
theorem render_zero (v : Voice) (noise : Noise) : (v.render noise 0).2 = (v, noise) := by
  have hchain : ∀ stages : List ChainStage, (runChain stages #[]).2 = stages := by
    intro stages
    induction stages with
    | nil => rfl
    | cons stage stages ih => rw [runChain_cons, Block.scan_empty, ih]
  rw [render_eq, Block.generate_zero, hchain]
  rfl

theorem size_render (v : Voice) (noise : Noise) (n : Nat) : (v.render noise n).1.size = n := by
  rw [render_eq, size_runChain, Block.size_generate]

/-! ### Voices and the noise they share -/

def isNoise (v : Voice) : Bool :=
  match v.generator with
  | .noise => true
  | _ => false

theorem emit_isNoise (v : Voice) (noise : Noise) : (emit (v, noise)).2.1.isNoise = v.isNoise := by
  obtain ⟨generator, carrier, chain⟩ := v
  cases generator <;> rfl

theorem generate_isNoise (v : Voice) (noise : Noise) (n : Nat) :
    (Block.generate emit n (v, noise)).2.1.isNoise = v.isNoise := by
  induction n generalizing v noise with
  | zero => rfl
  | succ n ih =>
    rw [Block.generate_succ]
    exact (ih _ _).trans (emit_isNoise v noise)

theorem render_isNoise (v : Voice) (noise : Noise) (n : Nat) :
    (v.render noise n).2.1.isNoise = v.isNoise := by
  rw [render_eq]
  exact generate_isNoise v noise n

/-- A voice without noise makes the same sample whatever the noise, and leaves that as it is. -/
theorem emit_quiet (v : Voice) (h : v.isNoise = false) (noise other : Noise) :
    emit (v, other) = ((emit (v, noise)).1, (emit (v, noise)).2.1, other) := by
  obtain ⟨generator, carrier, chain⟩ := v
  cases generator with
  | noise => simp [isNoise] at h
  | _ => rfl

theorem generate_quiet (v : Voice) (h : v.isNoise = false) (noise other : Noise) (n : Nat) :
    Block.generate emit n (v, other)
      = ((Block.generate emit n (v, noise)).1, (Block.generate emit n (v, noise)).2.1, other) := by
  induction n generalizing v noise other with
  | zero => rfl
  | succ n ih =>
    simp only [Block.generate_succ]
    rw [emit_quiet v h noise other]
    have hquiet : (emit (v, noise)).2.1.isNoise = false := (emit_isNoise v noise).trans h
    rw [ih _ hquiet (emit (v, noise)).2.2 other]

theorem render_quiet (v : Voice) (h : v.isNoise = false) (noise other : Noise) (n : Nat) :
    v.render other n = ((v.render noise n).1, (v.render noise n).2.1, other) := by
  simp only [render_eq]
  rw [generate_quiet v h noise other n]

theorem render_keeps_noise (v : Voice) (h : v.isNoise = false) (noise : Noise) (n : Nat) :
    (v.render noise n).2.2 = noise :=
  congrArg (fun r => r.2.2) (render_quiet v h noise noise n)

end Voice

/-! ### All voices of a program -/

def noiseVoices (voices : List Voice) : Nat := voices.countP Voice.isNoise

namespace Printer

theorem renderVoices_cons (n : Nat) (v : Voice) (vs : List Voice) (noise : Noise) (mixed : Block) :
    renderVoices n (v :: vs) noise mixed
      = ((renderVoices n vs (v.render noise n).2.2 (Block.mix mixed (v.render noise n).1)).1,
          (v.render noise n).2.1
            :: (renderVoices n vs (v.render noise n).2.2
                  (Block.mix mixed (v.render noise n).1)).2.1,
          (renderVoices n vs (v.render noise n).2.2
            (Block.mix mixed (v.render noise n).1)).2.2) := rfl

theorem size_renderVoices (n : Nat) (vs : List Voice) (noise : Noise) (mixed : Block)
    (h : mixed.size = n) : (renderVoices n vs noise mixed).1.size = n := by
  induction vs generalizing noise mixed with
  | nil => exact h
  | cons v vs ih =>
    have hv := Voice.size_render v noise n
    have hmix : (Block.mix mixed (v.render noise n).1).size = mixed.size :=
      Block.size_mix _ _ (by omega)
    rw [renderVoices_cons]
    exact ih _ _ (hmix.trans h)

theorem renderVoices_noiseVoices (n : Nat) (vs : List Voice) (noise : Noise) (mixed : Block) :
    noiseVoices (renderVoices n vs noise mixed).2.1 = noiseVoices vs := by
  induction vs generalizing noise mixed with
  | nil => rfl
  | cons v vs ih =>
    have hrest := ih (v.render noise n).2.2 (Block.mix mixed (v.render noise n).1)
    rw [renderVoices_cons]
    simp only [noiseVoices, List.countP_cons, Voice.render_isNoise] at hrest ⊢
    rw [hrest]

theorem renderVoices_zero (vs : List Voice) (noise : Noise) :
    renderVoices 0 vs noise #[] = (#[], vs, noise) := by
  induction vs generalizing noise with
  | nil => rfl
  | cons v vs ih =>
    have hsize := Voice.size_render v noise 0
    have hnone : (v.render noise 0).1 = #[] := Array.eq_empty_of_size_eq_zero hsize
    have hmix : Block.mix #[] #[] = #[] := by simp [Block.mix]
    rw [renderVoices_cons, Voice.render_zero, hnone, hmix, ih]

/-- Voices without noise sound the same whatever the noise, and leave that as it is. -/
theorem renderVoices_quiet (n : Nat) (vs : List Voice) (h : noiseVoices vs = 0)
    (noise other : Noise) (mixed : Block) :
    renderVoices n vs other mixed
      = ((renderVoices n vs noise mixed).1, (renderVoices n vs noise mixed).2.1, other) := by
  induction vs generalizing noise other mixed with
  | nil => rfl
  | cons v vs ih =>
    simp only [noiseVoices, List.countP_cons] at h
    have hv : v.isNoise = false := by
      cases hc : v.isNoise with
      | false => rfl
      | true => simp [hc] at h
    have hvs : noiseVoices vs = 0 := by
      simp only [noiseVoices]
      omega
    simp only [renderVoices_cons]
    rw [Voice.render_quiet v hv noise other]
    rw [ih hvs (v.render noise n).2.2 other]

theorem renderVoices_keeps_noise (n : Nat) (vs : List Voice) (h : noiseVoices vs = 0)
    (noise : Noise) (mixed : Block) : (renderVoices n vs noise mixed).2.2 = noise :=
  congrArg (fun r => r.2.2) (renderVoices_quiet n vs h noise noise mixed)

/-- `m + n` samples of all voices are `m` samples and then `n`, if at most one voice is noise. -/
theorem renderVoices_add (m n : Nat) (vs : List Voice) (h : noiseVoices vs ≤ 1) (noise : Noise)
    (a b : Block) (ha : a.size = m) (hb : b.size = n) :
    renderVoices (m + n) vs noise (a ++ b)
      = ((renderVoices m vs noise a).1
            ++ (renderVoices n (renderVoices m vs noise a).2.1
                  (renderVoices m vs noise a).2.2 b).1,
          (renderVoices n (renderVoices m vs noise a).2.1
            (renderVoices m vs noise a).2.2 b).2) := by
  induction vs generalizing noise a b with
  | nil => rfl
  | cons v vs ih =>
    -- The voice itself, in one part and in two.
    obtain ⟨x, v₁, k₁, hfirst⟩ : ∃ x v₁ k₁, v.render noise m = (x, v₁, k₁) := ⟨_, _, _, rfl⟩
    obtain ⟨y, v₂, k₂, hsecond⟩ : ∃ y v₂ k₂, v₁.render k₁ n = (y, v₂, k₂) := ⟨_, _, _, rfl⟩
    have hwhole : v.render noise (m + n) = (x ++ y, v₂, k₂) := by
      rw [Voice.render_add, hfirst, hsecond]
    have hx : x.size = m := by
      have hsize := Voice.size_render v noise m
      rwa [hfirst] at hsize
    have hy : y.size = n := by
      have hsize := Voice.size_render v₁ k₁ n
      rwa [hsecond] at hsize
    have hmix : Block.mix (a ++ b) (x ++ y) = Block.mix a x ++ Block.mix b y :=
      Block.mix_append a b x y (by omega) (by omega)
    have hsizeA : (Block.mix a x).size = m := (Block.size_mix a x (by omega)).trans ha
    have hsizeB : (Block.mix b y).size = n := (Block.size_mix b y (by omega)).trans hb
    have hcount : noiseVoices (v :: vs) = noiseVoices vs + if v.isNoise then 1 else 0 := by
      simp [noiseVoices, List.countP_cons]
    have hvs : noiseVoices vs ≤ 1 := by omega
    simp only [renderVoices_cons, hwhole, hfirst, hmix]
    cases hv : v.isNoise with
    | false =>
      -- A voice without noise does not see what the others have drawn since its first part.
      have hv₁ : v₁.isNoise = false := by
        have hkept := Voice.render_isNoise v noise m
        rw [hfirst] at hkept
        exact hkept.trans hv
      have hk₂ : k₂ = k₁ := by
        have hkept := Voice.render_keeps_noise v₁ hv₁ k₁ n
        rwa [hsecond] at hkept
      rw [hk₂, ih hvs k₁ _ _ hsizeA hsizeB]
      rw [Voice.render_quiet v₁ hv₁ k₁ (renderVoices m vs k₁ (Block.mix a x)).2.2, hsecond]
    | true =>
      -- The voice is the only one with noise: the others leave the noise where it left it.
      have hrest : noiseVoices vs = 0 := by
        simp only [hcount, hv, if_true] at h
        omega
      have hrest₁ : noiseVoices (renderVoices m vs k₁ (Block.mix a x)).2.1 = 0 :=
        (renderVoices_noiseVoices m vs k₁ _).trans hrest
      have hk := renderVoices_keeps_noise m vs hrest k₁ (Block.mix a x)
      have hleft := renderVoices_quiet (m + n) vs hrest k₁ k₂ (Block.mix a x ++ Block.mix b y)
      have hright := renderVoices_quiet n _ hrest₁ k₁ k₂ (Block.mix b y)
      rw [hk, hsecond, hleft, hright, ih hvs k₁ _ _ hsizeA hsizeB, hk]

end Printer

end Tonewheel.Sound
