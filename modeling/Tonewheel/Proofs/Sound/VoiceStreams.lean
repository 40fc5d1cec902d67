import Tonewheel.Proofs.Sound.Streaming

/-!
# A voice in blocks and in samples

A voice works in blocks: its oscillator fills one, with the branch for its kind taken once and what
changes on the way kept aside (`Voice.oscillate`), and then one stage after the other goes over the
whole of it. That is the same as bringing each sample through all stages before the next one is made
(`Voice.next`), so a block may be cut anywhere (`Voice.streams`).
-/

namespace Tonewheel.Sound

/-! ### Oscillators by their kinds -/

namespace Carrier

/-- A sample at the rate that the carrier's own ramp says. -/
def follow (c : Carrier) : Float32 × Carrier :=
  let (rate, ramp) := c.rate.step
  { c with rate := ramp }.step rate

/-- A sample at the rate of the ramp under a swing whose phase is kept beside the carrier. -/
def swing (stride range : Float32) (state : Carrier × Float32) : Float32 × (Carrier × Float32) :=
  let (c, phase) := state
  let (base, ramp) := c.rate.step
  let (y, c) := { c with rate := ramp }.step (base * Float32.pow 2 (Float32.sin phase * range))
  (y, c, wrapRadians (phase + stride))

end Carrier

def whiteSample (noise : Noise) : Float32 × Noise :=
  let (word, noise) := noise.draw
  ((word.toFloat32 - 32768) / 32768, noise)

namespace Voice

/-- The next `n` samples of an oscillator. The phase of a swing is taken out of it before the first
sample and put back after the last. -/
def oscillate (v : Voice) (noise : Noise) (n : Nat) : Block × Voice × Noise :=
  match v.generator with
  | .silent => (.silence n, v, noise)
  | .noise =>
    let (block, noise) := Block.generate whiteSample n noise
    (block, v, noise)
  | .flat phase stride =>
    let (block, phase) := Block.generate (fun p => (v.carrier.wave.atPhase p, p + stride)) n phase
    (block, { v with generator := .flat phase stride }, noise)
  | .modulated =>
    let (block, carrier) := Block.generate Carrier.follow n v.carrier
    (block, { v with carrier }, noise)
  | .swinging swing =>
    let (block, carrier, phase) :=
      Block.generate (Carrier.swing swing.stride swing.range) n (v.carrier, swing.phase)
    (block, { v with carrier, generator := .swinging { swing with phase } }, noise)

theorem generate_silent (carrier : Carrier) (chain : List ChainStage) (noise : Noise) (n : Nat) :
    Block.generate emit n (⟨.silent, carrier, chain⟩, noise)
      = (.silence n, ⟨.silent, carrier, chain⟩, noise) := by
  induction n with
  | zero => rfl
  | succ n ih =>
    rw [Block.generate_succ]
    have hemit : emit (⟨.silent, carrier, chain⟩, noise)
        = (0, ⟨.silent, carrier, chain⟩, noise) := rfl
    rw [hemit, ih, Nat.add_comm, Block.silence_add]
    rfl

/-- Taking the branch once a block is taking it once a sample. -/
theorem oscillate_eq (v : Voice) (noise : Noise) (n : Nat) :
    v.oscillate noise n = Block.generate emit n (v, noise) := by
  obtain ⟨generator, carrier, chain⟩ := v
  cases generator with
  | silent => exact (generate_silent carrier chain noise n).symm
  | noise =>
    exact (Block.generate_map (fun k => (⟨.noise, carrier, chain⟩, k)) whiteSample emit
      (fun _ => rfl) n noise).symm
  | flat phase stride =>
    exact (Block.generate_map (fun p => (⟨.flat p stride, carrier, chain⟩, noise))
      (fun p => (carrier.wave.atPhase p, p + stride)) emit (fun _ => rfl) n phase).symm
  | modulated =>
    exact (Block.generate_map (fun c => (⟨.modulated, c, chain⟩, noise)) Carrier.follow emit
      (fun _ => rfl) n carrier).symm
  | swinging swing =>
    exact (Block.generate_map
      (fun s : Carrier × Float32 => (⟨.swinging { swing with phase := s.2 }, s.1, chain⟩, noise))
      (Carrier.swing swing.stride swing.range) emit (fun _ => rfl) n (carrier, swing.phase)).symm

/-- A block of a voice, in two passes: the oscillator fills it, then the chain goes over it. -/
def play (v : Voice) (noise : Noise) (n : Nat) : Block × Voice × Noise :=
  let (block, v, noise) := v.oscillate noise n
  let (block, chain) := runChain v.chain block
  (block, v.withChain chain, noise)

theorem play_eq_render (v : Voice) (noise : Noise) (n : Nat) :
    v.play noise n = v.render noise n := by
  rw [play, oscillate_eq]
  rfl

end Voice

/-! ### Sample by sample -/

def chainStep : List ChainStage → Float32 → Float32 × List ChainStage
  | [], x => (x, [])
  | stage :: stages, x =>
    let (y, stage) := stage.step x
    let (z, stages) := chainStep stages y
    (z, stage :: stages)

theorem scan_nil_chain (block : Block) : Block.scan chainStep [] block = (block, []) := by
  induction block using Block.front_induction with
  | empty => rfl
  | front x rest ih =>
    rw [Block.scan_front]
    show (#[x] ++ (Block.scan chainStep [] rest).1, (Block.scan chainStep [] rest).2) = _
    rw [ih]

theorem scan_cons_chain (stage : ChainStage) (stages : List ChainStage) (block : Block) :
    Block.scan chainStep (stage :: stages) block
      = ((Block.scan chainStep stages (Block.scan ChainStage.step stage block).1).1,
          (Block.scan ChainStage.step stage block).2
            :: (Block.scan chainStep stages (Block.scan ChainStage.step stage block).1).2) := by
  induction block using Block.front_induction generalizing stage stages with
  | empty => rfl
  | front x rest ih =>
    have hstep : chainStep (stage :: stages) x
        = ((chainStep stages (stage.step x).1).1,
            (stage.step x).2 :: (chainStep stages (stage.step x).1).2) := rfl
    rw [Block.scan_front, hstep, Block.scan_front ChainStage.step, Block.scan_front, ih]

/-- One stage after another over a whole block is each sample through all stages. -/
theorem runChain_eq_scan (stages : List ChainStage) (block : Block) :
    runChain stages block = Block.scan chainStep stages block := by
  induction stages generalizing block with
  | nil => exact (scan_nil_chain block).symm
  | cons stage stages ih => rw [runChain_cons, scan_cons_chain, ih]

namespace Voice

def next (state : Voice × Noise) : Float32 × (Voice × Noise) :=
  let (x, v, noise) := emit state
  let (y, chain) := chainStep v.chain x
  (y, v.withChain chain, noise)

theorem render_one (v : Voice) (noise : Noise) :
    v.render noise 1 = (#[(next (v, noise)).1], (next (v, noise)).2) := by
  have hsource : Block.generate emit 1 (v, noise)
      = (#[(emit (v, noise)).1], (emit (v, noise)).2) := rfl
  have hchain : ∀ stages x, Block.scan chainStep stages #[x]
      = (#[(chainStep stages x).1], (chainStep stages x).2) := fun _ _ => rfl
  rw [render_eq, runChain_eq_scan, hsource, hchain, ← emit_chain v noise]
  rfl

theorem render_eq_generate (v : Voice) (noise : Noise) (n : Nat) :
    v.render noise n = Block.generate next n (v, noise) := by
  induction n generalizing v noise with
  | zero =>
    have hnone : (v.render noise 0).1 = #[] :=
      Array.eq_empty_of_size_eq_zero (size_render v noise 0)
    exact Prod.ext hnone (render_zero v noise)
  | succ n ih => rw [Nat.add_comm, render_add, render_one, Nat.add_comm, Block.generate_succ, ih]

/-- `a + b` samples of a voice are `a` samples and then `b`, and what is left of the voice and of
the noise is the same. They are what the oscillator and then the chain make of a whole block, and
what comes out if every sample is brought through all stages before the next one is made. -/
theorem streams (v : Voice) (noise : Noise) (a b : Nat) :
    let whole := v.render noise (a + b)
    let first := v.render noise a
    let second := first.2.1.render first.2.2 b
    whole = (first.1 ++ second.1, second.2)
      ∧ first.1.size = a ∧ second.1.size = b
      ∧ whole = v.play noise (a + b)
      ∧ whole = Block.generate next (a + b) (v, noise) :=
  ⟨render_add v noise a b, size_render v noise a, size_render _ _ b,
    (play_eq_render v noise (a + b)).symm, render_eq_generate v noise (a + b)⟩

end Voice

end Tonewheel.Sound
