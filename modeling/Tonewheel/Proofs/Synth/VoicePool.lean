import Tonewheel.Proofs.Pool.Eviction
import Tonewheel.Proofs.Synth.Events

/-!
# What steps do to the voices

All that a step does to the voices is a list of operations on their pool (`Step.onVoices`,
`voices_run`). Only a note on a channel that has voices adds one, which is born at the frame that the
synthesizer has counted to; all other operations keep the births of the voices (`onVoices_cases`).
-/

namespace Tonewheel.Synth

open Pool (Operation)

/-! ### Operations on the voices -/

/-- The channel that an event finds, which is made first if it is not there and can be. -/
def channelFor (s : Synth) (channel : UInt8) : Option Channel :=
  (channelIndex? channel).bind fun i => (s.ensureChannel i).channels.get i

def voiceFor (s : Synth) (channel note velocity : UInt8) (duration : Int) : Option Voice :=
  (s.channelFor channel).bind fun c =>
    Voice.begin? c s.notes s.format.rate note velocity duration s.framesMade

def dropVoices (i : Fin channelCount) : Operation Voice :=
  .retain fun _ v => v.channel != i.val.toUInt8

def releaseVoices : Operation Voice := .change fun _ => Voice.release

def bendVoicesBy (channel : UInt8) (bend : Float32) : Operation Voice :=
  .change fun _ v => if !v.isDefunct && v.channel == channel then v.setBend bend else v

/-- Lets every voice make `n` samples, each with the noise that those before it leave. -/
def renderVoicesBy (s : Synth) (n : Nat) : Operation Voice :=
  .change fun i v =>
    (Voice.render s.notes.sine v
      (renderVoices s.notes.sine n (s.voices.entries.take i) s.noise (.silence n)).2.2 n).2.1

def actionOnVoices (s : Synth) (channel : UInt8) : Action → List (Operation Voice)
  | .noteOff note =>
    match s.channelFor channel with
    | some c =>
      if c.bendsVoices then
        [.changeFirst s.voices.entries (fun v => v.isNote c.id note) Voice.release]
      else []
    | none => []
  | .noteOn note velocity => (s.voiceFor channel note velocity Envelope.held).toList.map .insert
  | .noteOnce note velocity duration =>
    (s.voiceFor channel note velocity duration).toList.map .insert
  | .control _ _ => []
  | .program _ =>
    match channelIndex? channel with
    | some i => if (s.channels.get i).isSome then [dropVoices i] else []
    | none => []
  | .wheel position =>
    match s.channelFor channel with
    | some c => (c.setWheel position).1.toList.map (bendVoicesBy c.id)
    | none => []
  | .reset =>
    match channelIndex? channel with
    | some i => if channel.toNat < songChannels then [] else [dropVoices i]
    | none => allChannels.map dropVoices
  | .nothing => []

def Step.onVoices (s : Synth) : Step → List (Operation Voice)
  | .event e => s.actionOnVoices e.channel e.action
  | .setCustom _ => [.clear]
  | .seek _ => if s.pending.isNone && s.song.isSome then [releaseVoices] else []
  | .releaseAll => [releaseVoices]
  | .endSong => if s.song.isSome then [releaseVoices] else []
  | .stretch n => [s.renderVoicesBy n]
  | .finish => [.reap]
  | _ => []

/-! ### Events -/

theorem exists_ensureChannel (s : Synth) (i : Fin channelCount) :
    ∃ racks channels, s.ensureChannel i = { s with racks, channels } := by
  unfold ensureChannel instantiate
  split
  · exact ⟨s.racks, s.channels, rfl⟩
  · split
    · exact ⟨s.racks, s.channels, rfl⟩
    · exact ⟨_, _, rfl⟩

theorem voices_withChannel (s : Synth) (channel : UInt8)
    (act : Fin channelCount → Synth → Channel → Synth) (ops : Option Channel → List (Operation Voice))
    (hnone : ops none = [])
    (hact : ∀ i c racks channels, (act i { s with racks, channels } c).voices
      = (ops (some c)).foldl Pool.operate s.voices) :
    (s.onChannel channel fun i => s.withChannel i (act i)).voices
      = (ops (s.channelFor channel)).foldl Pool.operate s.voices := by
  unfold onChannel channelFor
  cases channelIndex? channel with
  | none =>
    rw [Option.bind_none, hnone]
    rfl
  | some i =>
    -- A channel that is made changes the racks and channels only, so the voices are still those
    -- that `ops` was asked about.
    obtain ⟨racks, channels, hensure⟩ := s.exists_ensureChannel i
    simp only [withChannel, Option.bind_some]
    rw [hensure]
    cases channels.get i with
    | none =>
      rw [hnone]
      rfl
    | some c => exact hact i c racks channels

theorem voices_playSound (s : Synth) (key : SoundKey) (trim : Float32) :
    (s.playSound key trim).voices = s.voices := by
  obtain ⟨shelf, cache, printers, playbacks, heq⟩ := s.playSound_sounds key trim
  rw [heq]

theorem begin?_drum {c : Channel} {base : UInt16} (h : c.patch = .drum base) (notes : NoteTable)
    (rate : UInt32) (note velocity : UInt8) (duration : Int) (born : Nat) :
    Voice.begin? c notes rate note velocity duration born = none := by
  unfold Voice.begin? Tone.ofNote
  simp [h]

theorem begin?_effect {c : Channel} {params : EffectParams} (h : c.patch = .effect params)
    (notes : NoteTable) (rate : UInt32) (note velocity : UInt8) (duration : Int) (born : Nat) :
    Voice.begin? c notes rate note velocity duration born = none := by
  unfold Voice.begin? Tone.ofNote
  simp [h]

theorem voices_startNote (s : Synth) (c : Channel) (note velocity : UInt8) (duration : Int) :
    (s.startNote c note velocity duration).voices
      = ((Voice.begin? c s.notes s.format.rate note velocity duration s.framesMade).toList.map
          Operation.insert).foldl Pool.operate s.voices := by
  unfold startNote
  split
  next base hpatch =>
    rw [begin?_drum hpatch]
    exact s.voices_playSound _ _
  next params hpatch =>
    rw [begin?_effect hpatch]
    rfl
  next =>
    split
    next v hbegin =>
      rw [hbegin]
      rfl
    next hbegin =>
      rw [hbegin]
      rfl

theorem voices_stopNote (s : Synth) (c : Channel) (note : UInt8) :
    (s.stopNote c note).voices
      = (if c.bendsVoices then
          [Operation.changeFirst s.voices.entries (fun v => v.isNote c.id note) Voice.release]
        else []).foldl Pool.operate s.voices := by
  unfold stopNote Channel.bendsVoices
  cases c.patch with
  | drum | effect => rfl
  | _ => exact (s.voices.operate_update _ _).symm

theorem voices_controlChannel (s : Synth) (i : Fin channelCount) (c : Channel) (key value : UInt8) :
    (s.controlChannel i c key value).voices = s.voices := by
  unfold controlChannel
  dsimp only
  split <;> rfl

theorem voices_moveWheel (s : Synth) (i : Fin channelCount) (c : Channel) (position : UInt16) :
    (s.moveWheel i c position).voices
      = ((c.setWheel position).1.toList.map (bendVoicesBy c.id)).foldl Pool.operate s.voices := by
  unfold moveWheel
  split
  next hsame =>
    rw [Channel.setWheel, if_pos hsame.symm]
    rfl
  next =>
    generalize c.setWheel position = moved
    obtain ⟨bend, moved⟩ := moved
    cases bend with
    | some bend => exact (s.voices.operate_map _).symm
    | none =>
      dsimp only
      split
      next bend _ hsome => cases hsome
      · rfl
      · rfl

theorem voices_dropChannel (s : Synth) (i : Fin channelCount) :
    (s.dropChannel i).voices = s.voices.operate (dropVoices i) :=
  (s.voices.operate_retain _).symm

theorem voices_dropChannels (s : Synth) (is : List (Fin channelCount)) :
    (is.foldl dropChannel s).voices = (is.map dropVoices).foldl Pool.operate s.voices := by
  induction is generalizing s with
  | nil => rfl
  | cons i is ih =>
    rw [List.foldl_cons, ih, voices_dropChannel]
    rfl

theorem voices_headerControl (s : Synth) (i : Fin channelCount) (key value : UInt8) :
    (s.headerControl i key value).voices = s.voices := by
  obtain ⟨racks, channels, hensure⟩ := s.exists_ensureChannel i
  unfold headerControl withChannel
  dsimp only
  rw [hensure]
  split
  · exact voices_controlChannel _ i _ key value
  · rfl

theorem voices_control (s : Synth) (i : Fin channelCount) (key value : UInt8) :
    (s.control i key value).voices = s.voices := by
  unfold control
  split
  · rfl
  · split
    · rfl
    · split
      · rfl
      · exact s.voices_headerControl i key value

theorem voices_perform (s : Synth) (channel : UInt8) (a : Action) :
    (s.perform channel a).voices = (s.actionOnVoices channel a).foldl Pool.operate s.voices := by
  cases a with
  | noteOff note =>
    let ops : Option Channel → List (Operation Voice)
      | some c =>
        if c.bendsVoices then
          [.changeFirst s.voices.entries (fun v => v.isNote c.id note) Voice.release]
        else []
      | none => []
    exact s.voices_withChannel channel (fun _ s c => s.stopNote c note) ops rfl
      fun _ c _ _ => voices_stopNote _ c note
  | noteOn note velocity =>
    let ops (c : Option Channel) : List (Operation Voice) :=
      (c.bind fun c => Voice.begin? c s.notes s.format.rate note velocity Envelope.held
        s.framesMade).toList.map .insert
    exact s.voices_withChannel channel (fun _ s c => s.startNote c note velocity Envelope.held) ops
      rfl fun _ c _ _ => voices_startNote _ c note velocity _
  | noteOnce note velocity duration =>
    let ops (c : Option Channel) : List (Operation Voice) :=
      (c.bind fun c => Voice.begin? c s.notes s.format.rate note velocity duration
        s.framesMade).toList.map .insert
    exact s.voices_withChannel channel (fun _ s c => s.startNote c note velocity duration) ops rfl
      fun _ c _ _ => voices_startNote _ c note velocity duration
  | control key value =>
    show (s.onChannel channel fun i => s.control i key value).voices = s.voices
    unfold onChannel
    split
    · exact s.voices_control _ key value
    · rfl
  | program number =>
    show (s.onChannel channel fun i => s.changeProgram i number).voices = _
    unfold onChannel actionOnVoices changeProgram
    cases channelIndex? channel with
    | none => rfl
    | some i =>
      dsimp only
      cases s.channels.get i with
      | none => rfl
      | some c => exact voices_dropChannel _ i
  | wheel position =>
    let ops : Option Channel → List (Operation Voice)
      | some c => (c.setWheel position).1.toList.map (bendVoicesBy c.id)
      | none => []
    exact s.voices_withChannel channel (fun i s c => s.moveWheel i c position) ops rfl
      fun i c _ _ => voices_moveWheel _ i c position
  | reset =>
    show (s.reset channel).voices = _
    unfold reset actionOnVoices
    cases channelIndex? channel with
    | none => exact s.voices_dropChannels allChannels
    | some i =>
      dsimp only
      split
      · rfl
      · exact s.voices_dropChannel i
  | nothing => rfl

/-! ### Steps -/

theorem voices_instantiate (s : Synth) (i : Fin channelCount) :
    (s.instantiate i).voices = s.voices := by
  unfold instantiate
  split <;> rfl

theorem voices_setUpChannel (s : Synth) (i : Fin channelCount) (r : ChannelRecord) :
    (s.setUpChannel i r).voices = s.voices := by
  unfold setUpChannel
  dsimp only
  split
  · rfl
  · rw [voices_headerControl, voices_headerControl, voices_instantiate]

/-- Which samples a stretch is mixed onto makes no difference to the voices and the noise. -/
theorem renderVoices_state (sine : Wave) (n : Nat) (voices : List Voice) (noise : Noise)
    (mixed mixed' : Block) :
    (renderVoices sine n voices noise mixed).2 = (renderVoices sine n voices noise mixed').2 := by
  induction voices generalizing noise mixed mixed' with
  | nil => rfl
  | cons v vs ih =>
    let rest (after : List Voice × Noise) : List Voice × Noise :=
      ((Voice.render sine v noise n).2.1 :: after.1, after.2)
    exact congrArg rest (ih _ _ _)

/-- Rendering changes each voice by itself, but for the noise that those before it leave. -/
theorem renderVoices_eq_mapIdx (sine : Wave) (n : Nat) (voices : List Voice) (noise : Noise)
    (mixed : Block) :
    (renderVoices sine n voices noise mixed).2.1
      = voices.mapIdx fun i v =>
        (Voice.render sine v
          (renderVoices sine n (voices.take i) noise (.silence n)).2.2 n).2.1 := by
  induction voices generalizing noise mixed with
  | nil => rfl
  | cons v vs ih =>
    rw [List.mapIdx_cons, renderVoices]
    dsimp only
    rw [ih]
    -- What the first voices add to the mix does not reach the noise that they leave.
    have hnoise : ∀ i, (renderVoices sine n ((v :: vs).take (i + 1)) noise (.silence n)).2.2
        = (renderVoices sine n (vs.take i) (Voice.render sine v noise n).2.2 (.silence n)).2.2 := by
      intro i
      have hstate := renderVoices_state sine n (vs.take i) (Voice.render sine v noise n).2.2
        (Block.mix (.silence n) (Voice.render sine v noise n).1) (.silence n)
      rw [← hstate]
      rfl
    simp only [hnoise]
    rfl

theorem voices_renderStretch (s : Synth) (n : Nat) :
    (s.renderStretch n).2.voices = s.voices.operate (s.renderVoicesBy n) := by
  show ({ s.voices with
    entries := (renderVoices s.notes.sine n s.voices.entries s.noise (.silence n)).2.1 } : Pool Voice)
      = _
  rw [renderVoices_eq_mapIdx]
  rfl

theorem voices_run (s : Synth) (σ : Step) :
    (σ.run s).voices = (σ.onVoices s).foldl Pool.operate s.voices := by
  cases σ with
  | event e => exact s.voices_perform e.channel e.action
  | playSound key trim => exact s.voices_playSound key trim
  | playSoundBytes bytes trim =>
    obtain ⟨shelf, cache, printers, playbacks, heq⟩ := s.playSoundBytes_sounds bytes trim
    show (s.playSoundBytes bytes trim).voices = s.voices
    rw [heq]
  | seek beats =>
    show (s.seek beats).voices = _
    unfold Synth.seek Step.onVoices
    cases s.pending with
    | some p => rfl
    | none =>
      cases s.song with
      | some p => exact (s.voices.operate_map _).symm
      | none => rfl
  | releaseAll => exact (s.voices.operate_map _).symm
  | endSong =>
    show s.endSong.voices = _
    unfold Synth.endSong Step.onVoices
    cases s.song with
    | some p => exact (s.voices.operate_map _).symm
    | none => rfl
  | setUp i record => exact s.voices_setUpChannel i record
  | stretch n => exact s.voices_renderStretch n
  | _ => rfl

/-! ### Births -/

/-- Whether an operation adds no voice and keeps the births of those there are. -/
def KeepsBirths : Operation Voice → Prop
  | .insert _ => False
  | .change f => ∀ i v, (f i v).born = v.born
  | _ => True

theorem KeepsBirths.one {op : Operation Voice} (h : KeepsBirths op) :
    ∀ op' ∈ [op], KeepsBirths op' := by
  intro op' hop
  rw [List.mem_singleton.mp hop]
  exact h

theorem born_begin? {c : Channel} {notes : NoteTable} {rate : UInt32} {note velocity : UInt8}
    {duration : Int} {born : Nat} {v : Voice}
    (h : Voice.begin? c notes rate note velocity duration born = some v) : v.born = born := by
  unfold Voice.begin? at h
  split at h
  · cases h
  · obtain ⟨tone, -, rfl⟩ := Option.map_eq_some_iff.mp h
    rfl

theorem born_voiceFor {s : Synth} {channel note velocity : UInt8} {duration : Int} {v : Voice}
    (h : s.voiceFor channel note velocity duration = some v) : v.born = s.framesMade := by
  obtain ⟨c, -, hbegin⟩ := Option.bind_eq_some_iff.mp h
  exact born_begin? hbegin

theorem born_render (sine : Wave) (v : Voice) (noise : Noise) (n : Nat) :
    (Voice.render sine v noise n).2.1.born = v.born := by
  unfold Voice.render
  split <;> rfl

theorem keepsBirths_changeFirst (entries : List Voice) (test : Voice → Bool) {f : Voice → Voice}
    (h : ∀ v, (f v).born = v.born) : KeepsBirths (.changeFirst entries test f) := by
  intro _ v
  dsimp only
  split
  · exact h v
  · rfl

theorem keepsBirths_bend (channel : UInt8) (bend : Float32) :
    KeepsBirths (bendVoicesBy channel bend) := by
  intro _ v
  dsimp only
  split <;> rfl

theorem keepsBirths_release : KeepsBirths releaseVoices := fun _ _ => rfl

theorem keepsBirths_render (s : Synth) (n : Nat) : KeepsBirths (s.renderVoicesBy n) :=
  fun _ v => born_render _ v _ n

theorem keepsBirths_action (s : Synth) (channel : UInt8) {a : Action}
    (hon : ∀ note velocity, a ≠ .noteOn note velocity)
    (honce : ∀ note velocity duration, a ≠ .noteOnce note velocity duration) :
    ∀ op ∈ s.actionOnVoices channel a, KeepsBirths op := by
  cases a with
  | noteOff note =>
    simp only [actionOnVoices]
    split
    · split
      · have hborn : ∀ v : Voice, v.release.born = v.born := fun _ => rfl
        exact (keepsBirths_changeFirst _ _ hborn).one
      · exact List.forall_mem_nil _
    · exact List.forall_mem_nil _
  | noteOn note velocity => exact absurd rfl (hon note velocity)
  | noteOnce note velocity duration => exact absurd rfl (honce note velocity duration)
  | program number =>
    simp only [actionOnVoices]
    split
    · split
      · exact KeepsBirths.one trivial
      · exact List.forall_mem_nil _
    · exact List.forall_mem_nil _
  | wheel position =>
    simp only [actionOnVoices]
    split
    · exact List.forall_mem_map.mpr fun bend _ => keepsBirths_bend _ bend
    · exact List.forall_mem_nil _
  | reset =>
    simp only [actionOnVoices]
    split
    · split
      · exact List.forall_mem_nil _
      · exact KeepsBirths.one trivial
    · exact List.forall_mem_map.mpr fun _ _ => trivial
  | control | nothing => exact List.forall_mem_nil _

theorem insert_cases {s : Synth} {channel note velocity : UInt8} {duration : Int}
    {ops : List (Operation Voice)}
    (h : ops = (s.voiceFor channel note velocity duration).toList.map .insert) :
    (∃ v, v.born = s.framesMade ∧ ops = [.insert v]) ∨ ∀ op ∈ ops, KeepsBirths op := by
  subst h
  cases hvoice : s.voiceFor channel note velocity duration with
  | some v => exact .inl ⟨v, born_voiceFor hvoice, rfl⟩
  | none => exact .inr fun op hop => by cases hop

/-- A step adds one voice, which is born at the frame that is counted to, or it adds none and keeps
the births of the voices. -/
theorem onVoices_cases (s : Synth) (σ : Step) :
    (∃ v, v.born = s.framesMade ∧ σ.onVoices s = [.insert v])
      ∨ ∀ op ∈ σ.onVoices s, KeepsBirths op := by
  cases σ with
  | event e =>
    show (∃ v, v.born = s.framesMade ∧ s.actionOnVoices e.channel e.action = [.insert v])
      ∨ ∀ op ∈ s.actionOnVoices e.channel e.action, KeepsBirths op
    cases e.action with
    | noteOn note velocity => exact insert_cases rfl
    | noteOnce note velocity duration => exact insert_cases rfl
    | _ => exact .inr (s.keepsBirths_action e.channel (by simp) (by simp))
  | setCustom | finish => exact .inr (KeepsBirths.one trivial)
  | seek | endSong =>
    simp only [Step.onVoices]
    split
    · exact .inr keepsBirths_release.one
    · exact .inr (List.forall_mem_nil _)
  | releaseAll => exact .inr keepsBirths_release.one
  | stretch n => exact .inr (s.keepsBirths_render n).one
  | _ => exact .inr (List.forall_mem_nil _)

end Tonewheel.Synth
