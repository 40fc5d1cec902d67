import Tonewheel.Proofs.Synth.EnsembleSteps

/-!
# Look-ups by number

Channels, notes and slots are numbers, and a table can be asked for a place that it does not have.
Here an event asks for everything by number, and fails if a number is past the end of its table
(`dispatch?`). It never fails, whatever the event says (`dispatch?_eq`): the number of a channel is
tested before it is used, that of a note is cut to seven bits, and the slots that a pool looks at are
its own.
-/

namespace Tonewheel

def writeAt? {α : Type} {n : Nat} (table : Vector α n) (k : Nat) (x : α) : Option (Vector α n) :=
  if h : k < n then some (table.set k x h) else none

theorem writeAt?_eq {α : Type} {n : Nat} (table : Vector α n) (i : Fin n) (x : α) :
    writeAt? table i.val x = some (table.set i x i.isLt) :=
  dif_pos i.isLt

theorem getElem?_eq_get {α : Type} {n : Nat} (table : Vector α n) (i : Fin n) :
    table[i.val]? = some (table.get i) :=
  Vector.getElem?_eq_getElem i.isLt

/-! ### Slots -/

namespace Pool

variable {α : Type} [PoolEntry α]

/-- Looks for the slot that a new entry takes over, where `slot` is the number of the first entry
listed and `best` that of the oldest so far. -/
def victimFrom? (entries : List α) (best : Nat) : (slot : Nat) → List α → Option (Option Nat)
  | _, [] => some (if entries.isEmpty then none else some best)
  | slot, e :: es =>
    if PoolEntry.isDefunct e then some (some slot)
    else
      entries[best]?.bind fun oldest =>
        victimFrom? entries (if PoolEntry.isOlder e oldest then slot else best) (slot + 1) es

def place? (capacity : Nat) (entries : List α) (entry : α) : Option (Nat × List α) :=
  if entries.length < capacity then some (entries.length, entries ++ [entry])
  else
    (victimFrom? entries 0 0 entries).bind fun
      | some slot => if slot < entries.length then some (slot, entries.set slot entry) else none
      | none => some (0, entries)

def insert? (p : Pool α) (entry : α) : Option (Pool α) :=
  (place? p.capacity p.entries entry).map fun placed => { p with entries := placed.2 }

theorem victimFrom?_eq {entries : List α} {best : Nat} {oldest : α}
    (hbest : entries[best]? = some oldest) {slot : Nat} {rest : List α}
    (hrest : entries.drop slot = rest) :
    victimFrom? entries best slot rest
      = some (some (match rest.findIdx? PoolEntry.isDefunct with
        | some k => slot + k
        | none => oldestFrom best oldest slot rest)) := by
  induction rest generalizing best oldest slot with
  | nil =>
    have hsome : entries.isEmpty = false := by
      cases entries with
      | nil => cases hbest
      | cons => rfl
    simp [victimFrom?, hsome, oldestFrom]
  | cons e es ih =>
    have hhere : entries[slot]? = some e := by
      rw [← List.head?_drop, hrest, List.head?_cons]
    have hnext : entries.drop (slot + 1) = es := by
      rw [← List.tail_drop, hrest, List.tail_cons]
    rw [victimFrom?, List.findIdx?_cons]
    split
    · rfl
    · have hshift (k : Nat) : slot + 1 + k = slot + (k + 1) := by omega
      rw [hbest, Option.bind_some, oldestFrom]
      split
      · rw [ih hhere hnext]
        cases es.findIdx? PoolEntry.isDefunct <;> simp [hshift]
      · rw [ih hbest hnext]
        cases es.findIdx? PoolEntry.isDefunct <;> simp [hshift]

theorem victim?_eq (entries : List α) : victimFrom? entries 0 0 entries = some (victim entries) := by
  cases entries with
  | nil => rfl
  | cons e es =>
    -- The first entry is compared with itself, and its slot is best either way.
    have hfirst : oldestFrom 0 e 0 (e :: es) = oldestFrom 0 e 1 es := by
      rw [oldestFrom, ite_self]
    have hhere : (e :: es)[0]? = some e := rfl
    have hrest : (e :: es).drop 0 = e :: es := rfl
    have hloop := victimFrom?_eq hhere hrest
    rw [hloop, hfirst, victim, oldest]
    cases (e :: es).findIdx? PoolEntry.isDefunct <;> simp

/-- A pool finds the slot for a new entry among its own. -/
theorem place?_eq (capacity : Nat) (entries : List α) (entry : α) :
    place? capacity entries entry = some (place capacity entries entry) := by
  unfold place? place
  split
  · rfl
  · rw [victim?_eq, Option.bind_some]
    cases hslot : victim entries with
    | none => rfl
    | some slot => exact if_pos (victim_lt hslot)

theorem insert?_eq (p : Pool α) (entry : α) : p.insert? entry = some (p.insert entry).2 := by
  rw [insert?, place?_eq]
  rfl

omit [PoolEntry α] in
/-- Changing the first entry that passes a test is writing what it becomes where it was found. -/
theorem modifyFirst_eq_found (test : α → Bool) (f : α → α) (entries : List α) :
    modifyFirst test f entries
      = match entries.find? test with
        | some e => modifyFirst test (fun _ => f e) entries
        | none => entries := by
  induction entries with
  | nil => rfl
  | cons d ds ih =>
    rw [List.find?_cons]
    cases htest : test d with
    | true => simp [modifyFirst, htest]
    | false =>
      cases hfind : ds.find? test <;> simp [modifyFirst, htest, ih, hfind]

end Pool

/-! ### Notes -/

namespace NoteTable

def cyclesOf? (t : NoteTable) (note : UInt8) : Option Float32 := t.cycles[(note &&& 0x7f).toNat]?

def strideOf? (t : NoteTable) (note : UInt8) : Option UInt32 := t.strides[(note &&& 0x7f).toNat]?

def only (t : NoteTable) (cycles : Float32) (stride : UInt32) : NoteTable :=
  { t with cycles := .replicate 128 cycles, strides := .replicate 128 stride }

theorem toNat_and_127 (note : UInt8) : (note &&& 0x7f).toNat = (index note).val := by
  rw [UInt8.toNat_and]
  exact Nat.and_two_pow_sub_one_eq_mod note.toNat 7

theorem cyclesOf?_eq (t : NoteTable) (note : UInt8) : t.cyclesOf? note = some (t.cyclesOf note) := by
  rw [cyclesOf?, toNat_and_127]
  exact getElem?_eq_get t.cycles (index note)

theorem strideOf?_eq (t : NoteTable) (note : UInt8) : t.strideOf? note = some (t.strideOf note) := by
  rw [strideOf?, toNat_and_127]
  exact getElem?_eq_get t.strides (index note)

end NoteTable

def Voice.beginFrom? (c : Channel) (notes : NoteTable) (rate : UInt32) (note velocity : UInt8)
    (duration : Int) (born : Nat) : Option (Option Voice) :=
  if 0x80 ≤ note then some none
  else
    (notes.strideOf? note).bind fun stride =>
      (notes.cyclesOf? note).map fun cycles =>
        Voice.begin? c (notes.only cycles stride) rate note velocity duration born

theorem Voice.begin?_only (c : Channel) (notes : NoteTable) (rate : UInt32)
    (note velocity : UInt8) (duration : Int) (born : Nat) :
    begin? c (notes.only (notes.cyclesOf note) (notes.strideOf note)) rate note velocity duration born
      = begin? c notes rate note velocity duration born := by
  have hcycles : (notes.only (notes.cyclesOf note) (notes.strideOf note)).cyclesOf note
      = notes.cyclesOf note := Vector.getElem_replicate _
  have hstride : (notes.only (notes.cyclesOf note) (notes.strideOf note)).strideOf note
      = notes.strideOf note := Vector.getElem_replicate _
  unfold begin? Tone.ofNote
  rw [hcycles, hstride]

theorem Voice.beginFrom?_eq (c : Channel) (notes : NoteTable) (rate : UInt32)
    (note velocity : UInt8) (duration : Int) (born : Nat) :
    beginFrom? c notes rate note velocity duration born
      = some (begin? c notes rate note velocity duration born) := by
  unfold beginFrom?
  split
  next hhigh => rw [begin?, if_pos hhigh]
  next =>
    rw [notes.strideOf?_eq, notes.cyclesOf?_eq, Option.bind_some, Option.map_some, begin?_only]

def Rack.voiceAt (r : Rack) (cycles : Float32) (note velocity : UInt8) (duration : Int) (born : Nat) :
    EffectVoice :=
  let base := cycles * Single.tau
  let stride := base * r.bend
  { baseStride := base
    carrierStride := stride
    modulatorStride := stride * r.ratio
    level := Envelope.ofNote r.level velocity duration
    range := Envelope.ofNote r.range velocity duration
    born
    note }

def Rack.noteOnce? (r : Rack) (notes : NoteTable) (note velocity : UInt8) (duration : Int)
    (born : Nat) : Option Rack :=
  (notes.cyclesOf? note).bind fun cycles =>
    (Pool.place? voiceLimit r.voices (r.voiceAt cycles note velocity duration born)).map
      fun placed => { r with voices := placed.2 }

theorem Rack.noteOnce?_eq (r : Rack) (notes : NoteTable) (note velocity : UInt8) (duration : Int)
    (born : Nat) :
    r.noteOnce? notes note velocity duration born
      = some (r.noteOnce notes note velocity duration born) := by
  rw [noteOnce?, notes.cyclesOf?_eq, Option.bind_some, Pool.place?_eq, noteOnce, addVoice_eq]
  rfl

/-! ### Events -/

namespace Synth

variable (s : Synth)

def instantiate? (channel : UInt8) : Option Synth := do
  let program ← s.programs[channel.toNat]?
  match Channel.make channel program s.format.rate s.notes s.custom with
  | none => some s
  | some c =>
    let racks ←
      match c.patch with
      | .effect params =>
        s.racks.insert? (Rack.make c params s.format.rate s.framesPerBeat s.framesMade)
      | _ => some s.racks
    let channels ← writeAt? s.channels channel.toNat (some c)
    return { s with racks, channels }

def ensureChannel? (channel : UInt8) : Option Synth := do
  match ← s.channels[channel.toNat]? with
  | some _ => some s
  | none => s.instantiate? channel

/-- Runs an operation on a channel, of which the number is tested first. -/
def withChannel? (channel : UInt8) (act : Synth → Channel → Option Synth) : Option Synth :=
  if channel.toNat < channelCount then do
    let s ← s.ensureChannel? channel
    match ← s.channels[channel.toNat]? with
    | some c => act s c
    | none => some s
  else some s

def playSound? (key : SoundKey) (trim : Float32) : Option Synth :=
  if trim ≤ 0 then some s
  else
    match s.resolveSound key with
    | none => some s
    | some key =>
      match s.obtainSound key with
      | (none, s) => some s
      | (some pcm, s) =>
        (s.playbacks.insert? (.ofBuffer s.shelf pcm trim)).map fun playbacks => { s with playbacks }

def startNote? (c : Channel) (note velocity : UInt8) (duration : Int) : Option Synth :=
  match c.patch with
  | .drum base => s.playSound? ⟨0, base + note.toUInt16⟩ (c.drumTrim velocity)
  | .effect _ =>
    match s.racks.entries.find? fun r => !r.isDefunct && r.channel == c.id with
    | none => some s
    | some r =>
      (r.noteOnce? s.notes note velocity duration s.framesMade).map fun r' =>
        s.updateRack c.id fun _ => r'
  | _ => do
    match ← Voice.beginFrom? c s.notes s.format.rate note velocity duration s.framesMade with
    | some v => (s.voices.insert? v).map fun voices => { s with voices }
    | none => some s

def controlChannel? (channel : UInt8) (c : Channel) (key value : UInt8) : Option Synth := do
  let channels ← writeAt? s.channels channel.toNat (some (c.control key value))
  let s := { s with channels }
  match c.patch with
  | .effect _ => some (s.updateRack c.id fun r => r.control key value)
  | _ => some s

def changeBank? (channel : UInt8) (f : UInt32 → UInt32) : Option Synth := do
  let word ← s.programs[channel.toNat]?
  let programs ← writeAt? s.programs channel.toNat (f word)
  return { s with programs }

def control? (channel key value : UInt8) : Option Synth :=
  if channel.toNat < channelCount then
    if key = controlBankHigh then s.changeBank? channel fun word => withHighBank word value
    else if key = controlBankLow then s.changeBank? channel fun word => withLowBank word value
    else if 0x21 ≤ key ∧ key ≤ 0x3f then some s
    else s.withChannel? channel fun s c => s.controlChannel? channel c key value
  else some s

def dropChannel? (channel : UInt8) : Option Synth := do
  let channels ← writeAt? s.channels channel.toNat none
  some
    { s with
      voices := s.voices.retain fun v => v.channel != channel
      racks := s.racks.retain fun r => r.channel != channel
      channels }

def changeProgram? (channel number : UInt8) : Option Synth :=
  if channel.toNat < channelCount then do
    let s ← s.changeBank? channel fun word => withProgram word number
    match ← s.channels[channel.toNat]? with
    | some _ => s.dropChannel? channel
    | none => some s
  else some s

def moveWheel? (channel : UInt8) (c : Channel) (position : UInt16) : Option Synth :=
  if c.wheel = position then some s
  else do
    let (bend, moved) := c.setWheel position
    let channels ← writeAt? s.channels channel.toNat (some moved)
    let s := { s with channels }
    match bend, c.patch with
    | some bend, _ => some (s.bendVoices c.id bend)
    | none, .effect _ => some (s.updateRack c.id fun r => r.wheel position)
    | none, _ => some s

def reset? (channel : UInt8) : Option Synth :=
  if channel.toNat < songChannels then some s
  else if channel.toNat < channelCount then s.dropChannel? channel
  else (List.range channelCount).foldlM (fun s k => s.dropChannel? k.toUInt8) s

def perform? (channel : UInt8) : Action → Option Synth
  | .noteOff note => s.withChannel? channel fun s c => some (s.stopNote c note)
  | .noteOn note velocity =>
    s.withChannel? channel fun s c => s.startNote? c note velocity Envelope.held
  | .noteOnce note velocity duration =>
    s.withChannel? channel fun s c => s.startNote? c note velocity duration
  | .control key value => s.control? channel key value
  | .program number => s.changeProgram? channel number
  | .wheel position => s.withChannel? channel fun s c => s.moveWheel? channel c position
  | .reset => s.reset? channel
  | .nothing => some s

def dispatch? (e : Event) : Option Synth := s.perform? e.channel e.action

/-! ### No look-up fails -/

section Found

theorem not_lt_of_channelIndex? {channel : UInt8} (h : channelIndex? channel = none) :
    ¬channel.toNat < channelCount := by
  intro hlt
  rw [channelIndex?, dif_pos hlt] at h
  cases h

variable {s : Synth} (i : Fin channelCount)

theorem instantiate?_eq : s.instantiate? i.val.toUInt8 = some (s.instantiate i) := by
  unfold instantiate? instantiate
  rw [toNat_slot, getElem?_eq_get]
  simp only [Option.bind_eq_bind, Option.bind_some, writeAt?_eq, Pool.insert?_eq]
  cases Channel.make i.val.toUInt8 (s.programs.get i) s.format.rate s.notes s.custom with
  | none => rfl
  | some c =>
    dsimp only
    cases c.patch <;> rfl

theorem ensureChannel?_eq : s.ensureChannel? i.val.toUInt8 = some (s.ensureChannel i) := by
  unfold ensureChannel? ensureChannel
  rw [toNat_slot, getElem?_eq_get, instantiate?_eq]
  cases s.channels.get i <;> rfl

theorem withChannel?_eq {act : Synth → Channel → Option Synth} {act' : Synth → Channel → Synth}
    (hact : ∀ t c, act t c = some (act' t c)) :
    s.withChannel? i.val.toUInt8 act = some (s.withChannel i act') := by
  unfold withChannel? withChannel
  rw [ensureChannel?_eq, toNat_slot, if_pos i.isLt]
  simp only [Option.bind_eq_bind, Option.bind_some, getElem?_eq_get]
  cases (s.ensureChannel i).channels.get i with
  | none => rfl
  | some c => exact hact _ c

theorem playSound?_eq (key : SoundKey) (trim : Float32) :
    s.playSound? key trim = some (s.playSound key trim) := by
  unfold playSound? playSound
  split
  · rfl
  · cases s.resolveSound key with
    | none => rfl
    | some key =>
      dsimp only
      generalize s.obtainSound key = obtained
      obtain ⟨pcm, t⟩ := obtained
      cases pcm with
      | none => rfl
      | some pcm =>
        dsimp only
        rw [Pool.insert?_eq]
        rfl

theorem startNote?_eq (c : Channel) (note velocity : UInt8) (duration : Int) :
    s.startNote? c note velocity duration = some (s.startNote c note velocity duration) := by
  unfold startNote? startNote
  cases c.patch with
  | drum base => exact playSound?_eq _ _
  | effect params =>
    have hfound := Pool.modifyFirst_eq_found (fun r : Rack => !r.isDefunct && r.channel == c.id)
      (fun r => r.noteOnce s.notes note velocity duration s.framesMade) s.racks.entries
    simp only [updateRack, Pool.update, hfound]
    cases s.racks.entries.find? fun r => !r.isDefunct && r.channel == c.id with
    | none => rfl
    | some r =>
      dsimp only
      rw [Rack.noteOnce?_eq]
      rfl
  | _ =>
    simp only [Voice.beginFrom?_eq, Option.bind_eq_bind, Option.bind_some, Pool.insert?_eq]
    cases Voice.begin? c s.notes s.format.rate note velocity duration s.framesMade <;> rfl

theorem controlChannel?_eq (c : Channel) (key value : UInt8) :
    s.controlChannel? i.val.toUInt8 c key value = some (s.controlChannel i c key value) := by
  unfold controlChannel? controlChannel
  rw [toNat_slot, writeAt?_eq]
  cases c.patch <;> rfl

theorem changeBank?_eq (f : UInt32 → UInt32) :
    s.changeBank? i.val.toUInt8 f
      = some { s with programs := s.programs.set i (f (s.programs.get i)) i.isLt } := by
  unfold changeBank?
  rw [toNat_slot, getElem?_eq_get]
  simp only [Option.bind_eq_bind, Option.bind_some, writeAt?_eq]
  rfl

theorem control?_eq (key value : UInt8) :
    s.control? i.val.toUInt8 key value = some (s.control i key value) := by
  unfold control? control
  rw [toNat_slot, if_pos i.isLt]
  split
  · exact changeBank?_eq i _
  · split
    · exact changeBank?_eq i _
    · split
      · rfl
      · exact withChannel?_eq i fun t c => controlChannel?_eq i c key value

theorem dropChannel?_eq : s.dropChannel? i.val.toUInt8 = some (s.dropChannel i) := by
  unfold dropChannel?
  rw [toNat_slot, writeAt?_eq]
  rfl

theorem changeProgram?_eq (number : UInt8) :
    s.changeProgram? i.val.toUInt8 number = some (s.changeProgram i number) := by
  unfold changeProgram? changeProgram
  rw [toNat_slot, if_pos i.isLt, changeBank?_eq]
  simp only [Option.bind_eq_bind, Option.bind_some, getElem?_eq_get, dropChannel?_eq]
  cases s.channels.get i <;> rfl

theorem moveWheel?_eq (c : Channel) (position : UInt16) :
    s.moveWheel? i.val.toUInt8 c position = some (s.moveWheel i c position) := by
  unfold moveWheel? moveWheel
  split
  · rfl
  · rw [toNat_slot]
    generalize c.setWheel position = moved
    obtain ⟨bend, moved⟩ := moved
    simp only [Option.bind_eq_bind, writeAt?_eq, Option.bind_some]
    cases bend with
    | some bend => rfl
    | none => cases c.patch <;> rfl

theorem dropChannels?_eq (is : List (Fin channelCount)) :
    (is.map Fin.val).foldlM (fun s k => dropChannel? s k.toUInt8) s
      = some (is.foldl dropChannel s) := by
  induction is generalizing s with
  | nil => rfl
  | cons i is ih =>
    rw [List.map_cons, List.foldlM_cons, dropChannel?_eq, Option.bind_eq_bind, Option.bind_some, ih,
      List.foldl_cons]

/-- Past the last channel a number is turned away by the test. -/
theorem withChannel?_none {channel : UInt8} (h : ¬channel.toNat < channelCount)
    (act : Synth → Channel → Option Synth) : s.withChannel? channel act = some s :=
  if_neg h

theorem reset?_eq (channel : UInt8) : s.reset? channel = some (s.reset channel) := by
  unfold reset? reset
  cases hslot : channelIndex? channel with
  | some i =>
    have hid := toUInt8_of_channelIndex? hslot
    rw [← hid, toNat_slot]
    dsimp only
    split
    · rfl
    · rw [if_pos i.isLt, dropChannel?_eq]
  | none =>
    have hhigh := not_lt_of_channelIndex? hslot
    have hsong : ¬channel.toNat < songChannels := fun hlow =>
      hhigh (Nat.lt_of_lt_of_le hlow (by decide))
    have hall : List.range channelCount = allChannels.map Fin.val := by decide
    rw [if_neg hsong, if_neg hhigh, hall, dropChannels?_eq]

theorem perform?_eq (channel : UInt8) (a : Action) :
    s.perform? channel a = some (s.perform channel a) := by
  cases hslot : channelIndex? channel with
  | some i =>
    have hid := toUInt8_of_channelIndex? hslot
    subst hid
    cases a with
    | noteOff note =>
      simp only [perform?, perform, onChannel, hslot]
      exact withChannel?_eq i fun t c => rfl
    | noteOn note velocity =>
      simp only [perform?, perform, onChannel, hslot]
      exact withChannel?_eq i fun t c => startNote?_eq c note velocity _
    | noteOnce note velocity duration =>
      simp only [perform?, perform, onChannel, hslot]
      exact withChannel?_eq i fun t c => startNote?_eq c note velocity duration
    | control key value =>
      simp only [perform?, perform, onChannel, hslot]
      exact control?_eq i key value
    | program number =>
      simp only [perform?, perform, onChannel, hslot]
      exact changeProgram?_eq i number
    | wheel position =>
      simp only [perform?, perform, onChannel, hslot]
      exact withChannel?_eq i fun t c => moveWheel?_eq i c position
    | reset => exact reset?_eq _
    | nothing => rfl
  | none =>
    have hhigh := not_lt_of_channelIndex? hslot
    cases a with
    | reset => exact reset?_eq channel
    | nothing => rfl
    | control key value =>
      simp only [perform?, perform, onChannel, hslot]
      exact if_neg hhigh
    | program number =>
      simp only [perform?, perform, onChannel, hslot]
      exact if_neg hhigh
    | _ =>
      simp only [perform?, perform, onChannel, hslot]
      exact withChannel?_none hhigh _

theorem dispatch?_eq (e : Event) : s.dispatch? e = some (s.dispatch e) :=
  perform?_eq e.channel e.action

end Found

end Synth

end Tonewheel
