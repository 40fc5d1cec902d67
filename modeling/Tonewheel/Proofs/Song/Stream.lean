import Mathlib.Algebra.Group.Nat.Defs
import Tonewheel.Proofs.Reading
import Tonewheel.Proofs.Song.Playing
import Tonewheel.Song.Writer

/-!
# Streams of items

A stream is read item by item, each from where the one before it ended (`Song.Stream`). Items that
were written one after the other are read in order, events with the bits of velocity and wheel
position that their form keeps (`SongItem.readBack`, `stream_encode`). A player that does not repeat
takes one step for each item of its stream and then finds the end (`performs_stream`).
-/

namespace Tonewheel

/-! ### Fields of a byte -/

@[elab_as_elim]
theorem forall_small {P : UInt8 → Prop} {n : Nat} {x : UInt8} (hx : x.toNat < n)
    (h : ∀ i < n, P (UInt8.ofNat i)) : P x := by
  have hvalue := h x.toNat hx
  rw [UInt8.ofNat_toNat] at hvalue
  exact hvalue

theorem toNat_shiftRight (x : UInt8) {k : Nat} (hk : k < 8) :
    (x >>> UInt8.ofNat k).toNat = x.toNat / 2 ^ k := by
  have hshift : (UInt8.ofNat k).toNat % 8 = k := by
    rw [UInt8.toNat_ofNat']
    omega
  rw [UInt8.toNat_shiftRight, hshift, Nat.shiftRight_eq_div_pow]

theorem toNat_fields (high : UInt8) {low : UInt8} {k : Nat} (hk : k < 8)
    (hlow : low.toNat < 2 ^ k) :
    ((high <<< UInt8.ofNat k) ||| low).toNat = high.toNat % 2 ^ (8 - k) * 2 ^ k + low.toNat := by
  have hshift : (UInt8.ofNat k).toNat % 8 = k := by
    rw [UInt8.toNat_ofNat']
    omega
  have hbyte : (2 : Nat) ^ 8 = 2 ^ (8 - k) * 2 ^ k := by
    rw [← Nat.pow_add, Nat.sub_add_cancel (Nat.le_of_lt hk)]
  rw [UInt8.toNat_or, UInt8.toNat_shiftLeft, hshift, Nat.shiftLeft_eq, hbyte,
    Nat.mul_mod_mul_right, ← Nat.shiftLeft_eq, Nat.shiftLeft_add_eq_or_of_lt hlow]

theorem fields_shiftRight {high low : UInt8} {k : Nat} (hk : k < 8)
    (hhigh : high.toNat < 2 ^ (8 - k)) (hlow : low.toNat < 2 ^ k) :
    ((high <<< UInt8.ofNat k) ||| low) >>> UInt8.ofNat k = high := by
  apply UInt8.toNat_inj.mp
  rw [toNat_shiftRight _ hk, toNat_fields high hk hlow, Nat.mod_eq_of_lt hhigh, Nat.mul_comm,
    Nat.mul_add_div (Nat.two_pow_pos k), Nat.div_eq_of_lt hlow, Nat.add_zero]

theorem fields_and (high : UInt8) {low : UInt8} {k : Nat} (hk : k < 8) (hlow : low.toNat < 2 ^ k) :
    ((high <<< UInt8.ofNat k) ||| low) &&& UInt8.ofNat (2 ^ k - 1) = low := by
  apply UInt8.toNat_inj.mp
  have hmask : (UInt8.ofNat (2 ^ k - 1)).toNat = 2 ^ k - 1 := by
    have hpow : 2 ^ k < 2 ^ 8 := Nat.pow_lt_pow_right (by decide) hk
    rw [UInt8.toNat_ofNat']
    omega
  rw [UInt8.toNat_and, hmask, Nat.and_two_pow_sub_one_eq_mod, toNat_fields high hk hlow,
    Nat.mul_add_mod', Nat.mod_eq_of_lt hlow]

theorem toNat_and_lt (x mask : UInt8) {n : Nat} (h : mask.toNat < n) : (x &&& mask).toNat < n := by
  rw [UInt8.toNat_and]
  exact Nat.lt_of_le_of_lt Nat.and_le_right h

theorem word_and_lt (x mask : UInt16) {n : Nat} (h : mask.toNat < n) : (x &&& mask).toNat < n := by
  rw [UInt16.toNat_and]
  exact Nat.lt_of_le_of_lt Nat.and_le_right h

theorem word_and_low (x : UInt16) {k : Nat} (hk : k < 16) :
    (x &&& UInt16.ofNat (2 ^ k - 1)).toNat = x.toNat % 2 ^ k := by
  have hmask : (UInt16.ofNat (2 ^ k - 1)).toNat = 2 ^ k - 1 := by
    have hpow : 2 ^ k < 2 ^ 16 := Nat.pow_lt_pow_right (by decide) hk
    rw [UInt16.toNat_ofNat']
    omega
  rw [UInt16.toNat_and, hmask, Nat.and_two_pow_sub_one_eq_mod]

theorem velocity_high {velocity : UInt8} (h : velocity.toNat < 128) :
    (velocity >>> 3).toNat < 16 := by
  have hshift : (velocity >>> 3).toNat = velocity.toNat / 2 ^ 3 :=
    toNat_shiftRight velocity (k := 3) (by decide)
  omega

/-! ### Lead bytes -/

theorem longLead_fields {x : UInt8} (h : x.toNat < 16) :
    (0x80 : UInt8) ≤ (0x80 : UInt8) ||| x ∧ (((0x80 : UInt8) ||| x) >>> 4).toNat = 8
      ∧ ((0x80 : UInt8) ||| x) &&& (0x0f : UInt8) = x :=
  forall_small h (by decide +kernel)

theorem shortLead_fields {x y : UInt8} (hx : x.toNat < 16) (hy : y.toNat < 4) :
    (0x80 : UInt8) ≤ (0x90 : UInt8) ||| (x &&& (0x0c : UInt8)) ||| y
      ∧ (((0x90 : UInt8) ||| (x &&& (0x0c : UInt8)) ||| y) >>> 4).toNat = 9
      ∧ ((0x90 : UInt8) ||| (x &&& (0x0c : UInt8)) ||| y) &&& (0x0c : UInt8)
        = x &&& (0x0c : UInt8)
      ∧ ((0x90 : UInt8) ||| (x &&& (0x0c : UInt8)) ||| y) &&& (0x03 : UInt8) = y := by
  refine forall_small hx fun i hi => ?_
  refine forall_small hy ?_
  revert i
  decide +kernel

theorem wheelLead_fields {channel : UInt8} (h : channel.toNat < 8) :
    (0x80 : UInt8) ≤ (0xa0 : UInt8) ||| channel ∧ (((0xa0 : UInt8) ||| channel) >>> 4).toNat = 10
      ∧ ((0xa0 : UInt8) ||| channel) &&& (0x08 : UInt8) = 0
      ∧ ((0xa0 : UInt8) ||| channel) &&& (0x07 : UInt8) = channel :=
  forall_small h (by decide +kernel)

/-- The middle eight bits of a word stay where they were. -/
theorem shiftLeft_wheel (position : UInt16) :
    (position >>> 6).toUInt8.toUInt16 <<< 6 = position &&& 0x3fc0 := by
  apply UInt16.toNat_inj.mp
  have hmask : (0x3fc0 : Nat) = (2 ^ 8 - 1) <<< 6 := by decide
  simp only [UInt16.toNat_shiftLeft, UInt8.toNat_toUInt16, UInt16.toNat_toUInt8,
    UInt16.toNat_shiftRight, UInt16.toNat_and, UInt16.reduceToNat, Nat.reduceMod]
  rw [hmask]
  apply Nat.eq_of_testBit_eq
  intro j
  simp only [Nat.testBit_and, Nat.testBit_mod_two_pow, Nat.testBit_shiftLeft,
    Nat.testBit_shiftRight, Nat.testBit_two_pow_sub_one]
  by_cases hj : 6 ≤ j
  · have hback : 6 + (j - 6) = j := by omega
    rw [hback]
    by_cases h8 : j - 6 < 8
    · have h16 : j < 16 := by omega
      simp [hj, h8, h16]
    · simp [h8]
  · simp [hj]

/-! ### Items -/

def SongEvent.Fits : SongEvent → Prop
  | .note channel key velocity units =>
    channel.toNat < 8 ∧ key.toNat < 128 ∧ velocity.toNat < 128 ∧ units.toNat < 64
  | .wheel channel position => channel.toNat < 8 ∧ position.toNat < 0x4000

def SongEvent.readBack : SongEvent → SongEvent
  | .note channel key velocity units =>
    if 0 < units then .note channel key (Song.widenFour (velocity >>> 3)) units
    else .note channel key (Song.widenTwo ((velocity >>> 3) &&& (0x0c : UInt8))) 0
  | .wheel channel position => .wheel channel (position &&& 0x3fc0)

def SongItem.Fits : SongItem → Prop
  | .delay ms => 0 < ms ∧ ms < 0x80
  | .event e => e.Fits

def SongItem.readBack : SongItem → SongItem
  | .delay ms => .delay ms
  | .event e => .event e.readBack

namespace Song

section

variable {data : Array UInt8} {i : Nat}

theorem getElem?_of_drop {b : UInt8} {bytes : Bytes} (h : data.toList.drop i = b :: bytes) :
    data[i]? = some b ∧ data.toList.drop (i + 1) = bytes := by
  have hhead : (data.toList.drop i)[0]? = some b := by rw [h]; rfl
  rw [List.getElem?_drop, Nat.add_zero, Array.getElem?_toList] at hhead
  have htail : (data.toList.drop i).drop 1 = bytes := by rw [h]; rfl
  rw [List.drop_drop] at htail
  exact ⟨hhead, htail⟩

theorem operands_eq {a : UInt8} (h : data[i]? = some a) :
    operands data i = .ok (a, byteAt data (i + 1)) := by
  rw [operands, h]

theorem byteAt_eq {b : UInt8} (h : data[i]? = some b) : byteAt data i = b := by
  rw [byteAt, Array.getD_eq_getD_getElem?, h]
  rfl

theorem item_end (h : data.toList.drop i = []) : item data i = .ok none := by
  have hnone : data[i]? = none := by
    rw [← Array.getElem?_toList]
    exact List.getElem?_eq_none (List.drop_eq_nil_iff.mp h)
  rw [item, hnone]

theorem item_delay {ms : UInt8} {bytes : Bytes} (h : data.toList.drop i = ms :: bytes)
    (hms : SongItem.Fits (.delay ms)) : item data i = .ok (some (.delay ms, i + 1)) := by
  have hpos : ms ≠ 0 := UInt8.pos_iff_ne_zero.mp hms.1
  rw [item, (getElem?_of_drop h).1]
  dsimp only
  rw [if_neg hpos, if_pos hms.2]

theorem item_event {lead : UInt8} {bytes : Bytes} {e : SongEvent} {length : Nat}
    (h : data.toList.drop i = lead :: bytes) (hlead : 0x80 ≤ lead)
    (hevent : event data lead (i + 1) = .ok (e, length)) (hlength : length ≤ bytes.length) :
    item data i = .ok (some (.event e, i + 1 + length)) := by
  have hzero : lead ≠ 0 := by
    rintro rfl
    revert hlead
    decide
  have hhigh : ¬ lead < 0x80 := UInt8.not_lt.mpr hlead
  have hsize : ¬ data.size < i + 1 + length := by
    have hrest := congrArg List.length h
    rw [List.length_drop, Array.length_toList, List.length_cons] at hrest
    omega
  rw [item, (getElem?_of_drop h).1]
  dsimp only
  rw [if_neg hzero, if_neg hhigh, hevent, ok_bind, if_neg hsize]
  rfl

theorem event_long {lead a b : UInt8} (hlead : (lead >>> 4).toNat = 8) (ha : data[i]? = some a)
    (hb : data[i + 1]? = some b) :
    event data lead i
      = .ok (.note (a >>> 5) (((a &&& 0x1f) <<< 2) ||| (b >>> 6)) (widenFour (lead &&& 0x0f))
          (b &&& 0x3f), 2) := by
  rw [event, hlead]
  dsimp only
  rw [operands_eq ha, byteAt_eq hb]
  rfl

theorem event_short {lead a : UInt8} (hlead : (lead >>> 4).toNat = 9) (ha : data[i]? = some a) :
    event data lead i
      = .ok (.note (((lead &&& 0x03) <<< 1) ||| (a >>> 7)) (a &&& 0x7f)
          (widenTwo (lead &&& 0x0c)) 0, 1) := by
  rw [event, hlead]
  dsimp only
  rw [operands_eq ha]
  rfl

theorem event_wheel {lead v : UInt8} (hlead : (lead >>> 4).toNat = 10)
    (hbit : lead &&& 0x08 = 0) (hv : data[i]? = some v) :
    event data lead i = .ok (.wheel (lead &&& 0x07) (v.toUInt16 <<< 6), 1) := by
  rw [event, hlead]
  dsimp only
  rw [if_pos hbit, operands_eq hv]
  rfl

theorem item_long {channel key velocity units : UInt8} {rest : Bytes}
    (hfits : (SongEvent.note channel key velocity units).Fits) (hunits : 0 < units)
    (h : data.toList.drop i = (SongEvent.note channel key velocity units).encode ++ rest) :
    item data i = .ok (some (.event (.note channel key (widenFour (velocity >>> 3)) units),
      i + 3)) := by
  obtain ⟨hchannel, hkey, hvelocity, hunits64⟩ := hfits
  rw [SongEvent.encode, if_pos hunits] at h
  obtain ⟨-, hfirst⟩ := getElem?_of_drop h
  obtain ⟨ha, hsecond⟩ := getElem?_of_drop hfirst
  obtain ⟨hb, -⟩ := getElem?_of_drop hsecond
  have hkeyHigh : (key >>> 2).toNat = key.toNat / 4 := toNat_shiftRight key (k := 2) (by decide)
  obtain ⟨hlead, hkind, hbits⟩ := longLead_fields (velocity_high hvelocity)
  have hchannelBits : ((channel <<< 5) ||| (key >>> 2)) >>> 5 = channel :=
    fields_shiftRight (k := 5) (by decide) hchannel (by omega)
  have hmiddle : ((channel <<< 5) ||| (key >>> 2)) &&& (0x1f : UInt8) = key >>> 2 :=
    fields_and channel (k := 5) (by decide) (by omega)
  have hunitsBits : ((key <<< 6) ||| units) &&& (0x3f : UInt8) = units :=
    fields_and key (k := 6) (by decide) hunits64
  -- The key straddles the second and the third byte.
  have hkeyBits : ((key >>> 2) <<< 2) ||| (((key <<< 6) ||| units) >>> 6) = key := by
    have hboth : ((key <<< 6) ||| units).toNat = key.toNat % 2 ^ 2 * 2 ^ 6 + units.toNat :=
      toNat_fields key (k := 6) (by decide) hunits64
    have hlow : (((key <<< 6) ||| units) >>> 6).toNat = key.toNat % 4 := by
      have hshift : (((key <<< 6) ||| units) >>> 6).toNat = ((key <<< 6) ||| units).toNat / 2 ^ 6 :=
        toNat_shiftRight _ (k := 6) (by decide)
      omega
    have hjoin : (((key >>> 2) <<< 2) ||| (((key <<< 6) ||| units) >>> 6)).toNat
        = (key >>> 2).toNat % 2 ^ 6 * 2 ^ 2 + (((key <<< 6) ||| units) >>> 6).toNat :=
      toNat_fields (key >>> 2) (k := 2) (by decide) (by omega)
    apply UInt8.toNat_inj.mp
    omega
  have hevent := event_long hkind ha hb
  rw [hchannelBits, hmiddle, hunitsBits, hkeyBits, hbits] at hevent
  exact item_event h hlead hevent (Nat.le_add_left _ _)

theorem item_short {channel key velocity : UInt8} {rest : Bytes}
    (hfits : (SongEvent.note channel key velocity 0).Fits)
    (h : data.toList.drop i = (SongEvent.note channel key velocity 0).encode ++ rest) :
    item data i = .ok (some (.event (.note channel key
      (widenTwo ((velocity >>> 3) &&& (0x0c : UInt8))) 0), i + 2)) := by
  obtain ⟨hchannel, hkey, hvelocity, -⟩ := hfits
  rw [SongEvent.encode, if_neg (by decide)] at h
  obtain ⟨-, hfirst⟩ := getElem?_of_drop h
  obtain ⟨ha, -⟩ := getElem?_of_drop hfirst
  have hchannelHigh : (channel >>> 1).toNat = channel.toNat / 2 :=
    toNat_shiftRight channel (k := 1) (by decide)
  obtain ⟨hlead, hkind, hbits, hlow⟩ :=
    shortLead_fields (velocity_high hvelocity) (y := channel >>> 1) (by omega)
  have hkeyBits : ((channel <<< 7) ||| key) &&& (0x7f : UInt8) = key :=
    fields_and channel (k := 7) (by decide) hkey
  -- Here it is the channel that straddles the two bytes.
  have hchannelBits : ((channel >>> 1) <<< 1) ||| (((channel <<< 7) ||| key) >>> 7) = channel := by
    have hboth : ((channel <<< 7) ||| key).toNat = channel.toNat % 2 ^ 1 * 2 ^ 7 + key.toNat :=
      toNat_fields channel (k := 7) (by decide) hkey
    have hbit : (((channel <<< 7) ||| key) >>> 7).toNat = channel.toNat % 2 := by
      have hshift : (((channel <<< 7) ||| key) >>> 7).toNat
          = ((channel <<< 7) ||| key).toNat / 2 ^ 7 :=
        toNat_shiftRight _ (k := 7) (by decide)
      omega
    have hjoin : (((channel >>> 1) <<< 1) ||| (((channel <<< 7) ||| key) >>> 7)).toNat
        = (channel >>> 1).toNat % 2 ^ 7 * 2 ^ 1 + (((channel <<< 7) ||| key) >>> 7).toNat :=
      toNat_fields (channel >>> 1) (k := 1) (by decide) (by omega)
    apply UInt8.toNat_inj.mp
    omega
  have hevent := event_short hkind ha
  rw [hlow, hchannelBits, hkeyBits, hbits] at hevent
  exact item_event h hlead hevent (Nat.le_add_left _ _)

theorem item_wheel {channel : UInt8} {position : UInt16} {rest : Bytes}
    (hfits : (SongEvent.wheel channel position).Fits)
    (h : data.toList.drop i = (SongEvent.wheel channel position).encode ++ rest) :
    item data i = .ok (some (.event (.wheel channel (position &&& 0x3fc0)), i + 2)) := by
  obtain ⟨hchannel, hposition⟩ := hfits
  rw [SongEvent.encode] at h
  obtain ⟨-, hfirst⟩ := getElem?_of_drop h
  obtain ⟨hv, -⟩ := getElem?_of_drop hfirst
  obtain ⟨hlead, hkind, hbit, hlow⟩ := wheelLead_fields hchannel
  have hkept := shiftLeft_wheel position
  have hevent := event_wheel hkind hbit hv
  rw [hlow, hkept] at hevent
  exact item_event h hlead hevent (Nat.le_add_left _ _)

theorem item_encode {x : SongItem} {rest : Bytes} (hfits : x.Fits)
    (h : data.toList.drop i = x.encode ++ rest) :
    item data i = .ok (some (x.readBack, i + x.encode.length)) := by
  match x with
  | .delay ms => exact item_delay h hfits
  | .event (.note channel key velocity units) =>
    by_cases hunits : 0 < units
    · have hlength : (SongEvent.note channel key velocity units).encode.length = 3 := by
        rw [SongEvent.encode, if_pos hunits]
        rfl
      rw [SongItem.readBack, SongEvent.readBack, if_pos hunits, SongItem.encode, hlength]
      exact item_long hfits hunits h
    · obtain rfl : units = 0 := UInt8.le_zero_iff.mp (UInt8.not_lt.mp hunits)
      exact item_short hfits h
  | .event (.wheel channel position) => exact item_wheel hfits h

end

/-! ### Runs of items -/

/-- The items that are read one after the other from an offset, with the offset after them. -/
inductive Stream (data : Array UInt8) : Nat → List SongItem → Nat → Prop where
  | nil (i : Nat) : Stream data i [] i
  | cons {i next last : Nat} {x : SongItem} {items : List SongItem}
      (hitem : item data i = .ok (some (x, next))) (hrest : Stream data next items last) :
      Stream data i (x :: items) last

theorem stream_encode {data : Array UInt8} {i : Nat} {items : List SongItem} {rest : Bytes}
    (hfits : ∀ x ∈ items, x.Fits)
    (h : data.toList.drop i = items.flatMap SongItem.encode ++ rest) :
    Stream data i (items.map SongItem.readBack)
        (i + (items.flatMap SongItem.encode).length)
      ∧ data.toList.drop (i + (items.flatMap SongItem.encode).length) = rest := by
  induction items generalizing i with
  | nil => exact ⟨.nil i, h⟩
  | cons x items ih =>
    rw [List.flatMap_cons, List.append_assoc] at h
    have hitem := item_encode (hfits x List.mem_cons_self) h
    have hafter : data.toList.drop (i + x.encode.length)
        = items.flatMap SongItem.encode ++ rest := by
      rw [← List.drop_drop, h, List.drop_left]
    obtain ⟨hstream, hrest⟩ := ih (fun y hy => hfits y (List.mem_cons_of_mem _ hy)) hafter
    rw [List.flatMap_cons, List.length_append, ← Nat.add_assoc]
    exact ⟨.cons hitem hstream, hrest⟩

/-- The events of some items, each with the sum of the delays before it, counted from `now`. -/
def timeline (size : UInt8 → Nat) (now : Nat) : List SongItem → List (Nat × SongEvent)
  | [] => []
  | .delay ms :: items => timeline size (now + size ms) items
  | .event e :: items => (now, e) :: timeline size now items

theorem timeline_readBack (size : UInt8 → Nat) (now : Nat) (items : List SongItem) :
    timeline size now (items.map SongItem.readBack)
      = (timeline size now items).map fun x => (x.1, x.2.readBack) := by
  induction items generalizing now with
  | nil => rfl
  | cons x items ih =>
    cases x with
    | delay ms => exact ih (now + size ms)
    | event e => exact congrArg ((now, e.readBack) :: ·) (ih now)

end Song

/-! ### Playing a stream -/

namespace Player

def stepOf (p : Player) : SongItem → SongStep
  | .delay ms => .delay (p.delayFrames ms)
  | .event e => .event (p.eventOf e)

theorem stepOf_congr {p q : Player} (h : p.framesPerMs = q.framesPerMs) : p.stepOf = q.stepOf := by
  funext x
  cases x with
  | delay ms => simp only [stepOf, delayFrames, h]
  | event e => cases e <;> simp only [stepOf, eventOf, durationFrames, h]

/-- Along a stream a player takes one step for each item, and is then behind the last one. -/
theorem trail_stream {p : Player} {items : List SongItem} {last : Nat} (hdelay : p.delay = 0)
    (hstream : Song.Stream p.song.data p.offset items last) :
    ∃ q, Trail p (items.map p.stepOf) q ∧ SamePlace q { p with offset := last } := by
  generalize hdata : p.song.data = data at hstream
  generalize hoffset : p.offset = i at hstream
  induction hstream generalizing p with
  | nil i => exact ⟨p, .nil p, ⟨rfl, rfl, rfl, hoffset, rfl⟩⟩
  | @cons i next last x items hitem hrest ih =>
    have hstep := p.step_eq
    rw [dif_neg (by omega), hdata, hoffset, hitem] at hstep
    cases x with
    | delay ms =>
      -- Let pass as a whole, the delay leaves the player where the next item is.
      obtain ⟨hsong, hrepeats, hframes, hoffset', hdelay'⟩ :=
        advance_place (p.setDelay ms next) (p.delayFrames ms).val
      have hpassed := hdelay'.trans (Nat.sub_self _)
      obtain ⟨q, htrail, hplace⟩ := ih hpassed ((congrArg Song.data hsong).trans hdata) hoffset'
      rw [stepOf_congr hframes] at htrail
      exact ⟨q, .delay hstep htrail, hplace.song.trans hsong, hplace.repeats.trans hrepeats,
        hplace.framesPerMs.trans hframes, hplace.offset,
        hplace.delay.trans (hpassed.trans hdelay.symm)⟩
    | event e =>
      obtain ⟨q, htrail, hplace⟩ := ih (p := { p with offset := next }) hdelay hdata rfl
      exact ⟨q, .event hstep htrail, hplace⟩

/-- Whether a player takes some steps and is then at the end of its song. -/
def Performs (p : Player) (steps : List SongStep) : Prop :=
  ∃ q, Trail p steps q ∧ (q.step false).1 = .ok .finished

theorem performs_stream {p : Player} {items : List SongItem} {last : Nat}
    (hrepeats : p.repeats = false) (hdelay : p.delay = 0)
    (hstream : Song.Stream p.song.data p.offset items last)
    (hend : Song.item p.song.data last = .ok none) : p.Performs (items.map p.stepOf) := by
  obtain ⟨q, htrail, hplace⟩ := trail_stream hdelay hstream
  refine ⟨q, htrail, ?_⟩
  rw [(step_same hplace).1, step_eq, dif_neg (Nat.not_lt.mpr (Nat.le_of_eq hdelay))]
  dsimp only
  rw [hend]
  dsimp only
  rw [hrepeats]
  rfl

theorem Performs.unique {p : Player} {xs ys : List SongStep} (hx : p.Performs xs)
    (hy : p.Performs ys) : xs = ys := by
  obtain ⟨q, hx, hq⟩ := hx
  obtain ⟨r, hy, hr⟩ := hy
  induction hx generalizing ys with
  | nil p =>
    cases hy with
    | nil => rfl
    | event hstep => simp [hstep] at hq
    | delay hstep => simp [hstep] at hq
  | event hstep hrest ih =>
    cases hy with
    | nil => simp [hstep] at hr
    | event hstep' hrest' =>
      rw [hstep] at hstep'
      cases hstep'
      rw [ih hq hrest']
    | delay hstep' => simp [hstep] at hstep'
  | delay hstep hrest ih =>
    cases hy with
    | nil => simp [hstep] at hr
    | event hstep' => simp [hstep] at hstep'
    | delay hstep' hrest' =>
      rw [hstep] at hstep'
      cases hstep'
      rw [ih hq hrest']

theorem timed_stepOf (p : Player) (now : Nat) (items : List SongItem) :
    timed now (items.map p.stepOf)
      = (Song.timeline (fun ms => (p.delayFrames ms).val) now items).map
          fun x => (x.1, p.eventOf x.2) := by
  induction items generalizing now with
  | nil => rfl
  | cons x items ih =>
    cases x with
    | delay ms => exact ih (now + (p.delayFrames ms).val)
    | event e => exact congrArg ((now, p.eventOf e) :: ·) (ih now)

end Player

end Tonewheel
