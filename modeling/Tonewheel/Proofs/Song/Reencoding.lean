import Mathlib.Tactic.IntervalCases
import Tonewheel.Proofs.Song.RoundTrip

/-!
# Songs written again (SPEC_FULL, section 4.5)

Played at 1000 frames per second, a song can be written again from what its player finds
(`Player.reencoded`). The new stream is the old one as it was read back, so the bytes are the same
unless a velocity was changed (`reencoded_keeps_song`): the short form of a note widens its two bits
of velocity to six bits only, of which the encoder then takes the first two.
-/

namespace Tonewheel

/-! ### Items read back -/

namespace Song

theorem widenFour_lt {bits : UInt8} (h : bits.toNat < 16) : (widenFour bits).toNat < 128 :=
  forall_small h (by decide +kernel)

theorem widenTwo_lt {velocity : UInt8} (h : velocity.toNat < 128) :
    (widenTwo ((velocity >>> 3) &&& (0x0c : UInt8))).toNat < 128 :=
  forall_small h (by decide +kernel)

/-- The two bits of a short note's velocity come back only if they are zero. -/
theorem widenTwo_back {velocity : UInt8} (h : velocity.toNat < 128) :
    (widenTwo ((velocity >>> 3) &&& (0x0c : UInt8)) >>> 3) &&& (0x0c : UInt8)
        = (velocity >>> 3) &&& (0x0c : UInt8)
      ↔ velocity < 32 :=
  forall_small h (by decide +kernel)

/-- The lead byte of a short note holds nothing else where its velocity is. -/
theorem shortLead_inj {x y c : UInt8} (hx : x.toNat < 16) (hy : y.toNat < 16) (hc : c.toNat < 4) :
    (0x90 : UInt8) ||| (x &&& (0x0c : UInt8)) ||| c
        = (0x90 : UInt8) ||| (y &&& (0x0c : UInt8)) ||| c
      ↔ x &&& (0x0c : UInt8) = y &&& (0x0c : UInt8) := by
  have hleft := (shortLead_fields hx hc).2.2.1
  have hright := (shortLead_fields hy hc).2.2.1
  constructor
  · intro h
    rw [← hleft, ← hright, h]
  · intro h
    rw [h]

theorem wheel_back (position : UInt16) :
    ((position &&& 0x3fc0) >>> 6).toUInt8 = (position >>> 6).toUInt8 := by
  rw [← shiftLeft_wheel]
  generalize (position >>> 6).toUInt8 = high
  have hhigh := high.toNat_lt
  apply UInt8.toNat_inj.mp
  simp only [UInt16.toNat_toUInt8, UInt16.toNat_shiftRight, UInt16.toNat_shiftLeft,
    UInt8.toNat_toUInt16, UInt16.reduceToNat, Nat.reduceMod, Nat.shiftLeft_eq,
    Nat.shiftRight_eq_div_pow]
  omega

end Song

theorem SongItem.fits_readBack {x : SongItem} (h : x.Fits) : x.readBack.Fits := by
  match x with
  | .delay ms => exact h
  | .event (.note channel key velocity units) =>
    obtain ⟨hchannel, hkey, hvelocity, hunits⟩ := h
    rw [readBack, SongEvent.readBack]
    split
    · exact ⟨hchannel, hkey, Song.widenFour_lt (velocity_high hvelocity), hunits⟩
    · exact ⟨hchannel, hkey, Song.widenTwo_lt hvelocity, by decide⟩
  | .event (.wheel channel position) =>
    exact ⟨h.1, word_and_lt position 0x3fc0 (by decide)⟩

theorem SongItem.length_encode_readBack (x : SongItem) :
    x.readBack.encode.length = x.encode.length := by
  match x with
  | .delay ms => rfl
  | .event (.note channel key velocity units) =>
    by_cases hunits : 0 < units
    · simp only [readBack, SongEvent.readBack, encode, SongEvent.encode, if_pos hunits]
      rfl
    · have hnone : ¬ (0 : UInt8) < 0 := by decide
      simp only [readBack, SongEvent.readBack, encode, SongEvent.encode, if_neg hunits,
        if_neg hnone]
      rfl
  | .event (.wheel channel position) => rfl

theorem SongItem.encode_readBack {x : SongItem} (h : x.Fits) :
    x.readBack.encode = x.encode
      ↔ ∀ channel key velocity, x = .event (.note channel key velocity 0) → velocity < 32 := by
  match x with
  | .delay ms => simp [readBack]
  | .event (.note channel key velocity units) =>
    obtain ⟨hchannel, hkey, hvelocity, hunits⟩ := h
    by_cases hpos : 0 < units
    · have hback := Song.widenFour_shiftRight (velocity_high hvelocity)
      have hsome : units ≠ 0 := UInt8.pos_iff_ne_zero.mp hpos
      simp [readBack, SongEvent.readBack, encode, SongEvent.encode, hpos, hback, hsome]
    · obtain rfl : units = 0 := UInt8.le_zero_iff.mp (UInt8.not_lt.mp hpos)
      have hshift : (channel >>> 1).toNat = channel.toNat / 2 ^ 1 :=
        toNat_shiftRight channel (k := 1) (by decide)
      have hlead := Song.shortLead_inj (velocity_high (Song.widenTwo_lt hvelocity))
        (velocity_high hvelocity) (c := channel >>> 1) (by omega)
      rw [readBack, SongEvent.readBack, if_neg hpos, encode, encode, SongEvent.encode,
        SongEvent.encode, if_neg hpos, if_neg hpos, List.cons.injEq, hlead,
        Song.widenTwo_back hvelocity]
      simp
  | .event (.wheel channel position) =>
    have hback := Song.wheel_back position
    simp [readBack, SongEvent.readBack, encode, SongEvent.encode, hback]

/-! ### Calls from steps -/

namespace Writer

def Call.ofStep : SongStep → Option Call
  | .delay frames => some (.wait frames.val.toUInt32)
  | .event e =>
    match e.action with
    | .noteOnce key velocity duration =>
      some (.note e.channel key velocity duration.toNat.toUInt32)
    | .wheel position => some (.wheel e.channel position)
    | _ => none
  | .finished => none

def Call.ofItem : SongItem → Call
  | .delay ms => .wait ms.toNat.toUInt32
  | .event (.note number key velocity units) =>
    .note number key velocity (durationUnitMs * units.toNat).toUInt32
  | .event (.wheel number position) => .wheel number position

theorem ofStep_stepOf {p : Player} (hframes : p.framesPerMs = Format.framesPerMs 1000)
    {x : SongItem} (hfits : x.Fits) : Call.ofStep (p.stepOf x) = some (Call.ofItem x) := by
  have hrate : Rate.isLegal 1000 = true := by decide
  have hdvd : 1000 ∣ (1000 : UInt32).toNat := by decide
  match x with
  | .delay ms =>
    have hexact := Player.delayFrames_of_dvd hrate hframes hdvd hfits.1
    have hms : (p.delayFrames ms).val = ms.toNat := by
      change _ * 1000 = _ * 1000 at hexact
      omega
    show some (Call.wait (p.delayFrames ms).val.toUInt32) = _
    rw [hms]
    rfl
  | .event (.note number key velocity units) =>
    have hunits : units < 64 := UInt8.lt_iff_toNat_lt.mpr hfits.2.2.2
    have hexact := Player.durationFrames_of_dvd hrate hframes hdvd hunits
    have hduration : (p.durationFrames units).toNat = durationUnitMs * units.toNat := by
      have hunitMs : durationUnitMs = 32 := rfl
      change _ * 1000 = 32 * (units.toNat : Int) * 1000 at hexact
      rw [hunitMs]
      omega
    show some (Call.note number key velocity (p.durationFrames units).toNat.toUInt32) = _
    rw [hduration]
    rfl
  | .event (.wheel number position) =>
    have haction := Event.action_wheel number hfits.2
    show Call.ofStep (.event (Event.wheel number position)) = _
    rw [Call.ofStep, haction]
    rfl

theorem and_of_lt {x : UInt8} {k : Nat} (hk : k < 8) (h : x.toNat < 2 ^ k) :
    x &&& UInt8.ofNat (2 ^ k - 1) = x := by
  have hfields := fields_and 0 hk h
  rw [UInt8.zero_shiftLeft, UInt8.zero_or] at hfields
  exact hfields

theorem event_ofItem {e : SongEvent} (hfits : e.Fits) :
    (Call.ofItem (.event e)).event = some e := by
  cases e with
  | note number key velocity units =>
    obtain ⟨hnumber, hkey, hvelocity, hunits⟩ := hfits
    have hnumber' : number &&& 0x07 = number := and_of_lt (k := 3) (by decide) hnumber
    have hkey' : key &&& 0x7f = key := and_of_lt (k := 7) (by decide) hkey
    have hvelocity' : velocity &&& 0x7f = velocity := and_of_lt (k := 7) (by decide) hvelocity
    have hms : (durationUnitMs * units.toNat).toUInt32.toNat = durationUnitMs * units.toNat := by
      have hunitMs : durationUnitMs = 32 := rfl
      refine Nat.mod_eq_of_lt ?_
      rw [hunitMs]
      omega
    have hunits' : (min 63 ((durationUnitMs * units.toNat).toUInt32.toNat / durationUnitMs)).toUInt8
        = units := by
      rw [hms, Nat.mul_div_cancel_left _ (by decide), Nat.min_eq_right (by omega)]
      exact UInt8.ofNat_toNat
    rw [Call.ofItem, Call.event, hnumber', hkey', hvelocity', hunits']
  | wheel number position =>
    have hnumber : number &&& 0x07 = number := and_of_lt (k := 3) (by decide) hfits.1
    have hposition : position &&& 0x3fff = position := by
      apply UInt16.toNat_inj.mp
      exact (word_and_low position (k := 14) (by decide)).trans (Nat.mod_eq_of_lt hfits.2)
    rw [Call.ofItem, Call.event, hnumber, hposition]

/-! ### The stream again -/

theorem itemsFrom_delays (pending : UInt32) (ms : Nat) (items : List SongItem) :
    itemsFrom pending ((delays ms ++ items).map Call.ofItem)
      = itemsFrom (pending + ms.toUInt32) (items.map Call.ofItem) := by
  fun_induction delays ms generalizing pending with
  | case1 => exact congrArg (itemsFrom · _) (UInt32.add_zero pending).symm
  | case2 ms hms ih =>
    have hwait : (Call.ofItem (.delay (min ms delayLimitMs).toUInt8)).ms
        = (min ms delayLimitMs).toUInt32 :=
      congrArg Nat.toUInt32 (toNat_delay ms)
    have htotal : (min ms delayLimitMs).toUInt32 + (ms - min ms delayLimitMs).toUInt32
        = ms.toUInt32 := by
      rw [Nat.toUInt32_eq, Nat.toUInt32_eq, ← UInt32.ofNat_add,
        Nat.add_sub_cancel' (Nat.min_le_left ms delayLimitMs), Nat.toUInt32_eq]
    rw [List.cons_append, List.map_cons, itemsFrom_silent rfl, hwait, ih, UInt32.add_assoc, htotal]

/-- Calls for what is read back write it as it was read. -/
theorem itemsFrom_ofItem (pending : UInt32) (calls : List Call) :
    itemsFrom 0 (((itemsFrom pending calls).map SongItem.readBack).map Call.ofItem)
      = (itemsFrom pending calls).map SongItem.readBack := by
  induction calls generalizing pending with
  | nil =>
    have hdelays := itemsFrom_delays 0 pending.toNat []
    rw [List.append_nil, UInt32.zero_add, Nat.toUInt32_eq, UInt32.ofNat_toNat] at hdelays
    rw [itemsFrom, readBack_delays, hdelays]
    rfl
  | cons call calls ih =>
    cases he : call.event with
    | none =>
      rw [itemsFrom_silent he]
      exact ih (pending + call.ms)
    | some e =>
      have hevent : (Call.ofItem (SongItem.event e).readBack).event = some e.readBack :=
        event_ofItem (SongItem.fits_readBack (x := .event e) (fits_event he))
      rw [itemsFrom_event he, List.map_append, List.map_cons, readBack_delays, itemsFrom_delays,
        UInt32.zero_add, Nat.toUInt32_eq, UInt32.ofNat_toNat, List.map_cons,
        itemsFrom_event hevent, ih 0]
      rfl

/-! ### The song again -/

theorem flatMap_congr_iff {α : Type} {f g : α → Bytes} (hlength : ∀ x, (f x).length = (g x).length)
    (items : List α) : items.flatMap f = items.flatMap g ↔ ∀ x ∈ items, f x = g x := by
  induction items with
  | nil => simp
  | cons x items ih =>
    rw [List.flatMap_cons, List.flatMap_cons, List.forall_mem_cons, ← ih]
    constructor
    · intro h
      exact List.append_inj h (hlength x)
    · rintro ⟨hx, hrest⟩
      rw [hx, hrest]

def recordCalls (s : Song) : List Call :=
  (List.range songChannels).map fun number => .channel number.toUInt8 (s.record number)

theorem recordOf_ofStep (number : Nat) (step : SongStep) :
    (Call.ofStep step).bind (Call.recordOf number) = none := by
  cases step with
  | delay frames => rfl
  | finished => rfl
  | event e =>
    rw [Call.ofStep]
    split <;> rfl

theorem lastRecord_recordCalls (s : Song) (steps : List SongStep) {number : Nat}
    (h : number < songChannels) :
    lastRecord (recordCalls s ++ steps.filterMap Call.ofStep) number = s.record number := by
  have hsteps : (steps.filterMap Call.ofStep).filterMap (Call.recordOf number) = [] := by
    rw [List.filterMap_filterMap, List.filterMap_eq_nil_iff]
    intro step _
    exact recordOf_ofStep number step
  have hrecords : (recordCalls s).filterMap (Call.recordOf number) = [s.record number] := by
    have hlimit : number < 8 := h
    interval_cases number <;> rfl
  rw [lastRecord, List.filterMap_append, hsteps, List.append_nil, hrecords]
  rfl

theorem header_congr {w v : Writer} (htempo : w.tempo = v.tempo)
    (hrecords : w.records.toList = v.records.toList) : w.header = v.header := by
  rw [header_eq, header_eq, htempo, hrecords]

end Writer

namespace Player

open Writer

/-- A new song with the tempo and the records of a song, written from some steps. -/
def reencoded (s : Song) (steps : List SongStep) : Writer :=
  ofCalls (1000 * s.tempo.toUInt32) (recordCalls s ++ steps.filterMap Call.ofStep)

section

variable {us : UInt32} {calls : List Call} {resource : Option ResourceId} {p : Player}
  (hload : Player.make 1000 (ofCalls us calls).finish false resource = .ok p)

include hload

theorem header_reencoded (steps : List SongStep) :
    (reencoded p.song steps).header = (ofCalls us calls).header := by
  have hmade := madeOf_ofCalls hload
  apply header_congr
  · have hvalue := tempo_ofCalls us calls
    have hlimit := (ofCalls us calls).tempo.toNat_lt
    have hus : (1000 * (ofCalls us calls).tempo.toUInt32 + 500).toNat
        = 1000 * (ofCalls us calls).tempo.toNat + 500 := by
      rw [UInt32.toNat_add, UInt32.toNat_mul, UInt16.toNat_toUInt32]
      simp only [UInt32.reduceToNat]
      omega
    apply UInt16.toNat_inj.mp
    rw [reencoded, tempo_ofCalls, hmade.tempo, hus]
    omega
  · rw [reencoded, records_ofCalls, records_ofCalls, ← hmade.records, Song.records]
    apply List.map_congr_left
    intro number hnumber
    exact lastRecord_recordCalls p.song steps (List.mem_range.mp hnumber)

theorem finish_reencoded :
    (reencoded p.song ((readItems calls).map p.stepOf)).finish
      = (ofCalls us calls).header
        ++ (readItems calls).flatMap SongItem.encode := by
  have hmade := madeOf_ofCalls hload
  have hsteps : ((readItems calls).map p.stepOf).filterMap Call.ofStep
      = (readItems calls).map Call.ofItem := by
    have hstep : ∀ x ∈ readItems calls,
        (Call.ofStep ∘ p.stepOf) x = (some ∘ Call.ofItem) x := by
      intro x hx
      obtain ⟨y, hy, rfl⟩ := List.mem_map.mp hx
      exact ofStep_stepOf hmade.framesPerMs (SongItem.fits_readBack (fits_itemsFrom hy))
    rw [List.filterMap_map, List.filterMap_congr hstep, List.filterMap_eq_map]
  have hstream : itemsFrom 0 (recordCalls p.song
      ++ (readItems calls).map Call.ofItem)
      = readItems calls := itemsFrom_ofItem 0 calls
  have hheader := header_reencoded hload
    ((readItems calls).map p.stepOf)
  rw [reencoded] at hheader ⊢
  rw [finish_ofCalls, hheader, hsteps, hstream]

theorem finish_reencoded_iff :
    (reencoded p.song ((readItems calls).map p.stepOf)).finish
        = (ofCalls us calls).finish
      ↔ ∀ channel key velocity ms, Call.note channel key velocity ms ∈ calls → ms < 32 →
          velocity &&& 0x7f < 32 := by
  rw [finish_reencoded hload, finish_ofCalls, readItems, List.append_cancel_left_eq,
    List.flatMap_map, flatMap_congr_iff SongItem.length_encode_readBack]
  constructor
  · intro h channel key velocity ms hcall hshort
    have hevent : (Call.note channel key velocity ms).event
        = some (.note (channel &&& 0x07) (key &&& 0x7f) (velocity &&& 0x7f) 0) := by
      rw [Call.event, units_eq_zero.mpr hshort]
    have hmem : SongItem.event (.note (channel &&& 0x07) (key &&& 0x7f) (velocity &&& 0x7f) 0)
        ∈ itemsFrom 0 calls := event_mem_itemsFrom.mpr ⟨_, hcall, hevent⟩
    exact (SongItem.encode_readBack (fits_itemsFrom hmem)).mp (h _ hmem) _ _ _ rfl
  · intro h x hx
    refine (SongItem.encode_readBack (fits_itemsFrom hx)).mpr ?_
    rintro channel key velocity rfl
    obtain ⟨call, hcall, hevent⟩ := event_mem_itemsFrom.mp hx
    cases call with
    | channel number record => cases hevent
    | wait ms => cases hevent
    | wheel number position => cases hevent
    | note number note force ms =>
      rw [Call.event, Option.some.injEq, SongEvent.note.injEq] at hevent
      obtain ⟨-, -, rfl, hunits⟩ := hevent
      exact h _ _ _ ms hcall (units_eq_zero.mp hunits)

/-- A song written again from its steps is the same exactly when no short note of it is louder than
the widening of its two bits can tell. -/
theorem reencoded_keeps_song :
    ∃ steps, p.Performs steps
      ∧ ((reencoded p.song steps).finish = (ofCalls us calls).finish
        ↔ ∀ channel key velocity ms, Call.note channel key velocity ms ∈ calls → ms < 32 →
            velocity &&& 0x7f < 32) :=
  ⟨_, (madeOf_ofCalls hload).performs, finish_reencoded_iff hload⟩

end

def softNotes : List Call :=
  [.note 0 60 20 0, .wait 100, .wheel 3 0x3fff, .note 1 64 127 100, .wait 10]

theorem reencoded_keeps_song_softNotes :
    ∃ p steps, Player.make 1000 (ofCalls 500000 softNotes).finish false none = .ok p
      ∧ p.Performs steps
      ∧ (reencoded p.song steps).finish = (ofCalls 500000 softNotes).finish := by
  have hevent : ∃ call ∈ softNotes, call.event ≠ none :=
    ⟨.wheel 3 0x3fff, by simp [softNotes], nofun⟩
  obtain ⟨p, hload⟩ := make_of_stream (stream_of_event hevent) 500000 1000 false none
  obtain ⟨steps, hperforms, hsame⟩ := reencoded_keeps_song hload
  refine ⟨p, steps, hload, hperforms, hsame.mpr ?_⟩
  intro channel key velocity ms hcall hshort
  simp only [softNotes, List.mem_cons, Call.note.injEq, reduceCtorEq, List.not_mem_nil, false_or,
    or_false] at hcall
  rcases hcall with ⟨-, -, rfl, -⟩ | ⟨-, -, -, rfl⟩
  · decide
  · exact absurd hshort (by decide)

theorem loud_note_fades :
    ∃ p, Player.make 1000 (ofCalls 500000 [.note 0 60 64 0]).finish false none = .ok p
      ∧ ∀ steps, p.Performs steps →
        (reencoded p.song steps).finish ≠ (ofCalls 500000 [.note 0 60 64 0]).finish := by
  obtain ⟨p, hload⟩ := make_of_stream
    (stream_of_event ⟨.note 0 60 64 0, List.mem_singleton_self _, nofun⟩) 500000 1000 false none
  refine ⟨p, hload, fun steps hsteps hsame => ?_⟩
  rw [hsteps.unique (madeOf_ofCalls hload).performs, finish_reencoded_iff hload] at hsame
  exact absurd (hsame 0 60 64 0 (List.mem_singleton_self _) (by decide)) (by decide)

end Player

end Tonewheel
