import Tonewheel.Proofs.Song.Frames
import Tonewheel.Proofs.Song.Writing

/-!
# Songs read back

A song that was written plays the notes and wheel positions it was written with, at the times that
its waits give them and with the records its channels were left with (`plays_written_song`). Only a
song of an empty stream is refused: its loop is at the end of the data, where no header may put it
(`loads_written_song`).
-/

namespace Tonewheel

/-! ### Events of a song -/

theorem Event.wheelPosition_eq {position : UInt16} (h : position.toNat < 0x4000) :
    wheelPosition (position &&& 0x7f).toUInt8 ((position &&& 0x3fff) >>> 7).toUInt8 = position := by
  have hlow : (position &&& 0x7f).toNat = position.toNat % 2 ^ 7 :=
    word_and_low position (k := 7) (by decide)
  have hall : (position &&& 0x3fff).toNat = position.toNat % 2 ^ 14 :=
    word_and_low position (k := 14) (by decide)
  apply UInt16.toNat_inj.mp
  simp only [wheelPosition, UInt16.toNat_or, UInt16.toNat_shiftLeft, UInt8.toNat_toUInt16,
    UInt16.toNat_toUInt8, UInt16.toNat_shiftRight, UInt16.reduceToNat, Nat.reduceMod, hlow, hall]
  have hfirst : position.toNat % 2 ^ 7 % 2 ^ 8 = position.toNat % 2 ^ 7 := by omega
  have hsecond : (position.toNat % 2 ^ 14) >>> 7 % 2 ^ 8 = position.toNat / 2 ^ 7 := by
    rw [Nat.shiftRight_eq_div_pow]
    omega
  have hshift : (position.toNat / 2 ^ 7) <<< 7 % 2 ^ 16 = (position.toNat / 2 ^ 7) <<< 7 := by
    rw [Nat.shiftLeft_eq]
    omega
  rw [hfirst, hsecond, hshift, Nat.or_comm,
    ← Nat.shiftLeft_add_eq_or_of_lt (Nat.mod_lt _ (by decide)), Nat.shiftLeft_eq]
  omega

theorem Event.action_wheel (channel : UInt8) {position : UInt16} (h : position.toNat < 0x4000) :
    (wheel channel position).action = .wheel position :=
  congrArg Action.wheel (wheelPosition_eq h)

theorem Song.widenFour_shiftRight {bits : UInt8} (h : bits.toNat < 16) :
    widenFour bits >>> 3 = bits :=
  forall_small h (by decide +kernel)

namespace Player

open Writer

/-- Whether an event is what a call wrote, as far as its form keeps it: four bits of velocity if the
note has a duration, whole units of 32 ms, and eight bits of a wheel position. -/
def Hears (p : Player) (rate : UInt32) : Call → Event → Prop
  | .note channel key velocity ms, e =>
    e.channel = channel &&& 0x07
      ∧ ∃ v d, e.action = .noteOnce (key &&& 0x7f) v d
        ∧ d = p.durationFrames (min 63 (ms.toNat / 32)).toUInt8
        ∧ |(d : ℚ) - (32 * min 63 (ms.toNat / 32) : Nat) * (rate.toNat / 1000)| ≤ 5 / 8
        ∧ (32 ≤ ms → v >>> 3 = (velocity &&& 0x7f) >>> 3)
        ∧ (ms < 32 → d = 0)
  | .wheel channel position, e =>
    e.channel = channel &&& 0x07 ∧ e.action = .wheel (position &&& 0x3fc0)
  | _, _ => False

theorem hears_note {p : Player} {rate : UInt32} (hrate : Rate.isLegal rate = true)
    (hframes : p.framesPerMs = Format.framesPerMs rate) (channel key velocity : UInt8)
    (ms : UInt32) {e : SongEvent} (he : (Call.note channel key velocity ms).event = some e) :
    p.Hears rate (.note channel key velocity ms) (p.eventOf e.readBack) := by
  have hnear : |(p.durationFrames (min 63 (ms.toNat / 32)).toUInt8 : ℚ)
      - (32 * min 63 (ms.toNat / 32) : Nat) * (rate.toNat / 1000)| ≤ 5 / 8 := by
    have hsmall : (min 63 (ms.toNat / durationUnitMs)).toUInt8 < 64 :=
      UInt8.lt_iff_toNat_lt.mpr (units_lt ms.toNat)
    have hrounded := durationFrames_near hrate hframes hsmall
    rw [toNat_units] at hrounded
    rw [Nat.cast_mul, Nat.cast_ofNat]
    exact hrounded
  have hunitMs : durationUnitMs = 32 := rfl
  cases he
  rw [SongEvent.readBack, hunitMs]
  split
  next hpos =>
    have hlong : ¬ ms < 32 := mt units_eq_zero.mpr (UInt8.pos_iff_ne_zero.mp hpos)
    have hvelocity : ((velocity &&& 0x7f) >>> 3).toNat < 16 :=
      velocity_high (toNat_and_lt velocity 0x7f (by decide))
    exact ⟨rfl, _, _, rfl, rfl, hnear, fun _ => Song.widenFour_shiftRight hvelocity,
      fun hshort => absurd hshort hlong⟩
  next hzero =>
    have hnone : (min 63 (ms.toNat / 32)).toUInt8 = 0 := UInt8.le_zero_iff.mp (UInt8.not_lt.mp hzero)
    have hshort : ms < 32 := units_eq_zero.mp hnone
    rw [← hnone]
    refine ⟨rfl, _, _, rfl, rfl, hnear, fun hlong => absurd hshort (UInt32.not_lt.mpr hlong), ?_⟩
    intro _
    rw [hnone]
    exact durationFrames_zero hrate hframes

theorem hears_written {p : Player} {rate : UInt32} (hrate : Rate.isLegal rate = true)
    (hframes : p.framesPerMs = Format.framesPerMs rate) {call : Call} {e : SongEvent}
    (he : call.event = some e) : p.Hears rate call (p.eventOf e.readBack) := by
  cases call with
  | channel number record => cases he
  | wait ms => cases he
  | note channel key velocity ms => exact hears_note hrate hframes channel key velocity ms he
  | wheel channel position =>
    cases he
    have hkept : position &&& 0x3fff &&& 0x3fc0 = position &&& 0x3fc0 := by
      rw [UInt16.and_assoc]
      rfl
    rw [SongEvent.readBack, hkept]
    exact ⟨rfl, Event.action_wheel _ (word_and_lt position 0x3fc0 (by decide))⟩

theorem headerLength_lt_finish (us : UInt32) (calls : List Call) :
    Song.headerLength < (ofCalls us calls).finish.length ↔ itemsFrom 0 calls ≠ [] := by
  rw [finish_ofCalls, List.length_append, length_header, Ne, ← flatMap_encode_eq_nil,
    ← List.length_eq_zero_iff]
  omega

/-- A song with anything in its stream is loaded at every rate, and is played to its end with the
notes, the wheel positions and the times it was written with, as long as 32 bits count its gaps. -/
theorem plays_written_song {rate : UInt32} (hrate : Rate.isLegal rate = true) (us : UInt32)
    (calls : List Call) (hfit : waitsFit 0 calls = true)
    (hbody : Song.headerLength < (ofCalls us calls).finish.length)
    (resource : Option ResourceId) :
    ∃ p items last,
      Player.make rate (ofCalls us calls).finish false resource = .ok p
        ∧ p.song.records = (List.range songChannels).map (lastRecord calls)
        ∧ Song.Stream p.song.data p.offset items last
        ∧ p.Performs (items.map p.stepOf)
        ∧ List.Forall₂ (fun x y => y.1 = x.1 ∧ p.Hears rate x.2 (p.eventOf y.2)) (score 0 calls)
          (Song.timeline UInt8.toNat 0 items) := by
  obtain ⟨p, hload⟩ := make_of_stream ((headerLength_lt_finish us calls).mp hbody) us rate false
    resource
  have hmade := madeOf_ofCalls hload
  obtain ⟨last, hstream⟩ := hmade.stream
  refine ⟨p, readItems calls, last, hload, hmade.records, hstream, hmade.performs, ?_⟩
  rw [readItems, Song.timeline_readBack, List.forall₂_map_right_iff]
  refine (timeline_itemsFrom 0 0 hfit).imp ?_
  rintro x y ⟨htime, hevent⟩
  exact ⟨htime, hears_written hrate hmade.framesPerMs hevent⟩

def threeEvents : List Call :=
  [.channel 0 { program := 2, volume := 0x80, pan := 0x80 }, .note 0 60 127 100, .wait 130,
    .note 3 64 64 0, .wheel 3 0x3fff, .wait 10]

theorem threeEvents_event : ∃ call ∈ threeEvents, call.event ≠ none :=
  ⟨.wheel 3 0x3fff, by simp [threeEvents], nofun⟩

theorem plays_written_song_threeEvents :
    Rate.isLegal 48000 = true ∧ waitsFit 0 threeEvents = true
      ∧ Song.headerLength < (ofCalls 500000 threeEvents).finish.length
      ∧ ∃ p items last,
        Player.make 48000 (ofCalls 500000 threeEvents).finish false none = .ok p
          ∧ p.song.records
            = { program := 2, volume := 0x80, pan := 0x80 } :: List.replicate 7 {}
          ∧ Song.Stream p.song.data p.offset items last
          ∧ p.Performs (items.map p.stepOf)
          ∧ List.Forall₂ (fun x y => y.1 = x.1 ∧ p.Hears 48000 x.2 (p.eventOf y.2))
            [(0, .note 0 60 127 100), (130, .note 3 64 64 0), (130, .wheel 3 0x3fff)]
            (Song.timeline UInt8.toNat 0 items) := by
  have hbody : Song.headerLength < (ofCalls 500000 threeEvents).finish.length :=
    (headerLength_lt_finish _ _).mpr (stream_of_event threeEvents_event)
  exact ⟨by decide, by decide, hbody,
    plays_written_song (by decide) 500000 threeEvents (by decide) hbody none⟩

/-! ### Songs that are refused -/

/-- A written song is loaded, with the tempo it was given, exactly when something is in its
stream. -/
theorem loads_written_song {us : UInt32} (hus : us.toNat + 500 < 2 ^ 32) {calls : List Call}
    (hfit : waitsFit 0 calls = true) (rate : UInt32) (repeats : Bool)
    (resource : Option ResourceId) :
    (∃ p, Player.make rate (ofCalls us calls).finish repeats resource = .ok p
      ∧ p.song.tempo.toNat = max 1 (min 0xffff ((us.toNat + 500) / 1000)))
    ↔ ∃ call ∈ calls, call.Writes := by
  have hrounded : (us + 500).toNat = us.toNat + 500 :=
    (UInt32.toNat_add us 500).trans (Nat.mod_eq_of_lt hus)
  rw [make_ofCalls, ← stream_iff_writes hfit]
  constructor
  · rintro ⟨p, hload, -⟩ hempty
    rw [if_pos hempty] at hload
    cases hload
  · intro hsome
    rw [if_neg hsome]
    exact ⟨_, rfl, (tempo_ofCalls us calls).trans (by rw [hrounded])⟩

/-- The slowest tempo, and a gap as long as it may be. -/
theorem loads_written_song_longWait :
    (0xfffffe0b : UInt32).toNat + 500 < 2 ^ 32 ∧ waitsFit 0 [.wait 1, .wait 0xfffffffe] = true
      ∧ ∃ p, Player.make 1000 (ofCalls 0xfffffe0b [.wait 1, .wait 0xfffffffe]).finish false none
          = .ok p
        ∧ p.song.tempo.toNat = 0xffff := by
  have hwrites : ∃ call ∈ [Call.wait 1, Call.wait 0xfffffffe], call.Writes :=
    ⟨.wait 1, List.mem_cons_self, UInt32.lt_iff_toNat_lt.mpr Nat.one_pos⟩
  have hus : (0xfffffe0b : UInt32).toNat + 500 < 2 ^ 32 := by decide
  have hfit : waitsFit 0 [.wait 1, .wait 0xfffffffe] = true := by decide
  obtain ⟨p, hload, htempo⟩ := (loads_written_song hus hfit 1000 false none).mpr hwrites
  exact ⟨hus, hfit, p, hload, htempo.trans (by decide)⟩

theorem empty_song_refused :
    Player.make 1000 (ofCalls 500000 []).finish false none = .error (.header .loop) := by
  have hempty : itemsFrom 0 [] = [] := delays_zero
  rw [make_ofCalls, if_pos hempty]

end Player

end Tonewheel
