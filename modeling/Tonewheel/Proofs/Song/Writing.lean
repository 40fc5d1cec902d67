import Mathlib.Data.List.Forall2
import Tonewheel.Proofs.Song.Stream

/-!
# Written songs

A song is written by a run of calls (`Writer.ofCalls`), and the waits among them give each event its
time (`Writer.score`). The stream of the song is `Writer.itemsFrom`, in which every time is cut into
delays. A player loads the song unless the stream is empty (`make_ofCalls`), and then takes the
steps of the stream that was written (`madeOf_ofCalls`).
-/

namespace Tonewheel.Writer

inductive Call where
  | channel (number : UInt8) (record : ChannelRecord)
  | wait (ms : UInt32)
  | note (channel key velocity : UInt8) (ms : UInt32)
  | wheel (channel : UInt8) (position : UInt16)
  deriving Repr, DecidableEq

def apply (w : Writer) : Call → Writer
  | .channel number record => w.channel number record
  | .wait ms => w.wait ms
  | .note channel key velocity ms => w.note channel key velocity ms
  | .wheel channel position => w.wheel channel position

def ofCalls (us : UInt32) (calls : List Call) : Writer := calls.foldl apply (ofTempo us)

namespace Call

def event : Call → Option SongEvent
  | .note number key velocity ms =>
    some (.note (number &&& 0x07) (key &&& 0x7f) (velocity &&& 0x7f)
      (min 63 (ms.toNat / durationUnitMs)).toUInt8)
  | .wheel number position => some (.wheel (number &&& 0x07) (position &&& 0x3fff))
  | _ => none

def ms : Call → UInt32
  | .wait ms => ms
  | _ => 0

def recordOf (number : Nat) : Call → Option ChannelRecord
  | .channel place record => if place.toNat = number then some record else none
  | _ => none

/-- Whether a call leaves something in the stream. -/
def Writes : Call → Prop
  | .channel _ _ => False
  | .wait ms => 0 < ms
  | .note _ _ _ _ => True
  | .wheel _ _ => True

theorem writes_iff (call : Call) : call.Writes ↔ call.event ≠ none ∨ 0 < call.ms := by
  cases call <;> simp [Writes, event, ms]

end Call

/-- The calls that write an event, each with the sum of the waits before it, counted from `now`. -/
def score (now : Nat) : List Call → List (Nat × Call)
  | [] => []
  | call :: calls =>
    match call.event with
    | some _ => (now, call) :: score now calls
    | none => score (now + call.ms.toNat) calls

def lastRecord (calls : List Call) (number : Nat) : ChannelRecord :=
  (calls.filterMap (Call.recordOf number)).getLast?.getD {}

/-- The stream of some calls after a time that is not written yet. -/
def itemsFrom (pending : UInt32) : List Call → List SongItem
  | [] => delays pending.toNat
  | call :: calls =>
    match call.event with
    | some e => delays pending.toNat ++ .event e :: itemsFrom 0 calls
    | none => itemsFrom (pending + call.ms) calls

/-- Whether no gap between events is longer than 32 bits can count, with some ms before the first. -/
def waitsFit (pending : Nat) : List Call → Bool
  | [] => pending < 2 ^ 32
  | call :: calls =>
    match call.event with
    | some _ => pending < 2 ^ 32 && waitsFit 0 calls
    | none => waitsFit (pending + call.ms.toNat) calls

def readItems (calls : List Call) : List SongItem := (itemsFrom 0 calls).map SongItem.readBack

/-! ### Delays -/

theorem delays_zero : delays 0 = [] := by rw [delays, if_pos rfl]

theorem delays_of_pos {ms : Nat} (h : 0 < ms) :
    delays ms
      = .delay (min ms delayLimitMs).toUInt8 :: delays (ms - min ms delayLimitMs) := by
  rw [delays, if_neg (Nat.ne_of_gt h)]

theorem delays_eq_nil {ms : Nat} : delays ms = [] ↔ ms = 0 := by
  constructor
  · intro h
    refine Nat.eq_zero_of_not_pos fun hpos => ?_
    rw [delays_of_pos hpos] at h
    cases h
  · rintro rfl
    exact delays_zero

theorem toNat_delay (ms : Nat) : (min ms delayLimitMs).toUInt8.toNat = min ms delayLimitMs := by
  have hlimit : delayLimitMs = 63 := rfl
  show min ms delayLimitMs % 256 = _
  omega

theorem fits_delays {ms : Nat} {x : SongItem} (hx : x ∈ delays ms) : x.Fits := by
  fun_induction delays ms with
  | case1 => cases hx
  | case2 ms hms ih =>
    have hlimit : delayLimitMs = 63 := rfl
    have hbyte := toNat_delay ms
    rcases List.mem_cons.mp hx with rfl | hx
    · refine ⟨UInt8.lt_iff_toNat_lt.mpr ?_, UInt8.lt_iff_toNat_lt.mpr ?_⟩
      · show 0 < (min ms delayLimitMs).toUInt8.toNat
        omega
      · show (min ms delayLimitMs).toUInt8.toNat < 128
        omega
    · exact ih hx

theorem event_notMem_delays (ms : Nat) (e : SongEvent) : SongItem.event e ∉ delays ms := by
  fun_induction delays ms with
  | case1 => exact List.not_mem_nil
  | case2 ms hms ih =>
    intro hmem
    rcases List.mem_cons.mp hmem with heq | hmem
    · cases heq
    · exact ih hmem

theorem readBack_delays (ms : Nat) : (delays ms).map SongItem.readBack = delays ms := by
  fun_induction delays ms with
  | case1 => rfl
  | case2 ms hms ih =>
    rw [List.map_cons, ih]
    rfl

theorem timeline_delays (now ms : Nat) (items : List SongItem) :
    Song.timeline UInt8.toNat now (delays ms ++ items)
      = Song.timeline UInt8.toNat (now + ms) items := by
  fun_induction delays ms generalizing now with
  | case1 => rfl
  | case2 ms hms ih =>
    have htotal : now + min ms delayLimitMs + (ms - min ms delayLimitMs) = now + ms := by omega
    rw [List.cons_append, Song.timeline, toNat_delay, ih, htotal]

/-! ### Items -/

theorem toNat_units (ms : Nat) :
    (min 63 (ms / durationUnitMs)).toUInt8.toNat = min 63 (ms / durationUnitMs) := by
  have hmin : min 63 (ms / durationUnitMs) ≤ 63 := Nat.min_le_left _ _
  show min 63 (ms / durationUnitMs) % 256 = _
  exact Nat.mod_eq_of_lt (by omega)

theorem units_lt (ms : Nat) : (min 63 (ms / durationUnitMs)).toUInt8.toNat < 64 := by
  rw [toNat_units]
  exact Nat.lt_succ_of_le (Nat.min_le_left _ _)

theorem units_eq_zero {ms : UInt32} :
    (min 63 (ms.toNat / durationUnitMs)).toUInt8 = 0 ↔ ms < 32 := by
  rw [← UInt8.toNat_inj, toNat_units, UInt32.lt_iff_toNat_lt]
  show min 63 (ms.toNat / 32) = 0 ↔ ms.toNat < 32
  omega

theorem fits_event {call : Call} {e : SongEvent} (h : call.event = some e) : e.Fits := by
  cases call with
  | channel number record => cases h
  | wait ms => cases h
  | note channel key velocity ms =>
    cases h
    exact ⟨toNat_and_lt channel 0x07 (by decide), toNat_and_lt key 0x7f (by decide),
      toNat_and_lt velocity 0x7f (by decide), units_lt ms.toNat⟩
  | wheel channel position =>
    cases h
    exact ⟨toNat_and_lt channel 0x07 (by decide), word_and_lt position 0x3fff (by decide)⟩

theorem itemsFrom_event {call : Call} {e : SongEvent} (h : call.event = some e) (pending : UInt32)
    (calls : List Call) :
    itemsFrom pending (call :: calls) = delays pending.toNat ++ .event e :: itemsFrom 0 calls := by
  rw [itemsFrom, h]

theorem itemsFrom_silent {call : Call} (h : call.event = none) (pending : UInt32)
    (calls : List Call) :
    itemsFrom pending (call :: calls) = itemsFrom (pending + call.ms) calls := by
  rw [itemsFrom, h]

theorem score_event {call : Call} {e : SongEvent} (h : call.event = some e) (now : Nat)
    (calls : List Call) : score now (call :: calls) = (now, call) :: score now calls := by
  rw [score, h]

theorem score_silent {call : Call} (h : call.event = none) (now : Nat) (calls : List Call) :
    score now (call :: calls) = score (now + call.ms.toNat) calls := by
  rw [score, h]

theorem waitsFit_event {call : Call} {e : SongEvent} (h : call.event = some e) (pending : Nat)
    (calls : List Call) :
    waitsFit pending (call :: calls) = (decide (pending < 2 ^ 32) && waitsFit 0 calls) := by
  rw [waitsFit, h]

theorem waitsFit_silent {call : Call} (h : call.event = none) (pending : Nat)
    (calls : List Call) :
    waitsFit pending (call :: calls) = waitsFit (pending + call.ms.toNat) calls := by
  rw [waitsFit, h]

theorem lt_of_waitsFit {pending : Nat} {calls : List Call} (h : waitsFit pending calls = true) :
    pending < 2 ^ 32 := by
  induction calls generalizing pending with
  | nil => exact of_decide_eq_true h
  | cons call calls ih =>
    cases he : call.event with
    | none =>
      rw [waitsFit_silent he] at h
      exact Nat.lt_of_le_of_lt (Nat.le_add_right pending call.ms.toNat) (ih h)
    | some e =>
      rw [waitsFit_event he, Bool.and_eq_true] at h
      exact of_decide_eq_true h.1

/-- A wait that fits is added to the time before it. -/
theorem toNat_pending {pending ms : UInt32} {calls : List Call}
    (h : waitsFit (pending.toNat + ms.toNat) calls = true) :
    (pending + ms).toNat = pending.toNat + ms.toNat := by
  rw [UInt32.toNat_add]
  exact Nat.mod_eq_of_lt (lt_of_waitsFit h)

theorem fits_itemsFrom {pending : UInt32} {calls : List Call} {x : SongItem}
    (hx : x ∈ itemsFrom pending calls) : x.Fits := by
  induction calls generalizing pending with
  | nil => exact fits_delays hx
  | cons call calls ih =>
    cases he : call.event with
    | none =>
      rw [itemsFrom_silent he] at hx
      exact ih hx
    | some e =>
      rw [itemsFrom_event he, List.mem_append, List.mem_cons] at hx
      rcases hx with hx | rfl | hx
      · exact fits_delays hx
      · exact fits_event he
      · exact ih hx

theorem itemsFrom_eq_nil (pending : UInt32) {calls : List Call}
    (hfit : waitsFit pending.toNat calls = true) :
    itemsFrom pending calls = [] ↔ pending = 0 ∧ ∀ call ∈ calls, ¬ call.Writes := by
  induction calls generalizing pending with
  | nil =>
    rw [itemsFrom, delays_eq_nil, ← UInt32.toNat_inj]
    simp
  | cons call calls ih =>
    have hwrites := call.writes_iff
    rw [List.forall_mem_cons]
    cases he : call.event with
    | none =>
      have hms : ¬ call.Writes ↔ call.ms = 0 := by
        rw [hwrites, he]
        simp
      rw [waitsFit_silent he] at hfit
      have hsum := toNat_pending hfit
      have hzero : pending + call.ms = 0 ↔ pending = 0 ∧ call.ms = 0 := by
        simp only [← UInt32.toNat_inj, hsum, UInt32.toNat_zero, Nat.add_eq_zero_iff]
      rw [itemsFrom_silent he, ih (pending + call.ms) (hsum ▸ hfit), hms, hzero, and_assoc]
    | some e =>
      have hwritten : call.Writes := by
        rw [hwrites, he]
        simp
      rw [itemsFrom_event he]
      simp [hwritten]

theorem event_mem_itemsFrom {pending : UInt32} {calls : List Call} {e : SongEvent} :
    SongItem.event e ∈ itemsFrom pending calls ↔ ∃ call ∈ calls, call.event = some e := by
  have hdelays := fun ms => event_notMem_delays ms e
  induction calls generalizing pending with
  | nil => simpa [itemsFrom] using hdelays pending.toNat
  | cons call calls ih =>
    cases he : call.event with
    | none => simp [itemsFrom_silent he, ih, he]
    | some f => simp [itemsFrom_event he, ih, he, hdelays, eq_comm]

theorem stream_iff_writes {calls : List Call} (hfit : waitsFit 0 calls = true) :
    itemsFrom 0 calls ≠ [] ↔ ∃ call ∈ calls, call.Writes := by
  rw [Ne, itemsFrom_eq_nil 0 hfit]
  simp

theorem stream_of_event {calls : List Call} (h : ∃ call ∈ calls, call.event ≠ none) :
    itemsFrom 0 calls ≠ [] := by
  obtain ⟨call, hcall, hevent⟩ := h
  obtain ⟨e, he⟩ := Option.ne_none_iff_exists'.mp hevent
  exact List.ne_nil_of_mem (event_mem_itemsFrom.mpr ⟨call, hcall, he⟩)

theorem timeline_itemsFrom (now : Nat) (pending : UInt32) {calls : List Call}
    (hfit : waitsFit pending.toNat calls = true) :
    List.Forall₂ (fun x y => y.1 = x.1 ∧ x.2.event = some y.2)
      (score (now + pending.toNat) calls)
      (Song.timeline UInt8.toNat now (itemsFrom pending calls)) := by
  induction calls generalizing now pending with
  | nil =>
    rw [itemsFrom, ← List.append_nil (delays pending.toNat), timeline_delays]
    exact .nil
  | cons call calls ih =>
    cases he : call.event with
    | none =>
      rw [waitsFit_silent he] at hfit
      have hsum := toNat_pending hfit
      rw [itemsFrom_silent he, score_silent he, Nat.add_assoc, ← hsum]
      exact ih now (pending + call.ms) (hsum ▸ hfit)
    | some e =>
      rw [waitsFit_event he, Bool.and_eq_true] at hfit
      rw [itemsFrom_event he, score_event he, timeline_delays]
      exact .cons ⟨rfl, he⟩ (ih (now + pending.toNat) 0 hfit.2)

theorem encode_ne_nil (x : SongItem) : x.encode ≠ [] := by
  match x with
  | .delay ms => exact List.cons_ne_nil _ _
  | .event (.note channel key velocity units) =>
    rw [SongItem.encode, SongEvent.encode]
    split <;> exact List.cons_ne_nil _ _
  | .event (.wheel channel position) => exact List.cons_ne_nil _ _

theorem flatMap_encode_eq_nil {items : List SongItem} :
    items.flatMap SongItem.encode = [] ↔ items = [] := by
  constructor
  · intro h
    cases items with
    | nil => rfl
    | cons x items =>
      rw [List.flatMap_eq_nil_iff] at h
      exact absurd (h x List.mem_cons_self) (encode_ne_nil x)
  · rintro rfl
    rfl

/-! ### What a run of calls leaves -/

theorem apply_event {call : Call} {e : SongEvent} (h : call.event = some e) (w : Writer) :
    w.apply call = w.put e := by
  cases call <;> cases h <;> rfl

theorem apply_silent {call : Call} (h : call.event = none) (w : Writer) :
    (w.apply call).reversed = w.reversed ∧ (w.apply call).pending = w.pending + call.ms := by
  cases call with
  | channel number record => exact ⟨rfl, (UInt32.add_zero _).symm⟩
  | wait ms => exact ⟨rfl, rfl⟩
  | note channel key velocity ms => cases h
  | wheel channel position => cases h

theorem flush_foldl (w : Writer) (calls : List Call) :
    (calls.foldl apply w).flush.reversed.reverse
      = w.reversed.reverse ++ itemsFrom w.pending calls := by
  induction calls generalizing w with
  | nil =>
    show ((delays w.pending.toNat).reverse ++ w.reversed).reverse = _
    rw [List.reverse_append, List.reverse_reverse]
    rfl
  | cons call calls ih =>
    rw [List.foldl_cons, ih]
    cases he : call.event with
    | none =>
      obtain ⟨hreversed, hpending⟩ := apply_silent he w
      rw [hreversed, hpending, itemsFrom_silent he]
    | some e =>
      rw [apply_event he, itemsFrom_event he]
      show (.event e :: ((delays w.pending.toNat).reverse ++ w.reversed)).reverse
        ++ itemsFrom 0 calls = _
      rw [List.reverse_cons, List.reverse_append, List.reverse_reverse]
      simp only [List.append_assoc, List.singleton_append]

theorem tempo_foldl (w : Writer) (calls : List Call) :
    (calls.foldl apply w).tempo = w.tempo := by
  induction calls generalizing w with
  | nil => rfl
  | cons call calls ih =>
    have hcall : (w.apply call).tempo = w.tempo := by cases call <;> rfl
    rw [List.foldl_cons, ih, hcall]

theorem records_apply (w : Writer) (call : Call) {number : Nat} (h : number < songChannels) :
    (w.apply call).records[number] = (call.recordOf number).getD w.records[number] := by
  cases call with
  | channel channel record =>
    show (w.records.setIfInBounds channel.toNat record)[number] = _
    rw [Vector.getElem_setIfInBounds, Call.recordOf]
    split <;> rfl
  | wait ms => rfl
  | note channel key velocity ms => rfl
  | wheel channel position => rfl

theorem records_foldl (w : Writer) (calls : List Call) {number : Nat} (h : number < songChannels) :
    (calls.foldl apply w).records[number]
      = (calls.filterMap (Call.recordOf number)).getLast?.getD w.records[number] := by
  induction calls generalizing w with
  | nil => rfl
  | cons call calls ih =>
    have hcall := records_apply w call h
    rw [List.foldl_cons, ih, hcall, List.filterMap_cons]
    cases hrecord : call.recordOf number with
    | none => rfl
    | some record =>
      dsimp only
      rw [List.getLast?_cons]
      rfl

theorem records_ofCalls (us : UInt32) (calls : List Call) :
    (ofCalls us calls).records.toList = (List.range songChannels).map (lastRecord calls) := by
  apply List.ext_getElem
  · simp
  · intro number hleft hright
    have hnumber : number < songChannels := by simpa using hleft
    have hlast := records_foldl (ofTempo us) calls hnumber
    rw [Vector.getElem_toList, List.getElem_map, List.getElem_range]
    refine hlast.trans ?_
    rw [lastRecord]
    simp [ofTempo]

theorem tempo_ofCalls (us : UInt32) (calls : List Call) :
    (ofCalls us calls).tempo.toNat = max 1 (min 0xffff ((us + 500).toNat / 1000)) := by
  have hrounded : ((us + 500) / 1000).toNat = (us + 500).toNat / 1000 := rfl
  rw [ofCalls, tempo_foldl]
  show (max 1 (min 0xffff ((us + 500) / 1000))).toNat % 65536 = _
  rw [UInt32.toNat_max, UInt32.toNat_min, hrounded]
  show max 1 (min 65535 _) % 65536 = _
  omega

theorem finish_ofCalls (us : UInt32) (calls : List Call) :
    (ofCalls us calls).finish
      = (ofCalls us calls).header ++ (itemsFrom 0 calls).flatMap SongItem.encode := by
  have hitems := flush_foldl (ofTempo us) calls
  rw [finish, ofCalls, hitems]
  rfl

/-! ### Headers -/

theorem header_eq (w : Writer) :
    w.header = Song.signature ++ [(w.tempo >>> 8).toUInt8, w.tempo.toUInt8, 0, 42, 0, 42]
      ++ w.records.toList.flatMap recordBytes := rfl

theorem length_recordBytes (records : List ChannelRecord) :
    (records.flatMap recordBytes).length = 4 * records.length := by
  induction records with
  | nil => rfl
  | cons r records ih =>
    rw [List.flatMap_cons, List.length_append, ih, List.length_cons]
    show 4 + 4 * records.length = _
    omega

theorem length_header (w : Writer) : w.header.length = Song.headerLength := by
  have hrecords := length_recordBytes w.records.toList
  rw [Vector.length_toList] at hrecords
  rw [header_eq]
  rw [List.length_append, hrecords]
  rfl

theorem drop_header (w : Writer) (body : Bytes) :
    (w.header ++ body).toArray.toList.drop Song.headerLength = body := by
  rw [← length_header w]
  exact List.drop_left

theorem drop_recordBytes (records : List ChannelRecord) (number : Nat) :
    (records.flatMap recordBytes).drop (4 * number)
      = (records.drop number).flatMap recordBytes := by
  induction number generalizing records with
  | zero => rfl
  | succ number ih =>
    cases records with
    | nil => rw [List.drop_nil, List.flatMap_nil, List.drop_nil]
    | cons r records =>
      have hplace : 4 * (number + 1) = (recordBytes r).length + 4 * number := by
        show _ = 4 + 4 * number
        omega
      rw [List.flatMap_cons, hplace, List.drop_length_add_append, ih]
      rfl

theorem drop_header_record (w : Writer) (body : Bytes) {number : Nat}
    (h : number < songChannels) :
    ∃ rest, (w.header ++ body).toArray.toList.drop (10 + 4 * number)
      = recordBytes w.records[number] ++ rest := by
  have hplace : number < w.records.toList.length := by
    rw [Vector.length_toList]
    exact h
  refine ⟨(w.records.toList.drop (number + 1)).flatMap recordBytes ++ body, ?_⟩
  have hfixed : (w.header ++ body).drop (10 + 4 * number)
      = (w.records.toList.flatMap recordBytes ++ body).drop (4 * number) := by
    rw [header_eq, Nat.add_comm]
    rfl
  have hfit : 4 * number ≤ (w.records.toList.flatMap recordBytes).length := by
    rw [length_recordBytes]
    omega
  show (w.header ++ body).drop (10 + 4 * number) = _
  rw [hfixed, List.drop_append_of_le_length hfit, drop_recordBytes,
    List.drop_eq_getElem_cons hplace, List.flatMap_cons, List.append_assoc,
    Vector.getElem_toList]

theorem ofBytes_header (w : Writer) (htempo : w.tempo ≠ 0) (body : Bytes)
    (resource : Option ResourceId) :
    Song.ofBytes (w.header ++ body) resource
      = if body = [] then .error (.header .loop)
        else .ok
          { data := (w.header ++ body).toArray
            tempo := w.tempo
            start := Song.headerLength
            loopStart := Song.headerLength
            resource } := by
  have hsize : (w.header ++ body).toArray.size = Song.headerLength + body.length := by
    rw [List.size_toArray, List.length_append, length_header]
  have hsignature : (w.header ++ body).take 4 = Song.signature := rfl
  have hword : Song.wordAt (w.header ++ body).toArray 4 = w.tempo := wordOfBytes_bytesOfWord w.tempo
  have hplace : (wordOfBytes 0 42).toNat = Song.headerLength := rfl
  have hstart : Song.wordAt (w.header ++ body).toArray 6 = wordOfBytes 0 42 := rfl
  have hloop : Song.wordAt (w.header ++ body).toArray 8 = wordOfBytes 0 42 := rfl
  unfold Song.ofBytes
  simp only [hsize, hsignature, hword, hstart, hloop, hplace]
  rw [if_neg (by omega), if_neg (by simp), if_neg htempo, if_neg (Nat.lt_irrefl _)]
  cases body with
  | nil => rfl
  | cons b body =>
    have hlength : (b :: body).length = body.length + 1 := rfl
    rw [if_neg (by omega), if_neg (by simp)]

theorem record_header (w : Writer) (body : Bytes) {s : Song}
    (hdata : s.data = (w.header ++ body).toArray) {number : Nat} (h : number < songChannels) :
    s.record number = w.records[number] := by
  obtain ⟨rest, hdrop⟩ := drop_header_record w body h
  rw [← hdata] at hdrop
  obtain ⟨hprogram, hdrop⟩ := Song.getElem?_of_drop hdrop
  obtain ⟨hvolume, hdrop⟩ := Song.getElem?_of_drop hdrop
  obtain ⟨hpan, -⟩ := Song.getElem?_of_drop hdrop
  rw [Song.record, Song.byteAt_eq hprogram, Song.byteAt_eq hvolume, Song.byteAt_eq hpan]

theorem records_header (w : Writer) (body : Bytes) {s : Song}
    (hdata : s.data = (w.header ++ body).toArray) : s.records = w.records.toList := by
  apply List.ext_getElem
  · simp [Song.records]
  · intro number hleft hright
    have hnumber : number < songChannels := by simpa [Song.records] using hleft
    have hrecord := record_header w body hdata hnumber
    rw [Vector.getElem_toList, ← hrecord]
    simp [Song.records]

end Tonewheel.Writer

namespace Tonewheel.Player

open Writer

/-- A player loads what was written unless its stream is empty. -/
theorem make_ofCalls (us : UInt32) (calls : List Call) (rate : UInt32) (repeats : Bool)
    (resource : Option ResourceId) :
    Player.make rate (ofCalls us calls).finish repeats resource
      = if itemsFrom 0 calls = [] then .error (.header .loop)
        else .ok (.ofSong
          { data := (ofCalls us calls).finish.toArray
            tempo := (ofCalls us calls).tempo
            start := Song.headerLength
            loopStart := Song.headerLength
            resource } rate repeats) := by
  have htempo : (ofCalls us calls).tempo ≠ 0 := by
    intro hzero
    have hvalue := tempo_ofCalls us calls
    rw [hzero] at hvalue
    change 0 = _ at hvalue
    omega
  rw [Player.make, finish_ofCalls, ofBytes_header _ htempo]
  simp only [flatMap_encode_eq_nil]
  split <;> rfl

theorem make_of_stream {calls : List Call} (h : itemsFrom 0 calls ≠ []) (us rate : UInt32)
    (repeats : Bool) (resource : Option ResourceId) :
    ∃ p, Player.make rate (ofCalls us calls).finish repeats resource = .ok p := by
  rw [make_ofCalls, if_neg h]
  exact ⟨_, rfl⟩

theorem stream_ofCalls (us : UInt32) (calls : List Call) :
    ∃ last, Song.Stream (ofCalls us calls).finish.toArray Song.headerLength (readItems calls) last
      ∧ Song.item (ofCalls us calls).finish.toArray last = .ok none := by
  have hdrop := drop_header (ofCalls us calls) ((itemsFrom 0 calls).flatMap SongItem.encode)
  rw [← finish_ofCalls, ← List.append_nil ((itemsFrom 0 calls).flatMap SongItem.encode)] at hdrop
  obtain ⟨hstream, hend⟩ := Song.stream_encode (fun x => fits_itemsFrom) hdrop
  exact ⟨_, hstream, Song.item_end hend⟩

/-- What a player is that does not repeat and was made of a written song. -/
structure MadeOf (p : Player) (rate : UInt32) (us : UInt32) (calls : List Call) : Prop where
  framesPerMs : p.framesPerMs = Format.framesPerMs rate
  records : p.song.records = (List.range songChannels).map (lastRecord calls)
  tempo : p.song.tempo = (ofCalls us calls).tempo
  stream : ∃ last, Song.Stream p.song.data p.offset (readItems calls) last
  performs : p.Performs ((readItems calls).map p.stepOf)

theorem madeOf_ofCalls {us : UInt32} {calls : List Call} {rate : UInt32}
    {resource : Option ResourceId} {p : Player}
    (h : Player.make rate (ofCalls us calls).finish false resource = .ok p) :
    p.MadeOf rate us calls := by
  rw [make_ofCalls] at h
  split at h
  · cases h
  · cases h
    obtain ⟨last, hstream, hend⟩ := stream_ofCalls us calls
    refine ⟨rfl, ?_, rfl, ⟨last, hstream⟩, performs_stream rfl rfl hstream hend⟩
    rw [← records_ofCalls us calls]
    exact records_header _ _ (congrArg List.toArray (finish_ofCalls us calls))

end Tonewheel.Player
