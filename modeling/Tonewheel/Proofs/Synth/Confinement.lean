import Tonewheel.Proofs.Song.Reencoding
import Tonewheel.Proofs.Synth.Events

/-!
# What songs can reach

The bytes of a song are anything that has a valid header. Whatever they are, the events read from
them are bounded notes and wheel positions with operands of seven bits on the first eight channels
(`Player.step_ofSong`). These are also the only channels that an update sets up, clears or forgets
the programs of (`Step.OfUpdate`), so the channels from the ninth on, which are the caller's, and
their programs stay as they are through any updates (`songs_spare_callers`).
-/

namespace Tonewheel

/-! ### Events of songs -/

/-- Whether an event is one that a song can hold. -/
structure Event.OfSong (e : Event) : Prop where
  channel : e.channel.toNat < songChannels
  opcode : e.opcode = Event.opNoteOnce ∨ e.opcode = Event.opWheel
  a : e.a < 0x80
  b : e.b < 0x80
  duration : 0 ≤ e.duration

theorem Event.OfSong.action {e : Event} (h : e.OfSong) :
    e.action = .noteOnce e.a e.b e.duration ∨ e.action = .wheel (wheelPosition e.a e.b) := by
  rcases h.opcode with hop | hop
  · left
    rw [Event.action, hop]
    rfl
  · right
    rw [Event.action, hop]
    rfl

namespace Song

variable {data : Array UInt8} {lead : UInt8} {i j : Nat}

theorem toNat_shiftRight_lt (x : UInt8) {k : Nat} (hk : k < 8) :
    (x >>> UInt8.ofNat k).toNat < 2 ^ (8 - k) := by
  have hx := x.toNat_lt
  have hbyte : (2 : Nat) ^ 8 = 2 ^ (8 - k) * 2 ^ k := by
    rw [← Nat.pow_add, Nat.sub_add_cancel (Nat.le_of_lt hk)]
  rw [toNat_shiftRight x hk, Nat.div_lt_iff_lt_mul (Nat.two_pow_pos k)]
  omega

theorem widenTwo_small {bits : UInt8} (h : bits.toNat < 16) : (widenTwo bits).toNat < 128 :=
  forall_small h (by decide +kernel)

theorem fits_longNote (lead a b : UInt8) :
    (SongEvent.note (a >>> 5) (((a &&& 0x1f) <<< 2) ||| (b >>> 6)) (widenFour (lead &&& 0x0f))
      (b &&& 0x3f)).Fits := by
  have hchannel : (a >>> 5).toNat < 2 ^ (8 - 5) := toNat_shiftRight_lt a (k := 5) (by decide)
  have hlow : (b >>> 6).toNat < 2 ^ (8 - 6) := toNat_shiftRight_lt b (k := 6) (by decide)
  have hhigh := toNat_and_lt a 0x1f (n := 32) (by decide)
  have hkey := toNat_fields (a &&& 0x1f) (k := 2) (by decide) hlow
  have hvelocity := widenFour_lt (toNat_and_lt lead 0x0f (n := 16) (by decide))
  have hunits := toNat_and_lt b 0x3f (n := 64) (by decide)
  change (((a &&& 0x1f) <<< 2) ||| (b >>> 6)).toNat = _ at hkey
  exact ⟨hchannel, by omega, hvelocity, hunits⟩

theorem fits_shortNote (lead a : UInt8) :
    (SongEvent.note (((lead &&& 0x03) <<< 1) ||| (a >>> 7)) (a &&& 0x7f)
      (widenTwo (lead &&& 0x0c)) 0).Fits := by
  have hlow : (a >>> 7).toNat < 2 ^ (8 - 7) := toNat_shiftRight_lt a (k := 7) (by decide)
  have hhigh := toNat_and_lt lead 0x03 (n := 4) (by decide)
  have hchannel := toNat_fields (lead &&& 0x03) (k := 1) (by decide) hlow
  have hkey := toNat_and_lt a 0x7f (n := 128) (by decide)
  have hvelocity := widenTwo_small (toNat_and_lt lead 0x0c (n := 16) (by decide))
  change (((lead &&& 0x03) <<< 1) ||| (a >>> 7)).toNat = _ at hchannel
  exact ⟨by omega, hkey, hvelocity, by decide⟩

theorem fits_wheel (lead v : UInt8) :
    (SongEvent.wheel (lead &&& 0x07) (v.toUInt16 <<< 6)).Fits := by
  have hv := v.toNat_lt
  have hposition : (v.toUInt16 <<< 6).toNat = v.toNat * 64 % 65536 := by
    simp [UInt16.toNat_shiftLeft, Nat.shiftLeft_eq]
  exact ⟨toNat_and_lt lead 0x07 (by decide), by omega⟩

theorem fits_event {e : SongEvent} {length : Nat}
    (h : event data lead i = .ok (e, length)) : e.Fits := by
  unfold event at h
  split at h
  · obtain ⟨⟨a, b⟩, -, hnote⟩ := bind_eq_ok.mp h
    cases hnote
    exact fits_longNote lead a b
  · obtain ⟨⟨a, b⟩, -, hnote⟩ := bind_eq_ok.mp h
    cases hnote
    exact fits_shortNote lead a
  · split at h
    · obtain ⟨⟨v, b⟩, -, hwheel⟩ := bind_eq_ok.mp h
      cases hwheel
      exact fits_wheel lead v
    · cases h
  · cases h

theorem fits_item {x : SongItem} (h : item data i = .ok (some (x, j))) : x.Fits := by
  unfold item at h
  split at h
  · cases h
  next lead _ =>
    split at h
    · cases h
    next hzero =>
      split at h
      next hdelay =>
        cases h
        exact ⟨UInt8.pos_iff_ne_zero.mpr hzero, hdelay⟩
      next =>
        obtain ⟨⟨e, length⟩, hevent, hrest⟩ := bind_eq_ok.mp h
        dsimp only at hrest
        split at hrest
        · cases hrest
        · cases hrest
          exact fits_event hevent

end Song

namespace Player

theorem ofSong_eventOf (p : Player) {e : SongEvent} (h : e.Fits) : (p.eventOf e).OfSong := by
  cases e with
  | note channel key velocity units =>
    obtain ⟨hchannel, hkey, hvelocity, -⟩ := h
    refine ⟨hchannel, .inl rfl, hkey, hvelocity, ?_⟩
    show 0 ≤ p.durationFrames units
    unfold durationFrames
    omega
  | wheel channel position =>
    have hlow := word_and_lt position 0x7f (n := 128) (by decide)
    have hhigh : ((position &&& 0x3fff) >>> 7).toNat = (position &&& 0x3fff).toNat / 2 ^ 7 := by
      rw [UInt16.toNat_shiftRight, Nat.shiftRight_eq_div_pow]
      rfl
    have hword := word_and_lt position 0x3fff (n := 0x4000) (by decide)
    refine ⟨h.1, .inr rfl, ?_, ?_, Int.le_refl 0⟩
    · show (position &&& 0x7f).toUInt8.toNat < 128
      rw [UInt16.toNat_toUInt8]
      omega
    · show ((position &&& 0x3fff) >>> 7).toUInt8.toNat < 128
      rw [UInt16.toNat_toUInt8]
      omega

theorem step_ofSong {p after : Player} {skip : Bool} {e : Event}
    (h : p.step skip = (.ok (.event e), after)) : e.OfSong := by
  fun_induction step p skip with
  | case1 p hpending => simp at h
  | case2 p hpending err hitem => simp at h
  | case3 p hpending hitem hrepeats => simp at h
  | case4 p hpending hitem hrepeats => simp at h
  | case5 p hpending ms next hitem => simp at h
  | case6 p hpending found next hitem _ ih => exact ih h
  | case7 p hpending found next hitem hplay =>
    simp only [Prod.mk.injEq, Except.ok.injEq, SongStep.event.injEq] at h
    obtain ⟨rfl, -⟩ := h
    exact ofSong_eventOf p (Song.fits_item hitem)

theorem update_ofSong (p : Player) (skip : Bool) : ∀ e ∈ (p.update skip).1.events, e.OfSong := by
  fun_induction update p skip with
  | case1 p e after hstep arrival last hrest ih =>
    rw [hrest] at ih
    intro e' he'
    rcases List.mem_cons.mp he' with rfl | he'
    · exact step_ofSong hstep
    · exact ih e' he'
  | case2 | case3 | case4 =>
    intro e he
    cases he

end Player

namespace Synth

/-! ### Steps of updates -/

/-- Whether a step can be one of a song's turn: its events are those of a song, and it sets up no
channel but those of songs. -/
def Step.OfTurn : Step → Prop
  | .event e => e.OfSong
  | .setUp i _ => i.val < songChannels
  | .endSong | .takeOver _ | .turn | .advance _ => True
  | _ => False

/-- Whether a step can be one of an update: its events are those of a song, and it sets up no channel
but those of songs. -/
def Step.OfUpdate : Step → Prop
  | .event e => e.OfSong
  | .setUp i _ => i.val < songChannels
  | .endSong | .takeOver _ | .begin _ | .turn | .advance _ | .stretch _ | .finish => True
  | _ => False

theorem Step.OfTurn.ofUpdate {σ : Step} (h : σ.OfTurn) : σ.OfUpdate := by
  cases σ with
  | event e => exact h
  | setUp i record => exact h
  | endSong | takeOver | turn | advance => trivial
  | _ => cases h

theorem ofTurn_takeOver (song : Option Player) : ∀ σ ∈ takeOverSteps song, σ.OfTurn := by
  intro σ hσ
  rcases List.mem_cons.mp hσ with rfl | hσ
  · trivial
  · cases song with
    | none => cases hσ
    | some p =>
      obtain ⟨i, hi, rfl⟩ := List.mem_map.mp hσ
      have hlow : i.val < songChannels := of_decide_eq_true (List.mem_filter.mp hi).2
      exact hlow

theorem ofTurn_turn (s : Synth) (n : SomeFrames) : ∀ σ ∈ s.turnSteps n, σ.OfTurn := by
  intro σ hσ
  unfold turnSteps at hσ
  split at hσ
  next p _ =>
    rcases List.mem_append.mp hσ with hσ | hσ
    · rcases List.mem_cons.mp hσ with rfl | hσ
      · trivial
      · obtain ⟨e, he, rfl⟩ := List.mem_map.mp hσ
        exact p.update_ofSong false e he
    · split at hσ
      · cases List.mem_singleton.mp hσ
        trivial
      · cases List.mem_singleton.mp hσ
        trivial
  next =>
    split at hσ
    · split at hσ
      · cases hσ
      · exact ofTurn_takeOver _ σ hσ
    · cases hσ

theorem ofUpdate_mono (s : Synth) (n : Nat) : ∀ σ ∈ s.monoSteps n, σ.OfUpdate := by
  fun_induction monoSteps s n with
  | case1 s n h len t hprepare ih =>
    intro σ hσ
    rcases List.mem_append.mp hσ with hσ | hσ
    · exact (ofTurn_turn s ⟨n, h⟩ σ hσ).ofUpdate
    · rcases List.mem_cons.mp hσ with rfl | hσ
      · trivial
      · exact ih σ hσ
  | case2 s n h =>
    intro σ hσ
    cases hσ

theorem ofUpdate_passes (limit : SomeFrames) (s : Synth) (samples : Nat) :
    ∀ σ ∈ passesSteps limit s samples, σ.OfUpdate := by
  fun_induction passesSteps limit s samples with
  | case1 s samples h n ih =>
    intro σ hσ
    rcases List.mem_append.mp hσ with hσ | hσ
    · exact ofUpdate_mono s _ σ hσ
    · exact ih σ hσ
  | case2 s samples h =>
    intro σ hσ
    cases hσ

theorem ofUpdate_render (s : Synth) (samples : Nat) : ∀ σ ∈ s.renderSteps samples, σ.OfUpdate := by
  intro σ hσ
  rcases List.mem_cons.mp hσ with rfl | hσ
  · trivial
  · rcases List.mem_append.mp hσ with hσ | hσ
    · exact ofUpdate_passes _ _ samples σ hσ
    · cases List.mem_singleton.mp hσ
      trivial

theorem ofUpdate_wordPasses (limit : SomeFrames) (s : Synth) (samples : Nat) :
    ∀ σ ∈ wordPassesSteps limit s samples, σ.OfUpdate := by
  fun_induction wordPassesSteps limit s samples with
  | case1 s samples h n ih =>
    intro σ hσ
    rcases List.mem_append.mp hσ with hσ | hσ
    · exact ofUpdate_render s n σ hσ
    · exact ih σ hσ
  | case2 s samples h =>
    intro σ hσ
    cases hσ

/-! ### The caller's channels -/

/-- Whether the caller's channels and their programs are the same in two synthesizers. -/
def SameCaller (s t : Synth) : Prop :=
  ∀ i : Fin channelCount, songChannels ≤ i.val →
    t.channels.get i = s.channels.get i ∧ t.programs.get i = s.programs.get i

namespace SameCaller

variable {s t u : Synth} {i : Fin channelCount}

theorem refl (s : Synth) : s.SameCaller s := fun _ _ => ⟨rfl, rfl⟩

theorem trans (h : s.SameCaller t) (h' : t.SameCaller u) : s.SameCaller u := fun i hi =>
  ⟨(h' i hi).1.trans (h i hi).1, (h' i hi).2.trans (h i hi).2⟩

theorem of_sounds (h : s.SoundsOnly t) : s.SameCaller t := by
  obtain ⟨shelf, cache, printers, playbacks, rfl⟩ := h
  exact .refl s

theorem set_channel (h : s.SameCaller t) (hi : i.val < songChannels) (c : Option Channel) :
    s.SameCaller { t with channels := t.channels.set i c i.isLt } := by
  refine h.trans fun j hj => ⟨get_set_ne _ _ ?_, rfl⟩
  rintro rfl
  omega

theorem set_program (h : s.SameCaller t) (hi : i.val < songChannels) (word : UInt32) :
    s.SameCaller { t with programs := t.programs.set i word i.isLt } := by
  refine h.trans fun j hj => ⟨rfl, get_set_ne _ _ ?_⟩
  rintro rfl
  omega

theorem instantiate (s : Synth) (hi : i.val < songChannels) : s.SameCaller (s.instantiate i) := by
  unfold Synth.instantiate
  split
  · exact .refl s
  next c _ =>
    have hracks : ∀ racks, s.SameCaller { s with racks } := fun _ => .refl s
    exact (hracks _).set_channel hi (some c)

theorem withChannel (s : Synth) (hi : i.val < songChannels) {act : Synth → Channel → Synth}
    (hact : ∀ (t : Synth) (c : Channel), t.SameCaller (act t c)) :
    s.SameCaller (s.withChannel i act) := by
  have hensure : s.SameCaller (s.ensureChannel i) := by
    unfold ensureChannel
    split
    · exact .refl s
    · exact instantiate s hi
  unfold Synth.withChannel
  dsimp only
  split
  · exact hensure.trans (hact _ _)
  · exact hensure

theorem startNote (s : Synth) (c : Channel) (note velocity : UInt8) (duration : Int) :
    s.SameCaller (s.startNote c note velocity duration) := by
  unfold Synth.startNote
  split
  · exact of_sounds (playSound_sounds s _ _)
  · exact .refl s
  · split
    · exact .refl s
    · exact .refl s

theorem moveWheel (s : Synth) (hi : i.val < songChannels) (c : Channel) (position : UInt16) :
    s.SameCaller (s.moveWheel i c position) := by
  unfold Synth.moveWheel
  split
  · exact .refl s
  · generalize c.setWheel position = moved
    obtain ⟨bend, moved⟩ := moved
    have hset := (SameCaller.refl s).set_channel hi (some moved)
    dsimp only
    split
    · exact hset
    · exact hset
    · exact hset

theorem controlChannel (s : Synth) (hi : i.val < songChannels) (c : Channel) (key value : UInt8) :
    s.SameCaller (s.controlChannel i c key value) := by
  have hset := (SameCaller.refl s).set_channel hi (some (c.control key value))
  unfold Synth.controlChannel
  dsimp only
  split
  · exact hset
  · exact hset

theorem dispatch (s : Synth) {e : Event} (h : e.OfSong) : s.SameCaller (s.dispatch e) := by
  have hindex : ∀ act : Fin channelCount → Synth,
      (∀ i : Fin channelCount, i.val < songChannels → s.SameCaller (act i)) →
        s.SameCaller (s.onChannel e.channel act) := by
    intro act hact
    unfold onChannel channelIndex?
    split
    next i hi =>
      split at hi
      · cases hi
        exact hact _ h.channel
      · cases hi
    · exact .refl s
  unfold Synth.dispatch
  rcases h.action with haction | haction
  · rw [haction]
    exact hindex _ fun i hi => withChannel s hi fun t c => startNote t c e.a e.b e.duration
  · rw [haction]
    exact hindex _ fun i hi => withChannel s hi fun t c => moveWheel t hi c _

theorem setUpChannel (s : Synth) (hi : i.val < songChannels) (r : ChannelRecord) :
    s.SameCaller (s.setUpChannel i r) := by
  have hprogram := (SameCaller.refl s).set_program hi r.program.toUInt32
  have hheader : ∀ (t : Synth) (key value : UInt8),
      t.SameCaller (t.headerControl i key value) := fun t key value =>
    withChannel t hi fun t c => controlChannel t hi c key value
  unfold Synth.setUpChannel
  dsimp only
  split
  · exact hprogram
  · exact hprogram.trans ((instantiate _ hi).trans ((hheader _ _ _).trans (hheader _ _ _)))

theorem clearSongChannels (s : Synth) : s.SameCaller s.clearSongChannels := fun i hi =>
  ⟨by rw [channels_clearSongChannels, if_neg (Nat.not_lt.mpr hi)], rfl⟩

theorem endSong (s : Synth) : s.SameCaller s.endSong := by
  unfold Synth.endSong
  split
  · exact .refl s
  · intro i hi
    refine ⟨rfl, (Vector.getElem_mapIdx i.isLt).trans ?_⟩
    rw [if_neg (Nat.not_lt.mpr hi)]
    rfl

end SameCaller

theorem Step.OfUpdate.sameCaller {σ : Step} (h : σ.OfUpdate) (s : Synth) :
    s.SameCaller (σ.run s) := by
  cases σ with
  | event e => exact .dispatch s h
  | setUp i record => exact .setUpChannel s h record
  | endSong => exact .endSong s
  | takeOver song => exact .clearSongChannels { s with song, pending := none }
  | begin | turn | advance | stretch | finish => exact .refl s
  | _ => cases h

theorem sameCaller_takes {steps : List Step} (h : ∀ σ ∈ steps, σ.OfUpdate) (m : Moment) :
    m.synth.SameCaller (m.takes steps).synth := by
  induction steps generalizing m with
  | nil => exact .refl _
  | cons σ steps ih =>
    have hfirst : m.synth.SameCaller (m.take σ).synth := (h σ List.mem_cons_self).sameCaller _
    exact hfirst.trans (ih (fun τ hτ => h τ (List.mem_cons_of_mem σ hτ)) (m.take σ))

def Call.IsUpdate : Call → Prop
  | .render _ | .renderWords _ => True
  | _ => False

theorem Call.IsUpdate.steps {c : Call} (h : c.IsUpdate) (s : Synth) :
    ∀ σ ∈ s.steps c, σ.OfUpdate := by
  cases c with
  | render samples => exact ofUpdate_render s samples
  | renderWords samples => exact ofUpdate_wordPasses _ s samples
  | _ => cases h

/-- Songs cannot reach the caller's channels. Whatever the bytes of a song and wherever in them it
is read, it yields only bounded notes and wheel positions, with operands of seven bits, on the first
eight channels; and whatever song plays or waits, updates leave the other channels and their
programs as they are. -/
theorem songs_spare_callers :
    (∀ (p after : Player) (skip : Bool) (e : Event), p.step skip = (.ok (.event e), after) →
        e.OfSong)
      ∧ ∀ (s : Synth) (calls : List Call), (∀ c ∈ calls, c.IsUpdate) →
        ∀ i : Fin channelCount, songChannels ≤ i.val →
          (calls.foldl apply s).channels.get i = s.channels.get i
            ∧ (calls.foldl apply s).programs.get i = s.programs.get i := by
  refine ⟨fun p after skip e hstep => Player.step_ofSong hstep, ?_⟩
  intro s calls hcalls
  show s.SameCaller (calls.foldl apply s)
  induction calls generalizing s with
  | nil => exact .refl s
  | cons c calls ih =>
    have hfirst := sameCaller_takes ((hcalls c List.mem_cons_self).steps s) { synth := s }
    rw [← (passage_steps s c).eq_takes] at hfirst
    exact hfirst.trans (ih (s.apply c) fun c' hc' => hcalls c' (List.mem_cons_of_mem c hc'))

/-- A caller that has made its tenth channel and plays a song. -/
def sharedSynth : Synth :=
  [Call.message (.event ⟨9, Event.opControl, controlVolume, 100, 0⟩),
    .playSongBytes wheelSong true].foldl apply (ofFormat .standard)

theorem songs_spare_callers_sharedSynth :
    (∃ p after, sharedSynth.song = some p
        ∧ p.step false = (.ok (.event (Event.wheel 0 0x1000)), after))
      ∧ (Event.wheel 0 0x1000).OfSong
      ∧ (sharedSynth.channels.get 0).isSome = false
      ∧ (([Call.render 16, .renderWords 7].foldl apply sharedSynth).channels.get 0).isSome = true
      ∧ (sharedSynth.channels.get 9).isSome = true
      ∧ ([Call.render 16, .renderWords 7].foldl apply sharedSynth).channels.get 9
        = sharedSynth.channels.get 9 := by
  have hsong : sharedSynth.song.map (fun p => (p.song.data, p.offset, p.delay))
      = some (wheelSong.toArray, 42, 0) := by
    decide +kernel
  obtain ⟨p, hp, hplace⟩ := Option.map_eq_some_iff.mp hsong
  simp only [Prod.mk.injEq] at hplace
  obtain ⟨hdata, hoffset, hdelay⟩ := hplace
  have hitem : Song.item p.song.data p.offset
      = .ok (some (.event (.wheel 0 0x1000), 44)) := by
    rw [hdata, hoffset]
    rfl
  have hstep : p.step false = (.ok (.event (Event.wheel 0 0x1000)), { p with offset := 44 }) := by
    rw [Player.step_eq, dif_neg (by omega), hitem]
    rfl
  have hupdates : ∀ c ∈ [Call.render 16, Call.renderWords 7], c.IsUpdate := by
    intro c hc
    rcases List.mem_cons.mp hc with rfl | hc
    · trivial
    · cases List.mem_singleton.mp hc
      trivial
  refine ⟨⟨p, _, hp, hstep⟩, songs_spare_callers.1 p _ false _ hstep, by decide +kernel,
    by decide +kernel, by decide +kernel, ?_⟩
  exact (songs_spare_callers.2 sharedSynth _ hupdates 9 (by decide)).1

end Synth

end Tonewheel
