import Tonewheel.Proofs.Synth.Events

/-!
# How songs come and go (SPEC_FULL, section 4.6)

A song comes by the step `takeOver` and goes by the step `endSong`; all other steps keep what plays
(`Step.keepsSong`). In the steps of calls a song that takes over has its channels set up at once, and
a song that is made to wait is followed by the end of the one that plays (`Whole`). So no song plays
while another waits but right before that end, nothing of the last song sounds when a song comes,
its programs are then those of its header, and they are zero when it has gone
(`songs_change_hands`).
-/

namespace Tonewheel.Synth

/-! ### Programs -/

theorem programs_withChannel (s : Synth) (i : Fin channelCount) (act : Synth → Channel → Synth)
    (h : ∀ (t : Synth) (c : Channel), (act t c).programs = t.programs) :
    (s.withChannel i act).programs = s.programs := by
  have hensure : (s.ensureChannel i).programs = s.programs := by
    unfold ensureChannel instantiate
    split
    · rfl
    · split <;> rfl
  unfold withChannel
  dsimp only
  split
  · rw [h, hensure]
  · exact hensure

theorem programs_setUpChannel (s : Synth) (i : Fin channelCount) (r : ChannelRecord) :
    (s.setUpChannel i r).programs = s.programs.set i r.program.toUInt32 i.isLt := by
  have hheader : ∀ (t : Synth) (key value : UInt8),
      (t.headerControl i key value).programs = t.programs := by
    intro t key value
    refine programs_withChannel t i _ fun u c => ?_
    unfold controlChannel
    dsimp only
    split <;> rfl
  unfold setUpChannel
  dsimp only
  split
  · rfl
  · rw [hheader, hheader]
    unfold instantiate
    split <;> rfl

theorem programs_setUps (record : Fin channelCount → ChannelRecord) (is : List (Fin channelCount))
    (s : Synth) (i : Fin channelCount) :
    (i ∈ is → (is.foldl (fun s j => s.setUpChannel j (record j)) s).programs.get i
        = (record i).program.toUInt32)
      ∧ (i ∉ is → (is.foldl (fun s j => s.setUpChannel j (record j)) s).programs.get i
        = s.programs.get i) := by
  induction is generalizing s with
  | nil => exact ⟨fun hi => absurd hi List.not_mem_nil, fun _ => rfl⟩
  | cons j is ih =>
    obtain ⟨hset, hkept⟩ := ih (s.setUpChannel j (record j))
    rw [List.foldl_cons]
    refine ⟨fun hi => ?_, fun hi => ?_⟩
    · by_cases hrest : i ∈ is
      · exact hset hrest
      · obtain rfl : i = j := (List.mem_cons.mp hi).resolve_right hrest
        rw [hkept hrest, programs_setUpChannel, get_set_self]
    · have hne : i ≠ j := fun hij => hi (hij ▸ List.mem_cons_self)
      rw [hkept fun hrest => hi (List.mem_cons_of_mem j hrest), programs_setUpChannel,
        get_set_ne _ _ hne]

theorem mem_songIndices {i : Fin channelCount} (h : i.val < songChannels) : i ∈ songIndices :=
  List.mem_filter.mpr ⟨List.mem_finRange i, decide_eq_true h⟩

theorem programs_welcomeSong {s : Synth} {p : Player} (hsong : s.song = some p)
    {i : Fin channelCount} (hi : i.val < songChannels) :
    s.welcomeSong.programs.get i = (p.song.record i.val).program.toUInt32 := by
  have hclear : s.clearSongChannels.song = some p := hsong
  have hset := (programs_setUps (fun j => p.song.record j.val) songIndices s.clearSongChannels i).1
    (mem_songIndices hi)
  unfold welcomeSong
  dsimp only
  rw [hclear]
  exact hset

theorem programs_endSong {s : Synth} (hsong : s.song.isSome) {i : Fin channelCount}
    (hi : i.val < songChannels) : s.endSong.programs.get i = 0 := by
  obtain ⟨p, hp⟩ := Option.isSome_iff_exists.mp hsong
  unfold endSong
  rw [hp]
  exact (Vector.getElem_mapIdx i.isLt).trans (if_pos hi)

/-! ### What a step does to the song that plays -/

def Step.ChangesSong : Step → Prop
  | .endSong | .takeOver _ => True
  | _ => False

theorem Step.keepsSong {σ : Step} (h : ¬σ.ChangesSong) (s : Synth) :
    (σ.run s).song.isSome = s.song.isSome := by
  cases σ with
  | event e => exact congrArg Option.isSome (song_of_tracks (tracks_dispatch s e))
  | playSound key trim => exact congrArg Option.isSome (song_of_tracks (tracks_playSound s key trim))
  | playSoundBytes bytes trim =>
    exact congrArg Option.isSome (song_of_tracks (tracks_playSoundBytes s bytes trim))
  | setUp i record => exact congrArg Option.isSome (song_of_tracks (tracks_setUpChannel s i record))
  | seek beats =>
    show (s.seek beats).song.isSome = _
    unfold Synth.seek
    split
    next => rfl
    next hsong => rw [hsong]; rfl
    next => rfl
  | turn => exact Option.isSome_map
  | advance frames => exact Option.isSome_map
  | endSong | takeOver => exact absurd trivial h
  | _ => rfl

def Step.IsWait : Step → Prop
  | .wait _ => True
  | _ => False

theorem Alone.step {s : Synth} (hs : s.Alone) {σ : Step} (h : ¬σ.IsWait) : (σ.run s).Alone := by
  cases σ with
  | event e => exact .of_tracks (tracks_dispatch s e) hs
  | playSound key trim => exact .of_tracks (tracks_playSound s key trim) hs
  | playSoundBytes bytes trim => exact .of_tracks (tracks_playSoundBytes s bytes trim) hs
  | setUp i record => exact .of_tracks (tracks_setUpChannel s i record) hs
  | seek beats => exact hs.seek beats
  | endSong => exact alone_endSong s
  | takeOver song => exact .inr rfl
  | turn => exact hs.imp_left fun hsong => by rw [Step.run, hsong]; rfl
  | advance frames => exact hs.imp_left fun hsong => by rw [Step.run, advanceSong, hsong]; rfl
  | wait song => exact absurd trivial h
  | _ => exact hs

/-! ### Phrases -/

def Step.phrase : Step → List Step
  | .takeOver song => takeOverSteps song
  | .wait song => [.wait song, .endSong]
  | σ => [σ]

def Whole (steps : List Step) : Prop :=
  ∀ (first : List Step) (σ : Step) (rest : List Step), steps = first ++ σ :: rest →
    ∃ more, σ :: rest = σ.phrase ++ more

namespace Whole

variable {steps more : List Step}

theorem nil : Whole [] := by
  intro first σ rest h
  cases first <;> cases h

theorem append (h : Whole steps) (h' : Whole more) : Whole (steps ++ more) := by
  intro first σ rest hsplit
  rcases List.append_eq_append_iff.mp hsplit with ⟨between, rfl, hmore⟩ | ⟨between, hsteps, hrest⟩
  · exact h' between σ rest hmore
  · cases between with
    | nil => exact h' [] σ rest hrest.symm
    | cons τ between =>
      obtain ⟨rfl, rfl⟩ := List.cons.inj hrest
      obtain ⟨last, hlast⟩ := h first σ between hsteps
      exact ⟨last ++ more, by rw [← List.append_assoc, ← hlast]; rfl⟩

theorem of_single (h : ∀ σ ∈ steps, σ.phrase = [σ]) : Whole steps := by
  intro first σ rest hsplit
  have hσ : σ ∈ steps := hsplit ▸ List.mem_append_right first List.mem_cons_self
  exact ⟨rest, by rw [h σ hσ, List.singleton_append]⟩

theorem one {σ : Step} (h : σ.phrase = [σ]) : Whole [σ] :=
  of_single fun τ hτ => by rw [List.mem_singleton.mp hτ, h]

/-- A phrase that begins with its step, all others needing nothing after them. -/
theorem phrase {σ : Step} {rest : List Step} (hphrase : σ.phrase = σ :: rest)
    (hrest : ∀ τ ∈ rest, τ.phrase = [τ]) : Whole (σ :: rest) := by
  intro first τ last hsplit
  cases first with
  | nil =>
    obtain ⟨rfl, rfl⟩ := List.cons.inj hsplit
    exact ⟨[], by rw [hphrase, List.append_nil]⟩
  | cons σ' first =>
    obtain ⟨rfl, rfl⟩ := List.cons.inj hsplit
    exact of_single hrest first τ last rfl

theorem takeOver (song : Option Player) : Whole (takeOverSteps song) := by
  refine phrase rfl fun τ hτ => ?_
  cases song with
  | none => cases hτ
  | some p =>
    obtain ⟨i, -, rfl⟩ := List.mem_map.mp hτ
    rfl

theorem wait (song : Option Player) : Whole [.wait song, .endSong] :=
  phrase rfl fun τ hτ => by rw [List.mem_singleton.mp hτ]; rfl

theorem install (s : Synth) (song : Option Player) : Whole (s.installSteps song) := by
  unfold installSteps
  split
  · exact takeOver song
  · exact wait song

theorem playSong (s : Synth) (id : ResourceId) (force repeats : Bool) :
    Whole (s.playSongSteps id force repeats) := by
  unfold playSongSteps
  split
  · exact nil
  · split
    · exact install s none
    · exact install s none
    · split
      · exact install s _
      · exact nil

theorem playSongBytes (s : Synth) (bytes : Bytes) (repeats : Bool) :
    Whole (s.playSongBytesSteps bytes repeats) := by
  unfold playSongBytesSteps
  split
  · exact wait none
  · split
    · exact install s _
    · exact nil

theorem message (s : Synth) (m : Message) : Whole (s.messageSteps m) := by
  cases m with
  | playSong id force repeats => exact playSong s id force repeats
  | _ => exact one rfl

theorem turn (s : Synth) (n : SomeFrames) : Whole (s.turnSteps n) := by
  unfold turnSteps
  split
  next p _ =>
    refine append (of_single fun σ hσ => ?_) ?_
    · rcases List.mem_cons.mp hσ with rfl | hσ
      · rfl
      · obtain ⟨e, -, rfl⟩ := List.mem_map.mp hσ
        rfl
    · split
      · exact one rfl
      · exact one rfl
  next =>
    split
    · split
      · exact nil
      · exact takeOver _
    · exact nil

theorem mono (s : Synth) (n : Nat) : Whole (s.monoSteps n) := by
  fun_induction monoSteps s n with
  | case1 s n h len t hprepare ih => exact (turn s ⟨n, h⟩).append ((one rfl).append ih)
  | case2 s n h => exact nil

theorem passes (limit : SomeFrames) (s : Synth) (samples : Nat) :
    Whole (passesSteps limit s samples) := by
  fun_induction passesSteps limit s samples with
  | case1 s samples h n ih => exact (mono s _).append ih
  | case2 s samples h => exact nil

theorem render (s : Synth) (samples : Nat) : Whole (s.renderSteps samples) :=
  (one rfl).append ((passes _ _ samples).append (one rfl))

theorem wordPasses (limit : SomeFrames) (s : Synth) (samples : Nat) :
    Whole (wordPassesSteps limit s samples) := by
  fun_induction wordPassesSteps limit s samples with
  | case1 s samples h n ih => exact (render s n).append ih
  | case2 s samples h => exact nil

theorem call (s : Synth) (c : Call) : Whole (s.steps c) := by
  cases c with
  | message m => exact message s m
  | playSongBytes bytes repeats => exact playSongBytes s bytes repeats
  | render samples => exact render s samples
  | renderWords samples => exact wordPasses _ s samples
  | _ => exact one rfl

theorem history (s : Synth) (calls : List Call) : Whole (s.history calls) := by
  induction calls generalizing s with
  | nil => exact nil
  | cons c calls ih => exact (call s c).append (ih (s.apply c))

theorem drop (h : Whole steps) {k : Nat} {σ : Step} (hk : steps[k]? = some σ) :
    ∃ more, steps.drop k = σ.phrase ++ more := by
  obtain ⟨hlt, hget⟩ := List.getElem?_eq_some_iff.mp hk
  have hdrop : steps.drop k = σ :: steps.drop (k + 1) := by
    rw [List.drop_eq_getElem_cons hlt, hget]
  have hsplit : steps = steps.take k ++ σ :: steps.drop (k + 1) := by
    rw [← hdrop, List.take_append_drop]
  obtain ⟨more, hmore⟩ := h _ σ _ hsplit
  exact ⟨more, hdrop.trans hmore⟩

end Whole

/-! ### Moments -/

namespace Moment

variable {format : Format} {calls : List Call} {k : Nat}

theorem after_add (n : Nat) :
    after format calls (k + n)
      = (after format calls k).takes ((((ofFormat format).history calls).drop k).take n) := by
  rw [after, List.take_add, takes_append]
  rfl

theorem after_phrase {σ : Step} (h : ((ofFormat format).history calls)[k]? = some σ) :
    after format calls (k + σ.phrase.length) = (after format calls k).takes σ.phrase := by
  obtain ⟨more, hdrop⟩ := (Whole.history (ofFormat format) calls).drop h
  rw [after_add, hdrop, List.take_left]

/-- A song plays while another waits only right before its end. -/
theorem alone_or_ends (format : Format) (calls : List Call) (k : Nat) :
    (after format calls k).synth.Alone
      ∨ ((ofFormat format).history calls)[k]? = some .endSong := by
  induction k with
  | zero => exact .inl (.inl rfl)
  | succ k ih =>
    cases hnext : ((ofFormat format).history calls)[k]? with
    | none =>
      rcases ih with ih | ih
      · rw [after_end hnext]
        exact .inl ih
      · rw [hnext] at ih
        cases ih
    | some σ =>
      obtain ⟨-, htake⟩ := after_succ hnext
      rw [htake]
      rcases ih with ih | ih
      · by_cases hwait : σ.IsWait
        · cases σ with
          | wait song =>
            obtain ⟨more, hdrop⟩ := (Whole.history (ofFormat format) calls).drop hnext
            have hend : (((ofFormat format).history calls).drop k)[1]? = some .endSong := by
              rw [hdrop]
              rfl
            rw [List.getElem?_drop] at hend
            exact .inr hend
          | _ => cases hwait
        · exact .inl (ih.step hwait)
      · obtain rfl : σ = .endSong := Option.some.inj (hnext.symm.trans ih)
        exact .inl (alone_endSong _)

/-- A song comes by taking over, when nothing of the last one sounds. -/
theorem comes {p : Player} (hbefore : (after format calls k).synth.song = none)
    (hafter : (after format calls (k + 1)).synth.song = some p) :
    ((ofFormat format).history calls)[k]? = some (.takeOver (some p))
      ∧ (after format calls k).synth.hasSongVoices = false := by
  cases hnext : ((ofFormat format).history calls)[k]? with
  | none =>
    rw [after_end hnext, hbefore] at hafter
    cases hafter
  | some σ =>
    obtain ⟨allowed, htake⟩ := after_succ hnext
    rw [htake] at hafter
    change (σ.run _).song = some p at hafter
    by_cases hchange : σ.ChangesSong
    · cases σ with
      | endSong =>
        rw [Step.run, song_of_tracks (tracks_endSong _)] at hafter
        cases hafter
      | takeOver song =>
        obtain rfl : song = some p := hafter
        exact ⟨rfl, allowed.2⟩
      | _ => cases hchange
    · have hkeep := σ.keepsSong hchange (after format calls k).synth
      rw [hafter, hbefore] at hkeep
      cases hkeep

theorem goes (hbefore : (after format calls k).synth.song.isSome)
    (hafter : (after format calls (k + 1)).synth.song = none) :
    ((ofFormat format).history calls)[k]? = some .endSong := by
  cases hnext : ((ofFormat format).history calls)[k]? with
  | none =>
    rw [← after_end hnext, hafter] at hbefore
    cases hbefore
  | some σ =>
    obtain ⟨allowed, htake⟩ := after_succ hnext
    rw [htake] at hafter
    change (σ.run _).song = none at hafter
    by_cases hchange : σ.ChangesSong
    · cases σ with
      | endSong => rfl
      | takeOver song =>
        rw [allowed.1] at hbefore
        cases hbefore
      | _ => cases hchange
    · have hkeep := σ.keepsSong hchange (after format calls k).synth
      rw [hafter, hbefore] at hkeep
      cases hkeep

end Moment

theorem over_of_quiet {s : Synth} (h : s.hasSongVoices = false) :
    (∀ v ∈ s.voices.entries, v.origin = .song → v.isDefunct = true)
      ∧ ∀ r ∈ s.racks.entries, r.origin = .song → r.isDefunct = true := by
  simp only [hasSongVoices, Bool.or_eq_false_iff, List.any_eq_false, Voice.isSong, Rack.isSong,
    Bool.and_eq_true, Bool.not_eq_true', beq_iff_eq, not_and] at h
  exact ⟨fun v hv horigin => eq_true_of_ne_false fun hlive => h.1 v hv hlive horigin,
    fun r hr horigin => eq_true_of_ne_false fun hlive => h.2 r hr hlive horigin⟩

/-- The life of songs. After any calls a song plays only if none waits, and at no moment within them
do both but right before the end of the one that plays. When a song comes, all voices and racks of
songs are over, and as soon as its channels are set up, which are the very next steps, the programs
of songs are those of its header. When a song goes, they are zero. -/
theorem songs_change_hands (format : Format) (calls : List Call) :
    ((calls.foldl apply (ofFormat format)).song = none
        ∨ (calls.foldl apply (ofFormat format)).pending = none)
      ∧ ∀ k,
        (((Moment.after format calls k).synth.song = none
            ∨ (Moment.after format calls k).synth.pending = none)
          ∨ ((ofFormat format).history calls)[k]? = some .endSong)
        ∧ (∀ p, (Moment.after format calls k).synth.song = none →
            (Moment.after format calls (k + 1)).synth.song = some p →
            (∀ v ∈ (Moment.after format calls (k + 1)).synth.voices.entries,
                v.origin = .song → v.isDefunct = true)
              ∧ (∀ r ∈ (Moment.after format calls (k + 1)).synth.racks.entries,
                r.origin = .song → r.isDefunct = true)
              ∧ (∃ more, ((ofFormat format).history calls).drop k
                = takeOverSteps (some p) ++ more)
              ∧ (Moment.after format calls (k + 1 + songChannels)).synth.song = some p
              ∧ ∀ i : Fin channelCount, i.val < songChannels →
                (Moment.after format calls (k + 1 + songChannels)).synth.programs.get i
                  = (p.song.record i.val).program.toUInt32)
        ∧ ((Moment.after format calls k).synth.song.isSome →
            (Moment.after format calls (k + 1)).synth.song = none →
            ∀ i : Fin channelCount, i.val < songChannels →
              (Moment.after format calls (k + 1)).synth.programs.get i = 0) := by
  refine ⟨Reachable.alone ⟨format, calls, rfl⟩, fun k => ⟨Moment.alone_or_ends format calls k,
    ?_, ?_⟩⟩
  · intro p hbefore hafter
    obtain ⟨hstep, hquiet⟩ := Moment.comes hbefore hafter
    obtain ⟨-, htake⟩ := Moment.after_succ hstep
    obtain ⟨hvoices, hracks⟩ := over_of_quiet hquiet
    have hphrase := Moment.after_phrase hstep
    have hwelcome := passage_takeOver (Moment.after format calls k).synth
      (Moment.after format calls k).left (some p) hbefore hquiet
    have hsynth : (Moment.after format calls (k + 1 + songChannels)).synth
        = { (Moment.after format calls k).synth with
            song := some p, pending := none }.welcomeSong := by
      have hlength : k + 1 + songChannels = k + (takeOverSteps (some p)).length := by
        rw [takeOverSteps, List.length_cons, List.length_map]
        exact Nat.add_right_comm k 1 songChannels
      rw [hlength]
      exact congrArg Moment.synth (hphrase.trans hwelcome.eq_takes.symm)
    rw [htake, hsynth]
    refine ⟨hvoices, hracks, (Whole.history (ofFormat format) calls).drop hstep,
      song_of_tracks (tracks_welcomeSong _), fun i hi => programs_welcomeSong rfl hi⟩
  · intro hbefore hafter i hi
    have hstep := Moment.goes hbefore hafter
    obtain ⟨-, htake⟩ := Moment.after_succ hstep
    rw [htake]
    exact programs_endSong hbefore hi

/-- A song of 10 ms whose eight channels have the programs from 16 on. -/
def programSong : Bytes :=
  Song.signature ++ [0x01, 0xf4, 0x00, 0x2a, 0x00, 0x2a]
    ++ (List.range songChannels).flatMap (fun i => [16 + i.toUInt8, 0x00, 0x80, 0x00]) ++ [0x0a]

/-- One song plays, the other takes over within an update, and is ended by hand. -/
def relay : List Call :=
  [.playSongBytes wheelSong true, .playSongBytes programSong true, .render 16,
    .playSongBytes [] false]

theorem songs_change_hands_relay :
    ∃ p, (Moment.after .standard relay 12).synth.song = none
      ∧ (Moment.after .standard relay 13).synth.song = some p
      ∧ (Moment.after .standard relay 21).synth.programs.get 3 = 19
      ∧ (Moment.after .standard relay 24).synth.song.isSome
      ∧ (Moment.after .standard relay 25).synth.song = none
      ∧ (Moment.after .standard relay 25).synth.programs.get 3 = 0 := by
  have hprogram : (Moment.after .standard relay 13).synth.song.map
      (fun p => (p.song.record 3).program) = some 19 := by
    decide +kernel
  obtain ⟨p, hp, hrecord⟩ := Option.map_eq_some_iff.mp hprogram
  have hnone : (Moment.after .standard relay 12).synth.song = none :=
    Option.isNone_iff_eq_none.mp (by decide +kernel)
  have hlast : (Moment.after .standard relay 24).synth.song.isSome := by decide +kernel
  have hgone : (Moment.after .standard relay 25).synth.song = none :=
    Option.isNone_iff_eq_none.mp (by decide +kernel)
  obtain ⟨-, -, -, -, hprograms⟩ := ((songs_change_hands .standard relay).2 12).2.1 p hnone hp
  have hzero := ((songs_change_hands .standard relay).2 24).2.2 hlast hgone 3 (by decide)
  refine ⟨p, hnone, hp, ?_, hlast, hgone, hzero⟩
  have hset := hprograms 3 (by decide)
  have hvalue : (p.song.record 3).program.toUInt32 = 19 := congrArg UInt8.toUInt32 hrecord
  exact hset.trans hvalue

end Tonewheel.Synth
