import Tonewheel.Proofs.Pool
import Tonewheel.Proofs.Synth.Events
import Tonewheel.Proofs.Synth.Printers

/-!
# Printers keep ahead of playbacks

Every buffer on the shelf is the work of one printer, which is still in the list or has finished
(`PrintsAhead.buffers`). Printers run once for a whole update and playbacks stretch by stretch, so
what counts inside an update are the frames that it has left: a playback never gets further in them
than the printer of its buffer is now. A sound that starts in the middle of an update catches up with
all of it, so it is ahead as well.
-/

namespace Tonewheel

/-- What is true of a job in an update of some frames: its buffer is what it has printed, and it
has printed for the whole update. -/
structure PrintJob.OnTime (job : PrintJob) (shelf : Shelf) (rate : UInt32) (updating : Nat) :
    Prop where
  held : job.pcm.index < shelf.buffers.size
  printed : shelf.PrintedTo rate job.pcm job.printer
  ahead : min job.printer.length updating ≤ job.printer.cursor

theorem PrintJob.OnTime.extends {job : PrintJob} {shelf more : Shelf} {rate : UInt32}
    {updating : Nat} (h : job.OnTime shelf rate updating) (hmore : shelf.Extends more) :
    job.OnTime more rate updating := by
  obtain ⟨hheld, hread⟩ := hmore job.pcm h.held
  exact ⟨hheld, h.printed.of_read hread, h.ahead⟩

/-- What is true of a playback where `left` frames of the update are left: it does not get past the
cursor of a printer in them. -/
structure Playback.Covered (p : Playback) (shelf : Shelf) (printers : List PrintJob) (left : Nat) :
    Prop where
  held : p.pcm.index < shelf.buffers.size
  length : p.length = shelf.length p.pcm
  position : p.position ≤ p.length
  printed : ∀ job ∈ printers, job.pcm = p.pcm →
    min p.length (p.position + left) ≤ job.printer.cursor

theorem Playback.Covered.extends {p : Playback} {shelf more : Shelf} {printers : List PrintJob}
    {left : Nat} (h : p.Covered shelf printers left) (hmore : shelf.Extends more) {job : PrintJob}
    (hnew : shelf.buffers.size ≤ job.pcm.index) : p.Covered more (printers ++ [job]) left := by
  obtain ⟨hheld, hread⟩ := hmore p.pcm h.held
  refine ⟨hheld, ?_, h.position, fun job' hjob hsame => ?_⟩
  · rw [h.length, Shelf.length, Shelf.length, hread]
  · rcases List.mem_append.mp hjob with hjob | hjob
    · exact h.printed job' hjob hsame
    · rw [List.mem_singleton] at hjob
      subst hjob
      rw [hsame] at hnew
      exact absurd h.held (Nat.not_lt.mpr hnew)

namespace Synth

/-- Whether printers are ahead of playbacks where `left` frames of the update are left. -/
structure PrintsAhead (s : Synth) (left : Nat) : Prop where
  left_le : left ≤ s.updating
  distinct : (s.printers.map PrintJob.pcm).Nodup
  jobs : ∀ job ∈ s.printers, job.OnTime s.shelf s.format.rate s.updating
  buffers : ∀ pcm : PcmId, pcm.index < s.shelf.buffers.size → (∃ job ∈ s.printers, job.pcm = pcm)
    ∨ ∃ printer, s.shelf.PrintedTo s.format.rate pcm printer ∧ printer.isFinished = true
  cached : ∀ e ∈ s.cache.entries, e.pcm.index < s.shelf.buffers.size
  playbacks : ∀ p ∈ s.playbacks.entries, p.Covered s.shelf s.printers left

namespace PrintsAhead

variable {s t : Synth} {left : Nat}

theorem ofFormat (format : Format) : PrintsAhead (ofFormat format) 0 where
  left_le := Nat.le_refl 0
  distinct := .nil
  jobs job hjob := by cases hjob
  buffers pcm hpcm := by cases hpcm
  cached e he := by cases he
  playbacks p hp := by cases hp

theorem of_soundSide (h : s.PrintsAhead left) (hsame : t.soundSide = s.soundSide) :
    t.PrintsAhead left := by
  simp only [soundSide, Prod.mk.injEq] at hsame
  obtain ⟨hformat, hshelf, hcache, hprinters, hplaybacks, hupdating⟩ := hsame
  obtain ⟨hleft, hdistinct, hjobs, hbuffers, hcached, hcovered⟩ := h
  rw [← hprinters] at hdistinct hjobs hbuffers hcovered
  rw [← hshelf] at hjobs hbuffers hcached hcovered
  rw [← hformat] at hjobs hbuffers
  rw [← hupdating] at hleft hjobs
  rw [← hcache] at hcached
  rw [← hplaybacks] at hcovered
  exact ⟨hleft, hdistinct, hjobs, hbuffers, hcached, hcovered⟩

/-! ### Starting -/

theorem addJob (h : s.PrintsAhead left) {printer : Sound.Printer} {buffer : Block}
    (hmade : ∃ bytes first calls, Sound.Printer.make s.format.rate bytes = .ok first
      ∧ first.printed calls = (printer, buffer))
    (hahead : min printer.length s.updating ≤ printer.cursor) :
    { s with
      shelf := (s.shelf.add buffer).2
      printers := s.printers ++ [PrintJob.mk (s.shelf.add buffer).1 printer] }.PrintsAhead left := by
  have hsize := s.shelf.size_add buffer
  have hmore := Shelf.Extends.add s.shelf buffer
  have hnew : (s.shelf.add buffer).2.PrintedTo s.format.rate (s.shelf.add buffer).1 printer := by
    obtain ⟨bytes, first, calls, hmake, hprinted⟩ := hmade
    exact ⟨bytes, first, calls, hmake, by rw [Shelf.read_add_self, hprinted]⟩
  refine ⟨h.left_le, ?_, ?_, ?_, fun e he => (hmore e.pcm (h.cached e he)).1,
    fun p hp => (h.playbacks p hp).extends hmore (Nat.le_refl _)⟩
  · rw [List.map_append]
    refine List.nodup_append.mpr ⟨h.distinct, by simp, fun pcm hpcm new hnew => ?_⟩
    obtain ⟨job, hjob, rfl⟩ := List.mem_map.mp hpcm
    rw [List.map_singleton, List.mem_singleton] at hnew
    rintro rfl
    have hheld := (h.jobs job hjob).held
    rw [hnew] at hheld
    exact Nat.lt_irrefl _ hheld
  · intro job hjob
    rcases List.mem_append.mp hjob with hjob | hjob
    · exact (h.jobs job hjob).extends hmore
    · rw [List.mem_singleton] at hjob
      subst hjob
      refine ⟨?_, hnew, hahead⟩
      show s.shelf.buffers.size < (s.shelf.add buffer).2.buffers.size
      omega
  · intro pcm hpcm
    by_cases hold : pcm.index < s.shelf.buffers.size
    · refine (h.buffers pcm hold).imp ?_ ?_
      · rintro ⟨job, hjob, hsame⟩
        exact ⟨job, List.mem_append_left _ hjob, hsame⟩
      · rintro ⟨p, hp, hfinished⟩
        exact ⟨p, hp.of_read (hmore pcm hold).2, hfinished⟩
    · have hlast : pcm.index < (s.shelf.add buffer).2.buffers.size := hpcm
      have hindex : s.shelf.buffers.size = pcm.index := by omega
      exact .inl ⟨_, List.mem_append_right _ List.mem_cons_self, congrArg PcmId.mk hindex⟩

theorem startPrinter (h : s.PrintsAhead left) (bytes : Bytes) :
    (s.startPrinter bytes).2.PrintsAhead left
      ∧ ∀ pcm, (s.startPrinter bytes).1 = some pcm →
        pcm.index < (s.startPrinter bytes).2.shelf.buffers.size := by
  unfold Synth.startPrinter
  split
  · exact ⟨h, fun pcm hpcm => by cases hpcm⟩
  next first hmake =>
    have hcaught : ∃ calls, (if 0 < s.updating then first.update first.emptyBuffer s.updating
          else (first, first.emptyBuffer)) = first.printed calls
        ∧ min (first.printed calls).1.length s.updating ≤ (first.printed calls).1.cursor := by
      have hfresh := (Sound.Printer.make_fresh hmake).1
      split
      · refine ⟨[s.updating], rfl, ?_⟩
        have hcursor := (first.update_cursor first.emptyBuffer s.updating (by omega)).1
        have hlength := first.update_length first.emptyBuffer s.updating
        show min (first.update first.emptyBuffer s.updating).1.length s.updating
          ≤ (first.update first.emptyBuffer s.updating).1.cursor
        omega
      · refine ⟨[], rfl, ?_⟩
        show min first.length s.updating ≤ first.cursor
        omega
    obtain ⟨calls, hcalls, hahead⟩ := hcaught
    rw [hcalls]
    generalize hprinted : first.printed calls = printed at hahead ⊢
    obtain ⟨printer, buffer⟩ := printed
    refine ⟨h.addJob ⟨bytes, first, calls, hmake, hprinted⟩ hahead, fun pcm hpcm => ?_⟩
    rw [Option.some.injEq] at hpcm
    rw [← hpcm]
    show s.shelf.buffers.size < (s.shelf.add buffer).2.buffers.size
    rw [Shelf.size_add]
    exact Nat.lt_succ_self _

theorem startPlayback (h : s.PrintsAhead left) {pcm : PcmId}
    (hheld : pcm.index < s.shelf.buffers.size) (trim : Float32) :
    (s.startPlayback pcm trim).PrintsAhead left := by
  have hnew : (Playback.ofBuffer s.shelf pcm trim).Covered s.shelf s.printers left := by
    refine ⟨hheld, rfl, Nat.zero_le _, fun job hjob hsame => ?_⟩
    have honTime := h.jobs job hjob
    have hlength : s.shelf.length pcm = job.printer.length :=
      (congrArg s.shelf.length hsame.symm).trans honTime.printed.fits.1
    have hahead := honTime.ahead
    have hleft := h.left_le
    show min (s.shelf.length pcm) (0 + left) ≤ job.printer.cursor
    omega
  refine ⟨h.left_le, h.distinct, h.jobs, h.buffers, h.cached, fun p hp => ?_⟩
  rcases Pool.mem_place hp with hp | rfl
  · exact h.playbacks p hp
  · exact hnew

theorem obtainSound (h : s.PrintsAhead left) (key : SoundKey) :
    (s.obtainSound key).2.PrintsAhead left
      ∧ ∀ pcm, (s.obtainSound key).1 = some pcm →
        pcm.index < (s.obtainSound key).2.shelf.buffers.size := by
  unfold Synth.obtainSound
  split
  next found hfind =>
    refine ⟨h, fun pcm hpcm => ?_⟩
    obtain ⟨e, he, hsame⟩ := Cache.mem_of_find? hfind
    rw [Option.some.injEq] at hpcm
    rw [← hpcm, ← hsame]
    exact h.cached e he
  · split
    · exact ⟨h, fun pcm hpcm => by cases hpcm⟩
    next bytes _ =>
      obtain ⟨hstarted, hheld⟩ := h.startPrinter bytes
      generalize s.startPrinter bytes = started at hstarted hheld
      obtain ⟨found, t⟩ := started
      cases found with
      | none => exact ⟨hstarted, hheld⟩
      | some pcm =>
        refine ⟨⟨hstarted.left_le, hstarted.distinct, hstarted.jobs, hstarted.buffers,
          fun e he => ?_, hstarted.playbacks⟩, hheld⟩
        rcases Cache.mem_add he with he | hsame
        · exact hstarted.cached e he
        · rw [hsame]
          exact hheld pcm rfl

theorem playObtained {found : Option PcmId × Synth} (trim : Float32)
    (h : found.2.PrintsAhead left)
    (hheld : ∀ pcm, found.1 = some pcm → pcm.index < found.2.shelf.buffers.size) :
    (playObtained trim found).PrintsAhead left := by
  obtain ⟨pcm, t⟩ := found
  cases pcm with
  | none => exact h
  | some pcm => exact h.startPlayback (hheld pcm rfl) trim

theorem playSound (h : s.PrintsAhead left) (key : SoundKey) (trim : Float32) :
    (s.playSound key trim).PrintsAhead left := by
  unfold Synth.playSound
  split
  · exact h
  · split
    next found _ => exact playObtained trim (h.obtainSound found).1 (h.obtainSound found).2
    next => exact h

theorem playSoundBytes (h : s.PrintsAhead left) (bytes : Bytes) (trim : Float32) :
    (s.playSoundBytes bytes trim).PrintsAhead left := by
  unfold Synth.playSoundBytes
  split
  · exact h
  · exact playObtained trim (h.startPrinter bytes).1 (h.startPrinter bytes).2

theorem eventClosed (left : Nat) : EventClosed fun s => s.PrintsAhead left :=
  eventClosed_of_soundSide (fun _ _ hsame h => h.of_soundSide hsame) fun _ key trim h =>
    h.playSound key trim

theorem clearCache (h : s.PrintsAhead left) : s.clearCache.PrintsAhead left where
  left_le := h.left_le
  distinct := .nil
  jobs job hjob := by cases hjob
  buffers pcm hpcm := by cases hpcm
  cached e he := by cases he
  playbacks p hp := by cases hp

/-! ### Updates -/

theorem read_beginUpdate (h : s.PrintsAhead left) (frames : Nat) {job : PrintJob}
    (hjob : job ∈ s.printers) :
    (s.beginUpdate frames).shelf.read job.pcm
      = (job.printer.update (s.shelf.read job.pcm) frames).2 :=
  runPrinters_read frames s.shelf h.distinct hjob (h.jobs job hjob).held

theorem printedTo_advanced (h : s.PrintsAhead left) (frames : Nat) {job : PrintJob}
    (hjob : job ∈ s.printers) :
    (s.beginUpdate frames).shelf.PrintedTo s.format.rate job.pcm
      (job.advanced s.shelf frames).printer := by
  obtain ⟨bytes, first, calls, hmake, hprinted⟩ := (h.jobs job hjob).printed
  refine ⟨bytes, first, calls ++ [frames], hmake, ?_⟩
  rw [Sound.Printer.printed_append, hprinted]
  exact Prod.ext rfl (h.read_beginUpdate frames hjob).symm

/-- Nothing changes before the place where the printer of a buffer was, nor its length. -/
theorem extract_beginUpdate (h : s.PrintsAhead left) (frames : Nat) (pcm : PcmId) (last : Nat)
    (hlast : ∀ job ∈ s.printers, job.pcm = pcm → last ≤ job.printer.cursor) :
    ((s.beginUpdate frames).shelf.read pcm).extract 0 last = (s.shelf.read pcm).extract 0 last
      ∧ (s.beginUpdate frames).shelf.length pcm = s.shelf.length pcm := by
  by_cases hjobs : ∃ job ∈ s.printers, job.pcm = pcm
  · obtain ⟨job, hjob, rfl⟩ := hjobs
    rw [Shelf.length, h.read_beginUpdate frames hjob, Sound.Printer.size_update]
    exact ⟨Sound.Printer.update_extract _ _ _ (hlast job hjob rfl), rfl⟩
  · have hsame : (s.beginUpdate frames).shelf.read pcm = s.shelf.read pcm :=
      runPrinters_read_ne frames s.shelf fun job hjob hsame => hjobs ⟨job, hjob, hsame⟩
    rw [Shelf.length, hsame]
    exact ⟨rfl, rfl⟩

theorem beginUpdate (h : s.PrintsAhead 0) (frames : Nat) :
    (s.beginUpdate frames).PrintsAhead frames := by
  have hmem := mem_runPrinters frames s.shelf h.distinct
  have hsize : (s.beginUpdate frames).shelf.buffers.size = s.shelf.buffers.size :=
    runPrinters_size frames s.printers s.shelf
  have hcursor {job : PrintJob} (hjob : job ∈ s.printers) :
      min job.printer.length (job.printer.cursor + frames)
        ≤ (job.advanced s.shelf frames).printer.cursor :=
    (job.printer.update_cursor _ frames (h.jobs job hjob).printed.fits.2).1
  refine ⟨Nat.le_refl frames, ?_, ?_, ?_, ?_, ?_⟩
  · exact h.distinct.sublist (runPrinters_sublist frames s.printers s.shelf)
  · intro job' hjob'
    obtain ⟨job, hjob, rfl, -⟩ := (hmem job').mp hjob'
    refine ⟨hsize ▸ (h.jobs job hjob).held, h.printedTo_advanced frames hjob, ?_⟩
    have hlength : (job.advanced s.shelf frames).printer.length = job.printer.length :=
      job.printer.update_length _ frames
    have hfar := hcursor hjob
    show min (job.advanced s.shelf frames).printer.length frames ≤ _
    omega
  · intro pcm hpcm
    by_cases hjobs : ∃ job ∈ s.printers, job.pcm = pcm
    · obtain ⟨job, hjob, rfl⟩ := hjobs
      cases hfinished : (job.advanced s.shelf frames).printer.isFinished with
      | true => exact .inr ⟨_, h.printedTo_advanced frames hjob, hfinished⟩
      | false => exact .inl ⟨_, (hmem _).mpr ⟨job, hjob, rfl, hfinished⟩, rfl⟩
    · obtain ⟨printer, hprinted, hfinished⟩ := (h.buffers pcm (hsize ▸ hpcm)).resolve_left hjobs
      refine .inr ⟨printer, hprinted.of_read (runPrinters_read_ne frames s.shelf ?_), hfinished⟩
      exact fun job hjob hsame => hjobs ⟨job, hjob, hsame⟩
  · intro e he
    rw [hsize]
    exact h.cached e he
  · intro p hp
    have hold := h.playbacks p hp
    have hkept := h.extract_beginUpdate frames p.pcm 0 fun _ _ _ => Nat.zero_le _
    refine ⟨hsize ▸ hold.held, hold.length.trans hkept.2.symm, hold.position, ?_⟩
    intro job' hjob' hsame
    obtain ⟨job, hjob, rfl, -⟩ := (hmem job').mp hjob'
    have hfar := hcursor hjob
    have hbehind := hold.printed job hjob hsame
    have hposition := hold.position
    have hlength : p.length = job.printer.length := by
      rw [hold.length, ← (h.jobs job hjob).printed.fits.1]
      exact congrArg s.shelf.length hsame.symm
    omega

/-- In a stretch the playbacks get as much nearer to the cursors as less of the update is left. -/
theorem renderStretch (h : s.PrintsAhead left) {n : Nat} (hn : n ≤ left) :
    (s.renderStretch n).2.PrintsAhead (left - n) := by
  have hleft := h.left_le
  refine ⟨Nat.le_trans (Nat.sub_le left n) hleft, h.distinct, h.jobs, h.buffers, h.cached, ?_⟩
  intro p' hp'
  rw [playbacks_renderStretch] at hp'
  obtain ⟨p, hp, rfl⟩ := List.mem_map.mp hp'
  have hold := h.playbacks p hp
  have hnext := Playback.position_render hold.length hold.position n
  refine ⟨hold.held, hold.length, ?_, fun job hjob hsame => ?_⟩
  · show p.position + (p.render s.shelf n).1.size ≤ p.length
    omega
  · have hahead := hold.printed job hjob hsame
    show min p.length (p.position + (p.render s.shelf n).1.size + (left - n)) ≤ job.printer.cursor
    omega

theorem endUpdate (h : s.PrintsAhead 0) : s.endUpdate.PrintsAhead 0 := by
  refine ⟨Nat.le_refl 0, h.distinct, fun job hjob => ?_, h.buffers, h.cached, fun p hp => ?_⟩
  · have hold := h.jobs job hjob
    exact ⟨hold.held, hold.printed, Nat.le_trans (Nat.min_le_right _ 0) (Nat.zero_le _)⟩
  · exact h.playbacks p ((Pool.trimDefunct_prefix _).subset hp)

/-! ### Steps -/

theorem run (h : s.PrintsAhead left) {σ : Step} (allowed : σ.Allowed ⟨s, left⟩) :
    (σ.run s).PrintsAhead (σ.leaves left) := by
  have hquiet (hσ : σ.Quiet) : (σ.run s).PrintsAhead (σ.leaves left) := by
    rw [hσ.leaves]
    exact h.of_soundSide (hσ.soundSide s)
  cases σ with
  | event e => exact (eventClosed left).dispatch h e
  | playSound key trim => exact h.playSound key trim
  | playSoundBytes bytes trim => exact h.playSoundBytes bytes trim
  | clearCache => exact h.clearCache
  | setUp i record => exact (eventClosed left).setUpChannel h allowed record
  | begin frames =>
    have hnone : left = 0 := allowed
    subst hnone
    exact h.beginUpdate frames
  | stretch n => exact h.renderStretch allowed
  | finish =>
    have hnone : left = 0 := allowed
    subst hnone
    exact h.endUpdate
  | _ => exact hquiet trivial

theorem after (format : Format) (calls : List Call) (k : Nat) :
    (Moment.after format calls k).synth.PrintsAhead (Moment.after format calls k).left :=
  Moment.after_invariant (motive := fun m => m.synth.PrintsAhead m.left) (ofFormat format)
    (fun _ _ allowed h => h.run allowed) calls k

end PrintsAhead

end Synth

end Tonewheel
