import Tonewheel.Proofs.Synth.PrintsAhead

/-!
# The same sounds, printed in other parts

Two synthesizers may print one sound at different times and in different parts. As long as it has at
most one voice of noise, both print the same samples (`Sound.Printer.printed_prefix`), so playbacks
read the same from both as far as both have printed (`SameSound.extract`).
-/

namespace Tonewheel

namespace Sound.Printer

theorem printed_noiseVoices (p : Printer) (calls : List Nat) :
    noiseVoices (p.printed calls).1.voices = noiseVoices p.voices := by
  have hparts : ∀ (s : Printer × Block) (ns : List Nat),
      noiseVoices (ns.foldl part s).1.voices = noiseVoices s.1.voices := by
    intro s ns
    induction ns generalizing s with
    | nil => rfl
    | cons n ns ih => rw [List.foldl_cons, ih, part, printPart_noiseVoices]
  cases hvoices : p.voices.isEmpty with
  | true => rw [printed, runCalls_of_isEmpty _ _ hvoices]
  | false => rw [printed, runCalls_eq_passes _ _ hvoices, hparts]

theorem printed_prefix {p : Printer} (hfresh : p.cursor = 0) (hnoise : noiseVoices p.voices ≤ 1)
    {calls calls' : List Nat} {last : Nat} (hlast : last ≤ (p.printed calls).1.cursor)
    (hlast' : last ≤ (p.printed calls').1.cursor) :
    (p.printed calls).2.extract 0 last = (p.printed calls').2.extract 0 last := by
  cases hvoices : p.voices.isEmpty with
  | true => rw [printed_of_isEmpty p calls hvoices, printed_of_isEmpty p calls' hvoices]
  | false =>
    -- One more call brings both runs to the same total.
    have htotal : (p.printed (calls ++ [calls'.sum])).2 = (p.printed (calls' ++ [calls.sum])).2 := by
      rw [printed_eq_part p _ hfresh hvoices hnoise, printed_eq_part p _ hfresh hvoices hnoise,
        List.sum_append, List.sum_append, List.sum_singleton, List.sum_singleton, Nat.add_comm]
    rw [printed_append, printed_append] at htotal
    rw [← update_extract (p.printed calls).1 (p.printed calls).2 calls'.sum hlast, htotal,
      update_extract _ _ _ hlast']

end Sound.Printer

theorem Block.extract_of_front {a b : Block} {first last : Nat}
    (hsize : a.size = b.size) (hfront : a.extract 0 (min a.size last) = b.extract 0 (min a.size last)) :
    a.extract first last = b.extract first last := by
  apply Array.ext_getElem?
  intro i
  have hat := congrArg (·[first + i]?) hfront
  simp only [Array.getElem?_extract, Nat.zero_add] at hat
  simp only [Array.getElem?_extract]
  by_cases hi : first + i < min last a.size
  · have hin : first + i < min (min a.size last) a.size := by omega
    have hin' : first + i < min (min a.size last) b.size := by omega
    rw [if_pos (by omega), if_pos (by omega)] at hat
    rw [if_pos (by omega), if_pos (by omega)]
    exact hat
  · rw [if_neg (by omega), if_neg (by omega)]

namespace Synth

/-- Whether no printer works on a buffer. -/
def Idle (s : Synth) (pcm : PcmId) : Prop := ∀ job ∈ s.printers, job.pcm ≠ pcm

theorem exists_of_not_idle (s : Synth) {pcm : PcmId} (h : ¬s.Idle pcm) :
    ∃ job ∈ s.printers, job.pcm = pcm := by
  unfold Idle at h
  push Not at h
  exact h

/-- Whether a buffer is what some calls on a printer have made of it, which works on it until it has
finished. -/
def Prints (s : Synth) (first : Sound.Printer) (pcm : PcmId) : Prop :=
  ∃ calls, (first.printed calls).2 = s.shelf.read pcm
    ∧ (∀ job ∈ s.printers, job.pcm = pcm → job.printer = (first.printed calls).1)
    ∧ (s.Idle pcm → (first.printed calls).1.isFinished = true)

variable {s t : Synth} {first : Sound.Printer} {pcm : PcmId} {left left' : Nat}

theorem PrintsAhead.unique (h : s.PrintsAhead left) {job other : PrintJob} (hjob : job ∈ s.printers)
    (hother : other ∈ s.printers) (hpcm : other.pcm = job.pcm) : other = job :=
  List.inj_on_of_nodup_map h.distinct hother hjob hpcm

theorem PrintsAhead.prints (h : s.PrintsAhead left) {job : PrintJob} (hjob : job ∈ s.printers) :
    ∃ first, first.cursor = 0
      ∧ Sound.noiseVoices first.voices = Sound.noiseVoices job.printer.voices
      ∧ s.Prints first job.pcm := by
  obtain ⟨bytes, first, calls, hmake, hprinted⟩ := (h.jobs job hjob).printed
  have hnoise := first.printed_noiseVoices calls
  rw [hprinted] at hnoise
  refine ⟨first, (Sound.Printer.make_fresh hmake).1, hnoise.symm, calls, by rw [hprinted], ?_, ?_⟩
  · intro other hother hpcm
    rw [h.unique hjob hother hpcm, hprinted]
  · intro hidle
    exact absurd rfl (hidle job hjob)

theorem Prints.of_same (h : s.Prints first pcm) (hread : t.shelf.read pcm = s.shelf.read pcm)
    (hjobs : ∀ job : PrintJob, job.pcm = pcm → (job ∈ t.printers ↔ job ∈ s.printers)) :
    t.Prints first pcm := by
  obtain ⟨calls, hbuffer, hwork, hidle⟩ := h
  refine ⟨calls, hbuffer.trans hread.symm, fun job hjob hpcm =>
    hwork job ((hjobs job hpcm).mp hjob) hpcm, fun hnone => hidle fun job hjob hpcm => ?_⟩
  exact hnone job ((hjobs job hpcm).mpr hjob) hpcm

theorem Prints.beginUpdate (h : s.Prints first pcm) (hahead : s.PrintsAhead left) (frames : Nat) :
    (s.beginUpdate frames).Prints first pcm := by
  obtain ⟨calls, hbuffer, hwork, hidle⟩ := h
  have hmem := mem_runPrinters frames s.shelf hahead.distinct
  by_cases hjobs : s.Idle pcm
  · refine ⟨calls, ?_, ?_, fun _ => hidle hjobs⟩
    · rw [hbuffer]
      exact (runPrinters_read_ne frames s.shelf hjobs).symm
    · intro job' hjob' hpcm
      obtain ⟨job, hjob, rfl, -⟩ := (hmem job').mp hjob'
      exact absurd hpcm (hjobs job hjob)
  · obtain ⟨job, hjob, rfl⟩ := s.exists_of_not_idle hjobs
    have hprinter := hwork job hjob rfl
    have hcall : first.printed (calls ++ [frames])
        = job.printer.update (s.shelf.read job.pcm) frames := by
      rw [Sound.Printer.printed_append, ← hprinter, hbuffer]
    refine ⟨calls ++ [frames], ?_, ?_, ?_⟩
    · rw [hcall, hahead.read_beginUpdate frames hjob]
    · intro job' hjob' hpcm
      obtain ⟨other, hother, rfl, -⟩ := (hmem job').mp hjob'
      obtain rfl := hahead.unique hjob hother hpcm
      rw [hcall]
      rfl
    · intro hnone
      rw [hcall]
      refine eq_true_of_ne_false fun hmore => ?_
      exact hnone _ ((hmem _).mpr ⟨job, hjob, rfl, hmore⟩) rfl

theorem Idle.beginUpdate (h : s.Idle pcm) (hahead : s.PrintsAhead left) (frames : Nat) :
    (s.beginUpdate frames).Idle pcm
      ∧ (s.beginUpdate frames).shelf.read pcm = s.shelf.read pcm := by
  refine ⟨fun job' hjob' hpcm => ?_, runPrinters_read_ne frames s.shelf h⟩
  obtain ⟨job, hjob, rfl, -⟩ := (mem_runPrinters frames s.shelf hahead.distinct job').mp hjob'
  exact h job hjob hpcm

/-! ### Two synthesizers -/

/-- Whether a buffer holds the same sound in two synthesizers: it is done and the same, or it is the
work of printers that were the same at first. -/
def SameSound (s t : Synth) (pcm : PcmId) : Prop :=
  (s.Idle pcm ∧ t.Idle pcm ∧ s.shelf.read pcm = t.shelf.read pcm)
    ∨ ∃ first, first.cursor = 0 ∧ Sound.noiseVoices first.voices ≤ 1
      ∧ s.Prints first pcm ∧ t.Prints first pcm

theorem SameSound.length (h : s.SameSound t pcm) : s.shelf.length pcm = t.shelf.length pcm := by
  rcases h with ⟨-, -, hread⟩ | ⟨first, -, -, ⟨calls, hbuffer, -⟩, calls', hbuffer', -⟩
  · rw [Shelf.length, Shelf.length, hread]
  · rw [Shelf.length, Shelf.length, ← hbuffer, ← hbuffer', Sound.Printer.size_printed,
      Sound.Printer.size_printed]

/-- A sound stays the same while both synthesizers leave its buffer and its printer alone. -/
theorem SameSound.of_same {s' t' : Synth} (h : s.SameSound t pcm)
    (hread : s'.shelf.read pcm = s.shelf.read pcm) (hread' : t'.shelf.read pcm = t.shelf.read pcm)
    (hjobs : ∀ job : PrintJob, job.pcm = pcm → (job ∈ s'.printers ↔ job ∈ s.printers))
    (hjobs' : ∀ job : PrintJob, job.pcm = pcm → (job ∈ t'.printers ↔ job ∈ t.printers)) :
    s'.SameSound t' pcm := by
  rcases h with ⟨hidle, hidle', hsame⟩ | ⟨first, hfresh, hnoise, hprints, hprints'⟩
  · refine .inl ⟨fun job hjob hpcm => ?_, fun job hjob hpcm => ?_, ?_⟩
    · exact hidle job ((hjobs job hpcm).mp hjob) hpcm
    · exact hidle' job ((hjobs' job hpcm).mp hjob) hpcm
    · rw [hread, hread', hsame]
  · exact .inr ⟨first, hfresh, hnoise, hprints.of_same hread hjobs, hprints'.of_same hread' hjobs'⟩

theorem Prints.covers {p : Playback} (h : s.Prints first p.pcm)
    (hcovered : p.Covered s.shelf s.printers left) :
    ∃ calls, (first.printed calls).2 = s.shelf.read p.pcm
      ∧ min p.length (p.position + left) ≤ (first.printed calls).1.cursor := by
  obtain ⟨calls, hbuffer, hwork, hidle⟩ := h
  refine ⟨calls, hbuffer, ?_⟩
  by_cases hjobs : s.Idle p.pcm
  · have hfinished : (first.printed calls).1.length ≤ (first.printed calls).1.cursor :=
      of_decide_eq_true (hidle hjobs)
    have hlength : p.length = (first.printed calls).1.length := by
      rw [hcovered.length, Shelf.length, ← hbuffer, Sound.Printer.size_printed,
        Sound.Printer.length_printed]
    omega
  · obtain ⟨job, hjob, hpcm⟩ := s.exists_of_not_idle hjobs
    rw [← hwork job hjob hpcm]
    exact hcovered.printed job hjob hpcm

theorem SameSound.extract {p : Playback} (h : s.SameSound t p.pcm)
    (hs : p.Covered s.shelf s.printers left) (ht : p.Covered t.shelf t.printers left') {n : Nat}
    (hn : n ≤ left) (hn' : n ≤ left') :
    (s.shelf.read p.pcm).extract p.position (p.position + n)
      = (t.shelf.read p.pcm).extract p.position (p.position + n) := by
  rcases h with ⟨-, -, hread⟩ | ⟨first, hfresh, hnoise, hprints, hprints'⟩
  · rw [hread]
  · obtain ⟨calls, hbuffer, hcursor⟩ := hprints.covers hs
    obtain ⟨calls', hbuffer', hcursor'⟩ := hprints'.covers ht
    have hlength : (s.shelf.read p.pcm).size = p.length := hs.length.symm
    have hlength' : (t.shelf.read p.pcm).size = p.length := ht.length.symm
    refine Block.extract_of_front (hlength.trans hlength'.symm) ?_
    rw [← hbuffer, ← hbuffer', hbuffer, hlength, ← hbuffer]
    exact Sound.Printer.printed_prefix hfresh hnoise (by omega) (by omega)

/-! ### New printers -/

def withPrinter (s : Synth) (first : Sound.Printer) (calls : List Nat) : Synth :=
  { s with
    shelf := (s.shelf.add (first.printed calls).2).2
    printers := s.printers
      ++ [PrintJob.mk (s.shelf.add (first.printed calls).2).1 (first.printed calls).1] }

theorem startPrinter_ok {bytes : Bytes} (h : Sound.Printer.make s.format.rate bytes = .ok first) :
    ∃ calls, s.startPrinter bytes = (some ⟨s.shelf.buffers.size⟩, s.withPrinter first calls) := by
  unfold Synth.startPrinter
  rw [h]
  dsimp only
  split
  · exact ⟨[s.updating], rfl⟩
  · exact ⟨[], rfl⟩

theorem startPrinter_error {bytes : Bytes} {e : DecodeError}
    (h : Sound.Printer.make s.format.rate bytes = .error e) : s.startPrinter bytes = (none, s) := by
  unfold Synth.startPrinter
  rw [h]

theorem withPrinter_read (hheld : pcm.index < s.shelf.buffers.size) (calls : List Nat) :
    (s.withPrinter first calls).shelf.read pcm = s.shelf.read pcm :=
  s.shelf.read_add _ hheld

theorem withPrinter_jobs (hheld : pcm.index < s.shelf.buffers.size) (calls : List Nat)
    (job : PrintJob) (hpcm : job.pcm = pcm) :
    job ∈ (s.withPrinter first calls).printers ↔ job ∈ s.printers := by
  refine ⟨fun hjob => (List.mem_append.mp hjob).resolve_right fun hnew => ?_,
    fun hjob => List.mem_append_left _ hjob⟩
  rw [List.mem_singleton.mp hnew] at hpcm
  rw [← hpcm] at hheld
  exact Nat.lt_irrefl _ hheld

theorem withPrinter_prints (h : s.PrintsAhead left) (calls : List Nat) :
    (s.withPrinter first calls).Prints first ⟨s.shelf.buffers.size⟩ := by
  have hnew : PrintJob.mk ⟨s.shelf.buffers.size⟩ (first.printed calls).1
      ∈ (s.withPrinter first calls).printers :=
    List.mem_append_right _ List.mem_cons_self
  refine ⟨calls, (s.shelf.read_add_self _).symm, fun job hjob hpcm => ?_, fun hidle => ?_⟩
  · rcases List.mem_append.mp hjob with hjob | hjob
    · have hheld := (h.jobs job hjob).held
      rw [hpcm] at hheld
      exact absurd hheld (Nat.lt_irrefl _)
    · rw [List.mem_singleton.mp hjob]
  · exact absurd rfl (hidle _ hnew)

end Synth

end Tonewheel
