import Mathlib.Data.List.Nodup
import Tonewheel.Proofs.Sound.Progress
import Tonewheel.Synth.Message

/-!
# Running printers

Printers work on buffers of their own on the shelf. A run of all of them updates the buffer of each
one (`runPrinters_read`), leaves the other buffers alone, and keeps the printers that have not
finished (`mem_runPrinters`).
-/

namespace Tonewheel

/-! ### Shelves and caches -/

namespace Shelf

variable (s : Shelf) (buffer : Block)

theorem read_add_self : (s.add buffer).2.read (s.add buffer).1 = buffer := by
  simp [add, read]

theorem read_add {id : PcmId} (h : id.index < s.buffers.size) :
    (s.add buffer).2.read id = s.read id := by
  simp [add, read, Array.getElem?_push, Nat.ne_of_lt h]

theorem size_add : (s.add buffer).2.buffers.size = s.buffers.size + 1 := by
  simp [add]

theorem size_write (id : PcmId) : (s.write id buffer).buffers.size = s.buffers.size := by
  simp [write]

theorem read_write_self {id : PcmId} (h : id.index < s.buffers.size) :
    (s.write id buffer).read id = buffer := by
  simp [write, read, h]

theorem read_write_ne {id other : PcmId} (h : id ≠ other) :
    (s.write id buffer).read other = s.read other := by
  have hindex : id.index ≠ other.index := fun hsame => h (congrArg PcmId.mk hsame)
  simp [write, read, Array.getElem?_setIfInBounds_ne hindex]

/-- Whether a buffer is what a printer has made of it so far. -/
def PrintedTo (s : Shelf) (rate : UInt32) (pcm : PcmId) (printer : Sound.Printer) : Prop :=
  ∃ bytes first calls, Sound.Printer.make rate bytes = .ok first
    ∧ first.printed calls = (printer, s.read pcm)

variable {s} {rate : UInt32} {pcm : PcmId} {printer : Sound.Printer}

theorem PrintedTo.fits (h : s.PrintedTo rate pcm printer) :
    s.length pcm = printer.length ∧ printer.cursor ≤ printer.length := by
  obtain ⟨bytes, first, calls, hmake, hprinted⟩ := h
  have hfits := Sound.Printer.printed_fits hmake calls
  rw [hprinted] at hfits
  exact hfits

theorem PrintedTo.of_read {t : Shelf} (h : s.PrintedTo rate pcm printer)
    (hread : t.read pcm = s.read pcm) : t.PrintedTo rate pcm printer := by
  obtain ⟨bytes, first, calls, hmake, hprinted⟩ := h
  exact ⟨bytes, first, calls, hmake, by rw [hread, hprinted]⟩

def Extends (shelf more : Shelf) : Prop :=
  ∀ pcm : PcmId, pcm.index < shelf.buffers.size →
    pcm.index < more.buffers.size ∧ more.read pcm = shelf.read pcm

namespace Extends

variable {t u : Shelf}

theorem refl (s : Shelf) : s.Extends s := fun _ hheld => ⟨hheld, rfl⟩

theorem trans (h : s.Extends t) (h' : t.Extends u) : s.Extends u := by
  intro pcm hheld
  obtain ⟨hheld', hread⟩ := h pcm hheld
  exact ⟨(h' pcm hheld').1, (h' pcm hheld').2.trans hread⟩

theorem add (s : Shelf) (buffer : Block) : s.Extends (s.add buffer).2 := by
  intro pcm hheld
  rw [s.size_add]
  exact ⟨Nat.lt_succ_of_lt hheld, s.read_add buffer hheld⟩

end Extends

end Shelf

namespace Cache

theorem mem_of_find? {c : Cache} {key : SoundKey} {pcm : PcmId} (h : c.find? key = some pcm) :
    ∃ e ∈ c.entries, e.pcm = pcm := by
  unfold find? at h
  split at h
  next index _ =>
    obtain ⟨e, he, rfl⟩ := Option.map_eq_some_iff.mp h
    exact ⟨e, List.mem_of_getElem? he, rfl⟩
  next => cases h

theorem mem_add {c : Cache} {key : SoundKey} {pcm : PcmId} {e : CacheEntry}
    (h : e ∈ (c.add key pcm).entries) : e ∈ c.entries ∨ e.pcm = pcm := by
  unfold add insertAt at h
  split at h
  · exact .inl h
  next index _ =>
    split at h
    · rcases List.mem_append.mp h with h | h
      · exact .inl (List.mem_of_mem_take h)
      · rcases List.mem_cons.mp h with rfl | h
        · exact .inr rfl
        · exact .inl (List.mem_of_mem_drop h)
    · exact .inl h

end Cache

/-! ### Running printers -/

namespace PrintJob

def advanced (job : PrintJob) (shelf : Shelf) (frames : Nat) : PrintJob :=
  { job with printer := (job.printer.update (shelf.read job.pcm) frames).1 }

/-- A shelf after one job was advanced. -/
def written (job : PrintJob) (shelf : Shelf) (frames : Nat) : Shelf :=
  (shelf.write job.pcm #[]).write job.pcm (job.printer.update (shelf.read job.pcm) frames).2

theorem size_written (job : PrintJob) (shelf : Shelf) (frames : Nat) :
    (job.written shelf frames).buffers.size = shelf.buffers.size := by
  simp [written, Shelf.size_write]

theorem read_written_self {job : PrintJob} {shelf : Shelf} (frames : Nat)
    (h : job.pcm.index < shelf.buffers.size) :
    (job.written shelf frames).read job.pcm
      = (job.printer.update (shelf.read job.pcm) frames).2 :=
  Shelf.read_write_self _ _ (by rwa [Shelf.size_write])

theorem read_written_ne {job : PrintJob} {pcm : PcmId} (shelf : Shelf) (frames : Nat)
    (h : job.pcm ≠ pcm) : (job.written shelf frames).read pcm = shelf.read pcm := by
  rw [written, Shelf.read_write_ne _ _ h, Shelf.read_write_ne _ _ h]

end PrintJob

namespace Synth

theorem runPrinters_cons (frames : Nat) (job : PrintJob) (jobs : List PrintJob) (shelf : Shelf) :
    runPrinters frames (job :: jobs) shelf
      = (if (job.advanced shelf frames).printer.isFinished then
          (runPrinters frames jobs (job.written shelf frames)).1
        else
          job.advanced shelf frames :: (runPrinters frames jobs (job.written shelf frames)).1,
          (runPrinters frames jobs (job.written shelf frames)).2) := by
  rw [runPrinters]
  show (if (job.advanced shelf frames).printer.isFinished then _ else _) = _
  split <;> rfl

theorem runPrinters_size (frames : Nat) (jobs : List PrintJob) (shelf : Shelf) :
    (runPrinters frames jobs shelf).2.buffers.size = shelf.buffers.size := by
  induction jobs generalizing shelf with
  | nil => rfl
  | cons job jobs ih => rw [runPrinters_cons, ih, PrintJob.size_written]

theorem runPrinters_read_ne (frames : Nat) {jobs : List PrintJob} (shelf : Shelf) {pcm : PcmId}
    (h : ∀ job ∈ jobs, job.pcm ≠ pcm) :
    (runPrinters frames jobs shelf).2.read pcm = shelf.read pcm := by
  induction jobs generalizing shelf with
  | nil => rfl
  | cons job jobs ih =>
    rw [runPrinters_cons, ih _ fun other hother => h other (List.mem_cons_of_mem job hother)]
    exact PrintJob.read_written_ne shelf frames (h job List.mem_cons_self)

theorem runPrinters_read (frames : Nat) {jobs : List PrintJob} (shelf : Shelf)
    (hdistinct : (jobs.map PrintJob.pcm).Nodup) {job : PrintJob} (hjob : job ∈ jobs)
    (hheld : job.pcm.index < shelf.buffers.size) :
    (runPrinters frames jobs shelf).2.read job.pcm
      = (job.printer.update (shelf.read job.pcm) frames).2 := by
  induction jobs generalizing shelf with
  | nil => cases hjob
  | cons first jobs ih =>
    obtain ⟨hfirst, hdistinct'⟩ := List.nodup_cons.mp hdistinct
    have hothers : ∀ other ∈ jobs, first.pcm ≠ other.pcm := fun other hother hsame =>
      hfirst (hsame ▸ List.mem_map_of_mem hother)
    rw [runPrinters_cons]
    rcases List.mem_cons.mp hjob with rfl | hjob
    · rw [← PrintJob.read_written_self frames hheld]
      exact runPrinters_read_ne frames _ fun other hother => (hothers other hother).symm
    · rw [← PrintJob.read_written_ne shelf frames (hothers job hjob)]
      exact ih _ hdistinct' hjob (by rwa [PrintJob.size_written])

theorem mem_runPrinters (frames : Nat) {jobs : List PrintJob} (shelf : Shelf)
    (hdistinct : (jobs.map PrintJob.pcm).Nodup) (job' : PrintJob) :
    job' ∈ (runPrinters frames jobs shelf).1
      ↔ ∃ job ∈ jobs, job' = job.advanced shelf frames ∧ job'.printer.isFinished = false := by
  induction jobs generalizing shelf with
  | nil => simp [runPrinters]
  | cons first jobs ih =>
    obtain ⟨hfirst, hdistinct'⟩ := List.nodup_cons.mp hdistinct
    have hothers : ∀ other ∈ jobs,
        other.advanced (first.written shelf frames) frames = other.advanced shelf frames := by
      intro other hother
      have hne : first.pcm ≠ other.pcm := fun hsame => hfirst (hsame ▸ List.mem_map_of_mem hother)
      rw [PrintJob.advanced, PrintJob.advanced, PrintJob.read_written_ne shelf frames hne]
    have hrest : job' ∈ (runPrinters frames jobs (first.written shelf frames)).1
        ↔ ∃ job ∈ jobs, job' = job.advanced shelf frames ∧ job'.printer.isFinished = false := by
      rw [ih _ hdistinct']
      refine exists_congr fun job => and_congr_right fun hjob => ?_
      rw [hothers job hjob]
    rw [runPrinters_cons]
    split
    next hfinished =>
      rw [hrest]
      constructor
      · rintro ⟨job, hjob, hadvanced⟩
        exact ⟨job, List.mem_cons_of_mem first hjob, hadvanced⟩
      · rintro ⟨job, hjob, rfl, hwork⟩
        rcases List.mem_cons.mp hjob with rfl | hjob
        · rw [hfinished] at hwork
          cases hwork
        · exact ⟨job, hjob, rfl, hwork⟩
    next hwork =>
      rw [List.mem_cons, hrest]
      constructor
      · rintro (rfl | ⟨job, hjob, hadvanced⟩)
        · exact ⟨first, List.mem_cons_self, rfl, Bool.eq_false_iff.mpr hwork⟩
        · exact ⟨job, List.mem_cons_of_mem first hjob, hadvanced⟩
      · rintro ⟨job, hjob, rfl, hwork⟩
        rcases List.mem_cons.mp hjob with rfl | hjob
        · exact .inl rfl
        · exact .inr ⟨job, hjob, rfl, hwork⟩

theorem runPrinters_sublist (frames : Nat) (jobs : List PrintJob) (shelf : Shelf) :
    ((runPrinters frames jobs shelf).1.map PrintJob.pcm).Sublist (jobs.map PrintJob.pcm) := by
  induction jobs generalizing shelf with
  | nil => exact .slnil
  | cons job jobs ih =>
    rw [runPrinters_cons]
    split
    · exact (ih _).cons _
    · exact (ih _).cons_cons _

/-! ### Rendering playbacks -/

theorem renderPlaybacks_eq (shelf : Shelf) (n : Nat) (ps : List Playback) (mixed : Block) :
    renderPlaybacks shelf n ps mixed
      = ((ps.map fun p => (p.render shelf n).1).foldl Block.mix mixed,
          ps.map fun p => (p.render shelf n).2) := by
  induction ps generalizing mixed with
  | nil => rfl
  | cons p ps ih =>
    rw [renderPlaybacks]
    dsimp only
    rw [ih]
    rfl

theorem playbacks_renderStretch (s : Synth) (n : Nat) :
    (s.renderStretch n).2.playbacks = s.playbacks.map fun p => (p.render s.shelf n).2 := by
  simp only [renderStretch, renderPlaybacks_eq]
  rfl

theorem mix_renderStretch (s : Synth) (n : Nat) :
    ∃ rest, (s.renderStretch n).1
      = (s.playbacks.entries.map fun p => (p.render s.shelf n).1).foldl Block.mix rest := by
  simp only [renderStretch, renderPlaybacks_eq]
  exact ⟨_, rfl⟩

end Synth

namespace Playback

variable {p : Playback} {shelf : Shelf}

theorem position_render (hlength : p.length = shelf.length p.pcm) (hposition : p.position ≤ p.length)
    (n : Nat) : p.position + (p.render shelf n).1.size = min p.length (p.position + n) := by
  have hsize : (p.render shelf n).1.size
      = min (p.position + n) (shelf.length p.pcm) - p.position := by
    simp [render, Shelf.length]
  omega

end Playback

end Tonewheel
