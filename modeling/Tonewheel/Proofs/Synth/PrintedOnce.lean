import Tonewheel.Proofs.Pcm.Cache
import Tonewheel.Proofs.Synth.Playbacks

/-!
# Sounds are printed once (SPEC_FULL, sections 4.6 and 8)

A step asks for a sound when it plays one by its key or starts a note on a channel of drums
(`Step.asks`), and does what playing that sound does (`Step.plays`). A sound that is played for the
first time is printed and cached under the key that it was resolved to (`playSound_resolved`). The
cache stays in order and keeps its entries until it is cleared, so no sound is printed twice before
that and all its playbacks share one buffer (`sounds_print_once`).
-/

namespace Tonewheel.Synth

/-! ### Asking for sounds -/

/-- The sound that a note asks for, on a channel of drums. -/
def drumKey (s : Synth) (channel note : UInt8) : Option SoundKey :=
  (channelIndex? channel).bind fun i =>
    ((s.ensureChannel i).channels.get i).bind fun c =>
      match c.patch with
      | .drum base => some ⟨0, base + note.toUInt16⟩
      | _ => none

def Step.asks (s : Synth) : Step → Option SoundKey
  | .playSound key _ => some key
  | .event e =>
    match e.action with
    | .noteOn note _ => s.drumKey e.channel note
    | .noteOnce note _ _ => s.drumKey e.channel note
    | _ => none
  | _ => none

/-- The key that a sound is played by: its own, or that of qualifier zero where it is not known. -/
def resolvedKey (s : Synth) (key : SoundKey) : SoundKey :=
  if s.knowsSound key then key else { key with qualifier := 0 }

def Step.resolves (s : Synth) (σ : Step) : Option SoundKey := (σ.asks s).map s.resolvedKey

theorem resources_ensureChannel (s : Synth) (i : Fin channelCount) :
    (s.ensureChannel i).resources = s.resources := by
  unfold ensureChannel instantiate
  split
  · rfl
  · split <;> rfl

theorem soundSide_ensureChannel (s : Synth) (i : Fin channelCount) :
    (s.ensureChannel i).soundSide = s.soundSide :=
  (quietClosed_of_soundSide (motive := fun t => t.soundSide = s.soundSide)
    fun _ _ hsame h => hsame.trans h).ensure s i rfl

/-- Whether two synthesizers know and print sounds alike. -/
def SoundsAlike (s t : Synth) : Prop := t.soundSide = s.soundSide ∧ t.resources = s.resources

theorem plays_note {s : Synth} {channel note velocity : UInt8} {duration : Int} {key : SoundKey}
    (h : s.drumKey channel note = some key) :
    ∃ t trim, s.SoundsAlike t
      ∧ (s.onChannel channel fun i =>
          s.withChannel i fun s c => s.startNote c note velocity duration) = t.playSound key trim
      ∧ s.noteStarted channel note velocity = t.soundStarted key trim := by
  obtain ⟨i, hi, h⟩ := Option.bind_eq_some_iff.mp h
  obtain ⟨c, hc, h⟩ := Option.bind_eq_some_iff.mp h
  split at h
  next base hpatch =>
    cases h
    refine ⟨s.ensureChannel i, c.drumTrim velocity,
      ⟨s.soundSide_ensureChannel i, s.resources_ensureChannel i⟩, ?_, ?_⟩
    · unfold onChannel withChannel
      rw [hi]
      dsimp only
      rw [hc]
      dsimp only
      rw [startNote, hpatch]
      rfl
    · rw [noteStarted, hi, Option.bind_some, hc, Option.bind_some, hpatch]
  next => cases h

/-- A step that asks for a sound does what playing it does, and starts the same playback. -/
theorem Step.plays {s : Synth} {σ : Step} {key : SoundKey} (h : σ.asks s = some key) :
    ∃ t trim, s.SoundsAlike t ∧ σ.run s = t.playSound key trim
      ∧ σ.started s = t.soundStarted key trim := by
  cases σ with
  | playSound asked trim =>
    cases h
    exact ⟨s, trim, ⟨rfl, rfl⟩, rfl, rfl⟩
  | event e =>
    rw [asks] at h
    cases haction : e.action with
    | noteOn note velocity | noteOnce note velocity duration =>
      rw [haction] at h
      obtain ⟨t, trim, halike, hrun, hstarted⟩ := plays_note h
      refine ⟨t, trim, halike, ?_, ?_⟩
      · rw [← hrun, run, dispatch, haction]
        rfl
      · rw [← hstarted, started, haction]
        rfl
    | _ =>
      rw [haction] at h
      cases h
  | _ => cases h

/-! ### What playing a sound does -/

section

variable {s t : Synth} {key : SoundKey}

theorem resolveSound_eq (s : Synth) (key : SoundKey) :
    s.resolveSound key
      = if s.knowsSound (s.resolvedKey key) then some (s.resolvedKey key) else none := by
  unfold resolveSound resolvedKey
  by_cases hknown : s.knowsSound key = true
  · simp only [if_pos hknown]
  · simp only [if_neg hknown]

theorem resolvedKey_resolvedKey (s : Synth) (key : SoundKey) :
    s.resolvedKey (s.resolvedKey key) = s.resolvedKey key := by
  unfold resolvedKey
  by_cases hknown : s.knowsSound key = true
  · rw [if_pos hknown, if_pos hknown]
  · rw [if_neg hknown]
    exact ite_self _

theorem playSound_resolvedKey (s : Synth) (key : SoundKey) (trim : Float32) :
    s.playSound key trim = s.playSound (s.resolvedKey key) trim := by
  unfold playSound
  rw [resolveSound_eq s key, resolveSound_eq s (s.resolvedKey key), resolvedKey_resolvedKey]

theorem SoundsAlike.resolvedKey (h : s.SoundsAlike t) (key : SoundKey) :
    t.resolvedKey key = s.resolvedKey key := by
  obtain ⟨hside, hresources⟩ := h
  have hcache : t.cache = s.cache := congrArg (·.2.2.1) hside
  unfold Synth.resolvedKey knowsSound soundBytes? lookup
  rw [hcache, hresources]

theorem startPrinter_some {bytes : Bytes} {pcm : PcmId}
    (h : (s.startPrinter bytes).1 = some pcm) :
    (∃ printer, (s.startPrinter bytes).2.printers = s.printers ++ [⟨pcm, printer⟩])
      ∧ (s.startPrinter bytes).2.cache = s.cache := by
  unfold startPrinter at h ⊢
  split at h
  · cases h
  · cases h
    exact ⟨⟨_, rfl⟩, rfl⟩

theorem startPrinter_none {bytes : Bytes} (h : (s.startPrinter bytes).1 = none) :
    (s.startPrinter bytes).2 = s := by
  unfold startPrinter at h ⊢
  split at h
  · rfl
  · cases h

/-- What obtaining a sound can come to: its buffer is in the cache, or it is not to be had and
nothing happens, or it is printed and cached under its key. -/
theorem obtainSound_cases (s : Synth) (key : SoundKey) :
    (∃ pcm, s.cache.find? key = some pcm ∧ s.obtainSound key = (some pcm, s))
      ∨ s.cache.find? key = none ∧ s.obtainSound key = (none, s)
      ∨ ∃ pcm printer, s.cache.find? key = none ∧ (s.obtainSound key).1 = some pcm
          ∧ (s.obtainSound key).2.printers = s.printers ++ [⟨pcm, printer⟩]
          ∧ (s.obtainSound key).2.cache = s.cache.add key pcm := by
  unfold obtainSound
  cases hfind : s.cache.find? key with
  | some pcm => exact .inl ⟨pcm, rfl, rfl⟩
  | none =>
    refine .inr ?_
    cases s.soundBytes? key with
    | none => exact .inl ⟨rfl, rfl⟩
    | some bytes =>
      cases hstart : (s.startPrinter bytes).1 with
      | none =>
        have hsame : s.startPrinter bytes = (none, s) := Prod.ext hstart (startPrinter_none hstart)
        dsimp only
        rw [hsame]
        exact .inl ⟨rfl, rfl⟩
      | some pcm =>
        obtain ⟨⟨printer, hprinters⟩, hcache⟩ := startPrinter_some hstart
        refine .inr ⟨pcm, printer, rfl, ?_⟩
        have hsplit : s.startPrinter bytes = (some pcm, (s.startPrinter bytes).2) :=
          Prod.ext hstart rfl
        dsimp only
        rw [hsplit]
        exact ⟨rfl, hprinters, by rw [← hcache]⟩

theorem cache_startPrinter (s : Synth) (bytes : Bytes) :
    (s.startPrinter bytes).2.cache = s.cache := by
  cases hstart : (s.startPrinter bytes).1 with
  | none => rw [startPrinter_none hstart]
  | some pcm => exact (startPrinter_some hstart).2

theorem cache_playObtained (trim : Float32) (found : Option PcmId × Synth) :
    (playObtained trim found).cache = found.2.cache := by
  obtain ⟨pcm, t⟩ := found
  cases pcm <;> rfl

theorem printers_playObtained (trim : Float32) (found : Option PcmId × Synth) :
    (playObtained trim found).printers = found.2.printers := by
  obtain ⟨pcm, t⟩ := found
  cases pcm <;> rfl

theorem cache_obtainSound (h : s.cache.Sorted) (key : SoundKey) :
    (s.obtainSound key).2.cache.Sorted ∧ s.cache.Extends (s.obtainSound key).2.cache
      ∧ ∀ pcm, (s.obtainSound key).1 = some pcm →
        ⟨key, pcm⟩ ∈ (s.obtainSound key).2.cache.entries := by
  rcases s.obtainSound_cases key with
    ⟨pcm, hfind, hobtain⟩ | ⟨-, hobtain⟩ | ⟨pcm, printer, hfind, hpcm, -, hcache⟩
  · rw [hobtain]
    refine ⟨h, fun e he => he, fun pcm' hpcm => ?_⟩
    cases hpcm
    exact h.find?_eq_some.mp hfind
  · rw [hobtain]
    exact ⟨h, fun e he => he, fun pcm hpcm => by cases hpcm⟩
  · rw [hpcm, hcache]
    obtain ⟨hsorted, hextends, hmem⟩ := h.add_missing hfind pcm
    refine ⟨hsorted, hextends, fun pcm' hsame => ?_⟩
    cases hsame
    exact hmem

theorem cache_playSound (h : s.cache.Sorted) (key : SoundKey) (trim : Float32) :
    (s.playSound key trim).cache.Sorted ∧ s.cache.Extends (s.playSound key trim).cache := by
  unfold playSound
  split
  · exact ⟨h, fun e he => he⟩
  · split
    next found _ =>
      rw [cache_playObtained]
      exact ⟨(cache_obtainSound h found).1, (cache_obtainSound h found).2.1⟩
    next => exact ⟨h, fun e he => he⟩

theorem playSound_cached (h : s.cache.Sorted) (key : SoundKey) (trim : Float32) :
    (∀ p, s.soundStarted key trim = some p →
        ⟨s.resolvedKey key, p.pcm⟩ ∈ (s.playSound key trim).cache.entries)
      ∧ ((s.playSound key trim).printers = s.printers
        ∨ ∃ pcm printer, (s.playSound key trim).printers = s.printers ++ [⟨pcm, printer⟩]
          ∧ (∀ e ∈ s.cache.entries, e.key ≠ s.resolvedKey key)
          ∧ ⟨s.resolvedKey key, pcm⟩ ∈ (s.playSound key trim).cache.entries) := by
  have hcached := (cache_obtainSound h (s.resolvedKey key)).2.2
  unfold playSound soundStarted
  rw [resolveSound_eq]
  by_cases htrim : trim ≤ 0
  · rw [if_pos htrim, if_pos htrim]
    exact ⟨fun p hp => (by cases hp), .inl rfl⟩
  · rw [if_neg htrim, if_neg htrim]
    by_cases hknown : s.knowsSound (s.resolvedKey key) = true
    · rw [if_pos hknown]
      dsimp only
      rw [cache_playObtained, printers_playObtained, Option.bind_some]
      constructor
      · intro p hp
        obtain ⟨pcm, hpcm, rfl⟩ := Option.map_eq_some_iff.mp hp
        exact hcached pcm hpcm
      · rcases s.obtainSound_cases (s.resolvedKey key) with
          ⟨pcm, -, hobtain⟩ | ⟨-, hobtain⟩ | ⟨pcm, printer, hfind, hpcm, hprinters, -⟩
        · exact .inl (by rw [hobtain])
        · exact .inl (by rw [hobtain])
        · exact .inr ⟨pcm, printer, hprinters, h.find?_eq_none.mp hfind, hcached pcm hpcm⟩
    · rw [if_neg hknown]
      exact ⟨fun p hp => (by cases hp), .inl rfl⟩

end

/-- Whether a sound is in the cache or has data in the resources. -/
def Holds (s : Synth) (key : SoundKey) : Prop :=
  (∃ pcm, ⟨key, pcm⟩ ∈ s.cache.entries)
    ∨ ∃ bytes, bytes ≠ [] ∧ s.lookup ⟨.sound, key.qualifier, key.id⟩ = some bytes

theorem knowsSound_iff {s : Synth} (h : s.cache.Sorted) (key : SoundKey) :
    s.knowsSound key = true ↔ s.Holds key := by
  unfold knowsSound Holds soundBytes?
  rw [Bool.or_eq_true]
  refine or_congr ?_ ?_
  · rw [Option.isSome_iff_exists]
    exact exists_congr fun pcm => h.find?_eq_some
  · cases s.lookup ⟨.sound, key.qualifier, key.id⟩ with
    | none => simp
    | some bytes => cases bytes <;> simp

/-! ### The cache through a run -/

theorem eventClosed_cache (c : Cache) :
    EventClosed fun s => s.cache.Sorted ∧ c.Extends s.cache := by
  refine eventClosed_of_soundSide (fun s t hsame h => ?_) fun s key trim h => ?_
  · have hcache : t.cache = s.cache := congrArg (·.2.2.1) hsame
    rw [hcache]
    exact h
  · obtain ⟨hsorted, hextends⟩ := cache_playSound h.1 key trim
    exact ⟨hsorted, fun e he => hextends e (h.2 e he)⟩

namespace Step

theorem cache_run {m : Moment} {σ : Step} (h : m.synth.cache.Sorted) (allowed : σ.Allowed m) :
    (σ.run m.synth).cache.Sorted
      ∧ (σ ≠ .clearCache → m.synth.cache.Extends (σ.run m.synth).cache) := by
  have hsame (hcache : (σ.run m.synth).cache = m.synth.cache) : (σ.run m.synth).cache.Sorted
      ∧ (σ ≠ .clearCache → m.synth.cache.Extends (σ.run m.synth).cache) := by
    rw [hcache]
    exact ⟨h, fun _ e he => he⟩
  have hquiet (hσ : σ.Quiet) := hsame (congrArg (·.2.2.1) (hσ.soundSide m.synth))
  have hself : m.synth.cache.Sorted ∧ m.synth.cache.Extends m.synth.cache := ⟨h, fun e he => he⟩
  cases σ with
  | event e =>
    have hevent := (eventClosed_cache m.synth.cache).dispatch hself e
    exact ⟨hevent.1, fun _ => hevent.2⟩
  | playSound key trim =>
    have hplay := cache_playSound h key trim
    exact ⟨hplay.1, fun _ => hplay.2⟩
  | playSoundBytes bytes trim =>
    refine hsame ?_
    show (m.synth.playSoundBytes bytes trim).cache = _
    unfold Synth.playSoundBytes
    split
    · rfl
    · rw [cache_playObtained, cache_startPrinter]
  | clearCache => exact ⟨.nil, fun hclear => absurd rfl hclear⟩
  | setUp i record =>
    have hsetUp := (eventClosed_cache m.synth.cache).setUpChannel hself allowed record
    exact ⟨hsetUp.1, fun _ => hsetUp.2⟩
  | begin | stretch | finish => exact hsame rfl
  | _ => exact hquiet trivial

/-- A step that asks for a sound prints it only if it is not in the cache under its resolved key. -/
theorem resolves_cached {s : Synth} {σ : Step} (h : s.cache.Sorted) {found : SoundKey}
    (hfound : σ.resolves s = some found) :
    (∀ p, σ.started s = some p → ⟨found, p.pcm⟩ ∈ (σ.run s).cache.entries)
      ∧ ((σ.run s).printers = s.printers
        ∨ ∃ pcm printer, (σ.run s).printers = s.printers ++ [⟨pcm, printer⟩]
          ∧ (∀ e ∈ s.cache.entries, e.key ≠ found)
          ∧ ⟨found, pcm⟩ ∈ (σ.run s).cache.entries) := by
  obtain ⟨key, hasks, rfl⟩ := Option.map_eq_some_iff.mp hfound
  obtain ⟨t, trim, halike, hrun, hstarted⟩ := plays hasks
  have hcache : t.cache = s.cache := congrArg (·.2.2.1) halike.1
  have hprinters : t.printers = s.printers := congrArg (·.2.2.2.1) halike.1
  have hplayed := playSound_cached (hcache ▸ h) key trim
  rw [hcache, hprinters, halike.resolvedKey] at hplayed
  rw [hrun, hstarted]
  exact hplayed

end Step

section

variable (format : Format) (calls : List Call)

theorem cache_after (k : Nat) : (Moment.after format calls k).synth.cache.Sorted :=
  Moment.after_invariant (motive := fun m => m.synth.cache.Sorted) .nil
    (fun _ _ allowed h => (Step.cache_run h allowed).1) calls k

theorem cache_stays {i j : Nat} (hij : i ≤ j)
    (hkept : ∀ m, i ≤ m → m < j → ((ofFormat format).history calls)[m]? ≠ some .clearCache) :
    (Moment.after format calls i).synth.cache.Extends
      (Moment.after format calls j).synth.cache := by
  induction j, hij using Nat.le_induction with
  | base => exact fun e he => he
  | succ j hij ih =>
    have hbefore := ih fun m hm hlt => hkept m hm (Nat.lt_succ_of_lt hlt)
    cases hnext : ((ofFormat format).history calls)[j]? with
    | none =>
      rw [Moment.after_end hnext]
      exact hbefore
    | some σ =>
      obtain ⟨allowed, htake⟩ := Moment.after_succ hnext
      have hclear : σ ≠ .clearCache := by
        rintro rfl
        exact hkept j hij (Nat.lt_succ_self j) hnext
      rw [htake]
      have hstep := (Step.cache_run (cache_after format calls j) allowed).2 hclear
      exact fun e he => hstep e (hbefore e he)

section

variable {format calls}

/-- What a step that asks for a sound leaves behind: the buffer that it plays is cached under the
resolved key, and it printed the sound only where that key was not cached. -/
theorem cached_after_resolves {k : Nat} {σ : Step} {key : SoundKey}
    (hσ : ((ofFormat format).history calls)[k]? = some σ)
    (hkey : σ.resolves (Moment.after format calls k).synth = some key) :
    let before := (Moment.after format calls k).synth
    let after := (Moment.after format calls (k + 1)).synth
    (∀ p, σ.started before = some p → ⟨key, p.pcm⟩ ∈ after.cache.entries)
      ∧ (after.printers = before.printers
        ∨ ∃ pcm printer, after.printers = before.printers ++ [⟨pcm, printer⟩]
          ∧ (∀ e ∈ before.cache.entries, e.key ≠ key) ∧ ⟨key, pcm⟩ ∈ after.cache.entries) := by
  intro before after
  have hrun : after = σ.run before := congrArg Moment.synth (Moment.after_succ hσ).2
  rw [hrun]
  exact Step.resolves_cached (cache_after format calls k) hkey

/-- Of two steps that ask for one sound at most one prints it, and both play one buffer. -/
theorem printed_by_one {i j : Nat} {σ τ : Step} {key : SoundKey} (hij : i < j)
    (hσ : ((ofFormat format).history calls)[i]? = some σ)
    (hτ : ((ofFormat format).history calls)[j]? = some τ)
    (hkept : ∀ m, i < m → m < j → ((ofFormat format).history calls)[m]? ≠ some .clearCache)
    (hkeyσ : σ.resolves (Moment.after format calls i).synth = some key)
    (hkeyτ : τ.resolves (Moment.after format calls j).synth = some key) :
    let moment (k : Nat) : Synth := (Moment.after format calls k).synth
    ((moment (i + 1)).printers = (moment i).printers
        ∨ (moment (j + 1)).printers = (moment j).printers)
      ∧ ∀ p q, σ.started (moment i) = some p → τ.started (moment j) = some q → p.pcm = q.pcm := by
  intro moment
  obtain ⟨hfirst, hprinted⟩ := cached_after_resolves hσ hkeyσ
  obtain ⟨hsecond, hprinted'⟩ := cached_after_resolves hτ hkeyτ
  -- What the first step cached is still there before and after the second.
  have hbefore : (moment (i + 1)).cache.Extends (moment j).cache :=
    cache_stays format calls hij fun m hm hlt => hkept m hm hlt
  have hafter : (moment j).cache.Extends (moment (j + 1)).cache := by
    refine cache_stays format calls (Nat.le_succ j) fun m hm hlt hclear => ?_
    obtain rfl : m = j := by omega
    obtain rfl : τ = .clearCache := Option.some.inj (hτ.symm.trans hclear)
    cases hkeyτ
  constructor
  · rcases hprinted with hsame | ⟨pcm, printer, -, -, hmem⟩
    · exact .inl hsame
    · rcases hprinted' with hsame | ⟨pcm', printer', -, hother, -⟩
      · exact .inr hsame
      · exact absurd rfl (hother _ (hbefore _ hmem))
  · intro p q hp hq
    have hsorted : (moment (j + 1)).cache.Sorted := cache_after format calls (j + 1)
    have hp' := hsorted.find?_eq_some.mpr (hafter _ (hbefore _ (hfirst p hp)))
    have hq' := hsorted.find?_eq_some.mpr (hsecond q hq)
    exact Option.some.inj (hp'.symm.trans hq')

end

end

/-- Between two times that the cache is cleared a sound is printed at most once under a resolved key,
and all playbacks of that key share one buffer. At every moment the cache is strictly in order with
one buffer a key, and takes a buffer wherever a search has missed the key; a sound that is neither
cached nor stored is played as that of qualifier zero. -/
theorem sounds_print_once (format : Format) (calls : List Call) :
    let history := (ofFormat format).history calls
    let moment (k : Nat) : Synth := (Moment.after format calls k).synth
    (∀ k, (moment k).cache.Sorted ∧ ((moment k).cache.entries.map CacheEntry.key).Nodup
        ∧ ∀ key index pcm, (moment k).cache.search key = .missing index →
          ((moment k).cache.insertAt index key pcm).1 = true)
      ∧ (∀ k key, ((moment k).Holds key → (moment k).resolvedKey key = key)
        ∧ (¬ (moment k).Holds key → (moment k).resolvedKey key = ⟨0, key.id⟩)
        ∧ ∀ trim, (moment k).playSound key trim
            = (moment k).playSound ((moment k).resolvedKey key) trim)
      ∧ (∀ k σ key, history[k]? = some σ → σ.resolves (moment k) = some key →
          (moment (k + 1)).printers = (moment k).printers
            ∨ ∃ job, (moment (k + 1)).printers = (moment k).printers ++ [job]
              ∧ ⟨key, job.pcm⟩ ∈ (moment (k + 1)).cache.entries)
      ∧ ∀ i j σ τ key, i < j → history[i]? = some σ → history[j]? = some τ →
          (∀ m, i < m → m < j → history[m]? ≠ some .clearCache) →
          σ.resolves (moment i) = some key → τ.resolves (moment j) = some key →
          ((moment (i + 1)).printers = (moment i).printers
              ∨ (moment (j + 1)).printers = (moment j).printers)
            ∧ ∀ p q, σ.started (moment i) = some p → τ.started (moment j) = some q →
                p.pcm = q.pcm := by
  intro history moment
  have hsorted (k : Nat) : (moment k).cache.Sorted := cache_after format calls k
  refine ⟨?_, ?_, ?_, ?_⟩
  · intro k
    refine ⟨hsorted k, (hsorted k).nodup, ?_⟩
    intro key index pcm hmissing
    exact (hsorted k).insertAt_missing hmissing pcm
  · intro k key
    have hknows := knowsSound_iff (hsorted k) key
    refine ⟨?_, ?_, playSound_resolvedKey _ key⟩
    · intro hheld
      exact if_pos (hknows.mpr hheld)
    · intro hnone
      exact if_neg fun hknown => hnone (hknows.mp hknown)
  · intro k σ key hσ hkey
    rcases (cached_after_resolves hσ hkey).2 with hsame | ⟨pcm, printer, hprinters, -, hmem⟩
    · exact .inl hsame
    · exact .inr ⟨_, hprinters, hmem⟩
  · intro i j σ τ key hij hσ hτ hkept hkeyσ hkeyτ
    exact printed_by_one hij hσ hτ hkept hkeyσ hkeyτ

/-- A sound that only qualifier zero has is played by two keys. -/
def fallbackCalls : List Call :=
  [.setResources { entries := [(⟨.sound, 0, 7⟩, [0xeb, 0xeb, 0x00, 0x00, 0x01, 0x00])] },
    .message (.playSound ⟨1, 7⟩ 1), .message (.playSound ⟨0, 7⟩ 1)]

def fallbackSynth (k : Nat) : Synth :=
  (Moment.after Format.standard fallbackCalls k).synth

/-- The first play starts the one printer, and the second plays what it prints. -/
theorem sounds_print_once_fallback :
    (Step.playSound ⟨1, 7⟩ 1).resolves (fallbackSynth 1) = some ⟨0, 7⟩
      ∧ (Step.playSound ⟨0, 7⟩ 1).resolves (fallbackSynth 2) = some ⟨0, 7⟩
      ∧ (fallbackSynth 1).printers.length = 0
      ∧ (fallbackSynth 2).printers.length = 1
      ∧ (fallbackSynth 3).printers = (fallbackSynth 2).printers
      ∧ ∃ p q, (Step.playSound ⟨1, 7⟩ 1).started (fallbackSynth 1) = some p
        ∧ (Step.playSound ⟨0, 7⟩ 1).started (fallbackSynth 2) = some q ∧ p.pcm = q.pcm := by
  have hfirst : (Step.playSound ⟨1, 7⟩ 1).resolves (fallbackSynth 1) = some ⟨0, 7⟩ := by
    decide +kernel
  have hsecond : (Step.playSound ⟨0, 7⟩ 1).resolves (fallbackSynth 2) = some ⟨0, 7⟩ := by
    decide +kernel
  have hnone : (fallbackSynth 1).printers.length = 0 := by decide +kernel
  have hone : (fallbackSynth 2).printers.length = 1 := by decide +kernel
  obtain ⟨hprinters, hshared⟩ := (sounds_print_once Format.standard fallbackCalls).2.2.2 1 2 _ _ _
    (by decide) rfl rfl (fun m hm hlt => by omega) hfirst hsecond
  obtain ⟨p, hp⟩ : ∃ p, (Step.playSound ⟨1, 7⟩ 1).started (fallbackSynth 1) = some p :=
    Option.isSome_iff_exists.mp (by decide +kernel)
  obtain ⟨q, hq⟩ : ∃ q, (Step.playSound ⟨0, 7⟩ 1).started (fallbackSynth 2) = some q :=
    Option.isSome_iff_exists.mp (by decide +kernel)
  have hsame : (fallbackSynth 3).printers = (fallbackSynth 2).printers := by
    refine hprinters.resolve_left fun hidle => ?_
    have hlength : (fallbackSynth 2).printers.length = (fallbackSynth 1).printers.length :=
      congrArg List.length hidle
    omega
  exact ⟨hfirst, hsecond, hnone, hone, hsame, p, q, hp, hq, hshared p q hp hq⟩

end Tonewheel.Synth
