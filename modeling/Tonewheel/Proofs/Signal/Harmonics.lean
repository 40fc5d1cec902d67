import Tonewheel.Signal.Wave

/-!
# Sums of harmonics (SPEC_FULL, section 4.2)

The table position of a harmonic is stepped from sample to sample and wrapped by addition, so at
sample `i` it is `i` strides, wrapped once (`getElem_addHarmonicFrom`), for strides that divide the
table and for those that do not. A wave's harmonics are then the sum that defines them, added up in
order (`Wave.sums_harmonics`), and read from inside the table.
-/

namespace Tonewheel.Wave

def coefficientOf (cs : List UInt8) (k : Nat) : UInt8 := cs.getD (k - 1) 0

def harmonic (w : Wave) (coefficient : UInt8) (i k : Nat) : Float32 :=
  w.get ⟨(i * k) % waveSize, wrap_lt _⟩ * (coefficient.toFloat32 / 255)

/-! ### Sample by sample -/

theorem wrap_step (i stride : Nat) :
    ((i * stride) % waveSize + stride) % waveSize = ((i + 1) * stride) % waveSize := by
  rw [Nat.mod_add_mod, Nat.succ_mul]

/-- The samples before `i` are left as they are, and each of the others takes what is read at its
own number of strides. -/
theorem getElem_addHarmonicFrom (source : Wave) (stride : Nat) (level : Float32) (i : Nat)
    (read : Fin waveSize) (acc : Wave) (hread : read.val = (i * stride) % waveSize)
    (j : Fin waveSize) :
    (addHarmonicFrom source stride level i read acc)[j]
      = if j.val < i then acc[j]
        else acc[j] + source.get ⟨(j.val * stride) % waveSize, wrap_lt _⟩ * level := by
  fun_induction addHarmonicFrom source stride level i read acc with
  | case1 i read acc hi ih =>
    have hnext : (read.val + stride) % waveSize = ((i + 1) * stride) % waveSize := by
      rw [hread, wrap_step]
    rw [ih hnext]
    show (if j.val < i + 1 then (acc.set i (acc[i] + source[read] * level))[j.val]
      else (acc.set i (acc[i] + source[read] * level))[j.val]
        + source.get ⟨(j.val * stride) % waveSize, wrap_lt _⟩ * level) = _
    rw [Vector.getElem_set]
    rcases Nat.lt_trichotomy j.val i with hbefore | rfl | hbehind
    · rw [if_pos (Nat.lt_succ_of_lt hbefore), if_neg (Nat.ne_of_gt hbefore), if_pos hbefore]
      rfl
    · have hplace : read = ⟨(j.val * stride) % waveSize, wrap_lt _⟩ := Fin.ext hread
      rw [if_pos (Nat.lt_succ_self _), if_pos rfl, if_neg (Nat.lt_irrefl _)]
      exact congrArg (acc[j] + source.get · * level) hplace
    · rw [if_neg (Nat.not_lt.mpr hbehind), if_neg (Nat.ne_of_lt hbehind),
        if_neg (Nat.lt_asymm hbehind)]
      rfl
  | case2 i read acc hi =>
    have hj := j.isLt
    rw [if_pos (by omega)]

theorem getElem_addHarmonic (source acc : Wave) (stride : Nat) (c : UInt8) (j : Fin waveSize) :
    (addHarmonic source acc stride c)[j]
      = if c = 0 then acc[j] else acc[j] + source.harmonic c j stride := by
  have hstart : (⟨0, waveSize_pos⟩ : Fin waveSize).val = (0 * stride) % waveSize := by
    rw [Nat.zero_mul]
    rfl
  unfold addHarmonic
  split
  · rfl
  · rw [getElem_addHarmonicFrom source stride _ 0 _ acc hstart, if_neg (Nat.not_lt_zero _)]
    rfl

/-- The harmonics from number `stride` on, where `coefficient` gives that of each number. -/
theorem getElem_addHarmonics (source : Wave) (coefficient : Nat → UInt8) (stride : Nat)
    (cs : List UInt8) (acc : Wave)
    (hcs : ∀ m < cs.length, cs[m]? = some (coefficient (stride + m))) (j : Fin waveSize) :
    (addHarmonics source stride cs acc)[j]
      = ((List.range' stride cs.length).filter (coefficient · ≠ 0)).foldl
          (fun sum k => sum + source.harmonic (coefficient k) j k) acc[j] := by
  induction cs generalizing stride acc with
  | nil => rfl
  | cons c cs ih =>
    have hc : c = coefficient stride := Option.some.inj (hcs 0 (Nat.succ_pos _))
    have hrest : ∀ m < cs.length, cs[m]? = some (coefficient (stride + 1 + m)) := by
      intro m hm
      rw [Nat.add_assoc, Nat.add_comm 1 m]
      exact hcs (m + 1) (Nat.succ_lt_succ hm)
    rw [addHarmonics, ih (stride + 1) _ hrest, getElem_addHarmonic, List.length_cons,
      List.range'_succ, List.filter_cons, ← hc]
    by_cases hzero : c = 0
    · simp [hzero]
    · simp [hzero, ← hc]

/-! ### Inside the table -/

def addHarmonicFrom? (source : Wave) (stride : Nat) (level : Float32) (i read : Nat) (acc : Wave) :
    Option Wave :=
  if h : i < waveSize then
    source[read]?.bind fun x =>
      addHarmonicFrom? source stride level (i + 1) ((read + stride) % waveSize)
        (acc.set i (acc[i] + x * level))
  else some acc
  termination_by waveSize - i

def addHarmonic? (source acc : Wave) (stride : Nat) (coefficient : UInt8) : Option Wave :=
  if coefficient = 0 then some acc
  else addHarmonicFrom? source stride (coefficient.toFloat32 / 255) 0 0 acc

def addHarmonics? (source : Wave) : Nat → List UInt8 → Wave → Option Wave
  | _, [], acc => some acc
  | stride, c :: cs, acc =>
    (addHarmonic? source acc stride c).bind (addHarmonics? source (stride + 1) cs)

def withHarmonics? (source : Wave) (coefficients : List UInt8) : Option Wave :=
  addHarmonics? source 1 (coefficients.take harmonicsLimit) silent

theorem addHarmonicFrom?_eq (source : Wave) (stride : Nat) (level : Float32) (i : Nat)
    (read : Fin waveSize) (acc : Wave) :
    addHarmonicFrom? source stride level i read.val acc
      = some (addHarmonicFrom source stride level i read acc) := by
  fun_induction addHarmonicFrom source stride level i read acc with
  | case1 i read acc hi ih =>
    have hread : source[read.val]? = some source[read] := Vector.getElem?_eq_getElem read.isLt
    rw [addHarmonicFrom?, dif_pos hi, hread, Option.bind_some]
    exact ih
  | case2 i read acc hi => rw [addHarmonicFrom?, dif_neg hi]

theorem addHarmonic?_eq (source acc : Wave) (stride : Nat) (c : UInt8) :
    addHarmonic? source acc stride c = some (addHarmonic source acc stride c) := by
  unfold addHarmonic? addHarmonic
  split
  · rfl
  · exact addHarmonicFrom?_eq source stride _ 0 ⟨0, waveSize_pos⟩ acc

theorem addHarmonics?_eq (source : Wave) (stride : Nat) (cs : List UInt8) (acc : Wave) :
    addHarmonics? source stride cs acc = some (addHarmonics source stride cs acc) := by
  induction cs generalizing stride acc with
  | nil => rfl
  | cons c cs ih => rw [addHarmonics?, addHarmonic?_eq, Option.bind_some, ih, addHarmonics]

/-- A sample of a sum of harmonics is the sum, from the first to the last and at most to number 511,
of the samples that lie as many strides ahead, less those whose coefficient is zero. All of them are
read inside the table. -/
theorem sums_harmonics (w : Wave) (cs : List UInt8) :
    (∀ i : Fin waveSize,
      (w.withHarmonics cs)[i]
        = ((List.range' 1 (min cs.length 511)).filter (coefficientOf cs · ≠ 0)).foldl
            (fun sum k => sum + w.harmonic (coefficientOf cs k) i k) 0)
      ∧ w.withHarmonics? cs = some (w.withHarmonics cs) := by
  refine ⟨fun i => ?_, addHarmonics?_eq w 1 _ silent⟩
  have hlength : (cs.take harmonicsLimit).length = min cs.length 511 := by
    rw [List.length_take, Nat.min_comm]
    rfl
  have hcs : ∀ m < (cs.take harmonicsLimit).length,
      (cs.take harmonicsLimit)[m]? = some (coefficientOf cs (1 + m)) := by
    intro m hm
    have hshort : m < harmonicsLimit ∧ m < cs.length := by
      rw [List.length_take] at hm
      omega
    rw [List.getElem?_take_of_lt hshort.1, coefficientOf, Nat.add_sub_cancel_left,
      List.getD_eq_getElem?_getD, List.getElem?_eq_getElem hshort.2]
    rfl
  have hsilent : silent[i] = 0 := Vector.getElem_replicate i.isLt
  rw [withHarmonics, getElem_addHarmonics w (coefficientOf cs) 1 _ silent hcs i, hlength, hsilent]

end Tonewheel.Wave
