import Tonewheel.Proofs.Signal.Blocks

/-!
# Mixing in two parts

A block that is mixed in as a whole can be mixed in in two parts, as long as its first part leaves
nothing of the first part of the output over or its second part is empty.
-/

namespace Tonewheel.Block

theorem getElem?_mix {out block : Block} (h : block.size ≤ out.size) (i : Nat) :
    (mix out block)[i]?
      = out[i]?.map fun x => match block[i]? with | some y => x + y | none => x := by
  have hsize : (Array.zipWith (· + ·) out block).size = block.size := by
    rw [Array.size_zipWith, Nat.min_eq_right h]
  rw [mix]
  by_cases hi : i < block.size
  · rw [Array.getElem?_append_left (hsize ▸ hi), Array.getElem?_zipWith,
      Array.getElem?_eq_getElem hi, Array.getElem?_eq_getElem (Nat.lt_of_lt_of_le hi h)]
    rfl
  · rw [Array.getElem?_append_right (by omega), hsize, Array.getElem?_extract,
      Array.getElem?_eq_none (Nat.le_of_not_lt hi)]
    dsimp only
    rw [Option.map_id']
    split
    · rw [Nat.add_sub_cancel' (Nat.le_of_not_lt hi)]
    · rw [Array.getElem?_eq_none (by omega)]

/-- Whether a block of at most so many samples is followed by more only if it has all of them. -/
def Cut (j : Nat) (x y : Block) : Prop := x.size = j ∨ x.size ≤ j ∧ y = #[]

theorem mix_cut {j k : Nat} {a b x y : Block} (ha : a.size = j) (hb : b.size = k) (hx : Cut j x y)
    (hy : y.size ≤ k) :
    mix (a ++ b) (x ++ y) = mix a x ++ mix b y ∧ (mix a x).size = j ∧ (mix b y).size = k := by
  subst ha hb
  have hfits : x.size ≤ a.size := by
    rcases hx with hx | ⟨hx, -⟩ <;> omega
  have hwhole : (x ++ y).size ≤ (a ++ b).size := by
    rw [Array.size_append, Array.size_append]
    omega
  have hsize := size_mix a x hfits
  refine ⟨?_, hsize, size_mix b y hy⟩
  apply Array.ext_getElem?
  intro i
  rw [getElem?_mix hwhole]
  rcases Nat.lt_or_ge i a.size with hi | hi
  · have hout : (a ++ b)[i]? = a[i]? := Array.getElem?_append_left hi
    have hmixed : (mix a x ++ mix b y)[i]? = (mix a x)[i]? :=
      Array.getElem?_append_left (hsize.symm ▸ hi)
    have hblock : (x ++ y)[i]? = x[i]? := by
      rcases hx with hx | ⟨-, rfl⟩
      · exact Array.getElem?_append_left (hx.symm ▸ hi)
      · rw [Array.append_empty]
    rw [hout, hmixed, hblock, getElem?_mix hfits]
  · have hout : (a ++ b)[i]? = b[i - a.size]? := Array.getElem?_append_right hi
    have hmixed : (mix a x ++ mix b y)[i]? = (mix b y)[i - a.size]? := by
      rw [Array.getElem?_append_right (hsize.symm ▸ hi), hsize]
    have hblock : (x ++ y)[i]? = y[i - a.size]? := by
      rcases hx with hx | ⟨hx, rfl⟩
      · rw [Array.getElem?_append_right (hx.symm ▸ hi), hx]
      · rw [Array.append_empty, Array.getElem?_eq_none (Nat.le_trans hx hi)]
        rfl
    rw [hout, hmixed, hblock, getElem?_mix hy]

theorem Cut.map {j : Nat} {x y : Block} (h : Cut j x y) (f : Float32 → Float32) :
    Cut j (x.map f) (y.map f) := by
  rcases h with h | ⟨h, rfl⟩
  · exact .inl (Array.size_map.trans h)
  · exact .inr ⟨Nat.le_trans (Nat.le_of_eq Array.size_map) h, Array.map_empty⟩

theorem extract_add (data : Block) (start j k : Nat) :
    data.extract start (start + (j + k))
        = data.extract start (start + j)
          ++ data.extract (start + (data.extract start (start + j)).size)
            (start + (data.extract start (start + j)).size + k)
      ∧ Cut j (data.extract start (start + j))
        (data.extract (start + (data.extract start (start + j)).size)
          (start + (data.extract start (start + j)).size + k)) := by
  have hsize : (data.extract start (start + j)).size = min (start + j) data.size - start :=
    Array.size_extract
  rcases Nat.le_total (start + j) data.size with hmore | hends
  · have hfull : (data.extract start (start + j)).size = j := by omega
    refine ⟨?_, .inl hfull⟩
    rw [hfull, Array.extract_append_extract, Nat.min_eq_left (Nat.le_add_right _ _),
      Nat.max_eq_right (Nat.le_add_right _ _), Nat.add_assoc]
  · have hnone : ∀ stop, data.extract (start + (data.extract start (start + j)).size) stop = #[] :=
      fun stop => Array.extract_empty_of_size_le_start (by omega)
    rw [hnone, Array.append_empty]
    exact ⟨Array.extract_eq_extract_right.mpr (by omega), .inr ⟨by omega, rfl⟩⟩

end Tonewheel.Block
