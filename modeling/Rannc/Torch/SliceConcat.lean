import Rannc.Torch.IValue
import Rannc.Torch.Tensor

/-!
# Slicing and concatenating

A value is cut into the parts of a batch by its rows. Tensors without dimensions have no rows, so
every part gets them weighted. Products are exact here.
-/
namespace Rannc

variable {K : Type} [Field K]

/-- The index is one of those of the sizes, as the code asserts. -/
def splitWeight (batch_sizes : List ℕ) (index : ℕ) : K :=
  (batch_sizes.getD index 0 : K) / (batch_sizes.sum : K)

def sliceOrWeight (batch_sizes : List ℕ) (index : ℕ) (t : Tensor K) : Tensor K :=
  if t.dim = [] then t.scale (splitWeight batch_sizes index)
  else
    let offset := (batch_sizes.take index).sum
    t.slice offset (offset + batch_sizes.getD index 0)

def sliceOrWeightTensorsInIValue (ivalue : IValue (Tensor K)) (batch_sizes : List ℕ)
    (index : ℕ) : IValue (Tensor K) :=
  ivalue.transformTensorsInIValue (sliceOrWeight batch_sizes index)

def concatTensorsInIValues (ivalues : List (IValue (Tensor K))) : Option (IValue (Tensor K)) :=
  IValue.aggregateTensorsInIValues Tensor.cat ivalues

/-- The parts for all sizes. -/
def slicesOf (ivalue : IValue (Tensor K)) (batch_sizes : List ℕ) : List (IValue (Tensor K)) :=
  (List.range batch_sizes.length).map (sliceOrWeightTensorsInIValue ivalue batch_sizes)

section Rows

variable {batch_sizes : List ℕ} {t : Tensor K}

theorem sum_take_succ_getD {index : ℕ} (hindex : index < batch_sizes.length) :
    (batch_sizes.take (index + 1)).sum =
      (batch_sizes.take index).sum + batch_sizes.getD index 0 := by
  rw [List.sum_take_succ _ _ hindex, List.getD_eq_getElem _ _ hindex]

theorem getD_add_le_sum {index : ℕ} (hindex : index < batch_sizes.length) :
    (batch_sizes.take index).sum + batch_sizes.getD index 0 ≤ batch_sizes.sum := by
  have hsplit := congrArg List.sum (List.take_append_drop (index + 1) batch_sizes)
  rw [List.sum_append, sum_take_succ_getD hindex] at hsplit
  omega

theorem sliceOrWeight_of_rows (hrows : t.dim.head? = some batch_sizes.sum) {index : ℕ}
    (hindex : index < batch_sizes.length) :
    (sliceOrWeight batch_sizes index t).dim = batch_sizes.getD index 0 :: t.dim.tail ∧
      (sliceOrWeight batch_sizes index t).elem_type = t.elem_type ∧
      (sliceOrWeight batch_sizes index t).data =
        slice t.data ((batch_sizes.take index).sum * t.rowSize,
          batch_sizes.getD index 0 * t.rowSize) := by
  have hdim : t.dim ≠ [] := by
    intro hnil
    simp [hnil] at hrows
  have hle := getD_add_le_sum hindex
  have hall : t.rows = batch_sizes.sum := by
    obtain ⟨rest, hcons⟩ := List.head?_eq_some_iff.mp hrows
    simp [Tensor.rows, hcons]
  have hfirst : min (batch_sizes.take index).sum t.rows = (batch_sizes.take index).sum := by omega
  have hcount : min ((batch_sizes.take index).sum + batch_sizes.getD index 0) t.rows -
      min (batch_sizes.take index).sum t.rows = batch_sizes.getD index 0 := by omega
  rw [sliceOrWeight, if_neg hdim]
  unfold Tensor.slice
  dsimp only
  rw [hcount, hfirst]
  exact ⟨rfl, rfl, rfl⟩

theorem flatMap_slices (hrows : t.dim.head? = some batch_sizes.sum) :
    (List.range batch_sizes.length).flatMap
      (fun index => (sliceOrWeight batch_sizes index t).data) = t.data := by
  have hfirsts (n : ℕ) (hn : n ≤ batch_sizes.length) :
      (List.range n).flatMap (fun index => (sliceOrWeight batch_sizes index t).data) =
        t.data.take ((batch_sizes.take n).sum * t.rowSize) := by
    induction n with
    | zero => simp
    | succ n ih =>
      have hspec := (sliceOrWeight_of_rows hrows (show n < batch_sizes.length by omega)).2.2
      have htake := sum_take_succ_getD (show n < batch_sizes.length by omega)
      rw [List.range_succ, List.flatMap_append, ih (by omega), List.flatMap_cons,
        List.flatMap_nil, List.append_nil, hspec, htake, Nat.add_mul, List.take_add]
      rfl
  rw [hfirsts _ le_rfl, List.take_length, ← Tensor.length_data_of_rows hrows, List.take_length]

theorem sum_rows_slices (hrows : t.dim.head? = some batch_sizes.sum) :
    ((List.range batch_sizes.length).map fun index =>
      (sliceOrWeight batch_sizes index t).rows).sum = batch_sizes.sum := by
  have hsizes : ((List.range batch_sizes.length).map fun index =>
      (sliceOrWeight batch_sizes index t).rows) = batch_sizes := by
    apply List.ext_getElem
    · simp
    · intro index hindex hindex'
      have hspec := (sliceOrWeight_of_rows hrows hindex').1
      simp [Tensor.rows, hspec, List.getElem?_eq_getElem hindex']
  rw [hsizes]

theorem cat_slices (hne : batch_sizes ≠ []) (hrows : t.dim.head? = some batch_sizes.sum) :
    Tensor.cat ((List.range batch_sizes.length).map
      fun index => sliceOrWeight batch_sizes index t) = some t.detach := by
  obtain ⟨rest, hdim⟩ := List.head?_eq_some_iff.mp hrows
  have hslices : (List.range batch_sizes.length).map
      (fun index => sliceOrWeight batch_sizes index t) ≠ [] := by simpa using hne
  have hall : ∀ u ∈ (List.range batch_sizes.length).map
      (fun index => sliceOrWeight batch_sizes index t),
        u.elem_type = t.elem_type ∧ ∃ n, u.dim = n :: rest := by
    intro u hu
    obtain ⟨index, hindex, rfl⟩ := List.mem_map.mp hu
    have hspec := sliceOrWeight_of_rows hrows (List.mem_range.mp hindex)
    rw [hspec.1, hdim]
    exact ⟨hspec.2.1, _, rfl⟩
  obtain ⟨w, hcat, htype, hwdim, hgrad, hdata⟩ := Tensor.cat_spec hslices hall
  rw [hcat, Option.some.injEq]
  apply Tensor.ext
  · exact htype
  · have hsum := sum_rows_slices hrows
    rw [hwdim, List.map_map]
    exact (congrArg (· :: rest) hsum).trans hdim.symm
  · exact hgrad
  · rw [hdata, List.flatMap_map]
    exact flatMap_slices hrows

end Rows

theorem concat_slicesOf (ivalue : IValue (Tensor K)) {batch_sizes : List ℕ} (hne : batch_sizes ≠ [])
    (hrows : ∀ t ∈ ivalue.tensors, t.dim.head? = some batch_sizes.sum) :
    concatTensorsInIValues (slicesOf ivalue batch_sizes) =
      some (ivalue.transformTensorsInIValue Tensor.detach) := by
  obtain ⟨n, hn⟩ := Nat.exists_eq_succ_of_ne_zero (mt List.eq_nil_of_length_eq_zero hne)
  have hrange : List.range batch_sizes.length = 0 :: (List.range n).map Nat.succ := by
    rw [hn, List.range_succ_eq_map]
  unfold concatTensorsInIValues slicesOf
  rw [hrange, List.map_cons, IValue.aggregateTensorsInIValues]
  apply IValue.aggregate_transform
  intro t ht
  rw [← hrange]
  exact cat_slices hne (hrows t ht)

theorem sum_splitWeight [CharZero K] {batch_sizes : List ℕ} (hpos : 0 < batch_sizes.sum) :
    ((List.range batch_sizes.length).map (splitWeight (K := K) batch_sizes)).sum = 1 := by
  have hweights : (List.range batch_sizes.length).map (splitWeight (K := K) batch_sizes) =
      batch_sizes.map fun batch_size : ℕ => (batch_size : K) * (batch_sizes.sum : K)⁻¹ := by
    apply List.ext_getElem
    · simp
    · intro index hindex hindex'
      have hlt : index < batch_sizes.length := by simpa using hindex
      simp [splitWeight, div_eq_mul_inv, List.getElem?_eq_getElem hlt]
  have hne : (batch_sizes.sum : K) ≠ 0 := Nat.cast_ne_zero.mpr hpos.ne'
  rw [hweights, List.sum_map_mul_right, ← Nat.cast_list_sum, mul_inv_cancel₀ hne]

/-- Slicing a value by some sizes can be undone, and scalars are shared out. -/
structure SlicedAndWeighted (ivalue : IValue (Tensor K)) (batch_sizes : List ℕ) : Prop where
  concat : (∀ t ∈ ivalue.tensors, t.dim.head? = some batch_sizes.sum) →
    concatTensorsInIValues (slicesOf ivalue batch_sizes) =
      some (ivalue.transformTensorsInIValue Tensor.detach)
  weighted : ∀ t : Tensor K, t.dim = [] → ∀ index < batch_sizes.length,
    sliceOrWeight batch_sizes index t = t.scale (splitWeight batch_sizes index)
  sum_weights : ((List.range batch_sizes.length).map (splitWeight (K := K) batch_sizes)).sum = 1

theorem slices_concat_and_weights (K : Type) [Field K] [CharZero K] (ivalue : IValue (Tensor K))
    (batch_sizes : List ℕ) :
    (batch_sizes ≠ [] → (∀ t ∈ ivalue.tensors, t.dim.head? = some batch_sizes.sum) →
      concatTensorsInIValues (slicesOf ivalue batch_sizes) =
        some (ivalue.transformTensorsInIValue Tensor.detach)) ∧
    (∀ t : Tensor K, t.dim = [] → ∀ index < batch_sizes.length,
      sliceOrWeight batch_sizes index t = t.scale (splitWeight batch_sizes index)) ∧
    (0 < batch_sizes.sum →
      ((List.range batch_sizes.length).map (splitWeight (K := K) batch_sizes)).sum = 1) := by
  refine ⟨concat_slicesOf ivalue, ?_, sum_splitWeight⟩
  intro t hdim index _
  exact if_pos hdim

def threeRows : IValue (Tensor ℚ) :=
  .tuple [.tensor (Tensor.ofList .FLOAT true [1, 2, 3]),
    .list "Any" [.tensorList [Tensor.ofList .DOUBLE false [4, 5, 6]], .scalar (.int 7)]]

theorem slices_concat_and_weights_three :
    concatTensorsInIValues (slicesOf threeRows [2, 0, 1]) =
        some (threeRows.transformTensorsInIValue Tensor.detach) ∧
      ((List.range 3).map (splitWeight (K := ℚ) [2, 0, 1])).sum = 1 := by
  have h := slices_concat_and_weights ℚ threeRows [2, 0, 1]
  constructor
  · apply h.1 (by simp)
    intro t ht
    simp [threeRows, IValue.tensors] at ht
    cases ht with
    | inl heq => simp [heq, Tensor.ofList]
    | inr heq => simp [heq, Tensor.ofList]
  · exact h.2.2 (by decide)

/-- Parts without any rows have weights that are no shares. -/
theorem not_slicedAndWeighted :
    ¬ SlicedAndWeighted (.tensor (Tensor.ofList .FLOAT false ([] : List ℚ))) [0, 0] := by
  intro h
  have hsum := h.sum_weights
  simp [splitWeight, List.range_succ] at hsum

end Rannc
