import Rannc.Comm.TypeReduction
import Rannc.Graph.Allocation

/-!
# Scattered types

A type is cut into the types of the parts that the ranks get, and the types of the parts are reduced
to one again. For values whose tensors all have a batch as leading dimension the two are inverse,
whether or not all ranks have a share.
-/
namespace Rannc

open RoundRobin IRType

/-- Types whose tensors are all cut along the batch. Undefined tensors have no dimensions. -/
inductive BatchType (batch_size : ℕ) : IRType → Prop
  | tensor {elem_type : IRTensorElemType} (h : elem_type ≠ .UNDEF) {d : ℕ} (hd : batch_size ∣ d)
      (rest : List ℕ) (requires_grad : Bool) :
      BatchType batch_size (.tensor elem_type (d :: rest) requires_grad)
  | tensorList {types : List IRType} (htypes : ∀ type ∈ types, BatchType batch_size type)
      (htensors : ∀ type ∈ types, getBaseType type = .TENSOR) :
      BatchType batch_size (.list .TENSOR types)
  | list {types : List IRType} (htypes : ∀ type ∈ types, BatchType batch_size type) :
      BatchType batch_size (.list .GENERIC types)
  | tuple {types : List IRType} (htypes : ∀ type ∈ types, BatchType batch_size type) :
      BatchType batch_size (.tuple types)

/-- The types of the parts, in the order of the ranks. -/
def scatterTypes (type : IRType) (ranks : Finset ℕ) (batch_size : ℕ) : Option (List IRType) :=
  (sortRanks ranks).mapM fun r => getDistType ranks batch_size r type

section Scatter

variable {batch_size : ℕ} {ranks : Finset ℕ}

theorem getDistTypes_eq_mapM (rank : ℕ) (types : List IRType) :
    getDistTypes ranks batch_size rank types = types.mapM (getDistType ranks batch_size rank) := by
  induction types with
  | nil => rfl
  | cons type types ih => simp [getDistTypes, ih, List.mapM_cons]

theorem getDistTensorType_lookup {elem_type : IRTensorElemType} {d : ℕ} (hB : 1 ≤ batch_size)
    (hd : batch_size ∣ d) (rest : List ℕ) (requires_grad : Bool) {j : ℕ}
    (hj : j < (sortRanks ranks).length) :
    ((getDistTensorType (.tensor elem_type (d :: rest) requires_grad) ranks batch_size).bind
      fun types => types.lookup (sortRanks ranks)[j]) =
        some (shareType batch_size (dealt ranks.card 0 batch_size j)
          (.tensor elem_type (d :: rest) requires_grad)) := by
  obtain ⟨k, rfl⟩ := hd
  have hdim := calcDistBatchDims_lookup ranks 0 hB k rest hj
  rw [Nat.mul_comm k, Nat.zero_mul] at hdim
  have hpos : 0 < batch_size := hB
  have hlookup := lookup_map (fun dim => IRType.tensor elem_type dim requires_grad)
    (calcDistBatchDims batch_size (batch_size * k :: rest) ranks 0) (sortRanks ranks)[j]
  rw [hdim, Option.map_some] at hlookup
  have hguard : getTensorDim (.tensor elem_type (batch_size * k :: rest) requires_grad) ≠ [] ∧
      0 < batch_size := ⟨List.cons_ne_nil _ _, hpos⟩
  simp only [getDistTensorType, hguard, Option.bind_eq_bind]
  refine hlookup.trans ?_
  simp [shareType, mapTensors, shareDim, Nat.mul_div_cancel_left k hpos]

/-- The part of a rank has its share of the batch. -/
theorem BatchType.getDistType_eq (hB : 1 ≤ batch_size) {type : IRType}
    (htype : BatchType batch_size type) {j : ℕ} (hj : j < (sortRanks ranks).length) :
    getDistType ranks batch_size (sortRanks ranks)[j] type =
      some (shareType batch_size (dealt ranks.card 0 batch_size j) type) := by
  induction htype with
  | tensor h hd rest requires_grad =>
    rw [getDistType, if_neg (List.cons_ne_nil _ _)]
    exact getDistTensorType_lookup hB hd rest requires_grad hj
  | @tensorList types htypes htensors ih =>
    have hparts : ∀ type ∈ types,
        ((getDistTensorType type ranks batch_size).bind fun parts =>
          parts.lookup (sortRanks ranks)[j]) =
            some (shareType batch_size (dealt ranks.card 0 batch_size j) type) := by
      intro type hmem
      have htensor := htensors type hmem
      cases htypes type hmem with
      | tensor h hd rest requires_grad => exact getDistTensorType_lookup hB hd rest requires_grad hj
      | tensorList => cases htensor
      | list => cases htensor
      | tuple => cases htensor
    simp only [getDistType, Option.bind_eq_bind, mapM_eq_some_map hparts]
    simp [shareType]
  | list htypes ih =>
    simp only [getDistType, getDistTypes_eq_mapM, mapM_eq_some_map ih]
    simp [shareType]
  | tuple htypes ih =>
    simp only [getDistType, getDistTypes_eq_mapM, mapM_eq_some_map ih]
    simp [shareType]

end Scatter

section Reduce

variable {batch_size : ℕ}

/-- The types of parts with some samples each. -/
def partTypes (batch_size : ℕ) (type : IRType) (rows : List ℕ) : List IRType :=
  rows.map fun n => shareType batch_size n type

theorem partTypes_eq (type : IRType) (rows : List ℕ) :
    partTypes batch_size type rows =
      (rows.map LocalValue.share).map (LocalValue.toIRType batch_size type) := by
  rw [partTypes, List.map_map]
  rfl

theorem totalRows_share (rows : List ℕ) : totalRows (rows.map LocalValue.share) = rows.sum := by
  induction rows with
  | nil => rfl
  | cons n rows ih => rw [List.map_cons, totalRows_cons, ih, List.sum_cons, LocalValue.rows]

theorem doReduceTypes_partTypes {type : IRType} (n : ℕ) (rows : List ℕ)
    (hvalid : ∀ n, isValidType (shareType batch_size n type))
    (hsame : ∀ n, getBaseType (shareType batch_size n type) = getBaseType type) :
    doReduceTypes (partTypes batch_size type (n :: rows)) =
      reduceAs doReduceTypes (partTypes batch_size type (n :: rows))
        (shareType batch_size n type) := by
  have hfirst : getFirstValidType (partTypes batch_size type (n :: rows)) =
      some (shareType batch_size n type) :=
    List.find?_cons_of_pos (decide_eq_true (hvalid n))
  have hkinds : ∀ part ∈ partTypes batch_size type (n :: rows),
      getBaseType part = .NONE ∨ getBaseType (shareType batch_size n type) = getBaseType part := by
    intro part hpart
    obtain ⟨m, -, rfl⟩ := List.mem_map.mp hpart
    exact Or.inr ((hsame n).trans (hsame m).symm)
  have hnone : getNonNoneTypes (partTypes batch_size type (n :: rows)) =
      partTypes batch_size type (n :: rows) := by
    apply List.filter_eq_self.mpr
    intro part hpart
    obtain ⟨m, -, rfl⟩ := List.mem_map.mp hpart
    exact decide_eq_true fun hbase => hvalid m (Or.inl hbase)
  rw [doReduceTypes_eq hfirst hkinds, hnone]

theorem mapM_partTypes {type : IRType} {types : List IRType} {rows : List ℕ}
    (helems : ∀ l : LocalValue, l ≠ .absent → (l.toIRType batch_size type).getCompoundTypes =
      types.map fun elem => l.toIRType batch_size elem)
    (ih : ∀ elem ∈ types, doReduceTypes (partTypes batch_size elem rows) =
      some (shareType batch_size rows.sum elem)) :
    ((List.range types.length).mapM fun i =>
      (elemTypes (partTypes batch_size type rows) i).bind doReduceTypes) =
        some (types.map (shareType batch_size rows.sum)) := by
  have habsent : LocalValue.absent ∉ rows.map LocalValue.share := by simp
  have hreduced : ∀ i ∈ List.range types.length,
      (elemTypes (partTypes batch_size type rows) i).bind doReduceTypes =
        some (shareType batch_size rows.sum (types.getD i .none)) := by
    intro i hi
    have hlt := List.mem_range.mp hi
    rw [partTypes_eq, elemTypes_shares helems habsent hlt, Option.bind_some, ← partTypes_eq,
      ih _ (List.getElem_mem hlt), List.getD_eq_getElem _ _ hlt]
  rw [mapM_eq_some_map hreduced]
  congr 1
  apply List.ext_getElem
  · simp
  · intro i hi _
    have hlt : i < types.length := by simpa using hi
    simp [hlt]

theorem doReduceTypes_list {list_type : IRListType} (h : list_type = .TENSOR ∨ list_type = .GENERIC)
    {types : List IRType} (n : ℕ) (rows : List ℕ)
    (ih : ∀ elem ∈ types, doReduceTypes (partTypes batch_size elem (n :: rows)) =
      some (shareType batch_size (n :: rows).sum elem)) :
    doReduceTypes (partTypes batch_size (.list list_type types) (n :: rows)) =
      some (shareType batch_size (n :: rows).sum (.list list_type types)) := by
  have hshape : ∀ n, shareType batch_size n (.list list_type types) =
      .list list_type (types.map (shareType batch_size n)) := fun n => mapTensors_list _ _ _
  have helems : ∀ l : LocalValue, l ≠ .absent →
      (l.toIRType batch_size (.list list_type types)).getCompoundTypes =
        types.map fun elem => l.toIRType batch_size elem := by
    intro l hl
    rw [toIRType_list hl]
    rfl
  rw [doReduceTypes_partTypes n rows (by simp [hshape, isValidType, getBaseType])
    (by simp [hshape, getBaseType]), hshape, reduceAs, List.length_map, mapM_partTypes helems ih]
  simp [hshape, h]

/-- The parts are reduced to the type with the samples of all of them. -/
theorem BatchType.doReduceTypes_eq {type : IRType} (htype : BatchType batch_size type)
    {rows : List ℕ} (hrows : rows ≠ []) :
    doReduceTypes (partTypes batch_size type rows) = some (shareType batch_size rows.sum type) := by
  obtain ⟨n, rest, rfl⟩ := List.exists_cons_of_ne_nil hrows
  induction htype with
  | @tensor elem_type h d hd dim requires_grad =>
    have hvalid : ∀ n, isValidType (shareType batch_size n
        (.tensor elem_type (d :: dim) requires_grad)) :=
      fun n => (toIRType_tensor_valid_iff h (.share n)).mpr ⟨n, rfl⟩
    have hshare : LocalValue.share n ∈ (n :: rest).map LocalValue.share :=
      List.mem_map_of_mem List.mem_cons_self
    rw [doReduceTypes_partTypes n rest hvalid fun _ => rfl, partTypes_eq, ← totalRows_share]
    exact reduceBatchTensorTypes_shares h hshare
  | tensorList htypes htensors ih => exact doReduceTypes_list (Or.inl rfl) n rest ih
  | list htypes ih => exact doReduceTypes_list (Or.inr rfl) n rest ih
  | @tuple types htypes ih =>
    have hshape : ∀ n, shareType batch_size n (.tuple types) =
        .tuple (types.map (shareType batch_size n)) := fun n => mapTensors_tuple _ _
    have helems : ∀ l : LocalValue, l ≠ .absent →
        (l.toIRType batch_size (.tuple types)).getCompoundTypes =
          types.map fun elem => l.toIRType batch_size elem := by
      intro l hl
      rw [toIRType_tuple hl]
      rfl
    rw [doReduceTypes_partTypes n rest (by simp [hshape, isValidType, getBaseType])
      (by simp [hshape, getBaseType]), hshape, reduceAs, List.length_map, mapM_partTypes helems ih]
    simp [hshape]

theorem BatchType.shareType_whole {type : IRType} (htype : BatchType batch_size type) :
    shareType batch_size batch_size type = type := by
  induction htype with
  | tensor h hd rest requires_grad =>
    simp [shareType, mapTensors, shareDim, Nat.div_mul_cancel hd]
  | tensorList htypes htensors ih =>
    simp only [shareType, mapTensors_list] at ih ⊢
    rw [List.map_congr_left ih, List.map_id']
  | list htypes ih =>
    simp only [shareType, mapTensors_list] at ih ⊢
    rw [List.map_congr_left ih, List.map_id']
  | tuple htypes ih =>
    simp only [shareType, mapTensors_tuple] at ih ⊢
    rw [List.map_congr_left ih, List.map_id']

end Reduce

end Rannc
