import Rannc.Common.BatchDims
import Rannc.Graph.IRType

/-!
# The type of a distributed value

A value that is distributed over ranks has a type on each of them, and the type of the whole is
found by adding up the leading dimensions of its tensors. A rank that holds nothing has the type
`none`, and a tensor without rows may be undefined. The launcher does not look at the ranks: it
takes the traced type and sets the leading dimension of every tensor to the size of the split.
-/
namespace Rannc

open IRType (getBaseType)

def getFirstValidTensorType (ir_types : List IRType) : Option IRType :=
  ir_types.find? fun type => getBaseType type = .TENSOR ∧ type.getTensorElemType ≠ .UNDEF

/-- Neither absent nor an undefined tensor. -/
def isValidType (type : IRType) : Prop :=
  ¬(getBaseType type = .NONE ∨ getBaseType type = .TENSOR ∧ type.getTensorElemType = .UNDEF)

instance : DecidablePred isValidType := fun _ => inferInstanceAs (Decidable (¬_))

def getFirstValidType (ir_types : List IRType) : Option IRType :=
  ir_types.find? fun type => isValidType type

def getNonNoneTypes (ir_types : List IRType) : List IRType :=
  ir_types.filter fun type => getBaseType type ≠ .NONE

def allBaseTypesSameOrNone (ir_types : List IRType) : Option Bool := do
  let a_type ← getFirstValidType ir_types
  return ir_types.all fun type =>
    getBaseType type = .NONE ∨ getBaseType a_type = getBaseType type

def allBaseTypesNone (ir_types : List IRType) : Bool :=
  ir_types.all fun type => getBaseType type = .NONE

/-- The leading dimensions are added, the others have to agree. -/
def reduceBatchTensorTypes (ir_types : List IRType) : Option IRType := do
  let a_type ← getFirstValidTensorType ir_types
  let expected_dim := a_type.getTensorDim
  let valid_types := ir_types.filter fun type => isValidType type
  if ∀ type ∈ valid_types, type.getTensorDim.length = expected_dim.length ∧
      type.getTensorDim.tail = expected_dim.tail then
    let batch_size := (valid_types.map fun type => type.getTensorDim.headD 0).sum
    return .tensor a_type.getTensorElemType (expected_dim.set 0 batch_size) a_type.requiresGrad
  else .none

def reduceLossTypes (ir_types : List IRType) : Option IRType :=
  if ∀ type ∈ ir_types, getBaseType type ≠ .NONE → type.getTensorDim = [] then do
    let a_type ← getFirstValidTensorType ir_types
    return .tensor a_type.getTensorElemType [] false
  else .none

/-- The `i`-th element types, where all types have one. -/
def elemTypes (types : List IRType) (i : ℕ) : Option (List IRType) :=
  if ∀ type ∈ types, i < type.getCompoundTypes.length then
    some (types.map fun type => type.getCompoundTypes.getD i .none)
  else none

theorem sizeOf_getD_lt (type : IRType) {i : ℕ} (hi : i < type.getCompoundTypes.length) :
    sizeOf (type.getCompoundTypes.getD i .none) < sizeOf type := by
  rw [List.getD_eq_getElem _ _ hi]
  have hmem : type.getCompoundTypes[i] ∈ type.getCompoundTypes := List.getElem_mem hi
  have hlt := List.sizeOf_lt_of_mem hmem
  cases type with
  | list _ compound_types =>
    simp only [IRType.getCompoundTypes] at hlt ⊢
    simp only [IRType.list.sizeOf_spec]
    omega
  | tuple compound_types =>
    simp only [IRType.getCompoundTypes] at hlt ⊢
    simp only [IRType.tuple.sizeOf_spec]
    omega
  | optional elem_type =>
    have hi0 : i = 0 := by simpa [IRType.getCompoundTypes] using hi
    subst hi0
    simp [IRType.getCompoundTypes]
  | scalar _ => simp [IRType.getCompoundTypes] at hi
  | tensor _ _ _ => simp [IRType.getCompoundTypes] at hi
  | string => simp [IRType.getCompoundTypes] at hi
  | none => simp [IRType.getCompoundTypes] at hi
  | function _ => simp [IRType.getCompoundTypes] at hi

theorem elemTypes_sizeOf_lt {ir_types ts : List IRType} {i : ℕ} (hne : ir_types ≠ [])
    (h : elemTypes (getNonNoneTypes ir_types) i = some ts) :
    (ts.map sizeOf).sum < (ir_types.map sizeOf).sum := by
  rw [elemTypes, Option.ite_none_right_eq_some, Option.some.injEq] at h
  obtain ⟨hlt, rfl⟩ := h
  have hfilter : ((getNonNoneTypes ir_types).map sizeOf).sum ≤ (ir_types.map sizeOf).sum :=
    List.Sublist.sum_le_sum (List.filter_sublist.map _) (by simp)
  cases hcase : getNonNoneTypes ir_types with
  | nil =>
    obtain ⟨type, rest, rfl⟩ := List.exists_cons_of_ne_nil hne
    have hpos : 0 < sizeOf type := by
      cases type <;> simp
    rw [List.map_nil, List.map_nil, List.sum_nil, List.map_cons, List.sum_cons]
    omega
  | cons type rest =>
    rw [hcase] at hlt hfilter
    refine lt_of_lt_of_le ?_ hfilter
    rw [List.map_map]
    refine List.sum_lt_sum _ _ (fun t ht => (sizeOf_getD_lt t (hlt t ht)).le) ?_
    exact ⟨type, List.mem_cons_self, sizeOf_getD_lt type (hlt type List.mem_cons_self)⟩

/-- Lists and tuples are reduced element by element, tensors by their leading dimensions. -/
def doReduceTypes (ir_types : List IRType) : Option IRType :=
  if _hne : allBaseTypesNone ir_types = true then some .none
  else if allBaseTypesSameOrNone ir_types ≠ some true then none
  else
    let target_types := getNonNoneTypes ir_types
    let reduceElem (i : ℕ) : Option IRType :=
      match _h : elemTypes (getNonNoneTypes ir_types) i with
      | none => none
      | some ts => doReduceTypes ts
    match getFirstValidType ir_types with
    | some (.tensor _ dim _) =>
      if dim = [] then reduceLossTypes target_types else reduceBatchTensorTypes target_types
    | some (.list list_type comp_types) => do
      let list_elem_types ← (List.range comp_types.length).mapM reduceElem
      if list_type = .TENSOR ∨ list_type = .GENERIC then
        return .list list_type list_elem_types
      else none
    | some (.tuple comp_types) => do
      let tuple_types ← (List.range comp_types.length).mapM reduceElem
      return .tuple tuple_types
    | _ => none
termination_by (ir_types.map sizeOf).sum
decreasing_by
  refine elemTypes_sizeOf_lt ?_ _h
  rintro rfl
  exact _hne rfl

/-- The type of a value that can be distributed, traced with batch size `B0`: the leading
dimension of a tensor is a multiple of the batch size, unless it has none, like a loss. -/
inductive TracedAt (B0 : ℕ) : IRType → Prop
  | batch {elem_type : IRTensorElemType} (h : elem_type ≠ .UNDEF) {k : ℕ} (hk : 1 ≤ k)
      (rest : List ℕ) (requires_grad : Bool) :
      TracedAt B0 (.tensor elem_type (k * B0 :: rest) requires_grad)
  | loss {elem_type : IRTensorElemType} (h : elem_type ≠ .UNDEF) (requires_grad : Bool) :
      TracedAt B0 (.tensor elem_type [] requires_grad)
  | list {list_type : IRListType} (h : list_type = .TENSOR ∨ list_type = .GENERIC)
      {types : List IRType} (htypes : ∀ type ∈ types, TracedAt B0 type) :
      TracedAt B0 (.list list_type types)
  | tuple {types : List IRType} (htypes : ∀ type ∈ types, TracedAt B0 type) :
      TracedAt B0 (.tuple types)
  | none : TracedAt B0 .none

/-- The shape of a tensor with `rows` samples instead of `B0`. -/
def shareDim (B0 rows : ℕ) : List ℕ → List ℕ
  | [] => []
  | d :: rest => d / B0 * rows :: rest

/-- The type of a part of the value with `rows` samples. -/
def shareType (B0 rows : ℕ) : IRType → IRType :=
  IRType.mapTensors fun elem_type dim requires_grad =>
    .tensor elem_type (shareDim B0 rows dim) requires_grad

/-- The type of the value where its tensors are undefined. -/
def undefinedType : IRType → IRType := IRType.mapTensors fun _ _ _ => .tensor .UNDEF [] false

/-- What a rank has of the value: nothing, undefined tensors, or some samples. -/
inductive LocalValue
  | absent
  | undefined
  | share (rows : ℕ)
  deriving DecidableEq, Repr

namespace LocalValue

def rows : LocalValue → ℕ
  | absent => 0
  | undefined => 0
  | share rows => rows

/-- `toIRType` of a local value. -/
def toIRType (B0 : ℕ) (type : IRType) : LocalValue → IRType
  | absent => .none
  | undefined => undefinedType type
  | share rows => shareType B0 rows type

end LocalValue

section Reduction

variable {B0 : ℕ}

/-- The samples of all ranks together. -/
def totalRows (locals : List LocalValue) : ℕ := (locals.map LocalValue.rows).sum

theorem mapM_eq_some_map {α β : Type} {f : α → Option β} {g : α → β} {l : List α}
    (h : ∀ a ∈ l, f a = some (g a)) : l.mapM f = some (l.map g) := by
  induction l with
  | nil => rfl
  | cons a l ih =>
    rw [List.mapM_cons, h a List.mem_cons_self, ih fun b hb => h b (List.mem_cons_of_mem a hb)]
    rfl

@[simp] theorem totalRows_cons (l : LocalValue) (locals : List LocalValue) :
    totalRows (l :: locals) = l.rows + totalRows locals := by
  simp [totalRows]

theorem totalRows_filter (locals : List LocalValue) :
    totalRows (locals.filter fun l => l ≠ .absent) = totalRows locals := by
  induction locals with
  | nil => rfl
  | cons l locals ih =>
    by_cases hl : l = .absent
    · subst hl
      simpa [LocalValue.rows] using ih
    · simpa [hl] using ih

theorem absent_notMem_filter (locals : List LocalValue) :
    .absent ∉ locals.filter fun l => l ≠ .absent := by
  simp

theorem share_mem_filter {locals : List LocalValue} {rows : ℕ} (hrows : .share rows ∈ locals) :
    .share rows ∈ locals.filter fun l => l ≠ .absent := by
  simpa using hrows

/-- The reduction of types of the kind of `a_type`, where `reduce` reduces their elements. -/
def reduceAs (reduce : List IRType → Option IRType) (target_types : List IRType) :
    IRType → Option IRType
  | .tensor _ dim _ =>
    if dim = [] then reduceLossTypes target_types else reduceBatchTensorTypes target_types
  | .list list_type comp_types => do
    let list_elem_types ← (List.range comp_types.length).mapM fun i =>
      (elemTypes target_types i).bind reduce
    if list_type = .TENSOR ∨ list_type = .GENERIC then
      return .list list_type list_elem_types
    else none
  | .tuple comp_types => do
    let tuple_types ← (List.range comp_types.length).mapM fun i =>
      (elemTypes target_types i).bind reduce
    return .tuple tuple_types
  | _ => none

/-- How the reduction starts: by the first valid type, where all types are of its kind. -/
theorem doReduceTypes_eq {types : List IRType} {a_type : IRType}
    (hfirst : getFirstValidType types = some a_type)
    (hsame : ∀ type ∈ types, getBaseType type = .NONE ∨ getBaseType a_type = getBaseType type) :
    doReduceTypes types = reduceAs doReduceTypes (getNonNoneTypes types) a_type := by
  have hvalid : isValidType a_type := by simpa using List.find?_some hfirst
  have hmem : a_type ∈ types := List.mem_of_find?_eq_some hfirst
  have hnone : ¬ allBaseTypesNone types = true := by
    intro h
    have := List.all_eq_true.mp h a_type hmem
    exact hvalid (Or.inl (by simpa using this))
  have hall : allBaseTypesSameOrNone types = some true := by
    have : types.all (fun type => getBaseType type = .NONE ∨
        getBaseType a_type = getBaseType type) = true :=
      List.all_eq_true.mpr fun type htype => by simpa using hsame type htype
    rw [allBaseTypesSameOrNone, hfirst]
    exact congrArg some this
  have helem : ∀ i, (match _h : elemTypes (getNonNoneTypes types) i with
      | none => none
      | some ts => doReduceTypes ts) =
        (elemTypes (getNonNoneTypes types) i).bind doReduceTypes := by
    intro i
    cases elemTypes (getNonNoneTypes types) i <;> rfl
  rw [doReduceTypes, dif_neg hnone, if_neg (not_not.mpr hall)]
  simp only [helem, hfirst]
  cases a_type <;> rfl

theorem exists_getFirstValidType {T : IRType} {locals : List LocalValue} {l : LocalValue}
    (hl : l ∈ locals) (hvalid : isValidType (l.toIRType B0 T)) :
    ∃ l' ∈ locals, isValidType (l'.toIRType B0 T) ∧
      getFirstValidType (locals.map (LocalValue.toIRType B0 T)) = some (l'.toIRType B0 T) := by
  have hsome : (getFirstValidType (locals.map (LocalValue.toIRType B0 T))).isSome = true := by
    rw [getFirstValidType, List.find?_isSome]
    exact ⟨l.toIRType B0 T, List.mem_map_of_mem hl, by simpa using hvalid⟩
  obtain ⟨a_type, ha⟩ := Option.isSome_iff_exists.mp hsome
  obtain ⟨l', hl', rfl⟩ := List.mem_map.mp (List.mem_of_find?_eq_some ha)
  exact ⟨l', hl', by simpa using List.find?_some ha, ha⟩

theorem getNonNoneTypes_map {T : IRType} (locals : List LocalValue)
    (hT : ∀ l : LocalValue, getBaseType (l.toIRType B0 T) = .NONE ↔ l = .absent) :
    getNonNoneTypes (locals.map (LocalValue.toIRType B0 T)) =
      (locals.filter fun l => l ≠ .absent).map (LocalValue.toIRType B0 T) := by
  rw [getNonNoneTypes, List.filter_map]
  congr 2
  funext l
  simp [hT]

section Tensor

variable {elem_type : IRTensorElemType} {dim : List ℕ} {requires_grad : Bool}

theorem toIRType_tensor_valid_iff (h : elem_type ≠ .UNDEF) (l : LocalValue) :
    isValidType (l.toIRType B0 (.tensor elem_type dim requires_grad)) ↔
      ∃ rows, l = .share rows := by
  cases l <;> simp [LocalValue.toIRType, isValidType, getBaseType, undefinedType, shareType,
    IRType.mapTensors, IRType.getTensorElemType, h]

theorem toIRType_tensor_none_iff (l : LocalValue) :
    getBaseType (l.toIRType B0 (.tensor elem_type dim requires_grad)) = .NONE ↔ l = .absent := by
  cases l <;> simp [LocalValue.toIRType, getBaseType, undefinedType, shareType, IRType.mapTensors]

variable (B0 dim requires_grad) in
theorem exists_getFirstValidTensorType (h : elem_type ≠ .UNDEF) {locals : List LocalValue}
    {rows : ℕ} (hrows : .share rows ∈ locals) :
    ∃ rows', getFirstValidTensorType
        (locals.map (LocalValue.toIRType B0 (.tensor elem_type dim requires_grad))) =
      some (.tensor elem_type (shareDim B0 rows' dim) requires_grad) := by
  set types := locals.map (LocalValue.toIRType B0 (.tensor elem_type dim requires_grad))
  have hsome : (getFirstValidTensorType types).isSome = true := by
    rw [getFirstValidTensorType, List.find?_isSome]
    refine ⟨_, List.mem_map_of_mem hrows, ?_⟩
    simp [LocalValue.toIRType, shareType, IRType.mapTensors, getBaseType,
      IRType.getTensorElemType, h]
  obtain ⟨a_type, ha⟩ := Option.isSome_iff_exists.mp hsome
  obtain ⟨l, -, rfl⟩ := List.mem_map.mp (List.mem_of_find?_eq_some ha)
  have hvalid := List.find?_some ha
  cases l with
  | absent => simp [LocalValue.toIRType, getBaseType] at hvalid
  | undefined =>
    simp [LocalValue.toIRType, undefinedType, IRType.mapTensors, IRType.getTensorElemType] at hvalid
  | share rows' =>
    exact ⟨rows', by simpa [LocalValue.toIRType, shareType, IRType.mapTensors] using ha⟩

theorem sum_headD_shares (h : elem_type ≠ .UNDEF) (d : ℕ) (rest : List ℕ)
    (locals : List LocalValue) :
    (((locals.map (LocalValue.toIRType B0
        (.tensor elem_type (d :: rest) requires_grad))).filter fun type => isValidType type).map
      fun type => type.getTensorDim.headD 0).sum = d / B0 * totalRows locals := by
  induction locals with
  | nil => simp [totalRows]
  | cons l locals ih =>
    rw [List.map_cons, List.filter_cons, totalRows_cons, Nat.mul_add, ← ih]
    cases l with
    | absent => simp [LocalValue.rows, isValidType, LocalValue.toIRType, getBaseType]
    | undefined =>
      simp [LocalValue.rows, toIRType_tensor_valid_iff h]
    | share rows =>
      rw [if_pos (by simpa using (toIRType_tensor_valid_iff h _).mpr ⟨rows, rfl⟩), List.map_cons,
        List.sum_cons]
      rfl

theorem reduceBatchTensorTypes_shares (h : elem_type ≠ .UNDEF) {d : ℕ} {rest : List ℕ}
    {locals : List LocalValue} {rows : ℕ} (hrows : .share rows ∈ locals) :
    reduceBatchTensorTypes (locals.map (LocalValue.toIRType B0
        (.tensor elem_type (d :: rest) requires_grad))) =
      some (shareType B0 (totalRows locals) (.tensor elem_type (d :: rest) requires_grad)) := by
  obtain ⟨rows', hfirst⟩ := exists_getFirstValidTensorType B0 (d :: rest) requires_grad h hrows
  have hagree : ∀ type ∈ (locals.map (LocalValue.toIRType B0
      (.tensor elem_type (d :: rest) requires_grad))).filter (fun type => isValidType type),
      type.getTensorDim.length = (shareDim B0 rows' (d :: rest)).length ∧
        type.getTensorDim.tail = (shareDim B0 rows' (d :: rest)).tail := by
    intro type htype
    obtain ⟨hmem, hvalid⟩ := List.mem_filter.mp htype
    obtain ⟨l, -, rfl⟩ := List.mem_map.mp hmem
    obtain ⟨rows, rfl⟩ := (toIRType_tensor_valid_iff h l).mp (by simpa using hvalid)
    exact ⟨rfl, rfl⟩
  rw [reduceBatchTensorTypes, hfirst, Option.bind_eq_bind, Option.bind_some]
  apply (if_pos hagree).trans
  rw [sum_headD_shares h]
  rfl

theorem reduceLossTypes_shares (h : elem_type ≠ .UNDEF) {locals : List LocalValue} {rows : ℕ}
    (hrows : .share rows ∈ locals) :
    reduceLossTypes (locals.map (LocalValue.toIRType B0 (.tensor elem_type [] requires_grad))) =
      some (.tensor elem_type [] false) := by
  obtain ⟨rows', hfirst⟩ := exists_getFirstValidTensorType B0 [] requires_grad h hrows
  have hempty : ∀ type ∈ locals.map (LocalValue.toIRType B0
      (.tensor elem_type [] requires_grad)), getBaseType type ≠ .NONE → type.getTensorDim = [] := by
    intro type htype _
    obtain ⟨l, -, rfl⟩ := List.mem_map.mp htype
    cases l <;> rfl
  rw [reduceLossTypes, if_pos hempty, hfirst]
  rfl

/-- The types of the shares of a tensor are reduced to the type with all samples. -/
theorem doReduceTypes_tensor (h : elem_type ≠ .UNDEF) {locals : List LocalValue} {rows : ℕ}
    (hrows : .share rows ∈ locals) :
    ∃ t, doReduceTypes (locals.map (LocalValue.toIRType B0
        (.tensor elem_type dim requires_grad))) = some t ∧
      t.dims = (shareType B0 (totalRows locals) (.tensor elem_type dim requires_grad)).dims := by
  have hshare : isValidType
      (LocalValue.toIRType B0 (.tensor elem_type dim requires_grad) (.share rows)) :=
    (toIRType_tensor_valid_iff h _).mpr ⟨rows, rfl⟩
  obtain ⟨l, hl, hvalid, hfirst⟩ := exists_getFirstValidType hrows hshare
  obtain ⟨rows', rfl⟩ := (toIRType_tensor_valid_iff h l).mp hvalid
  have hsame : ∀ type ∈ locals.map (LocalValue.toIRType B0
      (.tensor elem_type dim requires_grad)), getBaseType type = .NONE ∨
      getBaseType (LocalValue.toIRType B0 (.tensor elem_type dim requires_grad) (.share rows')) =
        getBaseType type := by
    intro type htype
    obtain ⟨l', -, rfl⟩ := List.mem_map.mp htype
    cases l' with
    | absent => exact Or.inl rfl
    | undefined => exact Or.inr rfl
    | share _ => exact Or.inr rfl
  have hpresent := share_mem_filter hrows
  rw [doReduceTypes_eq hfirst hsame, getNonNoneTypes_map locals toIRType_tensor_none_iff,
    ← totalRows_filter locals]
  cases dim with
  | nil => exact ⟨_, reduceLossTypes_shares h hpresent, rfl⟩
  | cons d rest => exact ⟨_, reduceBatchTensorTypes_shares h hpresent, rfl⟩

end Tensor

section Compound

theorem elemTypes_shares {T : IRType} {types : List IRType}
    (hT : ∀ l : LocalValue, l ≠ .absent →
      (l.toIRType B0 T).getCompoundTypes = types.map fun type => l.toIRType B0 type)
    {locals : List LocalValue} (hlocals : .absent ∉ locals) {i : ℕ} (hi : i < types.length) :
    elemTypes (locals.map (LocalValue.toIRType B0 T)) i =
      some (locals.map (LocalValue.toIRType B0 types[i])) := by
  have hne : ∀ l ∈ locals, l ≠ .absent := fun l hl h => hlocals (h ▸ hl)
  have hlt : ∀ type ∈ locals.map (LocalValue.toIRType B0 T),
      i < type.getCompoundTypes.length := by
    intro type htype
    obtain ⟨l, hl, rfl⟩ := List.mem_map.mp htype
    rw [hT l (hne l hl), List.length_map]
    exact hi
  rw [elemTypes, if_pos hlt, List.map_map]
  refine congrArg some (List.map_congr_left fun l hl => ?_)
  rw [Function.comp_apply, hT l (hne l hl), List.getD_eq_getElem _ _ (by simpa using hi),
    List.getElem_map]

theorem mapM_elemTypes_shares {T : IRType} {types : List IRType}
    (hT : ∀ l : LocalValue, l ≠ .absent →
      (l.toIRType B0 T).getCompoundTypes = types.map fun type => l.toIRType B0 type)
    {locals : List LocalValue} (hlocals : .absent ∉ locals)
    (ih : ∀ type ∈ types, ∃ t,
      doReduceTypes (locals.map (LocalValue.toIRType B0 type)) = some t ∧
        t.dims = (shareType B0 (totalRows locals) type).dims) :
    ∃ ts, ((List.range types.length).mapM fun i =>
        (elemTypes (locals.map (LocalValue.toIRType B0 T)) i).bind doReduceTypes) = some ts ∧
      ts.map IRType.dims = (types.map (shareType B0 (totalRows locals))).map IRType.dims := by
  choose reduced hreduced hdims using fun i : Fin types.length => ih types[i] (List.getElem_mem _)
  have hmapM := mapM_eq_some_map (l := List.range types.length)
    (f := fun i => (elemTypes (locals.map (LocalValue.toIRType B0 T)) i).bind doReduceTypes)
    (g := fun i => if h : i < types.length then reduced ⟨i, h⟩ else .none) ?_
  · refine ⟨_, hmapM, ?_⟩
    refine List.ext_getElem (by simp) fun i hi _ => ?_
    have hi' : i < types.length := by simpa using hi
    simpa [hi'] using hdims ⟨i, hi'⟩
  · intro i hi
    have hi' : i < types.length := List.mem_range.mp hi
    rw [elemTypes_shares hT hlocals hi', Option.bind_some, dif_pos hi']
    exact hreduced ⟨i, hi'⟩

theorem toIRType_list {l : LocalValue} (hl : l ≠ .absent) (list_type : IRListType)
    (types : List IRType) :
    l.toIRType B0 (.list list_type types) = .list list_type (types.map (l.toIRType B0)) := by
  cases l with
  | absent => exact absurd rfl hl
  | undefined => exact IRType.mapTensors_list _ list_type types
  | share _ => exact IRType.mapTensors_list _ list_type types

theorem toIRType_tuple {l : LocalValue} (hl : l ≠ .absent) (types : List IRType) :
    l.toIRType B0 (.tuple types) = .tuple (types.map (l.toIRType B0)) := by
  cases l with
  | absent => exact absurd rfl hl
  | undefined => exact IRType.mapTensors_tuple _ types
  | share _ => exact IRType.mapTensors_tuple _ types

/-- Local values of a list or a tuple are reduced as the type of one of them. -/
theorem doReduceTypes_compound {T : IRType} {locals : List LocalValue} {rows : ℕ}
    {kind : IRBaseType}
    (hT : ∀ l : LocalValue, l ≠ .absent → getBaseType (l.toIRType B0 T) = kind)
    (hnone : kind ≠ .NONE) (htensor : kind ≠ .TENSOR)
    (hrows : .share rows ∈ locals) :
    ∃ l : LocalValue, l ≠ .absent ∧
      doReduceTypes (locals.map (LocalValue.toIRType B0 T)) = reduceAs doReduceTypes
        ((locals.filter fun l => l ≠ .absent).map (LocalValue.toIRType B0 T))
        (l.toIRType B0 T) := by
  have hvalid : ∀ l : LocalValue, isValidType (l.toIRType B0 T) ↔ l ≠ .absent := by
    intro l
    by_cases hl : l = .absent
    · subst hl
      simp [isValidType, LocalValue.toIRType, getBaseType]
    · simp [isValidType, hT l hl, hnone, htensor, hl]
  obtain ⟨l, -, hl, hfirst⟩ := exists_getFirstValidType hrows
    ((hvalid (.share rows)).mpr (by simp))
  have hl := (hvalid l).mp hl
  refine ⟨l, hl, ?_⟩
  rw [doReduceTypes_eq hfirst, getNonNoneTypes_map]
  · intro l
    by_cases hl : l = .absent
    · subst hl
      simp [LocalValue.toIRType, getBaseType]
    · simp [hT l hl, hnone, hl]
  · intro type htype
    obtain ⟨l', -, rfl⟩ := List.mem_map.mp htype
    by_cases hl' : l' = .absent
    · subst hl'
      exact Or.inl rfl
    · exact Or.inr ((hT l hl).trans (hT l' hl').symm)

end Compound

/-- The types of the shares of a value are reduced to the type with all samples. -/
theorem doReduceTypes_shares {T : IRType} (hT : TracedAt B0 T) {locals : List LocalValue}
    {rows : ℕ} (hrows : .share rows ∈ locals) :
    ∃ t, doReduceTypes (locals.map (LocalValue.toIRType B0 T)) = some t ∧
      t.dims = (shareType B0 (totalRows locals) T).dims := by
  induction hT generalizing locals with
  | batch h hk rest requires_grad => exact doReduceTypes_tensor h hrows
  | loss h requires_grad => exact doReduceTypes_tensor h hrows
  | none =>
    refine ⟨.none, ?_, rfl⟩
    rw [doReduceTypes, dif_pos]
    rw [allBaseTypesNone, List.all_eq_true]
    intro type htype
    obtain ⟨l, -, rfl⟩ := List.mem_map.mp htype
    cases l <;> rfl
  | @list list_type h types htypes ih =>
    have hkind (l : LocalValue) (hl : l ≠ .absent) :
        getBaseType (l.toIRType B0 (.list list_type types)) = .LIST := by
      rw [toIRType_list hl, getBaseType]
    have hcomp (l : LocalValue) (hl : l ≠ .absent) :
        (l.toIRType B0 (.list list_type types)).getCompoundTypes =
          types.map fun type => l.toIRType B0 type := by
      rw [toIRType_list hl, IRType.getCompoundTypes]
    obtain ⟨l, hl, hreduce⟩ := doReduceTypes_compound hkind nofun nofun hrows
    obtain ⟨ts, hts, hdims⟩ := mapM_elemTypes_shares hcomp (absent_notMem_filter locals)
      fun t ht => ih t ht (share_mem_filter hrows)
    refine ⟨.list list_type ts, ?_, ?_⟩
    · rw [hreduce, toIRType_list hl, reduceAs, List.length_map, hts]
      exact if_pos h
    · rw [← totalRows_filter locals]
      simpa [shareType, IRType.dims] using hdims
  | @tuple types htypes ih =>
    have hkind (l : LocalValue) (hl : l ≠ .absent) :
        getBaseType (l.toIRType B0 (.tuple types)) = .TUPLE := by
      rw [toIRType_tuple hl, getBaseType]
    have hcomp (l : LocalValue) (hl : l ≠ .absent) :
        (l.toIRType B0 (.tuple types)).getCompoundTypes =
          types.map fun type => l.toIRType B0 type := by
      rw [toIRType_tuple hl, IRType.getCompoundTypes]
    obtain ⟨l, hl, hreduce⟩ := doReduceTypes_compound hkind nofun nofun hrows
    obtain ⟨ts, hts, hdims⟩ := mapM_elemTypes_shares hcomp (absent_notMem_filter locals)
      fun t ht => ih t ht (share_mem_filter hrows)
    refine ⟨.tuple ts, ?_, ?_⟩
    · rw [hreduce, toIRType_tuple hl, reduceAs, List.length_map, hts]
      rfl
    · rw [← totalRows_filter locals]
      simpa [shareType, IRType.dims] using hdims

theorem setBatchSize_dims_iff {T : IRType} (hT : TracedAt B0 T) (hB0 : 0 < B0) {batch_size : ℕ}
    (hb : 0 < batch_size) :
    (shareType B0 batch_size T).dims = (T.setBatchSize batch_size).dims ↔
      ∀ dim ∈ T.tensorDims, dim.headD B0 = B0 := by
  induction hT with
  | @batch elem_type h k hk rest requires_grad =>
    have hrows : k * B0 / B0 * batch_size = batch_size ↔ k * B0 = B0 := by
      rw [Nat.mul_div_cancel _ hB0, Nat.mul_eq_right hb.ne', Nat.mul_eq_right hB0.ne']
    simpa [shareType, IRType.setBatchSize, IRType.dims, IRType.mapTensors, shareDim,
      IRType.tensorDims] using hrows
  | loss h requires_grad =>
    simp [shareType, IRType.setBatchSize, IRType.dims, IRType.mapTensors, shareDim,
      IRType.tensorDims]
  | list h htypes ih =>
    have hall := forall₂_congr ih
    simp only [IRType.tensorDims, IRType.tensorDimsAll_eq, List.forall_mem_flatMap]
    simpa [shareType, IRType.setBatchSize, IRType.dims] using hall
  | tuple htypes ih =>
    have hall := forall₂_congr ih
    simp only [IRType.tensorDims, IRType.tensorDimsAll_eq, List.forall_mem_flatMap]
    simpa [shareType, IRType.setBatchSize, IRType.dims] using hall
  | none => simp [shareType, IRType.setBatchSize, IRType.dims, IRType.mapTensors, IRType.tensorDims]

/-- All ranks of a route know the types of the local values of each other. -/
def reduceRouteTypes (sources dests : Finset ℕ) (type : ℕ → IRType) : Option IRType :=
  doReduceTypes ((sortRanks (sources ∪ dests)).map type)

/-- The sources hold the shares of a value of `batch_size` samples, where a rank without samples may
have an empty value, undefined tensors or nothing. -/
structure HoldsShares (batch_size : ℕ) (sources : Finset ℕ) (split_index : ℕ)
    (local_value : ℕ → LocalValue) : Prop where
  share : ∀ r ∈ sources,
    (getSplitBatchSizes batch_size sources split_index).lookup r = some (local_value r).rows
  absent : ∀ r ∉ sources, local_value r = .absent

/-- All ranks of a route together have all samples. -/
theorem HoldsShares.totalRows {batch_size split_index : ℕ} {sources : Finset ℕ}
    {local_value : ℕ → LocalValue} (h : HoldsShares batch_size sources split_index local_value)
    (hsources : sources.Nonempty) (dests : Finset ℕ) :
    totalRows ((sortRanks (sources ∪ dests)).map local_value) = batch_size := by
  have hdest : ∀ r ∈ sources ∪ dests, r ∉ sources → (local_value r).rows = 0 := by
    intro r _ hr
    rw [h.absent r hr, LocalValue.rows]
  calc Rannc.totalRows ((sortRanks (sources ∪ dests)).map local_value)
      = ∑ r ∈ sources ∪ dests, (local_value r).rows := by
        rw [Rannc.totalRows, List.map_map, ← sum_map_sortRanks]
        rfl
    _ = ∑ r ∈ sources, (local_value r).rows :=
        (Finset.sum_subset Finset.subset_union_left hdest).symm
    _ = ∑ r ∈ sources, ((getSplitBatchSizes batch_size sources split_index).lookup r).getD 0 :=
        Finset.sum_congr rfl fun r hr => by rw [h.share r hr, Option.getD_some]
    _ = batch_size := by
        rw [← sum_map_sortRanks, sum_shares batch_size _ split_index hsources]

theorem exists_share {locals : List LocalValue} (h : 0 < totalRows locals) :
    ∃ rows, .share rows ∈ locals := by
  obtain ⟨l, hl, hrows⟩ : ∃ l ∈ locals, l.rows ≠ 0 := by
    by_contra hzero
    push Not at hzero
    exact h.ne' (List.sum_eq_zero (by simpa using hzero))
  cases l with
  | absent => exact absurd rfl hrows
  | undefined => exact absurd rfl hrows
  | share rows => exact ⟨rows, hl⟩

theorem reduceRouteTypes_shares {T : IRType} (hT : TracedAt B0 T) {batch_size split_index : ℕ}
    (hb : 1 ≤ batch_size) {sources : Finset ℕ} (hsources : sources.Nonempty) (dests : Finset ℕ)
    {local_value : ℕ → LocalValue}
    (hlocal : HoldsShares batch_size sources split_index local_value) :
    ∃ t, reduceRouteTypes sources dests (fun r => (local_value r).toIRType B0 T) = some t ∧
      t.dims = (shareType B0 batch_size T).dims := by
  have htotal := hlocal.totalRows hsources dests
  have hpos : 0 < totalRows ((sortRanks (sources ∪ dests)).map local_value) := htotal ▸ hb
  obtain ⟨rows, hrows⟩ := exists_share hpos
  obtain ⟨t, ht, hdims⟩ := doReduceTypes_shares hT hrows
  rw [List.map_map] at ht
  exact ⟨t, ht, htotal ▸ hdims⟩

/-- What the launcher takes for the type of a split is the type its ranks have. -/
def DistributedTypesAgree (B0 batch_size : ℕ) (T : IRType) (sources dests : Finset ℕ)
    (local_value : ℕ → LocalValue) : Prop :=
  ∃ t, reduceRouteTypes sources dests (fun r => (local_value r).toIRType B0 T) = some t ∧
    t.dims = (T.setBatchSize batch_size).dims

/-- The types agree just where every tensor was traced with one row a sample. -/
theorem distributedTypesAgree_iff {batch_size split_index : ℕ} {T : IRType}
    {sources dests : Finset ℕ} {local_value : ℕ → LocalValue} (hT : TracedAt B0 T) (hB0 : 1 ≤ B0)
    (hb : 1 ≤ batch_size) (hsources : sources.Nonempty)
    (hlocal : HoldsShares batch_size sources split_index local_value) :
    DistributedTypesAgree B0 batch_size T sources dests local_value ↔
      ∀ dim ∈ T.tensorDims, dim.headD B0 = B0 := by
  obtain ⟨t, ht, hdims⟩ := reduceRouteTypes_shares hT hb hsources dests hlocal
  rw [← setBatchSize_dims_iff hT hB0 hb, ← hdims]
  constructor
  · rintro ⟨t', ht', hdims'⟩
    obtain rfl : t' = t := Option.some.inj (ht'.symm.trans ht)
    exact hdims'
  · exact fun hdims' => ⟨t, ht, hdims'⟩

/-- A tensor with two rows a sample, traced with two samples. -/
def foldedType : IRType := .tensor .FLOAT [4, 3] false

/-- The only source has all three samples. -/
def foldedValue (r : ℕ) : LocalValue := if r = 0 then .share 3 else .absent

theorem tracedAt_foldedType : TracedAt 2 foldedType := by
  have h : IRTensorElemType.FLOAT ≠ .UNDEF := by decide
  have hk : 1 ≤ 2 := by decide
  exact TracedAt.batch h hk [3] false

theorem holdsShares_foldedValue : HoldsShares 3 {0} 0 foldedValue where
  share := by decide
  absent r hr := if_neg (by simpa using hr)

theorem distributedTypesAgree_iff_folded :
    DistributedTypesAgree 2 3 foldedType {0} {1} foldedValue ↔
      ∀ dim ∈ foldedType.tensorDims, dim.headD 2 = 2 :=
  distributedTypesAgree_iff tracedAt_foldedType (by decide) (by decide) ⟨0, by decide⟩
    holdsShares_foldedValue

/-- The launcher takes a folded tensor of six rows for one of three. -/
theorem not_distributedTypesAgree : ¬ ∀ (B0 batch_size split_index : ℕ) (T : IRType)
    (sources dests : Finset ℕ) (local_value : ℕ → LocalValue), TracedAt B0 T → 1 ≤ B0 →
    1 ≤ batch_size → sources.Nonempty →
    HoldsShares batch_size sources split_index local_value →
    DistributedTypesAgree B0 batch_size T sources dests local_value := by
  intro h
  obtain ⟨t, ht, hdims⟩ := h 2 3 0 foldedType {0} {1} foldedValue tracedAt_foldedType (by decide)
    (by decide) ⟨0, by decide⟩ holdsShares_foldedValue
  obtain ⟨t', ht', hdims'⟩ := reduceRouteTypes_shares tracedAt_foldedType (by decide)
    ⟨0, by decide⟩ {1} holdsShares_foldedValue
  obtain rfl : t' = t := Option.some.inj (ht'.symm.trans ht)
  have hsix : (shareType 2 3 foldedType).dims = (foldedType.setBatchSize 3).dims :=
    hdims'.symm.trans hdims
  simp [foldedType, shareType, shareDim, IRType.setBatchSize, IRType.dims,
    IRType.mapTensors] at hsix

end Reduction

end Rannc
