import Rannc.Torch.IValuePaths

/-!
# Types of values and the paths through them

The type of a value has the types of its elements. The walk through a type stops after one step, so
it finds the types of the tensors that lie no deeper.
-/
namespace Rannc

variable {α : Type}

/-- A tensor that is not defined has a type without dimensions. -/
def tensorIRType : Option (Tensor α) → IRType
  | some t => t.irType
  | none => .tensor .UNDEF [] false

namespace IValue

def scalarIRType : ScalarIValue → IRType
  | .int _ => .scalar .INT
  | .bool _ => .scalar .BOOL
  | .double _ => .scalar .FLOAT
  | .string _ => .string
  | .device _ => .scalar .DEVICE
  | .none => .none

/-- A list is one of tensors if its first element is a tensor. -/
def listIRType (elem_types : List IRType) : IRType :=
  match elem_types with
  | [] => .list .GENERIC []
  | first :: _ => .list (if first.getBaseType = .TENSOR then .TENSOR else .GENERIC) elem_types

mutual

def toIRType : IValue (Option (Tensor α)) → IRType
  | tensor t => tensorIRType t
  | tensorList ts => .list .TENSOR (ts.map tensorIRType)
  | scalarList (.INT _) => .list .INT []
  | scalarList (.FLOAT _) => .list .FLOAT []
  | scalarList (.BOOL _) => .list .BOOL []
  | list _ elems => listIRType (toIRTypes elems)
  | tuple elems => .tuple (toIRTypes elems)
  | scalar v => scalarIRType v

def toIRTypes : List (IValue (Option (Tensor α))) → List IRType
  | [] => []
  | e :: es => toIRType e :: toIRTypes es

end

end IValue

open IValue

/-- One step is made whatever the length of the path is. -/
def getElemInIRType (type : IRType) : PathInIValue → Option IRType
  | [] => some type
  | step :: _ => type.getCompoundTypes[step.2]?

namespace IValue

@[simp] theorem toIRTypes_eq (elems : List (IValue (Option (Tensor α)))) :
    toIRTypes elems = elems.map toIRType := by
  induction elems with
  | nil => rfl
  | cons e es ih => rw [toIRTypes, ih, List.map_cons]

@[simp] theorem getCompoundTypes_list (elem_type : String)
    (elems : List (IValue (Option (Tensor α)))) :
    (toIRType (list elem_type elems)).getCompoundTypes = elems.map toIRType := by
  cases elems with
  | nil => rfl
  | cons e es => simp [toIRType, listIRType, IRType.getCompoundTypes]

@[simp] theorem getCompoundTypes_tuple (elems : List (IValue (Option (Tensor α)))) :
    (toIRType (tuple elems)).getCompoundTypes = elems.map toIRType := by
  simp [toIRType, IRType.getCompoundTypes]

@[simp] theorem getBaseType_tensorIRType (t : Option (Tensor α)) :
    (tensorIRType t).getBaseType = .TENSOR := by
  cases t <;> rfl

theorem getBaseType_list (elem_type : String) (elems : List (IValue (Option (Tensor α)))) :
    (toIRType (list elem_type elems)).getBaseType = .LIST := by
  cases elems with
  | nil => rfl
  | cons e es => simp [toIRType, listIRType, IRType.getBaseType]

theorem getBaseType_ne_tensor {v : IValue (Option (Tensor α))} (hv : v.tensors ≠ [])
    (hne : ∀ t, v ≠ tensor t) : v.toIRType.getBaseType ≠ .TENSOR := by
  cases v with
  | tensor t => exact absurd rfl (hne t)
  | tensorList ts => simp [toIRType, IRType.getBaseType]
  | scalarList l => simp [tensors] at hv
  | list elem_type elems => simp [getBaseType_list]
  | tuple elems => simp [toIRType, IRType.getBaseType]
  | scalar v => simp [tensors] at hv

/-- An element that holds no tensors, or is one. -/
def ShallowElem (e : IValue (Option (Tensor α))) : Prop := e.tensors = [] ∨ ∃ t, e = tensor t

/-- No tensor lies deeper than one step. -/
def Shallow : IValue (Option (Tensor α)) → Prop
  | list _ elems => ∀ e ∈ elems, ShallowElem e
  | tuple elems => ∀ e ∈ elems, ShallowElem e
  | _ => True

/-- The types are found by the paths, which lead to every tensor once. -/
structure Navigates (v : IValue (Option (Tensor α))) : Prop where
  agree : ∀ path ∈ v.findPathsToTensorInIValue,
    getElemInIRType v.toIRType path = (v.getElemInIValue path).map toIRType
  nodup : v.findPathsToTensorInIValue.Nodup
  complete : v.findPathsToTensorInIValue.map v.getElemInIValue =
    v.tensors.map fun t => some (tensor t)

/-- What holds of the elements of a list or tuple, whose types are given. -/
theorem agree_pathsThrough_iff {type : StepTypeInIValue} {v : IValue (Option (Tensor α))}
    {elems : List (IValue (Option (Tensor α)))}
    (htypes : v.toIRType.getCompoundTypes = elems.map toIRType)
    (hget : ∀ i path, v.getElemInIValue (⟨type, i⟩ :: path) =
      (elems[i]?).bind fun e => e.getElemInIValue path) :
    (∀ path ∈ pathsThrough type 0 elems,
      getElemInIRType v.toIRType path = (v.getElemInIValue path).map toIRType) ↔
    ∀ e ∈ elems, ShallowElem e := by
  have hstep (i : ℕ) (e : IValue (Option (Tensor α))) (he : elems[i]? = some e)
      (rest : PathInIValue) :
      (getElemInIRType v.toIRType (⟨type, i⟩ :: rest) =
        (v.getElemInIValue (⟨type, i⟩ :: rest)).map toIRType) ↔
      some e.toIRType = (e.getElemInIValue rest).map toIRType := by
    simp [getElemInIRType, htypes, hget, he]
  constructor
  · intro h e he
    obtain ⟨i, hi⟩ := List.mem_iff_getElem?.mp he
    by_contra hdeep
    obtain ⟨hne, hnot⟩ := not_or.mp hdeep
    -- some path leads to a tensor of the element
    have hpaths := map_findPaths e
    obtain ⟨rest, hrest⟩ : ∃ rest, rest ∈ e.findPathsToTensorInIValue := by
      apply List.exists_mem_of_ne_nil
      intro hnil
      rw [hnil, List.map_nil] at hpaths
      exact hne (List.map_eq_nil_iff.mp hpaths.symm)
    have htensor : e.getElemInIValue rest ∈ e.tensors.map fun t => some (tensor t) := by
      rw [← hpaths]
      exact List.mem_map_of_mem hrest
    obtain ⟨t, _, ht⟩ := List.mem_map.mp htensor
    have hagree := (hstep i e hi rest).mp
      (h _ (mem_pathsThrough.mpr ⟨i, e, hi, rest, hrest, rfl⟩))
    rw [← ht, Option.map_some, Option.some.injEq] at hagree
    apply getBaseType_ne_tensor hne fun t' heq => hnot ⟨t', heq⟩
    rw [hagree]
    exact getBaseType_tensorIRType t
  · intro h path hpath
    obtain ⟨i, e, hi, rest, hrest, rfl⟩ := mem_pathsThrough.mp hpath
    rw [hstep i e hi rest]
    cases h e (List.mem_of_getElem? hi) with
    | inl hnone =>
      have hpaths := map_findPaths e
      rw [hnone, List.map_nil, List.map_eq_nil_iff] at hpaths
      rw [hpaths] at hrest
      exact absurd hrest List.not_mem_nil
    | inr htensor =>
      obtain ⟨t, rfl⟩ := htensor
      rw [findPaths_tensor, List.mem_singleton] at hrest
      rw [hrest]
      rfl

theorem navigates_iff (v : IValue (Option (Tensor α))) : v.Navigates ↔ v.Shallow := by
  have hiff : v.Navigates ↔ ∀ path ∈ v.findPathsToTensorInIValue,
      getElemInIRType v.toIRType path = (v.getElemInIValue path).map toIRType :=
    ⟨fun h => h.agree, fun h => ⟨h, nodup_findPaths v, map_findPaths v⟩⟩
  rw [hiff]
  cases v with
  | tensor t => simp [Shallow, getElemInIRType, getElemInIValue]
  | tensorList ts => simp [Shallow, getElemInIRType, getElemInIValue, toIRType,
      IRType.getCompoundTypes, Option.map_map, Function.comp_def]
  | scalarList l => simp [Shallow]
  | list elem_type elems =>
    rw [findPaths_list]
    exact agree_pathsThrough_iff (getCompoundTypes_list elem_type elems)
      fun i path => by simp [getElemInIValue]
  | tuple elems =>
    rw [findPaths_tuple]
    exact agree_pathsThrough_iff (getCompoundTypes_tuple elems)
      fun i path => by simp [getElemInIValue]
  | scalar v => simp [Shallow]

/-- A tensor in a tuple in a tuple. -/
theorem not_navigates : ¬ Navigates (α := ℕ)
    (.tuple [.tuple [.tensor (some (Tensor.ofList .FLOAT true [1]))]]) := by
  intro h
  have hagree := h.agree [⟨.TUPLE, 0⟩, ⟨.TUPLE, 0⟩] (by decide)
  simp [getElemInIRType, getElemInIValue, toIRType, IRType.getCompoundTypes, tensorIRType,
    Tensor.irType] at hagree

end IValue

end Rannc
