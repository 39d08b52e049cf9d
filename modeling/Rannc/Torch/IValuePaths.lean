import Rannc.Comp.Routes
import Rannc.Graph.IRType
import Rannc.Torch.IValue
import Rannc.Torch.Tensor

/-!
# Paths to tensors

A tensor in a value is found by the steps that lead to it through lists and tuples. The same steps
lead through the type of the value.
-/
namespace Rannc

abbrev StepInIValue := StepTypeInIValue × ℕ

abbrev PathInIValue := List StepInIValue

namespace IValue

variable {T : Type}

mutual

def doFindPathsToTensorInIValue (path : PathInIValue) : IValue T → List PathInIValue
  | tensor _ => [path]
  | tensorList ts => (List.range ts.length).map fun index => path ++ [⟨.LIST, index⟩]
  | list _ elems => doFindPathsAll path .LIST 0 elems
  | tuple elems => doFindPathsAll path .TUPLE 0 elems
  | _ => []

def doFindPathsAll (path : PathInIValue) (type : StepTypeInIValue) :
    ℕ → List (IValue T) → List PathInIValue
  | _, [] => []
  | index, e :: es =>
    doFindPathsToTensorInIValue (path ++ [⟨type, index⟩]) e ++
      doFindPathsAll path type (index + 1) es

end

def findPathsToTensorInIValue (ivalue : IValue T) : List PathInIValue :=
  doFindPathsToTensorInIValue [] ivalue

/-- A step into a list also leads into a tuple. In a list of tensors the rest of a path is left. -/
def getElemInIValue : IValue T → PathInIValue → Option (IValue T)
  | ivalue, [] => some ivalue
  | tensorList ts, ⟨.LIST, index⟩ :: _ => ts[index]?.map tensor
  | scalarList l, ⟨.LIST, index⟩ :: path => do
    getElemInIValue (← l.elems[index]?.map scalar) path
  | list _ elems, ⟨.LIST, index⟩ :: path => do getElemInIValue (← elems[index]?) path
  | tuple elems, ⟨_, index⟩ :: path => do getElemInIValue (← elems[index]?) path
  | _, _ => none

/-- The paths through the elements of a list or tuple, from an index on. -/
def pathsThrough (type : StepTypeInIValue) (index : ℕ) (elems : List (IValue T)) :
    List PathInIValue :=
  (elems.zipIdx index).flatMap fun it => it.1.findPathsToTensorInIValue.map (⟨type, it.2⟩ :: ·)

theorem doFindPathsAll_eq {path : PathInIValue} {type : StepTypeInIValue} {elems : List (IValue T)}
    {index : ℕ} (h : ∀ e ∈ elems, ∀ path, doFindPathsToTensorInIValue path e =
      e.findPathsToTensorInIValue.map (path ++ ·)) :
    doFindPathsAll path type index elems = (pathsThrough type index elems).map (path ++ ·) := by
  induction elems generalizing index with
  | nil => rfl
  | cons e es ih =>
    have hhead := h e (by simp) (path ++ [⟨type, index⟩])
    rw [doFindPathsAll, hhead, ih fun e' he' => h e' (by simp [he'])]
    simp [pathsThrough, List.zipIdx_cons]

theorem doFindPaths_eq (ivalue : IValue T) : ∀ path, doFindPathsToTensorInIValue path ivalue =
    ivalue.findPathsToTensorInIValue.map (path ++ ·) := by
  induction ivalue using IValue.induction with
  | tensor t => simp [findPathsToTensorInIValue, doFindPathsToTensorInIValue]
  | tensorList ts => simp [findPathsToTensorInIValue, doFindPathsToTensorInIValue]
  | scalarList l => simp [findPathsToTensorInIValue, doFindPathsToTensorInIValue]
  | list elem_type elems ih =>
    intro path
    simp [findPathsToTensorInIValue, doFindPathsToTensorInIValue, doFindPathsAll_eq ih]
  | tuple elems ih =>
    intro path
    simp [findPathsToTensorInIValue, doFindPathsToTensorInIValue, doFindPathsAll_eq ih]
  | scalar v => simp [findPathsToTensorInIValue, doFindPathsToTensorInIValue]

@[simp] theorem findPaths_tensor (t : T) : (tensor t).findPathsToTensorInIValue = [[]] := rfl

@[simp] theorem findPaths_tensorList (ts : List T) : (tensorList ts).findPathsToTensorInIValue =
    (List.range ts.length).map fun index => [⟨.LIST, index⟩] := rfl

@[simp] theorem findPaths_scalarList (l : ScalarIValueList) :
    (scalarList l : IValue T).findPathsToTensorInIValue = [] := rfl

@[simp] theorem findPaths_scalar (v : ScalarIValue) :
    (scalar v : IValue T).findPathsToTensorInIValue = [] := rfl

@[simp] theorem findPaths_list (elem_type : String) (elems : List (IValue T)) :
    (list elem_type elems).findPathsToTensorInIValue = pathsThrough .LIST 0 elems := by
  simp [findPathsToTensorInIValue, doFindPathsToTensorInIValue,
    doFindPathsAll_eq fun e _ => doFindPaths_eq e]

@[simp] theorem findPaths_tuple (elems : List (IValue T)) :
    (tuple elems).findPathsToTensorInIValue = pathsThrough .TUPLE 0 elems := by
  simp [findPathsToTensorInIValue, doFindPathsToTensorInIValue,
    doFindPathsAll_eq fun e _ => doFindPaths_eq e]

theorem mem_pathsThrough {type : StepTypeInIValue} {elems : List (IValue T)} {path : PathInIValue} :
    path ∈ pathsThrough type 0 elems ↔ ∃ index e, elems[index]? = some e ∧
      ∃ rest ∈ e.findPathsToTensorInIValue, path = ⟨type, index⟩ :: rest := by
  unfold pathsThrough
  rw [List.mem_flatMap]
  constructor
  · rintro ⟨⟨e, index⟩, hmem, hpath⟩
    obtain ⟨rest, hrest, rfl⟩ := List.mem_map.mp hpath
    exact ⟨index, e, by simpa [List.mem_zipIdx_iff_getElem?] using hmem, rest, hrest, rfl⟩
  · rintro ⟨index, e, hget, rest, hrest, rfl⟩
    exact ⟨(e, index), by simpa [List.mem_zipIdx_iff_getElem?] using hget,
      List.mem_map.mpr ⟨rest, hrest, rfl⟩⟩

theorem nodup_pathsThrough {type : StepTypeInIValue} {elems : List (IValue T)} {index : ℕ}
    (h : ∀ e ∈ elems, e.findPathsToTensorInIValue.Nodup) :
    (pathsThrough type index elems).Nodup := by
  induction elems generalizing index with
  | nil => simp [pathsThrough]
  | cons e es ih =>
    have hrest := @ih (index + 1) fun e' he' => h e' (by simp [he'])
    unfold pathsThrough at hrest ⊢
    rw [List.zipIdx_cons, List.flatMap_cons]
    apply List.Nodup.append
    · exact (h e (by simp)).map fun a b hab => (List.cons.inj hab).2
    · exact hrest
    · -- later elements have later indices
      intro path hhead htail
      obtain ⟨rest, _, rfl⟩ := List.mem_map.mp hhead
      obtain ⟨it, hit, hpath⟩ := List.mem_flatMap.mp htail
      obtain ⟨rest', _, heq⟩ := List.mem_map.mp hpath
      have hindex : it.2 = index := congrArg (fun p : PathInIValue => (p.headD ⟨type, 0⟩).2) heq
      have hle := (List.mem_zipIdx hit).1
      omega

theorem nodup_findPaths (ivalue : IValue T) : ivalue.findPathsToTensorInIValue.Nodup := by
  induction ivalue using IValue.induction with
  | tensor t => simp
  | tensorList ts =>
    rw [findPaths_tensorList]
    exact List.nodup_range.map fun a b hab => by simpa using hab
  | scalarList l => simp
  | list elem_type elems ih =>
    rw [findPaths_list]
    exact nodup_pathsThrough ih
  | tuple elems ih =>
    rw [findPaths_tuple]
    exact nodup_pathsThrough ih
  | scalar v => simp

theorem map_pathsThrough {type : StepTypeInIValue} {all elems : List (IValue T)} {index : ℕ}
    {get : PathInIValue → Option (IValue T)} (helems : all.drop index = elems)
    (hget : ∀ i path, get (⟨type, i⟩ :: path) = (all[i]?).bind fun e => e.getElemInIValue path)
    (h : ∀ e ∈ elems, e.findPathsToTensorInIValue.map e.getElemInIValue =
      e.tensors.map fun t => some (tensor t)) :
    (pathsThrough type index elems).map get =
      (elems.flatMap tensors).map fun t => some (tensor t) := by
  induction elems generalizing index with
  | nil => rfl
  | cons e es ih =>
    have hindex : all[index]? = some e := by
      rw [← List.head?_drop, helems]
      rfl
    have hrest : all.drop (index + 1) = es := by rw [← List.tail_drop, helems, List.tail_cons]
    have htail := ih hrest fun e' he' => h e' (by simp [he'])
    have hhead : (e.findPathsToTensorInIValue.map (⟨type, index⟩ :: ·)).map get =
        e.tensors.map fun t => some (tensor t) := by
      rw [← h e (by simp), List.map_map]
      apply List.map_congr_left
      intro path _
      simp [hget, hindex]
    unfold pathsThrough at htail ⊢
    rw [List.zipIdx_cons, List.flatMap_cons, List.map_append, hhead, htail, List.flatMap_cons,
      List.map_append]

/-- The paths lead to the tensors of the value, to each by one path. -/
theorem map_findPaths (ivalue : IValue T) :
    ivalue.findPathsToTensorInIValue.map ivalue.getElemInIValue =
      ivalue.tensors.map fun t => some (tensor t) := by
  induction ivalue using IValue.induction with
  | tensor t => rfl
  | tensorList ts =>
    rw [findPaths_tensorList, List.map_map]
    apply List.ext_getElem
    · simp [tensors]
    · intro index hindex hindex'
      have hlt : index < ts.length := by simpa using hindex
      simp [getElemInIValue, tensors, hlt]
  | scalarList l => rfl
  | list elem_type elems ih =>
    rw [findPaths_list, tensors, tensorsAll_eq]
    exact map_pathsThrough elems.drop_zero (fun i path => by simp [getElemInIValue]) ih
  | tuple elems ih =>
    rw [findPaths_tuple, tensors, tensorsAll_eq]
    exact map_pathsThrough elems.drop_zero (fun i path => by simp [getElemInIValue]) ih
  | scalar v => rfl

end IValue

end Rannc
