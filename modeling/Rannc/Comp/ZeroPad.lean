import Rannc.Torch.IValuePaths

/-!
# Gradients of compound outputs

The gradient of one tensor of an output is padded to a value with the structure of the output, where
all other tensors have zero gradients.
-/
namespace Rannc

variable {α : Type} [Zero α]

namespace IValue

mutual

/-- The value is walked from the path `current_path`. -/
def doCreateZeroPad (grad : Tensor α) (path : PathInIValue) :
    PathInIValue → IValue (Tensor α) → Except String (IValue (Tensor α))
  | current_path, tensor t => .ok (tensor (if current_path = path then grad else t.zerosLike))
  | current_path, tensorList ts =>
    .ok (tensorList (ts.zipIdx.map fun it =>
      if current_path ++ [⟨.LIST, it.2⟩] = path then it.1 else it.1.zerosLike))
  | _, scalarList l =>
    if l.elems.isEmpty then .ok (list "Any" []) else .error "Output contains non-tensor value"
  | current_path, list _ elems => do
    .ok (list "Any" (← doCreateZeroPadAll grad path current_path .LIST 0 elems))
  | current_path, tuple elems => do
    .ok (tuple (← doCreateZeroPadAll grad path current_path .TUPLE 0 elems))
  | _, scalar _ => .error "Output contains non-tensor value"

def doCreateZeroPadAll (grad : Tensor α) (path : PathInIValue) (current_path : PathInIValue)
    (type : StepTypeInIValue) :
    ℕ → List (IValue (Tensor α)) → Except String (List (IValue (Tensor α)))
  | _, [] => .ok []
  | i, elem :: elems => do
    let pad ← doCreateZeroPad grad path (current_path ++ [⟨type, i⟩]) elem
    .ok (pad :: (← doCreateZeroPadAll grad path current_path type (i + 1) elems))

end

def createZeroPad (ivalue : IValue (Tensor α)) (path : PathInIValue) (grad : Tensor α) :
    Except String (IValue (Tensor α)) :=
  doCreateZeroPad grad path [] ivalue

section Structure

variable {T : Type}

mutual

/-- The value without its tensors and the declared types of its lists. -/
def skeleton : IValue T → IValue Unit
  | tensor _ => tensor ()
  | tensorList ts => tensorList (ts.map fun _ => ())
  | scalarList l => list "" (l.elems.map scalar)
  | list _ elems => list "" (skeletons elems)
  | tuple elems => tuple (skeletons elems)
  | scalar v => scalar v

def skeletons : List (IValue T) → List (IValue Unit)
  | [] => []
  | e :: es => skeleton e :: skeletons es

end

mutual

/-- There are no values but tensors in the value. -/
def HoldsOnlyTensors : IValue T → Prop
  | tensor _ => True
  | tensorList _ => True
  | scalarList l => l.elems = []
  | list _ elems => HoldOnlyTensors elems
  | tuple elems => HoldOnlyTensors elems
  | scalar _ => False

def HoldOnlyTensors : List (IValue T) → Prop
  | [] => True
  | e :: es => HoldsOnlyTensors e ∧ HoldOnlyTensors es

end

/-- The path leads to an element of a list of tensors. -/
def EntersTensorList : IValue T → PathInIValue → Prop
  | tensorList _, _ :: _ => True
  | list _ elems, step :: path => ∃ e, elems[step.2]? = some e ∧ EntersTensorList e path
  | tuple elems, step :: path => ∃ e, elems[step.2]? = some e ∧ EntersTensorList e path
  | _, _ => False

@[simp] theorem skeletons_eq (elems : List (IValue T)) : skeletons elems = elems.map skeleton := by
  induction elems with
  | nil => rfl
  | cons e es ih => rw [skeletons, ih, List.map_cons]

theorem holdOnlyTensors_iff (elems : List (IValue T)) :
    HoldOnlyTensors elems ↔ ∀ e ∈ elems, HoldsOnlyTensors e := by
  induction elems with
  | nil => simp [HoldOnlyTensors]
  | cons e es ih => simp [HoldOnlyTensors, ih]

theorem pathsThrough_skeleton {elems : List (IValue T)} {type : StepTypeInIValue} {index : ℕ}
    (h : ∀ e ∈ elems, e.skeleton.findPathsToTensorInIValue = e.findPathsToTensorInIValue) :
    pathsThrough type index (elems.map skeleton) = pathsThrough type index elems := by
  induction elems generalizing index with
  | nil => rfl
  | cons e es ih =>
    have htail := @ih (index + 1) fun e' he' => h e' (by simp [he'])
    unfold pathsThrough at htail ⊢
    rw [List.map_cons, List.zipIdx_cons, List.zipIdx_cons, List.flatMap_cons, List.flatMap_cons,
      htail, h e (by simp)]

theorem findPaths_skeleton (v : IValue T) :
    v.skeleton.findPathsToTensorInIValue = v.findPathsToTensorInIValue := by
  induction v using IValue.induction with
  | tensor t => rfl
  | tensorList ts => simp [skeleton]
  | scalarList l =>
    simp only [skeleton, findPaths_list, findPaths_scalarList]
    apply List.eq_nil_of_subset_nil
    intro path hpath
    obtain ⟨index, e, he, rest, hrest, -⟩ := mem_pathsThrough.mp hpath
    obtain ⟨v, -, rfl⟩ := List.mem_map.mp (List.mem_of_getElem? he)
    rw [findPaths_scalar] at hrest
    exact absurd hrest List.not_mem_nil
  | list elem_type elems ih => simp [skeleton, pathsThrough_skeleton ih]
  | tuple elems ih => simp [skeleton, pathsThrough_skeleton ih]
  | scalar v => rfl

end Structure

/-- What becomes of a tensor. In a list of tensors the tensor itself takes the place of the
gradient. -/
def PadsTo (grad : Tensor α) (path current_path : PathInIValue) (v : IValue (Tensor α))
    (rest : PathInIValue) (t pad : Tensor α) : Prop :=
  (current_path ++ rest ≠ path → pad = t.zerosLike) ∧
    (current_path ++ rest = path → v.EntersTensorList rest → pad = t) ∧
    (current_path ++ rest = path → ¬ v.EntersTensorList rest → pad = grad)

/-- The padding of a part of the value that is reached by a path. -/
structure Padding (grad : Tensor α) (path current_path : PathInIValue) (v w : IValue (Tensor α)) :
    Prop where
  skeleton : w.skeleton = v.skeleton
  pads : ∀ rest ∈ v.findPathsToTensorInIValue, ∀ t, v.getElemInIValue rest = some (tensor t) →
    ∃ pad, w.getElemInIValue rest = some (tensor pad) ∧ PadsTo grad path current_path v rest t pad

section Spec

variable {grad : Tensor α} {path : PathInIValue}

theorem doCreateZeroPadAll_spec {elems : List (IValue (Tensor α))}
    (h : ∀ e ∈ elems, ∀ current_path, ∃ w, doCreateZeroPad grad path current_path e = .ok w ∧
      Padding grad path current_path e w)
    (current_path : PathInIValue) (type : StepTypeInIValue) (i : ℕ) :
    ∃ ws, doCreateZeroPadAll grad path current_path type i elems = .ok ws ∧
      List.Forall₂ (fun it w => Padding grad path (current_path ++ [⟨type, it.2⟩]) it.1 w)
        (elems.zipIdx i) ws := by
  induction elems generalizing i with
  | nil => exact ⟨[], rfl, List.Forall₂.nil⟩
  | cons e es ih =>
    obtain ⟨w, hw, hpad⟩ := h e (by simp) (current_path ++ [⟨type, i⟩])
    obtain ⟨ws, hws, hpads⟩ := ih (fun e' he' => h e' (by simp [he'])) (i + 1)
    refine ⟨w :: ws, ?_, List.Forall₂.cons hpad hpads⟩
    rw [doCreateZeroPadAll, hw, hws]
    rfl

/-- The paddings of the elements make up that of a list or tuple. -/
theorem padding_of_elems {current_path : PathInIValue} {type : StepTypeInIValue}
    {elems ws : List (IValue (Tensor α))} {v w : IValue (Tensor α)}
    (hall : List.Forall₂ (fun it w => Padding grad path (current_path ++ [⟨type, it.2⟩]) it.1 w)
      (elems.zipIdx 0) ws)
    (hpaths : v.findPathsToTensorInIValue = pathsThrough type 0 elems)
    (hv : ∀ i rest, v.getElemInIValue (⟨type, i⟩ :: rest) =
      (elems[i]?).bind fun e => e.getElemInIValue rest)
    (hw : ∀ i rest, w.getElemInIValue (⟨type, i⟩ :: rest) =
      (ws[i]?).bind fun e => e.getElemInIValue rest)
    (henters : ∀ i e, elems[i]? = some e → ∀ rest,
      v.EntersTensorList (⟨type, i⟩ :: rest) ↔ e.EntersTensorList rest)
    (hskeleton : ws.map skeleton = elems.map skeleton → w.skeleton = v.skeleton) :
    Padding grad path current_path v w where
  skeleton := by
    apply hskeleton
    have hlength : (elems.zipIdx 0).length = ws.length := hall.length_eq
    apply List.ext_getElem
    · simpa using hlength.symm
    · intro i hi hi'
      have hzip : i < (elems.zipIdx 0).length := by simpa using hi'
      have hpad := (List.forall₂_iff_get.mp hall).2 i hzip (by simpa using hi)
      simpa using hpad.skeleton
  pads rest hrest t ht := by
    rw [hpaths] at hrest
    obtain ⟨i, e, he, tail, htail, rfl⟩ := mem_pathsThrough.mp hrest
    have hlt : i < elems.length := (List.getElem?_eq_some_iff.mp he).1
    have hzip : i < (elems.zipIdx 0).length := by simpa using hlt
    have hws : i < ws.length := by rwa [← hall.length_eq]
    have hpad := (List.forall₂_iff_get.mp hall).2 i hzip hws
    have heq : elems[i] = e := (List.getElem?_eq_some_iff.mp he).2
    simp only [List.get_eq_getElem, List.getElem_zipIdx, Nat.zero_add, heq] at hpad
    rw [hv, he, Option.bind_some] at ht
    obtain ⟨pad, hget, hvalue⟩ := hpad.pads tail htail t ht
    refine ⟨pad, ?_, ?_⟩
    · rw [hw, List.getElem?_eq_getElem hws, Option.bind_some]
      exact hget
    · unfold PadsTo at hvalue ⊢
      rw [henters i e he]
      simpa using hvalue

theorem doCreateZeroPad_spec (grad : Tensor α) (path : PathInIValue) {v : IValue (Tensor α)}
    (honly : v.HoldsOnlyTensors) :
    ∀ current_path, ∃ w, doCreateZeroPad grad path current_path v = .ok w ∧
      Padding grad path current_path v w := by
  induction v using IValue.induction with
  | tensor t =>
    intro current_path
    refine ⟨_, rfl, rfl, ?_⟩
    intro rest hrest t' ht'
    rw [findPaths_tensor, List.mem_singleton] at hrest
    subst hrest
    have heq : t = t' := by simpa [getElemInIValue] using ht'
    refine ⟨_, rfl, ?_, ?_, ?_⟩
    · intro hne
      rw [if_neg (by simpa using hne), heq]
    · exact fun _ henters => absurd henters (by simp [EntersTensorList])
    · intro hpath _
      rw [if_pos (by simpa using hpath)]
  | tensorList ts =>
    intro current_path
    refine ⟨_, rfl, ?_, ?_⟩
    · simp [skeleton, Function.comp_def]
    · intro rest hrest t ht
      rw [findPaths_tensorList] at hrest
      obtain ⟨i, hi, rfl⟩ := List.mem_map.mp hrest
      have hlt : i < ts.length := List.mem_range.mp hi
      have heq : ts[i] = t := by simpa [getElemInIValue, hlt] using ht
      refine ⟨if current_path ++ [⟨.LIST, i⟩] = path then t else t.zerosLike, ?_, ?_, ?_, ?_⟩
      · simp [getElemInIValue, hlt, heq]
      · exact fun hne => if_neg hne
      · exact fun hpath _ => if_pos hpath
      · exact fun _ hnot => absurd trivial hnot
  | scalarList l =>
    intro current_path
    have hnil : l.elems = [] := honly
    refine ⟨list "Any" [], by simp [doCreateZeroPad, hnil], ?_, ?_⟩
    · simp [skeleton, hnil]
    · exact fun rest hrest => absurd hrest List.not_mem_nil
  | list elem_type elems ih =>
    intro current_path
    have hall := (holdOnlyTensors_iff elems).mp honly
    obtain ⟨ws, hws, hpads⟩ :=
      doCreateZeroPadAll_spec (fun e he => ih e he (hall e he)) current_path .LIST 0
    refine ⟨list "Any" ws, by rw [doCreateZeroPad, hws]; rfl, ?_⟩
    apply padding_of_elems hpads (findPaths_list elem_type elems)
    · exact fun i rest => by simp [getElemInIValue]
    · exact fun i rest => by simp [getElemInIValue]
    · exact fun i e he rest => by simp [EntersTensorList, he]
    · exact fun h => by simp [skeleton, h]
  | tuple elems ih =>
    intro current_path
    have hall := (holdOnlyTensors_iff elems).mp honly
    obtain ⟨ws, hws, hpads⟩ :=
      doCreateZeroPadAll_spec (fun e he => ih e he (hall e he)) current_path .TUPLE 0
    refine ⟨tuple ws, by rw [doCreateZeroPad, hws]; rfl, ?_⟩
    apply padding_of_elems hpads (findPaths_tuple elems)
    · exact fun i rest => by simp [getElemInIValue]
    · exact fun i rest => by simp [getElemInIValue]
    · exact fun i e he rest => by simp [EntersTensorList, he]
    · exact fun h => by simp [skeleton, h]
  | scalar v => exact absurd honly (by simp [HoldsOnlyTensors])

end Spec

/-- A value of the same structure that holds the gradient at the path and zeros elsewhere. -/
structure ZeroPadded (v : IValue (Tensor α)) (path : PathInIValue) (grad : Tensor α)
    (w : IValue (Tensor α)) : Prop where
  skeleton : w.skeleton = v.skeleton
  paths : w.findPathsToTensorInIValue = v.findPathsToTensorInIValue
  at_path : w.getElemInIValue path = some (tensor grad)
  elsewhere : ∀ other ∈ v.findPathsToTensorInIValue, other ≠ path →
    ∃ t, v.getElemInIValue other = some (tensor t) ∧
      w.getElemInIValue other = some (tensor t.zerosLike)

omit [Zero α] in
theorem exists_tensor_of_mem_findPaths {v : IValue (Tensor α)} {path : PathInIValue}
    (h : path ∈ v.findPathsToTensorInIValue) : ∃ t, v.getElemInIValue path = some (tensor t) := by
  have hmem : v.getElemInIValue path ∈ v.tensors.map fun t => some (tensor t) := by
    rw [← map_findPaths]
    exact List.mem_map_of_mem h
  obtain ⟨t, -, ht⟩ := List.mem_map.mp hmem
  exact ⟨t, ht.symm⟩

theorem createZeroPad_zeroPadded (v : IValue (Tensor α)) (path : PathInIValue) (grad : Tensor α)
    (honly : v.HoldsOnlyTensors) (hpath : path ∈ v.findPathsToTensorInIValue)
    (hlist : ¬ v.EntersTensorList path) :
    ∃ w, createZeroPad v path grad = .ok w ∧ ZeroPadded v path grad w := by
  obtain ⟨w, hw, hpadding⟩ := doCreateZeroPad_spec grad path honly []
  refine ⟨w, hw, hpadding.skeleton, ?_, ?_, ?_⟩
  · rw [← findPaths_skeleton w, hpadding.skeleton, findPaths_skeleton]
  · obtain ⟨t, ht⟩ := exists_tensor_of_mem_findPaths hpath
    obtain ⟨pad, hget, hvalue⟩ := hpadding.pads path hpath t ht
    rw [hget, hvalue.2.2 rfl hlist]
  · intro other hother hne
    obtain ⟨t, ht⟩ := exists_tensor_of_mem_findPaths hother
    obtain ⟨pad, hget, hvalue⟩ := hpadding.pads other hother t ht
    exact ⟨t, ht, by rw [hget, hvalue.1 hne]⟩

/-- Two outputs, the first in a list. -/
def twoOutputs : IValue (Tensor ℕ) :=
  .tuple [.list "Any" [.tensor (Tensor.ofList .FLOAT true [1, 2])],
    .tensor (Tensor.ofList .FLOAT true [3])]

theorem createZeroPad_zeroPadded_two :
    ∃ w, createZeroPad twoOutputs [⟨.TUPLE, 0⟩, ⟨.LIST, 0⟩] (Tensor.ofList .FLOAT false [5, 6]) =
        .ok w ∧
      ZeroPadded twoOutputs [⟨.TUPLE, 0⟩, ⟨.LIST, 0⟩] (Tensor.ofList .FLOAT false [5, 6]) w :=
  createZeroPad_zeroPadded _ _ _ (by simp [twoOutputs, HoldsOnlyTensors, HoldOnlyTensors])
    (by decide) (by simp [twoOutputs, EntersTensorList])

/-- An output that is not a tensor has no padding. -/
theorem not_zeroPadded :
    ¬ ∃ w, createZeroPad (.tuple [.tensor (Tensor.ofList .FLOAT true [1]), .scalar (.int 3)])
        [⟨.TUPLE, 0⟩] (Tensor.ofList .FLOAT false [5]) = .ok w ∧
      ZeroPadded (.tuple [.tensor (Tensor.ofList .FLOAT true [1]), .scalar (.int 3)])
        [⟨.TUPLE, 0⟩] (Tensor.ofList .FLOAT false [5]) w := by
  rintro ⟨w, hw, -⟩
  have herror : createZeroPad (.tuple [.tensor (Tensor.ofList .FLOAT true [1]), .scalar (.int 3)])
      [⟨.TUPLE, 0⟩] (Tensor.ofList .FLOAT false [(5 : ℕ)]) =
        .error "Output contains non-tensor value" := rfl
  cases herror.symm.trans hw

theorem createZeroPad_of_entersTensorList {v : IValue (Tensor α)} {path : PathInIValue}
    (grad : Tensor α) (honly : v.HoldsOnlyTensors) (hpath : path ∈ v.findPathsToTensorInIValue)
    (hlist : v.EntersTensorList path) :
    ∃ w, createZeroPad v path grad = .ok w ∧ w.getElemInIValue path = v.getElemInIValue path := by
  obtain ⟨w, hw, hpadding⟩ := doCreateZeroPad_spec grad path honly []
  obtain ⟨t, ht⟩ := exists_tensor_of_mem_findPaths hpath
  obtain ⟨pad, hget, hvalue⟩ := hpadding.pads path hpath t ht
  exact ⟨w, hw, by rw [hget, ht, hvalue.2.1 rfl hlist]⟩

end IValue

end Rannc
