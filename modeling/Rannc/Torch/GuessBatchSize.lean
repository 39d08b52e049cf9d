import Rannc.Torch.IValue

/-!
# Guessing the batch size

The batch size of a value is the leading dimension of its first tensor that has a positive one. In
a list of tensors the result for a tensor without dimensions, which is negative, is taken for a
size, so nothing that stands behind such a tensor in its list is seen.
-/
namespace Rannc

namespace IValue

variable {T : Type} (getTensorDim : T → List Int64)

def tensorBatchSize (t : T) : Int64 :=
  match getTensorDim t with
  | [] => -1
  | d :: _ => d

/-- The size of a tensor is compared without its sign. -/
def listBatchSize : List T → Int64
  | [] => -1
  | t :: ts =>
    let bs : UInt64 := (tensorBatchSize getTensorDim t).toUInt64
    if bs > 0 then bs.toInt64 else listBatchSize ts

mutual

def doGuessBatchSize : IValue T → Int64
  | tensor t => tensorBatchSize getTensorDim t
  | tensorList ts => listBatchSize getTensorDim ts
  | scalarList _ => -1
  | list _ elems => guessElems elems
  | tuple elems => guessElems elems
  | scalar _ => -1

def guessElems : List (IValue T) → Int64
  | [] => -1
  | iv :: elems =>
    let bs := doGuessBatchSize iv
    if bs > 0 then bs else guessElems elems

end

mutual

/-- The tensors of a value without those that stand in a list of tensors behind one that has no
dimensions. -/
def visibleTensors : IValue T → List T
  | tensor t => [t]
  | tensorList ts => ts.takeWhile fun t => 0 ≤ tensorBatchSize getTensorDim t
  | list _ elems => visibleElems elems
  | tuple elems => visibleElems elems
  | _ => []

def visibleElems : List (IValue T) → List T
  | [] => []
  | e :: es => visibleTensors e ++ visibleElems es

end

mutual

/-- The value with its lists of tensors stored as generic lists. -/
def toGenericLists : IValue T → IValue T
  | tensor t => tensor t
  | tensorList ts => list "Tensor" (ts.map tensor)
  | scalarList l => scalarList l
  | list elem_type elems => list elem_type (genericElems elems)
  | tuple elems => tuple (genericElems elems)
  | scalar v => scalar v

def genericElems : List (IValue T) → List (IValue T)
  | [] => []
  | e :: es => toGenericLists e :: genericElems es

end

@[simp] theorem visibleElems_eq (elems : List (IValue T)) :
    visibleElems getTensorDim elems = elems.flatMap (visibleTensors getTensorDim) := by
  induction elems with
  | nil => rfl
  | cons e es ih => rw [visibleElems, ih, List.flatMap_cons]

@[simp] theorem genericElems_eq (elems : List (IValue T)) :
    genericElems elems = elems.map toGenericLists := by
  induction elems with
  | nil => rfl
  | cons e es ih => rw [genericElems, ih, List.map_cons]

/-- What a result says: a size, or that there is none. -/
def positiveSize (bs : Int64) : Option Int64 := if 0 < bs then some bs else none

/-- The leading dimension of the first tensor that has a positive one. -/
def firstBatchSize (ts : List T) : Option Int64 :=
  ts.findSome? fun t => positiveSize (tensorBatchSize getTensorDim t)

theorem firstBatchSize_append (ts us : List T) : firstBatchSize getTensorDim (ts ++ us) =
    (firstBatchSize getTensorDim ts).or (firstBatchSize getTensorDim us) :=
  List.findSome?_append

theorem positiveSize_guessElems (elems : List (IValue T)) :
    positiveSize (guessElems getTensorDim elems) =
      elems.findSome? fun e => positiveSize (doGuessBatchSize getTensorDim e) := by
  induction elems with
  | nil => rfl
  | cons e es ih =>
    rw [guessElems, List.findSome?_cons, ← ih]
    by_cases hpos : 0 < doGuessBatchSize getTensorDim e
    · rw [if_pos hpos, positiveSize, if_pos hpos]
    · rw [if_neg hpos]
      conv_rhs => rw [positiveSize, if_neg hpos]

/-- The first tensor without dimensions ends the list. -/
theorem positiveSize_listBatchSize (ts : List T) :
    positiveSize (listBatchSize getTensorDim ts) = firstBatchSize getTensorDim
      (ts.takeWhile fun t => 0 ≤ tensorBatchSize getTensorDim t) := by
  induction ts with
  | nil => rfl
  | cons t ts ih =>
    rw [listBatchSize, Int64.toInt64_toUInt64]
    by_cases hzero : tensorBatchSize getTensorDim t = 0
    · have hskip : ¬ (tensorBatchSize getTensorDim t).toUInt64 > 0 := by
        rw [hzero]
        decide
      rw [if_neg hskip, ih, List.takeWhile_cons_of_pos (by rw [hzero]; decide), firstBatchSize,
        firstBatchSize, List.findSome?_cons, hzero]
      rfl
    · have hend : (tensorBatchSize getTensorDim t).toUInt64 > 0 := by
        apply UInt64.pos_iff_ne_zero.mpr
        intro h
        rw [← Int64.toInt64_toUInt64 (tensorBatchSize getTensorDim t), h] at hzero
        exact hzero rfl
      rw [if_pos hend]
      by_cases hneg : 0 ≤ tensorBatchSize getTensorDim t
      · have hpos : 0 < tensorBatchSize getTensorDim t :=
          Int64.lt_of_le_of_ne hneg fun h => hzero h.symm
        rw [List.takeWhile_cons_of_pos (by simpa using hneg), firstBatchSize, List.findSome?_cons,
          positiveSize, if_pos hpos]
      · have hpos : ¬ 0 < tensorBatchSize getTensorDim t := fun h => hneg (Int64.le_of_lt h)
        rw [List.takeWhile_cons_of_neg (by simpa using hneg), positiveSize, if_neg hpos]
        rfl

/-- The guess is the size of the first tensor that is seen. -/
theorem positiveSize_doGuessBatchSize (v : IValue T) :
    positiveSize (doGuessBatchSize getTensorDim v) =
      firstBatchSize getTensorDim (visibleTensors getTensorDim v) := by
  have helems : ∀ elems : List (IValue T),
      (∀ e ∈ elems, positiveSize (doGuessBatchSize getTensorDim e) =
        firstBatchSize getTensorDim (visibleTensors getTensorDim e)) →
      positiveSize (guessElems getTensorDim elems) =
        firstBatchSize getTensorDim (elems.flatMap (visibleTensors getTensorDim)) := by
    intro elems
    rw [positiveSize_guessElems]
    induction elems with
    | nil => exact fun _ => rfl
    | cons e es ih =>
      intro h
      rw [List.findSome?_cons, List.flatMap_cons, firstBatchSize_append,
        ← ih fun e' he' => h e' (List.mem_cons_of_mem _ he'), h e List.mem_cons_self]
      cases firstBatchSize getTensorDim (visibleTensors getTensorDim e) <;> rfl
  induction v using IValue.induction with
  | tensor t =>
    rw [doGuessBatchSize, visibleTensors, firstBatchSize, List.findSome?_singleton]
  | tensorList ts =>
    rw [doGuessBatchSize, visibleTensors, positiveSize_listBatchSize]
  | scalarList l => rfl
  | list elem_type elems ih =>
    rw [doGuessBatchSize, visibleTensors, visibleElems_eq, helems elems ih]
  | tuple elems ih =>
    rw [doGuessBatchSize, visibleTensors, visibleElems_eq, helems elems ih]
  | scalar v => rfl

theorem visibleTensors_toGenericLists (v : IValue T) :
    visibleTensors getTensorDim v.toGenericLists = v.tensors := by
  induction v using IValue.induction with
  | tensor t => rfl
  | tensorList ts =>
    rw [toGenericLists, visibleTensors, visibleElems_eq, tensors, List.flatMap_map]
    exact List.flatMap_singleton' ts
  | scalarList l => rfl
  | list elem_type elems ih =>
    rw [toGenericLists, visibleTensors, visibleElems_eq, genericElems_eq, tensors, tensorsAll_eq,
      List.flatMap_map]
    exact List.flatMap_congr ih
  | tuple elems ih =>
    rw [toGenericLists, visibleTensors, visibleElems_eq, genericElems_eq, tensors, tensorsAll_eq,
      List.flatMap_map]
    exact List.flatMap_congr ih
  | scalar v => rfl

/-- The guess is the size of the first tensor that has one, however the lists are stored. -/
structure GuessesFirst (v : IValue T) : Prop where
  first : positiveSize (doGuessBatchSize getTensorDim v) = firstBatchSize getTensorDim v.tensors
  stored : positiveSize (doGuessBatchSize getTensorDim v.toGenericLists) =
    positiveSize (doGuessBatchSize getTensorDim v)

theorem guessesFirst_iff (v : IValue T) : GuessesFirst getTensorDim v ↔
    firstBatchSize getTensorDim (visibleTensors getTensorDim v) =
      firstBatchSize getTensorDim v.tensors := by
  have hguess := positiveSize_doGuessBatchSize getTensorDim v
  have hgeneric := positiveSize_doGuessBatchSize getTensorDim v.toGenericLists
  rw [visibleTensors_toGenericLists] at hgeneric
  constructor
  · intro h
    rw [← hguess, h.first]
  · intro h
    rw [h] at hguess
    exact ⟨hguess, hgeneric.trans hguess.symm⟩

/-- A loss before a batch of four. -/
theorem not_guessesFirst : ¬∀ v : IValue (List Int64), GuessesFirst id v := by
  intro h
  have hfirst := (h (.tensorList [[], [4]])).first
  revert hfirst
  decide

end IValue

end Rannc
