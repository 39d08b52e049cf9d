import Rannc.Lib.OptionFold
import Mathlib.Data.List.Basic
import Mathlib.Tactic

/-!
# Values

A value is a tensor, a tree of lists and tuples, or something else that holds no tensor. Operations
on the tensors of a value keep the tree.
-/
namespace Rannc

/-- Values other than tensors, lists and tuples. A double is given by its bits. -/
inductive ScalarIValue
  | int (n : ℤ)
  | bool (b : Bool)
  | double (bits : UInt64)
  | string (s : String)
  | device (name : String)
  | none

/-- A list whose type says that it holds integers, doubles or flags. -/
inductive ScalarIValueList
  | INT (l : List ℤ)
  | FLOAT (l : List UInt64)
  | BOOL (l : List Bool)

def ScalarIValueList.elems : ScalarIValueList → List ScalarIValue
  | INT l => l.map .int
  | FLOAT l => l.map .double
  | BOOL l => l.map .bool

inductive IValue (T : Type)
  | tensor (t : T)
  | tensorList (ts : List T)
  | scalarList (l : ScalarIValueList)
  | list (elem_type : String) (elems : List (IValue T))
  | tuple (elems : List (IValue T))
  | scalar (v : ScalarIValue)

namespace IValue

variable {T U : Type}

@[elab_as_elim]
theorem induction {P : IValue T → Prop} (tensor : ∀ t, P (.tensor t))
    (tensorList : ∀ ts, P (.tensorList ts)) (scalarList : ∀ l, P (.scalarList l))
    (list : ∀ elem_type elems, (∀ e ∈ elems, P e) → P (.list elem_type elems))
    (tuple : ∀ elems, (∀ e ∈ elems, P e) → P (.tuple elems)) (scalar : ∀ v, P (.scalar v)) :
    ∀ v, P v
  | .tensor t => tensor t
  | .tensorList ts => tensorList ts
  | .scalarList l => scalarList l
  | .list elem_type elems => list elem_type elems fun e _ =>
      induction tensor tensorList scalarList list tuple scalar e
  | .tuple elems => tuple elems fun e _ =>
      induction tensor tensorList scalarList list tuple scalar e
  | .scalar v => scalar v

def toTensor : IValue T → Option T
  | tensor t => some t
  | _ => none

def toTensorVector : IValue T → Option (List T)
  | tensorList ts => some ts
  | _ => none

def toListRef : IValue T → Option (List (IValue T))
  | tensorList ts => some (ts.map tensor)
  | scalarList l => some (l.elems.map scalar)
  | list _ elems => some elems
  | _ => none

def toTuple : IValue T → Option (List (IValue T))
  | tuple elems => some elems
  | _ => none

mutual

/-- The tensors of a value from left to right. -/
def tensors : IValue T → List T
  | tensor t => [t]
  | tensorList ts => ts
  | list _ elems => tensorsAll elems
  | tuple elems => tensorsAll elems
  | _ => []

def tensorsAll : List (IValue T) → List T
  | [] => []
  | e :: es => tensors e ++ tensorsAll es

end

mutual

def transformTensorsInIValue (f : T → U) : IValue T → IValue U
  | tensor t => tensor (f t)
  | tensorList ts => tensorList (ts.map f)
  | list elem_type elems => list elem_type (transformAll f elems)
  | tuple elems => tuple (transformAll f elems)
  | scalarList l => scalarList l
  | scalar v => scalar v

def transformAll (f : T → U) : List (IValue T) → List (IValue U)
  | [] => []
  | e :: es => transformTensorsInIValue f e :: transformAll f es

end

/-- Each tensor of a list with those at its position in other lists. -/
def aggregateTensors (f : List T → Option T) : List T → ℕ → List (List T) → Option (List T)
  | [], _, _ => some []
  | t :: ts, i, others => do
    let tensors ← others.mapM (·[i]?)
    let concat ← f (t :: tensors)
    some (concat :: (← aggregateTensors f ts (i + 1) others))

mutual

/-- The first value says how the others are taken apart. -/
def aggregate (f : List T → Option T) : IValue T → List (IValue T) → Option (IValue T)
  | tensor t, others => do
    some (tensor (← f (t :: (← others.mapM toTensor))))
  | tensorList ts, others => do
    some (tensorList (← aggregateTensors f ts 0 (← others.mapM toTensorVector)))
  | scalarList l, others => do
    let lists ← others.mapM toListRef
    guard (∀ elems ∈ lists, l.elems.length ≤ elems.length)
    some (scalarList l)
  | list elem_type elems, others => do
    some (list elem_type (← aggregateAll f elems 0 (← others.mapM toListRef)))
  | tuple elems, others => do
    some (tuple (← aggregateAll f elems 0 (← others.mapM toTuple)))
  | scalar v, _ => some (scalar v)

def aggregateAll (f : List T → Option T) :
    List (IValue T) → ℕ → List (List (IValue T)) → Option (List (IValue T))
  | [], _, _ => some []
  | e :: es, i, others => do
    let elem ← aggregate f e (← others.mapM (·[i]?))
    some (elem :: (← aggregateAll f es (i + 1) others))

end

def aggregateTensorsInIValues (f : List T → Option T) : List (IValue T) → Option (IValue T)
  | [] => none
  | ivalue :: others => aggregate f ivalue others

@[simp] theorem tensorsAll_eq (elems : List (IValue T)) :
    tensorsAll elems = elems.flatMap tensors := by
  induction elems with
  | nil => rfl
  | cons e es ih => rw [tensorsAll, ih, List.flatMap_cons]

@[simp] theorem transformAll_eq (f : T → U) (elems : List (IValue T)) :
    transformAll f elems = elems.map (transformTensorsInIValue f) := by
  induction elems with
  | nil => rfl
  | cons e es ih => rw [transformAll, ih, List.map_cons]

section Aggregate

variable {ι : Type} {f : List T → Option T} {g : ι → T → T} {h : T → T} (i : ι) (is : List ι)

theorem aggregateTensors_map {all ts : List T} {k : ℕ} (hts : all.drop k = ts)
    (hf : ∀ t ∈ ts, f ((i :: is).map (g · t)) = some (h t)) :
    aggregateTensors f (ts.map (g i)) k (is.map fun j => all.map (g j)) = some (ts.map h) := by
  induction ts generalizing k with
  | nil => rfl
  | cons t ts ih =>
    have hk : all[k]? = some t := by
      rw [← List.head?_drop, hts]
      rfl
    have hrest : all.drop (k + 1) = ts := by rw [← List.tail_drop, hts, List.tail_cons]
    have hothers : (is.map fun j => all.map (g j)).mapM (·[k]?) = some (is.map (g · t)) := by
      rw [mapM_eq_some_iff, List.map_map, List.map_map]
      apply List.map_congr_left
      intro j _
      simp [hk]
    have hfirst := hf t (by simp)
    rw [List.map_cons] at hfirst
    simp [aggregateTensors, hothers, hfirst, ih hrest fun u hu => hf u (by simp [hu])]

theorem aggregateAll_map {all elems : List (IValue T)} {k : ℕ} (helems : all.drop k = elems)
    (hf : ∀ e ∈ elems, aggregate f (transformTensorsInIValue (g i) e)
      (is.map fun j => transformTensorsInIValue (g j) e) = some (transformTensorsInIValue h e)) :
    aggregateAll f (elems.map (transformTensorsInIValue (g i))) k
      (is.map fun j => all.map (transformTensorsInIValue (g j))) =
        some (elems.map (transformTensorsInIValue h)) := by
  induction elems generalizing k with
  | nil => rfl
  | cons e es ih =>
    have hk : all[k]? = some e := by
      rw [← List.head?_drop, helems]
      rfl
    have hrest : all.drop (k + 1) = es := by rw [← List.tail_drop, helems, List.tail_cons]
    have hothers : (is.map fun j => all.map (transformTensorsInIValue (g j))).mapM (·[k]?) =
        some (is.map fun j => transformTensorsInIValue (g j) e) := by
      rw [mapM_eq_some_iff, List.map_map, List.map_map]
      apply List.map_congr_left
      intro j _
      simp [hk]
    simp [aggregateAll, hothers, hf e (by simp), ih hrest fun u hu => hf u (by simp [hu])]

/-- What can be put together at every tensor can be put together as a whole. -/
theorem aggregate_transform (v : IValue T)
    (hf : ∀ t ∈ v.tensors, f ((i :: is).map (g · t)) = some (h t)) :
    aggregate f (transformTensorsInIValue (g i) v)
      (is.map fun j => transformTensorsInIValue (g j) v) =
        some (transformTensorsInIValue h v) := by
  have hmap {A : Type} (get : IValue T → Option A) (a : ι → A) (w : ι → IValue T)
      (hget : ∀ j, get (w j) = some (a j)) : (is.map w).mapM get = some (is.map a) := by
    rw [mapM_eq_some_iff, List.map_map, List.map_map]
    exact List.map_congr_left fun j _ => hget j
  induction v using IValue.induction with
  | tensor t =>
    have htensors := hmap toTensor (g · t)
      (fun j => transformTensorsInIValue (g j) (.tensor t)) fun j => rfl
    have hfirst := hf t (by simp [tensors])
    rw [List.map_cons] at hfirst
    simp only [transformTensorsInIValue] at htensors ⊢
    rw [aggregate, htensors]
    simp [hfirst]
  | tensorList ts =>
    have hlists := hmap toTensorVector (fun j => ts.map (g j))
      (fun j => transformTensorsInIValue (g j) (.tensorList ts)) fun j => rfl
    simp only [transformTensorsInIValue] at hlists ⊢
    have hconcat := aggregateTensors_map i is ts.drop_zero hf
    rw [aggregate, hlists]
    simp [hconcat]
  | scalarList l =>
    have hlists := hmap toListRef (fun _ => l.elems.map .scalar)
      (fun j => transformTensorsInIValue (g j) (.scalarList l)) fun j => rfl
    simp only [transformTensorsInIValue] at hlists ⊢
    rw [aggregate, hlists]
    simp [guard]
  | list elem_type elems ih =>
    have hlists := hmap toListRef (fun j => elems.map (transformTensorsInIValue (g j)))
      (fun j => transformTensorsInIValue (g j) (.list elem_type elems))
      fun j => by simp [transformTensorsInIValue, toListRef]
    have helems := aggregateAll_map (f := f) (g := g) (h := h) i is (elems.drop_zero)
      fun e he => ih e he fun t ht => hf t (by
        simp only [tensors, tensorsAll_eq]
        exact List.mem_flatMap.mpr ⟨e, he, ht⟩)
    simp only [transformTensorsInIValue, transformAll_eq] at hlists ⊢
    rw [aggregate, hlists]
    simp [helems]
  | tuple elems ih =>
    have hlists := hmap toTuple (fun j => elems.map (transformTensorsInIValue (g j)))
      (fun j => transformTensorsInIValue (g j) (.tuple elems))
      fun j => by simp [transformTensorsInIValue, toTuple]
    have helems := aggregateAll_map (f := f) (g := g) (h := h) i is (elems.drop_zero)
      fun e he => ih e he fun t ht => hf t (by
        simp only [tensors, tensorsAll_eq]
        exact List.mem_flatMap.mpr ⟨e, he, ht⟩)
    simp only [transformTensorsInIValue, transformAll_eq] at hlists ⊢
    rw [aggregate, hlists]
    simp [helems]
  | scalar v => rfl

end Aggregate

end IValue

end Rannc
