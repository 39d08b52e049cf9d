import Rannc.Common.BatchDims
import Rannc.Graph.IRType
import Rannc.Lib.Slices

/-!
# Tensors

A tensor with the number of elements that its dimensions say. The rows are the slices of its leading
dimension.
-/
namespace Rannc

/-- The elements are in row-major order. -/
@[ext]
structure Tensor (α : Type) where
  elem_type : IRTensorElemType
  dim : List ℕ
  requires_grad : Bool
  data : List α
  length_data : data.length = productDim dim

/-- Only these can require gradients. -/
def isFloating : IRTensorElemType → Bool
  | .DOUBLE | .FLOAT | .HALF | .BFLOAT16 => true
  | _ => false

namespace Tensor

variable {α : Type}

def numel (t : Tensor α) : ℕ := productDim t.dim

def irType (t : Tensor α) : IRType := .tensor t.elem_type t.dim t.requires_grad

def setRequiresGrad (t : Tensor α) (requires_grad : Bool) : Tensor α :=
  { t with requires_grad := requires_grad }

def detach (t : Tensor α) : Tensor α := t.setRequiresGrad false

def ofList (elem_type : IRTensorElemType) (requires_grad : Bool) (data : List α) : Tensor α :=
  ⟨elem_type, [data.length], requires_grad, data, by simp [productDim]⟩

def zerosLike [Zero α] (t : Tensor α) : Tensor α :=
  { t with
    requires_grad := false
    data := List.replicate t.numel 0
    length_data := List.length_replicate }

/-- An element type that cannot hold the products is promoted. -/
def scale [Mul α] (a : α) (t : Tensor α) : Tensor α :=
  { t with
    elem_type := if isFloating t.elem_type then t.elem_type else .FLOAT
    data := t.data.map (a * ·)
    length_data := by rw [List.length_map, t.length_data] }

def rows (t : Tensor α) : ℕ := t.dim.headD 0

def rowSize (t : Tensor α) : ℕ := productDim t.dim.tail

theorem length_data_of_rows {t : Tensor α} {n : ℕ} (h : t.dim.head? = some n) :
    t.data.length = n * t.rowSize := by
  obtain ⟨rest, hdim⟩ := List.head?_eq_some_iff.mp h
  simp [t.length_data, rowSize, productDim, hdim]

/-- The rows of a range, which is cut to those there are. -/
def slice (t : Tensor α) (start stop : ℕ) : Tensor α :=
  let first := min start t.rows
  let count := min stop t.rows - first
  { t with
    dim := count :: t.dim.tail
    data := Rannc.slice t.data (first * t.rowSize, count * t.rowSize)
    length_data := by
      rw [productDim, List.prod_cons]
      apply length_slice
      dsimp only
      rw [← Nat.add_mul]
      cases hdim : t.dim with
      | nil => simp [first, count, rows, hdim]
      | cons n rest =>
        have hhead : t.dim.head? = some n := by simp [hdim]
        rw [length_data_of_rows hhead]
        apply Nat.mul_le_mul_right
        simp only [first, count, rows, hdim, List.headD_cons]
        omega }

/-- Tensors without rows and further dimensions are left out. Gradients are not recorded. -/
def cat (ts : List (Tensor α)) : Option (Tensor α) :=
  match (ts.find? fun t => t.dim ≠ [0]).or ts.head? with
  | none => none
  | some t =>
    if h : ∀ u ∈ ts, u.elem_type = t.elem_type ∧
        (u.dim = [0] ∨ u.dim ≠ [] ∧ u.dim.tail = t.dim.tail) then
      some
        { elem_type := t.elem_type
          dim := (ts.map rows).sum :: t.dim.tail
          requires_grad := false
          data := ts.flatMap data
          length_data := by
            rw [List.length_flatMap, productDim, List.prod_cons, ← List.sum_map_mul_right]
            congr 1
            apply List.map_congr_left
            intro u hu
            cases (h u hu).2 with
            | inl hzero => simp [u.length_data, productDim, rows, hzero]
            | inr hrest =>
              obtain ⟨n, rest, hdim⟩ := List.exists_cons_of_ne_nil hrest.1
              rw [← hrest.2]
              simp [u.length_data, productDim, rows, hdim] }
    else none

theorem cat_spec {ts : List (Tensor α)} {elem_type : IRTensorElemType} {rest : List ℕ}
    (hne : ts ≠ []) (hts : ∀ u ∈ ts, u.elem_type = elem_type ∧ ∃ n, u.dim = n :: rest) :
    ∃ t, cat ts = some t ∧ t.elem_type = elem_type ∧ t.dim = (ts.map rows).sum :: rest ∧
      t.requires_grad = false ∧ t.data = ts.flatMap data := by
  have hsome : ∃ t ∈ ts, (ts.find? fun t => t.dim ≠ [0]).or ts.head? = some t := by
    cases hfind : ts.find? fun t => t.dim ≠ [0] with
    | some t => exact ⟨t, List.mem_of_find?_eq_some hfind, rfl⟩
    | none =>
      obtain ⟨t, ts', rfl⟩ := List.exists_cons_of_ne_nil hne
      exact ⟨t, by simp, rfl⟩
  obtain ⟨t, hmem, hfirst⟩ := hsome
  obtain ⟨htype, n, hdim⟩ := hts t hmem
  have hall : ∀ u ∈ ts, u.elem_type = t.elem_type ∧
      (u.dim = [0] ∨ u.dim ≠ [] ∧ u.dim.tail = t.dim.tail) := by
    intro u hu
    obtain ⟨hutype, m, hudim⟩ := hts u hu
    simp [hutype, htype, hudim, hdim]
  unfold cat
  rw [hfirst]
  dsimp only
  rw [dif_pos hall]
  exact ⟨_, rfl, htype, by simp [hdim], rfl, rfl⟩

end Tensor

end Rannc
