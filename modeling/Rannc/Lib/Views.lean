import Rannc.Lib.Slices

/-!
# Views of shared storages

Several views may show the same rows of a storage. To fill one view changes what the others show;
a new storage leaves all views as they are.
-/
namespace Rannc

/-- A stretch of the rows of a storage. -/
structure View where
  storage : ℕ
  offset : ℕ
  size : ℕ
  deriving DecidableEq, Repr

/-- The rows of the storages, of which those from `next` on are free. -/
structure Heap (R : Type) where
  cells : ℕ → List R
  next : ℕ

namespace View

def range (v : View) : ℕ × ℕ := (v.offset, v.size)

/-- The rows from `start` to `stop`; a negative `stop` counts from the end. -/
def slice (v : View) (start : ℕ) (stop : ℤ) : View :=
  let stop := (if stop < 0 then stop + v.size else stop).toNat
  let first := min start v.size
  ⟨v.storage, v.offset + first, min stop v.size - first⟩

theorem slice_zero {v : View} {stop : ℕ} (h : stop ≤ v.size) :
    v.slice 0 stop = ⟨v.storage, v.offset, stop⟩ := by
  have hneg : ¬(stop : ℤ) < 0 := by omega
  simp [slice, hneg, h]

end View

namespace Heap

variable {R : Type} (h : Heap R)

def rows (v : View) : List R := Rannc.slice (h.cells v.storage) v.range

def fill (v : View) (x : R) : Heap R :=
  { h with
    cells := Function.update h.cells v.storage
      (putSlice (h.cells v.storage) v.range (List.replicate v.size x)) }

def alloc (l : List R) : View × Heap R :=
  (⟨h.next, 0, l.length⟩, ⟨Function.update h.cells h.next l, h.next + 1⟩)

/-- The view shows rows that exist. -/
structure Valid (v : View) : Prop where
  storage : v.storage < h.next
  range : v.offset + v.size ≤ (h.cells v.storage).length

variable {h} {v : View}

theorem Valid.length_rows (hv : h.Valid v) : (h.rows v).length = v.size :=
  length_slice hv.range

theorem Valid.fill (hv : h.Valid v) {w : View} (hw : h.Valid w) (x : R) :
    (h.fill w x).Valid v := by
  refine ⟨hv.storage, hv.range.trans ?_⟩
  have hlen : (putSlice (h.cells w.storage) w.range (List.replicate w.size x)).length =
      (h.cells w.storage).length := length_putSlice hw.range List.length_replicate
  unfold Heap.fill
  by_cases hs : v.storage = w.storage
  · dsimp only
    rw [hs, Function.update_self, hlen]
  · dsimp only
    rw [Function.update_of_ne hs]

theorem Valid.rows_fill_prefix (hv : h.Valid v) {n : ℕ} (hn : n ≤ v.size) (x : R) :
    (h.fill ⟨v.storage, v.offset, n⟩ x).rows v = List.replicate n x ++ (h.rows v).drop n := by
  unfold rows Heap.fill
  dsimp only
  rw [Function.update_self]
  exact slice_putSlice_prefix hv.range List.length_replicate hn

theorem rows_alloc_self (l : List R) : (h.alloc l).2.rows (h.alloc l).1 = l := by
  simp [rows, alloc, View.range, Rannc.slice]

theorem rows_alloc_of_lt (hv : v.storage < h.next) (l : List R) :
    (h.alloc l).2.rows v = h.rows v := by
  unfold rows alloc
  dsimp only
  rw [Function.update_of_ne hv.ne]

theorem Valid.slice (hv : h.Valid v) {n : ℕ} (hn : n ≤ v.size) :
    h.Valid ⟨v.storage, v.offset, n⟩ :=
  ⟨hv.storage, (Nat.add_le_add_left hn v.offset).trans hv.range⟩

theorem rows_prefix {n : ℕ} (hn : n ≤ v.size) :
    h.rows ⟨v.storage, v.offset, n⟩ = (h.rows v).take n := by
  unfold rows Rannc.slice View.range
  rw [List.take_take, min_eq_left hn]

end Heap

end Rannc
