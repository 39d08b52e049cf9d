import Mathlib.Data.List.SplitLengths
import Mathlib.Algebra.BigOperators.Group.List.Basic
import Mathlib.Tactic

/-!
# Consecutive blocks of a sequence

A list of sizes cuts a sequence into consecutive blocks. Two such cuts are compared through the
overlaps of their intervals, and a block of the one cut is rebuilt by writing pieces of the other
into a buffer: whatever order the pieces come in, a buffer that only ever received the right
elements is right wherever it has been written.
-/
namespace Rannc.Blocks

variable {α : Type*}

/-- Where block `j` starts. -/
def start (sizes : List ℕ) (j : ℕ) : ℕ := (sizes.take j).sum

def slice (xs : List α) (lo len : ℕ) : List α := (xs.drop lo).take len

/-- The length of the common part of `[a, b)` and `[c, d)`. -/
def overlap (a b c d : ℕ) : ℕ := min b d - max a c

theorem overlap_comm (a b c d : ℕ) : overlap a b c d = overlap c d a b := by
  rw [overlap, overlap, min_comm, max_comm]

@[simp] theorem start_zero (sizes : List ℕ) : start sizes 0 = 0 := rfl

@[simp] theorem start_cons_succ (n : ℕ) (sizes : List ℕ) (j : ℕ) :
    start (n :: sizes) (j + 1) = n + start sizes j := by
  simp [start]

theorem start_succ (sizes : List ℕ) {j : ℕ} (hj : j < sizes.length) :
    start sizes (j + 1) = start sizes j + sizes[j] :=
  List.sum_take_succ sizes j hj

theorem start_add_le_sum (sizes : List ℕ) {j : ℕ} (hj : j < sizes.length) :
    start sizes j + sizes[j] ≤ sizes.sum := by
  rw [← start_succ sizes hj]
  conv_rhs => rw [← List.sum_take_add_sum_drop sizes (j + 1)]
  exact Nat.le_add_right _ _

theorem exists_block (sizes : List ℕ) {x : ℕ} (hx : x < sizes.sum) :
    ∃ j, ∃ hj : j < sizes.length, start sizes j ≤ x ∧ x < start sizes j + sizes[j] := by
  induction sizes generalizing x with
  | nil => simp at hx
  | cons n sizes ih =>
    rw [List.sum_cons] at hx
    by_cases h : x < n
    · exact ⟨0, by simp, by simp, by simpa using h⟩
    · obtain ⟨j, hj, hlo, hhi⟩ := ih (show x - n < sizes.sum by omega)
      refine ⟨j + 1, by simpa using hj, ?_, ?_⟩
      · rw [start_cons_succ]
        omega
      · rw [start_cons_succ, List.getElem_cons_succ]
        omega

theorem getElem?_slice (xs : List α) (lo len x : ℕ) :
    (slice xs lo len)[x]? = if x < len then xs[lo + x]? else none := by
  simp [slice, List.getElem?_take, List.getElem?_drop]

theorem length_slice {xs : List α} {lo len : ℕ} (h : lo + len ≤ xs.length) :
    (slice xs lo len).length = len := by
  simp only [slice, List.length_take, List.length_drop]
  omega

theorem slice_slice (xs : List α) {lo len lo' len' : ℕ} (h : lo' + len' ≤ len) :
    slice (slice xs lo len) lo' len' = slice xs (lo + lo') len' := by
  refine List.ext_getElem? fun x => ?_
  simp only [getElem?_slice, Nat.add_assoc]
  split_ifs <;> first | rfl | omega

theorem flatten_eq_of_slices (xs : List α) (sizes : List ℕ) (bufs : List (List α))
    (hsum : sizes.sum = xs.length) (hlen : bufs.length = sizes.length)
    (h : ∀ j (_ : j < bufs.length) (_ : j < sizes.length),
      bufs[j] = slice xs (start sizes j) sizes[j]) :
    bufs.flatten = xs := by
  induction sizes generalizing xs bufs with
  | nil =>
    rw [List.length_nil, List.length_eq_zero_iff] at hlen
    rw [List.sum_nil, eq_comm, List.length_eq_zero_iff] at hsum
    rw [hlen, hsum, List.flatten_nil]
  | cons n sizes ih =>
    obtain ⟨buf, bufs, rfl⟩ := List.exists_cons_of_length_eq_add_one hlen
    rw [List.sum_cons] at hsum
    have hhead : buf = xs.take n := h 0 (by simp) (by simp)
    have htail : bufs.flatten = xs.drop n := by
      refine ih (xs.drop n) bufs (by simp; omega) (by simpa using hlen) fun j hj hj' => ?_
      have := h (j + 1) (by simpa using hj) (by simpa using hj')
      simpa [slice, List.drop_drop] using this
    rw [List.flatten_cons, hhead, htail, List.take_append_drop]

/-- The blocks of a concatenation are its parts. -/
theorem slice_flatten (bufs : List (List α)) (sizes : List ℕ)
    (hsizes : bufs.map List.length = sizes) {j : ℕ} (hj : j < bufs.length)
    (hj' : j < sizes.length) :
    slice bufs.flatten (start sizes j) sizes[j] = bufs[j] := by
  subst hsizes
  induction bufs generalizing j with
  | nil => simp at hj
  | cons buf bufs ih =>
    cases j with
    | zero => simp [slice]
    | succ j =>
      have hlt : j < bufs.length := by simpa using hj
      have h := ih hlt (by simpa using hlt)
      rw [List.getElem_map] at h
      simpa [slice, ← List.drop_drop] using h

/-- Overwrite the elements from `displ` on with a block. -/
def write (buf : List α) (displ : ℕ) (block : List α) : List α :=
  buf.take displ ++ block ++ buf.drop (displ + block.length)

@[simp] theorem write_nil (buf : List α) (displ : ℕ) : write buf displ [] = buf := by
  simp [write]

theorem length_write {buf block : List α} {displ : ℕ} (h : displ + block.length ≤ buf.length) :
    (write buf displ block).length = buf.length := by
  simp only [write, List.length_append, List.length_take, List.length_drop]
  omega

theorem getElem?_write {buf block : List α} {displ : ℕ} (h : displ + block.length ≤ buf.length)
    (x : ℕ) :
    (write buf displ block)[x]? =
      if displ ≤ x ∧ x < displ + block.length then block[x - displ]? else buf[x]? := by
  have htake : (buf.take displ).length = displ := by
    rw [List.length_take]
    omega
  unfold write
  by_cases h1 : x < displ
  · rw [List.append_assoc, List.getElem?_append_left (by omega), List.getElem?_take_of_lt h1,
      if_neg (by omega)]
  · by_cases h2 : x < displ + block.length
    · rw [List.append_assoc, List.getElem?_append_right (by omega), htake,
        List.getElem?_append_left (by omega), if_pos (by omega)]
    · rw [List.getElem?_append_right (by rw [List.length_append]; omega), List.length_append,
        htake, List.getElem?_drop, if_neg (by omega)]
      congr 1
      omega

end Rannc.Blocks
