import Mathlib.Algebra.BigOperators.Group.List.Basic
import Mathlib.Algebra.Field.Basic
import Mathlib.Tactic.FieldSimp

/-!
# Means of the parts of a list

Parts weighted by their lengths have the mean of the whole.
-/
namespace Rannc

variable {ι K : Type} [Field K]

def mean (l : List K) : K := l.sum / l.length

section Weighted

variable [CharZero K]

theorem length_mul_mean {l : List K} (hl : l ≠ []) : l.length * mean l = l.sum := by
  have hlen : (l.length : K) ≠ 0 := by
    simpa using hl
  rw [mean]
  field_simp

theorem sum_weighted_mean {parts : ι → List K} {is : List ι} (hparts : ∀ i ∈ is, parts i ≠ [])
    (total : K) :
    (is.map fun i => (parts i).length / total * mean (parts i)).sum =
      (is.flatMap parts).sum / total := by
  induction is with
  | nil => simp
  | cons i is ih =>
    have hi : ((parts i).length : K) * mean (parts i) = (parts i).sum :=
      length_mul_mean (hparts i List.mem_cons_self)
    have hrest := ih fun j hj => hparts j (List.mem_cons_of_mem i hj)
    rw [List.map_cons, List.sum_cons, List.flatMap_cons, List.sum_append, hrest, div_mul_eq_mul_div,
      hi, add_div]

end Weighted

theorem sum_div_total (sizes : List ℕ) (total : K) :
    (sizes.map fun size : ℕ => (size : K) / total).sum = (sizes.sum : ℕ) / total := by
  induction sizes with
  | nil => simp
  | cons size sizes ih =>
    rw [List.map_cons, List.sum_cons, ih, List.sum_cons, Nat.cast_add, add_div]

end Rannc
