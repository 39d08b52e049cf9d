import Mathlib.Algebra.BigOperators.Group.List.Basic
import Mathlib.Algebra.Order.BigOperators.Group.List
import Mathlib.Algebra.Order.Ring.Defs
import Mathlib.Tactic.Linarith
import Mathlib.Tactic.Ring

/-!
# The spread of a list of numbers

The squared deviations from any number are told by the differences of the numbers from each other
and by how far that number is from their mean.
-/
namespace Rannc

section Identity

variable {R : Type} [CommRing R]

/-- The sum of the squared deviations from `a`. -/
def deviation (l : List R) (a : R) : R := (l.map fun x => (x - a) * (x - a)).sum

/-- The squared differences of all pairs, both ways around. -/
def spread (l : List R) : R := (l.map (deviation l)).sum

theorem deviation_eq (l : List R) (a : R) :
    deviation l a = (l.map fun x => x * x).sum - 2 * a * l.sum + l.length * (a * a) := by
  induction l with
  | nil => simp [deviation]
  | cons x l ih =>
    rw [deviation, List.map_cons, List.sum_cons, ← deviation, ih, List.map_cons, List.sum_cons,
      List.sum_cons, List.length_cons]
    push_cast
    ring

theorem spread_eq (l : List R) :
    spread l = 2 * (l.length * (l.map fun x => x * x).sum - l.sum * l.sum) := by
  have hrows : ∀ l' : List R, (l'.map (deviation l)).sum =
      l'.length * (l.map fun x => x * x).sum - 2 * l'.sum * l.sum +
        l.length * (l'.map fun x => x * x).sum := by
    intro l'
    induction l' with
    | nil => simp
    | cons x l' ih =>
      rw [List.map_cons, List.sum_cons, ih, deviation_eq, List.map_cons, List.sum_cons,
        List.sum_cons, List.length_cons]
      push_cast
      ring
  rw [spread, hrows]
  ring

theorem two_mul_length_mul_deviation (l : List R) (a : R) :
    2 * l.length * deviation l a =
      spread l + 2 * ((l.sum - l.length * a) * (l.sum - l.length * a)) := by
  rw [deviation_eq, spread_eq]
  ring

theorem spread_replicate (n : ℕ) (x : R) : spread (List.replicate n x) = 0 := by
  rw [spread_eq]
  simp only [List.length_replicate, List.map_replicate, List.sum_replicate, nsmul_eq_mul]
  ring

end Identity

section Order

variable {R : Type} [CommRing R] [LinearOrder R] [IsStrictOrderedRing R]

theorem le_deviation {l : List R} {a x : R} (hx : x ∈ l) : (x - a) * (x - a) ≤ deviation l a := by
  refine List.single_le_sum ?_ _ (List.mem_map_of_mem hx)
  intro y hy
  obtain ⟨z, -, rfl⟩ := List.mem_map.mp hy
  exact mul_self_nonneg _

theorem deviation_nonneg (l : List R) (a : R) : 0 ≤ deviation l a := by
  refine List.sum_nonneg fun y hy => ?_
  obtain ⟨z, -, rfl⟩ := List.mem_map.mp hy
  exact mul_self_nonneg _

end Order

end Rannc
