import Mathlib.Data.List.Basic
import Mathlib.Tactic

/-!
# Slices of a list

A range is an offset and a length. Consecutive ranges cut a list into slices that make it up.
-/
namespace Rannc

variable {α β γ : Type}

def slice (l : List α) (range : ℕ × ℕ) : List α := (l.drop range.1).take range.2

/-- The list with other elements in a range. -/
def putSlice (l : List α) (range : ℕ × ℕ) (part : List α) : List α :=
  l.take range.1 ++ part ++ l.drop (range.1 + range.2)

/-- Ranges that follow one another from the first position to the second. -/
inductive Cuts : ℕ → List (ℕ × ℕ) → ℕ → Prop
  | nil (a : ℕ) : Cuts a [] a
  | cons {a n b : ℕ} {ranges : List (ℕ × ℕ)} : Cuts (a + n) ranges b → Cuts a ((a, n) :: ranges) b

theorem Cuts.le {a b : ℕ} {ranges : List (ℕ × ℕ)} (h : Cuts a ranges b) : a ≤ b := by
  induction h with
  | nil a => exact le_rfl
  | cons _ ih => omega

theorem Cuts.range_le {a b : ℕ} {ranges : List (ℕ × ℕ)} (h : Cuts a ranges b) :
    ∀ range ∈ ranges, range.1 + range.2 ≤ b := by
  induction h with
  | nil a => exact fun _ h => absurd h List.not_mem_nil
  | @cons a n b ranges htail ih =>
    intro range hrange
    cases List.mem_cons.mp hrange with
    | inl heq =>
      rw [heq]
      exact htail.le
    | inr hmem => exact ih range hmem

theorem Cuts.le_range {a b : ℕ} {ranges : List (ℕ × ℕ)} (h : Cuts a ranges b) :
    ∀ range ∈ ranges, a ≤ range.1 := by
  induction h with
  | nil a => exact fun _ h => absurd h List.not_mem_nil
  | @cons a n b ranges _ ih =>
    intro range hrange
    cases List.mem_cons.mp hrange with
    | inl heq => rw [heq]
    | inr hmem => exact (Nat.le_add_right a n).trans (ih range hmem)

theorem Cuts.pairwise {a b : ℕ} {ranges : List (ℕ × ℕ)} (h : Cuts a ranges b) :
    ranges.Pairwise fun x y => x.1 + x.2 ≤ y.1 := by
  induction h with
  | nil a => exact List.Pairwise.nil
  | cons htail ih => exact List.Pairwise.cons htail.le_range ih

theorem Cuts.exists_range {a b : ℕ} {ranges : List (ℕ × ℕ)} (h : Cuts a ranges b) {x : ℕ}
    (ha : a ≤ x) (hb : x < b) : ∃ range ∈ ranges, range.1 ≤ x ∧ x < range.1 + range.2 := by
  induction h with
  | nil a => omega
  | @cons a n b ranges _ ih =>
    by_cases hx : x < a + n
    · exact ⟨(a, n), by simp, ha, hx⟩
    · obtain ⟨range, hmem, hrange⟩ := ih (by omega) hb
      exact ⟨range, by simp [hmem], hrange⟩

theorem Cuts.flatMap_slice {a b : ℕ} {ranges : List (ℕ × ℕ)} (h : Cuts a ranges b) {l : List α}
    (hl : l.length = b) : ranges.flatMap (slice l) = l.drop a := by
  induction h with
  | nil a => rw [← hl, List.drop_length, List.flatMap_nil]
  | @cons a n b ranges _ ih =>
    rw [List.flatMap_cons, ih hl, ← List.drop_drop]
    exact List.take_append_drop n (l.drop a)

theorem length_slice {l : List α} {range : ℕ × ℕ} (h : range.1 + range.2 ≤ l.length) :
    (slice l range).length = range.2 := by
  unfold slice
  rw [List.length_take, List.length_drop]
  omega

theorem slice_zipWith (f : α → β → γ) (l : List α) (l' : List β) (range : ℕ × ℕ) :
    slice (List.zipWith f l l') range = List.zipWith f (slice l range) (slice l' range) := by
  unfold slice
  rw [List.drop_zipWith, List.take_zipWith]

theorem length_putSlice {l part : List α} {range : ℕ × ℕ} (h : range.1 + range.2 ≤ l.length)
    (hpart : part.length = range.2) : (putSlice l range part).length = l.length := by
  unfold putSlice
  rw [List.length_append, List.length_append, List.length_take, List.length_drop, hpart]
  omega

theorem slice_putSlice_prefix {l part : List α} {a n m : ℕ} (h : a + m ≤ l.length)
    (hpart : part.length = n) (hn : n ≤ m) :
    slice (putSlice l (a, n) part) (a, m) = part ++ (slice l (a, m)).drop n := by
  have ha : (l.take a).length = a := by
    rw [List.length_take]
    omega
  unfold slice putSlice
  dsimp only
  rw [List.append_assoc, List.drop_left' ha, List.take_append, hpart,
    List.take_of_length_le (by omega), List.drop_take, List.drop_drop]

end Rannc
