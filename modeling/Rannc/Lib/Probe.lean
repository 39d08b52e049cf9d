import Mathlib.Data.Finset.Card
import Mathlib.Data.Finset.Image
import Mathlib.Logic.Function.Iterate

/-!
# Probing

From a first place on, the next one is tried while the place is used. As many different places as
there are used ones, and one more, are enough to find one.
-/
namespace Rannc

variable {α : Type} [DecidableEq α] (next : α → α) (used : Finset α)

def probe : ℕ → α → Option α
  | 0, _ => none
  | fuel + 1, a => if a ∈ used then probe fuel (next a) else some a

variable {next used}

theorem probe_notMem {fuel : ℕ} {a b : α} (h : probe next used fuel a = some b) : b ∉ used := by
  induction fuel generalizing a with
  | zero => cases h
  | succ fuel ih =>
    unfold probe at h
    split_ifs at h with ha
    · exact ih h
    · exact Option.some.inj h ▸ ha

theorem probe_eq_iterate {fuel : ℕ} {a b : α} (h : probe next used fuel a = some b) :
    ∃ i < fuel, next^[i] a = b ∧ ∀ j < i, next^[j] a ∈ used := by
  induction fuel generalizing a with
  | zero => cases h
  | succ fuel ih =>
    unfold probe at h
    split_ifs at h with ha
    · obtain ⟨i, hi, hb, hused⟩ := ih h
      refine ⟨i + 1, Nat.succ_lt_succ hi, hb, fun j hj => ?_⟩
      cases j with
      | zero => exact ha
      | succ j => exact hused j (Nat.lt_of_succ_lt_succ hj)
    · exact ⟨0, Nat.succ_pos fuel, Option.some.inj h, fun j hj => absurd hj (Nat.not_lt_zero j)⟩

theorem exists_probe {fuel i : ℕ} {a : α} (hi : i < fuel) (h : next^[i] a ∉ used) :
    ∃ b, probe next used fuel a = some b := by
  induction fuel generalizing a i with
  | zero => exact absurd hi (Nat.not_lt_zero i)
  | succ fuel ih =>
    unfold probe
    by_cases ha : a ∈ used
    · rw [if_pos ha]
      cases i with
      | zero => exact absurd ha h
      | succ i => exact ih (Nat.lt_of_succ_lt_succ hi) h
    · exact ⟨a, if_neg ha⟩

theorem exists_iterate_notMem {a : α}
    (hinj : Set.InjOn (fun i => next^[i] a) (Finset.range (used.card + 1))) :
    ∃ i < used.card + 1, next^[i] a ∉ used := by
  have hcard : ((Finset.range (used.card + 1)).image fun i => next^[i] a).card = used.card + 1 := by
    rw [Finset.card_image_of_injOn hinj, Finset.card_range]
  obtain ⟨b, hb, hnot⟩ := Finset.exists_mem_notMem_of_card_lt_card
    ((Nat.lt_succ_self used.card).trans_eq hcard.symm)
  obtain ⟨i, hi, rfl⟩ := Finset.mem_image.mp hb
  exact ⟨i, Finset.mem_range.mp hi, hnot⟩

theorem exists_probe_of_injOn {a : α}
    (hinj : Set.InjOn (fun i => next^[i] a) (Finset.range (used.card + 1))) :
    ∃ b, probe next used (used.card + 1) a = some b := by
  obtain ⟨i, hi, hnot⟩ := exists_iterate_notMem hinj
  exact exists_probe hi hnot

end Rannc
