import Mathlib.Data.List.Induction
import Mathlib.Data.List.Perm.Subperm

/-!
# Tasks that wait for resources

A task needs resources and gives others. The tasks that can ever run are told without an order: by
the least set of resources that has what there is at the start and what such tasks give. A run that
got stuck has run all of them.
-/
namespace Rannc.Worklist

variable {T R : Type} (needs gives : T → List R) (start : R → Prop) (tasks : List T)

/-- The resources that can be there at some time. -/
inductive Obtainable : R → Prop
  | start {r : R} (h : start r) : Obtainable r
  | give {t : T} {r : R} (ht : t ∈ tasks) (hneeds : ∀ n ∈ needs t, Obtainable n)
      (hr : r ∈ gives t) : Obtainable r

/-- The task can run at some time. -/
def Enabled (t : T) : Prop := ∀ r ∈ needs t, Obtainable needs gives start tasks r

/-- The resources that are there after some tasks. -/
def After (gives : T → List R) (start : R → Prop) (ran : List T) (r : R) : Prop :=
  start r ∨ ∃ t ∈ ran, r ∈ gives t

/-- Every task found what it needs. -/
def InOrder (ran : List T) : Prop :=
  ∀ before t after, ran = before ++ t :: after → ∀ r ∈ needs t, After gives start before r

variable {needs gives start tasks} {ran : List T}

theorem After.mono {ran ran' : List T} (hsub : ran ⊆ ran') {r : R} (h : After gives start ran r) :
    After gives start ran' r := by
  cases h with
  | inl h => exact Or.inl h
  | inr h =>
    obtain ⟨t, ht, hr⟩ := h
    exact Or.inr ⟨t, hsub ht, hr⟩

theorem after_concat {t : T} {r : R} :
    After gives start (ran ++ [t]) r ↔ After gives start ran r ∨ r ∈ gives t := by
  simp only [After, List.mem_append, List.mem_singleton, or_and_right, exists_or,
    exists_eq_left, or_assoc]

theorem inOrder_nil : InOrder needs gives start [] := by
  intro before t after h
  simp at h

theorem InOrder.concat (h : InOrder needs gives start ran) {t : T}
    (ht : ∀ r ∈ needs t, After gives start ran r) : InOrder needs gives start (ran ++ [t]) := by
  intro before t' after hsplit
  obtain rfl | ⟨after', x, rfl⟩ := after.eq_nil_or_concat'
  · obtain ⟨rfl, hlast⟩ := List.append_inj' hsplit rfl
    obtain rfl := List.singleton_inj.mp hlast
    exact ht
  · rw [← List.cons_append, ← List.append_assoc] at hsplit
    exact h before t' after' (List.append_inj' hsplit rfl).1

theorem InOrder.enabled (h : InOrder needs gives start ran) (hsub : ran ⊆ tasks) {t : T}
    (ht : t ∈ ran) : Enabled needs gives start tasks t := by
  have hprefix : ∀ before after, ran = before ++ after →
      ∀ t ∈ before, Enabled needs gives start tasks t := by
    intro before
    induction before using List.reverseRecOn with
    | nil => simp
    | append_singleton before u ih =>
      intro after hsplit
      rw [List.append_assoc] at hsplit
      have hbefore := ih _ hsplit
      refine List.forall_mem_append.mpr ⟨hbefore, List.forall_mem_singleton.mpr fun r hr => ?_⟩
      cases h before u after hsplit r hr with
      | inl hstart => exact .start hstart
      | inr hgiven =>
        obtain ⟨t, ht, hr⟩ := hgiven
        exact .give (hsub (hsplit ▸ List.mem_append_left _ ht)) (hbefore t ht) hr
  exact hprefix ran [] (List.append_nil ran).symm t ht

theorem mem_of_stuck
    (hstuck : ∀ t ∈ tasks, (∀ r ∈ needs t, After gives start ran r) → t ∈ ran) {t : T}
    (ht : t ∈ tasks) (h : Enabled needs gives start tasks t) : t ∈ ran := by
  have hafter : ∀ r, Obtainable needs gives start tasks r → After gives start ran r := by
    intro r hr
    induction hr with
    | start h => exact Or.inl h
    | give ht _ hr ih => exact Or.inr ⟨_, hstuck _ ht ih, hr⟩
  exact hstuck t ht fun r hr => hafter r (h r hr)

end Rannc.Worklist
