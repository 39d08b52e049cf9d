import Mathlib.Data.List.Induction
import Mathlib.Data.List.Nodup
import Mathlib.Logic.Function.Basic

/-!
# Values computed in an order

Every value is computed from values of earlier elements. The computed values are the only solution
of the equations by which they are computed.
-/
namespace Rannc

variable {α β : Type*} [DecidableEq α]

/-- The values are computed one after another, each from those that are there. -/
def inTurn (f : (α → β) → α → β) (order : List α) (start : α → β) : α → β :=
  order.foldl (fun vals a => Function.update vals a (f vals a)) start

/-- Every value only depends on values of earlier elements. -/
def DependsOnEarlier (f : (α → β) → α → β) (order : List α) : Prop :=
  ∀ before a after, order = before ++ a :: after → ∀ v w : α → β,
    (∀ b ∈ before, v b = w b) → f v a = f w a

omit [DecidableEq α] in
/-- What holds of an element once it holds of the elements before it. -/
theorem order_induction {order : List α} {P : α → Prop}
    (h : ∀ before a after, order = before ++ a :: after → (∀ b ∈ before, P b) → P a) :
    ∀ a ∈ order, P a := by
  have hprefix : ∀ before after, order = before ++ after → ∀ b ∈ before, P b := by
    intro before
    induction before using List.reverseRecOn with
    | nil => exact fun _ _ b hb => absurd hb List.not_mem_nil
    | append_singleton before a ih =>
      intro after horder b hb
      rw [List.append_assoc, List.singleton_append] at horder
      have hbefore := ih (a :: after) horder
      cases List.mem_append.mp hb with
      | inl hmem => exact hbefore b hmem
      | inr hmem =>
        obtain rfl := List.mem_singleton.mp hmem
        exact h before b after horder hbefore
  exact hprefix order [] (List.append_nil _).symm

variable {f : (α → β) → α → β} {order : List α}

theorem inTurn_of_not_mem {a : α} (ha : a ∉ order) (start : α → β) :
    inTurn f order start a = start a := by
  induction order generalizing start with
  | nil => rfl
  | cons b order ih =>
    rw [List.mem_cons, not_or] at ha
    exact (ih ha.2 _).trans (Function.update_of_ne ha.1 _ _)

theorem inTurn_append (before after : List α) (start : α → β) :
    inTurn f (before ++ after) start = inTurn f after (inTurn f before start) :=
  List.foldl_append

/-- The values that are computed solve the equations. -/
theorem inTurn_eq (hnodup : order.Nodup) (hdep : DependsOnEarlier f order) (start : α → β) :
    ∀ a ∈ order, inTurn f order start a = f (inTurn f order start) a := by
  intro a ha
  obtain ⟨before, after, rfl⟩ := List.append_of_mem ha
  obtain ⟨-, hrest, hapart⟩ := List.nodup_append.mp hnodup
  have hfront : ∀ b ∈ before, inTurn f (before ++ a :: after) start b =
      inTurn f before start b := by
    intro b hb
    rw [inTurn_append, inTurn_of_not_mem fun hmem => hapart b hb b hmem rfl]
  have hlast : inTurn f (before ++ a :: after) start a = f (inTurn f before start) a := by
    rw [inTurn_append]
    exact (inTurn_of_not_mem (List.nodup_cons.mp hrest).1 _).trans (Function.update_self ..)
  rw [hlast]
  exact hdep before a after rfl _ _ fun b hb => (hfront b hb).symm

theorem eq_inTurn (hnodup : order.Nodup) (hdep : DependsOnEarlier f order) {v : α → β}
    (hv : ∀ a ∈ order, v a = f v a) (start : α → β) :
    ∀ a ∈ order, v a = inTurn f order start a := by
  refine order_induction fun before a after horder hbefore => ?_
  have ha : a ∈ order := by simp [horder]
  rw [hv a ha, inTurn_eq hnodup hdep start a ha]
  exact hdep before a after horder _ _ hbefore

theorem inTurn_related {γ : Type*} {R : α → β → γ → Prop} {g : (α → γ) → α → γ}
    (hnodup : order.Nodup) (hf : DependsOnEarlier f order) (hg : DependsOnEarlier g order)
    (hfg : ∀ before a after, order = before ++ a :: after → ∀ v w,
      (∀ b ∈ before, R b (v b) (w b)) → R a (f v a) (g w a)) (start : α → β) (start' : α → γ) :
    ∀ a ∈ order, R a (inTurn f order start a) (inTurn g order start' a) := by
  refine order_induction fun before a after horder hbefore => ?_
  have ha : a ∈ order := by simp [horder]
  rw [inTurn_eq hnodup hf start a ha, inTurn_eq hnodup hg start' a ha]
  exact hfg before a after horder _ _ hbefore

end Rannc
