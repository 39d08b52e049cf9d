import Mathlib.Data.Finset.Basic
import Mathlib.Logic.Relation
import Mathlib.Tactic

/-!
# Processes that meet

Sequential processes whose only interaction are rendezvous: a meeting point has a fixed set of
participants, and they pass it together once all of them wait there. When the processes follow one
plan, that is, each does what concerns it of one common sequence, then nobody ever waits in vain.
A meeting point only knows its participants, not which of its meetings they come for; processes
that follow a plan come for the same one.
-/
namespace Rannc.Rendezvous

variable {P E L : Type*} (label : E → L) (parts : L → Finset P)

/-- All participants of a meeting point wait at it. The state holds what every process has left
to do. -/
def Waiting (s : P → List E) (l : L) : Prop :=
  (parts l).Nonempty ∧ ∀ p ∈ parts l, (s p).head?.map label = some l

variable [DecidableEq P]

/-- The participants of one meeting point pass it. -/
def Step (s s' : P → List E) : Prop :=
  ∃ l, Waiting label parts s l ∧ s' = fun p => if p ∈ parts l then (s p).tail else s p

/-- Every process does what concerns it of the plan. -/
def Follows (plan : List E) (s : P → List E) : Prop :=
  ∀ p, s p = plan.filter fun e => p ∈ parts (label e)

variable {label parts}

theorem exists_first [DecidableEq L] {l : L} {plan : List E} (h : ∃ e ∈ plan, label e = l) :
    ∃ before e after, plan = before ++ e :: after ∧ label e = l ∧ ∀ b ∈ before, label b ≠ l := by
  induction plan with
  | nil => simp at h
  | cons a plan ih =>
    by_cases ha : label a = l
    · exact ⟨[], a, plan, rfl, ha, by simp⟩
    · have hrest : ∃ e ∈ plan, label e = l := by simpa [ha] using h
      obtain ⟨before, e, after, rfl, he, hbefore⟩ := ih hrest
      refine ⟨a :: before, e, after, rfl, he, ?_⟩
      simpa [ha] using hbefore

theorem exists_common_head [DecidableEq L] {plan : List E} {s : P → List E}
    (hs : Follows label parts plan s) {l : L} (hl : Waiting label parts s l) :
    ∃ before e after, plan = before ++ e :: after ∧ label e = l ∧
      ∀ p ∈ parts l, before.filter (fun e => p ∈ parts (label e)) = [] := by
  obtain ⟨⟨p, hp⟩, hheads⟩ := hl
  have hmem : ∃ e ∈ plan, label e = l := by
    obtain ⟨e, he, hel⟩ := Option.map_eq_some_iff.mp (hheads p hp)
    rw [hs p] at he
    exact ⟨e, (List.mem_filter.mp (List.mem_of_head? he)).1, hel⟩
  obtain ⟨before, e, after, rfl, he, hbefore⟩ := exists_first hmem
  refine ⟨before, e, after, rfl, he, fun q hq => ?_⟩
  have hhead := hheads q hq
  rw [hs q, List.filter_append] at hhead
  cases hfirst : before.filter fun e => q ∈ parts (label e) with
  | nil => rfl
  | cons b bs =>
    rw [hfirst] at hhead
    have hb : b ∈ before := by
      have : b ∈ before.filter fun e => q ∈ parts (label e) := by
        rw [hfirst]
        exact List.mem_cons_self
      exact (List.mem_filter.mp this).1
    exact absurd (by simpa using hhead) (hbefore b hb)

theorem Follows.step [DecidableEq L] {plan : List E} {s s' : P → List E}
    (hs : Follows label parts plan s) (h : Step label parts s s') :
    ∃ plan' : List E, plan'.Sublist plan ∧ Follows label parts plan' s' := by
  obtain ⟨l, hl, rfl⟩ := h
  obtain ⟨before, e, after, rfl, rfl, hbefore⟩ := exists_common_head hs hl
  refine ⟨before ++ after, ?_, fun p => ?_⟩
  · exact (List.sublist_cons_self e after).append_left before
  · dsimp only
    rw [hs p]
    by_cases hp : p ∈ parts (label e)
    · simp [hp, hbefore p hp]
    · simp [hp]

/-- No process waits for ever: after any steps either everything is done or the participants of
some meeting point wait at it for the same event. -/
theorem Follows.exists_meeting [DecidableEq L] {plan : List E} {s s' : P → List E}
    (hplan : ∀ e ∈ plan, (parts (label e)).Nonempty) (hs : Follows label parts plan s)
    (h : Relation.ReflTransGen (Step label parts) s s') :
    (∀ p, s' p = []) ∨
      ∃ e, (parts (label e)).Nonempty ∧ ∀ p ∈ parts (label e), (s' p).head? = some e := by
  have hinv : ∃ plan' : List E, plan'.Sublist plan ∧ Follows label parts plan' s' := by
    induction h with
    | refl => exact ⟨plan, List.Sublist.refl plan, hs⟩
    | tail _ hstep ih =>
      obtain ⟨plan', hsub, hfollows⟩ := ih
      obtain ⟨plan'', hsub', hfollows'⟩ := hfollows.step hstep
      exact ⟨plan'', hsub'.trans hsub, hfollows'⟩
  obtain ⟨plan', hsub, hfollows⟩ := hinv
  cases plan' with
  | nil => exact Or.inl fun p => hfollows p
  | cons e rest =>
    refine Or.inr ⟨e, hplan e (hsub.subset List.mem_cons_self), fun p hp => ?_⟩
    rw [hfollows p, List.filter_cons_of_pos (by simpa using hp), List.head?_cons]

end Rannc.Rendezvous
