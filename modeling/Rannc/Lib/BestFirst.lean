import Mathlib.Data.Finset.Card
import Mathlib.Logic.Relation
import Mathlib.Tactic

/-!
# Best-first order

Nodes are taken one after another, each of least cost among those that the nodes taken so far lead
to. Costs from a limit on are too high. Lists of taken nodes are last first.
-/
namespace Rannc

variable {S : Type} (moves : S → List S) (cost : S → Option ℕ) (limit : ℕ)

/-- A taken node leads to the node. -/
def Reached (taken : List S) (q : S) : Prop := ∃ p ∈ taken, q ∈ moves p

/-- A node that may be taken next, with its cost. The first node may be taken once more. -/
structure Candidate (taken : List S) (q : S) (c : ℕ) : Prop where
  reached : Reached moves taken q
  not_taken : q ∉ taken.dropLast
  cost_eq : cost q = some c
  below : c < limit

inductive BestFirst (start : S) : List S → Prop
  | start : BestFirst start [start]
  | next {taken : List S} {q : S} {c : ℕ} (htaken : BestFirst start taken)
      (hq : Candidate moves cost limit taken q c)
      (hleast : ∀ r d, Candidate moves cost limit taken r d → c ≤ d) : BestFirst start (q :: taken)

variable {moves cost limit} {start : S} {taken : List S}

theorem Reached.cons {q : S} (h : Reached moves taken q) (p : S) :
    Reached moves (p :: taken) q := by
  obtain ⟨r, hr, hq⟩ := h
  exact ⟨r, List.mem_cons_of_mem p hr, hq⟩

theorem reached_cons_iff {p q : S} :
    Reached moves (p :: taken) q ↔ q ∈ moves p ∨ Reached moves taken q := by
  simp [Reached]

namespace BestFirst

theorem ne_nil (h : BestFirst moves cost limit start taken) : taken ≠ [] := by
  cases h <;> exact List.cons_ne_nil _ _

theorem start_mem (h : BestFirst moves cost limit start taken) : start ∈ taken := by
  induction h with
  | start => exact List.mem_singleton_self start
  | next _ _ _ ih => exact List.mem_cons_of_mem _ ih

theorem reached_of_mem_dropLast (h : BestFirst moves cost limit start taken) :
    ∀ q ∈ taken.dropLast, Reached moves taken q := by
  induction h with
  | start => simp
  | @next taken q c htaken hq _ ih =>
    intro r hr
    rw [List.dropLast_cons_of_ne_nil htaken.ne_nil] at hr
    cases List.mem_cons.mp hr with
    | inl heq =>
      rw [heq]
      exact hq.reached.cons q
    | inr hmem => exact (ih r hmem).cons q

/-- A connected region of cheap nodes around the first node is not used up before as many nodes are
taken as it has. -/
theorem exists_candidate_of_region (h : BestFirst moves cost limit start taken)
    (hsymm : ∀ a b, b ∈ moves a → a ∈ moves b) {region : Finset S} {bound : ℕ}
    (hstart : start ∈ region)
    (hcost : ∀ r ∈ region, ∃ c, cost r = some c ∧ c ≤ bound ∧ c < limit)
    (hconnected : ∀ r ∈ region,
      Relation.ReflTransGen (fun a b => b ∈ moves a ∧ b ∈ region) start r)
    (hcard : taken.length ≤ region.card) (htwo : 2 ≤ region.card) :
    ∃ r c, Candidate moves cost limit taken r c ∧ c ≤ bound := by
  classical
  by_contra hnone
  have htaken {r : S} (hr : r ∈ region) (hreached : Reached moves taken r) :
      r ∈ taken.dropLast := by
    by_contra hnot
    obtain ⟨c, hc, hle, hlt⟩ := hcost r hr
    exact hnone ⟨r, c, ⟨hreached, hnot, hc, hlt⟩, hle⟩
  have hmem {r : S} (hr : r ∈ taken.dropLast) : r ∈ taken := List.dropLast_subset taken hr
  -- the first node is taken again from one of its neighbours
  have hfirst : start ∈ taken.dropLast := by
    have hone : 1 < region.card := htwo
    obtain ⟨r, hr, hne⟩ := Finset.exists_mem_ne hone start
    cases (hconnected r hr).cases_head with
    | inl heq => exact absurd heq.symm hne
    | inr hstep =>
      obtain ⟨b, ⟨hb, hbregion⟩, -⟩ := hstep
      have hbtaken := htaken hbregion ⟨start, h.start_mem, hb⟩
      exact htaken hstart ⟨b, hmem hbtaken, hsymm start b hb⟩
  have hall : ∀ r ∈ region, r ∈ taken.dropLast := by
    intro r hr
    have hpath := hconnected r hr
    clear hr
    induction hpath with
    | refl => exact hfirst
    | @tail a b _ hb ih => exact htaken hb.2 ⟨a, hmem ih, hb.1⟩
  have hsubset : region ⊆ taken.dropLast.toFinset := by
    intro r hr
    exact List.mem_toFinset.mpr (hall r hr)
  have hle := (Finset.card_le_card hsubset).trans (List.toFinset_card_le _)
  have hpos : 0 < taken.length := List.length_pos_iff.mpr h.ne_nil
  rw [List.length_dropLast] at hle
  omega

end BestFirst

end Rannc
