import Rannc.Lib.Digraph

/-!
# Topological sorts

What a sort of the vertices of an acyclic graph has to do, and one that does it: the vertices come
out so that every edge leads to a vertex that came before.
-/
namespace Rannc.Digraph

open Relation

/-- A way to sort the vertices below a number by the edges, the last ones first. -/
structure TopologicalSort where
  sort : ℕ → List (ℕ × ℕ) → List ℕ
  perm : ∀ {n edges}, Acyclic (Edge edges) → (sort n edges).Perm (List.range n)
  order : ∀ {n edges}, Acyclic (Edge edges) → (sort n edges).Pairwise fun a b => (a, b) ∉ edges

section SinksFirst

variable {α : Type*} [DecidableEq α] {edges : List (α × α)}

/-- Take a vertex without edges to those that are left, while there is one. -/
def sinksFirst (edges : List (α × α)) : ℕ → List α → List α
  | 0, _ => []
  | fuel + 1, left =>
    match left.find? fun v => ∀ w ∈ left, (v, w) ∉ edges with
    | none => []
    | some v => v :: sinksFirst edges fuel (left.erase v)

theorem Acyclic.exists_sink (h : Acyclic (Edge edges)) {left : List α} (hne : left ≠ []) :
    ∃ v ∈ left, ∀ w ∈ left, (v, w) ∉ edges := by
  let later : {v // v ∈ left} → {v // v ∈ left} → Prop := fun w v =>
    TransGen (Edge edges) v.1 w.1
  have htrans : IsTrans _ later := ⟨fun _ _ _ hab hbc => TransGen.trans hbc hab⟩
  have hirrefl : Std.Irrefl later := ⟨fun v => h v.1⟩
  have hwf : WellFounded later := Finite.wellFounded_of_trans_of_irrefl later
  obtain ⟨v, hv⟩ := List.exists_mem_of_ne_nil left hne
  obtain ⟨m, -, hmin⟩ := hwf.has_min Set.univ ⟨⟨v, hv⟩, trivial⟩
  exact ⟨m.1, m.2, fun w hw hedge => hmin ⟨w, hw⟩ trivial (.single hedge)⟩

theorem sinksFirst_perm (h : Acyclic (Edge edges)) {fuel : ℕ} {left : List α}
    (hfuel : left.length ≤ fuel) : (sinksFirst edges fuel left).Perm left := by
  induction fuel generalizing left with
  | zero =>
    rw [List.length_eq_zero_iff.mp (Nat.le_zero.mp hfuel)]
    exact .nil
  | succ fuel ih =>
    unfold sinksFirst
    cases hfind : left.find? fun v => ∀ w ∈ left, (v, w) ∉ edges with
    | none =>
      by_cases hne : left = []
      · rw [hne]
      · obtain ⟨v, hv, hsink⟩ := h.exists_sink hne
        exact absurd hsink (by simpa using List.find?_eq_none.mp hfind v hv)
    | some v =>
      have hv : v ∈ left := List.mem_of_find?_eq_some hfind
      have hlength := List.length_erase_of_mem hv
      have hpos := List.length_pos_of_mem hv
      exact ((ih (by omega)).cons v).trans (List.perm_cons_erase hv).symm

theorem sinksFirst_order (h : Acyclic (Edge edges)) {fuel : ℕ} {left : List α}
    (hfuel : left.length ≤ fuel) :
    (sinksFirst edges fuel left).Pairwise fun a b => (a, b) ∉ edges := by
  induction fuel generalizing left with
  | zero => exact .nil
  | succ fuel ih =>
    unfold sinksFirst
    cases hfind : left.find? fun v => ∀ w ∈ left, (v, w) ∉ edges with
    | none => exact .nil
    | some v =>
      have hv : v ∈ left := List.mem_of_find?_eq_some hfind
      have hsink : ∀ w ∈ left, (v, w) ∉ edges := by simpa using List.find?_some hfind
      have hlength := List.length_erase_of_mem hv
      have hpos := List.length_pos_of_mem hv
      have hfuel' : (left.erase v).length ≤ fuel := by omega
      refine List.pairwise_cons.mpr ⟨fun w hw => hsink w ?_, ih hfuel'⟩
      exact List.mem_of_mem_erase ((sinksFirst_perm h hfuel').mem_iff.mp hw)

end SinksFirst

def TopologicalSort.sinksFirst : TopologicalSort where
  sort n edges := Digraph.sinksFirst edges n (List.range n)
  perm h := sinksFirst_perm h (by simp)
  order h := sinksFirst_order h (by simp)

end Rannc.Digraph
