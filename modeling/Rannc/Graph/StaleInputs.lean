import Rannc.Graph.CachedRanges

/-!
# Where merged nodes stay too long

The shorter ranges that are kept beside the base make their inputs required. The graph of a range
differs from the fold just where such an input is also an output that nothing outside reads.
-/
namespace Rannc

/-- Every value that goes from one node to another has an edge between them. -/
def MLGraph.Carried (g : MLGraph) : Prop :=
  ∀ n ∈ g.nodes, ∀ n' ∈ g.nodes, n.id ≠ n'.id → ∀ o ∈ n.graph.output_names,
    o ∈ n'.graph.input_names → ∃ e ∈ g.edges, e.src_id = n.id ∧ e.tgt_id = n'.id

section Order

variable {α : Type}

theorem lt_of_pair_sublist {a b : α} {l : List α} {i j : ℕ} (hnodup : l.Nodup)
    (h : [a, b].Sublist l) (hi : l[i]? = some a) (hj : l[j]? = some b) : i < j := by
  induction l generalizing i j with
  | nil => exact absurd hi (by simp)
  | cons x l ih =>
    obtain ⟨hx, hnodup⟩ := List.nodup_cons.mp hnodup
    cases h with
    | cons _ h =>
      have hne : ∀ y ∈ [a, b], x ≠ y := fun y hy heq => hx (heq ▸ h.subset hy)
      cases i with
      | zero => exact absurd (Option.some.inj hi) (hne a (by simp))
      | succ i =>
        cases j with
        | zero => exact absurd (Option.some.inj hj) (hne b (by simp))
        | succ j => exact Nat.succ_lt_succ (ih hnodup h hi hj)
    | cons_cons _ h =>
      have hb : b ∈ l := List.singleton_sublist.mp h
      cases i with
      | succ i => exact absurd (List.mem_of_getElem? (by simpa using hi)) hx
      | zero =>
        cases j with
        | zero => exact absurd hb (Option.some.inj hj ▸ hx)
        | succ j => exact Nat.succ_pos j

end Order

/-- What is collected are the new names that may be added. -/
theorem mem_addInput_names_iff {p : List String → String → Prop} [∀ l a, Decidable (p l a)]
    {q : String → Prop} (hp : ∀ l i, p l i ↔ q i ∧ i ∉ l) {added names : List String} {a : String} :
    a ∈ names.foldl (fun l i => if p l i then l ++ [i] else l) added ↔
      a ∈ added ∨ a ∈ names ∧ q a := by
  induction names generalizing added with
  | nil => simp
  | cons i names ih =>
    rw [List.foldl_cons, ih]
    by_cases hi : p added i
    · have hq := (hp added i).mp hi
      rw [if_pos hi, List.mem_append, List.mem_singleton, List.mem_cons]
      constructor
      · rintro ((ha | rfl) | ha)
        · exact Or.inl ha
        · exact Or.inr ⟨Or.inl rfl, hq.1⟩
        · exact Or.inr ⟨Or.inr ha.1, ha.2⟩
      · rintro (ha | ⟨rfl | ha, hqa⟩)
        · exact Or.inl (Or.inl ha)
        · exact Or.inl (Or.inr rfl)
        · exact Or.inr ⟨ha, hqa⟩
    · have hq : q i → i ∈ added := fun hqi => by_contra fun h => hi ((hp added i).mpr ⟨hqi, h⟩)
      rw [if_neg hi, List.mem_cons]
      constructor
      · rintro (ha | ha)
        · exact Or.inl ha
        · exact Or.inr ⟨Or.inr ha.1, ha.2⟩
      · rintro (ha | ⟨rfl | ha, hqa⟩)
        · exact Or.inl ha
        · exact Or.inl (hq hqa)
        · exact Or.inr ⟨ha, hqa⟩

theorem mem_mergeGraphs_input_names_iff {name : String} {g1 g2 g : IRGraph} {r : List String}
    (h1 : g1.InputsKnown) (h2 : g2.InputsKnown) (h : mergeGraphs name g1 g2 r = some g)
    {o : String} : o ∈ g.input_names ↔ o ∈ g1.input_names ∨
      o ∈ g2.input_names ∧ (g2.isParam o = true ∨ o ∉ g1.output_names) := by
  unfold mergeGraphs at h
  rw [h1.getNonParamInputNames_eq, h2.getNonParamInputNames_eq, h1.getParamInputNames_eq,
    h2.getParamInputNames_eq] at h
  simp only [Option.bind_eq_bind, Option.bind_some] at h
  obtain ⟨is_replicable, rfl⟩ := IRGraph.create_eq h
  rw [List.mem_append, mem_addInput_names_iff (q := (· ∉ g1.output_names)) fun _ _ => Iff.rfl,
    mem_addInput_names_iff (q := fun _ => True) fun _ _ => by rw [true_and]]
  simp only [List.mem_append, List.mem_filter, List.not_mem_nil, false_or, and_true]
  cases g1.isParam o
  · simp only [Bool.not_false, and_true, Bool.false_eq_true, and_false, false_or]
    cases g2.isParam o
    · simp
    · simp
  · simp only [Bool.not_true, Bool.false_eq_true, and_false, false_or, and_true]
    cases g2.isParam o
    · simp [or_comm]
    · simp

namespace GraphMergeHelper

theorem mem_mergeTwo_input_names {name : String} {g1 g2 g : IRGraph} {r : List String}
    (h1 : g1.InputsKnown) (h2 : g2.InputsKnown) (h : mergeTwo name g1 g2 r = some g)
    {o : String} : (o ∈ g.input_names → o ∈ g1.input_names ∨
      o ∈ g2.input_names ∧ (g2.isParam o = true ∨ o ∉ g1.output_names)) ∧
    (o ∈ g.output_names → (o ∈ g1.input_names ∨
      o ∈ g2.input_names ∧ (g2.isParam o = true ∨ o ∉ g1.output_names)) → o ∈ g.input_names) := by
  obtain ⟨merged, hmerged, hg⟩ := Option.bind_eq_some_iff.mp h
  have hiff := mem_mergeGraphs_input_names_iff h1 h2 hmerged (o := o)
  refine ⟨fun ho => hiff.mp (IRGraph.removeUnusedNodes_input_names hg ho), fun hout ho => ?_⟩
  obtain ⟨res, hloop, hcreate⟩ := Option.bind_eq_some_iff.mp hg
  obtain ⟨is_replicable, rfl⟩ := IRGraph.create_eq hcreate
  have hrequired : o ∈ res.getRequiredValues := by simpa using (List.mem_filter.mp hout).2
  refine List.mem_filter.mpr ⟨?_, decide_eq_true hrequired⟩
  rw [(IRGraph.removeUnusedLoop_ends rfl rfl hloop).1]
  exact hiff.mpr ho

variable {helper : GraphMergeHelper}

/-- A value that stays an output for nothing: it is made in the range, node `i` is the last that
reads it, and it was an input of a range that ends before the last node. -/
structure Stale (helper : GraphMergeHelper) (first i : ℕ) (o : String) : Prop where
  made : ∃ j n, first ≤ j ∧ j < i ∧ helper.graph.nodes[j]? = some n ∧ o ∈ n.graph.output_names
  read : ∃ n, helper.graph.nodes[i]? = some n ∧ o ∈ n.graph.input_names
  last : ∀ m n, helper.graph.nodes[m]? = some n → o ∈ n.graph.input_names → first ≤ m ∧ m ≤ i
  input : ∃ r n, first ≤ r ∧ max r (first + 1) + 1 < i ∧ helper.graph.nodes[r]? = some n ∧
    o ∈ n.graph.input_names ∧ (first < r ∧ n.graph.isParam o = true ∨
      ∀ j n', first ≤ j → j < r → helper.graph.nodes[j]? = some n' → o ∉ n'.graph.output_names)

section Prefixes

variable {first count : ℕ} {g : IRGraph} {graphs : List IRGraph} {o : String}

theorem Sorted.order (hsorted : helper.Sorted) (hcarried : helper.graph.Carried) {j l : ℕ}
    {n n' : MLNode} (hj : helper.graph.nodes[j]? = some n) (hl : helper.graph.nodes[l]? = some n')
    (hout : o ∈ n.graph.output_names) (hin : o ∈ n'.graph.input_names) : j ≤ l := by
  by_cases hid : n.id = n'.id
  · exact (hsorted.index_inj hj hl hid).le
  · obtain ⟨e, he, hsrc, htgt⟩ := hcarried n (List.mem_of_getElem? hj) n'
      (List.mem_of_getElem? hl) hid o hout hin
    have hforward := hsorted.topo.forward e he
    rw [hsrc, htgt] at hforward
    exact (lt_of_pair_sublist hsorted.topo.nodup hforward (by simp [MLGraph.ids, hj])
      (by simp [MLGraph.ids, hl])).le

theorem exists_made (hgraphs : helper.prefixGraphs first count = some (g :: graphs))
    (ho : o ∈ g.output_names) : ∃ j n, first ≤ j ∧ j ≤ first + count ∧
      helper.graph.nodes[j]? = some n ∧ o ∈ n.graph.output_names := by
  induction count generalizing g graphs with
  | zero =>
    obtain ⟨base, hbase, hgraphs⟩ := Option.bind_eq_some_iff.mp hgraphs
    obtain ⟨rfl, -⟩ := List.cons.inj (Option.some.inj hgraphs)
    exact ⟨first, base, le_rfl, le_rfl, hbase, ho⟩
  | succ count ih =>
    obtain ⟨g', base, shorter, tgt, heq, hshorter, htgt, hg⟩ := prefixGraphs_inv hgraphs
    obtain ⟨rfl, -⟩ := List.cons.inj heq
    rw [mergeTwo_output_names hg, List.mem_append, List.mem_filter] at ho
    cases ho with
    | inl ho =>
      obtain ⟨j, n, hle, hj, hn, hout⟩ := ih hshorter ho.1
      exact ⟨j, n, hle, by omega, hn, hout⟩
    | inr ho => exact ⟨_, tgt, by omega, le_rfl, htgt, ho⟩

theorem mem_output_names_of_made (hgraphs : helper.prefixGraphs first count = some (g :: graphs))
    {i j : ℕ} {n n' : MLNode} (hi : helper.graph.nodes[i]? = some n)
    (hread : o ∈ n.graph.input_names) (hlt : first + count < i)
    (hj : helper.graph.nodes[j]? = some n') (hle : first ≤ j) (hj_last : j ≤ first + count)
    (hmade : o ∈ n'.graph.output_names) : o ∈ g.output_names := by
  induction count generalizing g graphs with
  | zero =>
    obtain ⟨base, hbase, hgraphs⟩ := Option.bind_eq_some_iff.mp hgraphs
    obtain ⟨rfl, -⟩ := List.cons.inj (Option.some.inj hgraphs)
    obtain rfl : j = first := by omega
    rw [hj, Option.some.injEq] at hbase
    exact hbase ▸ hmade
  | succ count ih =>
    obtain ⟨g', base, shorter, tgt, heq, hshorter, htgt, hg⟩ := prefixGraphs_inv hgraphs
    obtain ⟨rfl, -⟩ := List.cons.inj heq
    rw [mergeTwo_output_names hg, List.mem_append, List.mem_filter]
    by_cases hj_eq : j = first + count + 1
    · subst hj_eq
      rw [hj, Option.some.injEq] at htgt
      exact Or.inr (htgt ▸ hmade)
    · have hrequired : o ∈ helper.unmergedInputs first (first + count + 1) :=
        mem_unmergedInputs.mpr ⟨i, n, hi, Or.inr (by omega), hread⟩
      refine Or.inl ⟨ih hshorter (by omega) (by omega), ?_⟩
      simp [hrequired]

theorem prefixGraphs_known (hsorted : helper.Sorted)
    (hgraphs : helper.prefixGraphs first count = some (g :: graphs)) : g.InputsKnown := by
  induction count generalizing g graphs with
  | zero =>
    obtain ⟨base, hbase, hgraphs⟩ := Option.bind_eq_some_iff.mp hgraphs
    obtain ⟨rfl, -⟩ := List.cons.inj (Option.some.inj hgraphs)
    exact hsorted.known base (List.mem_of_getElem? hbase)
  | succ count ih =>
    obtain ⟨g', base, shorter, tgt, heq, hshorter, htgt, hg⟩ := prefixGraphs_inv hgraphs
    obtain ⟨rfl, -⟩ := List.cons.inj heq
    obtain ⟨g', hg', hknown⟩ := exists_mergeTwo (ih hshorter)
      (hsorted.known tgt (List.mem_of_getElem? htgt)) _ _
    exact Option.some.inj (hg'.symm.trans hg) ▸ hknown

/-- A value that is made in the range and still read is an input of what is merged so far if the
first node to make it, or one that has it as a parameter, reads it too. -/
theorem mem_input_names_iff (hsorted : helper.Sorted) (hcarried : helper.graph.Carried)
    (hgraphs : helper.prefixGraphs first count = some (g :: graphs))
    {i j : ℕ} {n n' : MLNode} (hi : helper.graph.nodes[i]? = some n)
    (hread : o ∈ n.graph.input_names) (hlt : first + count < i)
    (hj : helper.graph.nodes[j]? = some n') (hle : first ≤ j) (hmade : o ∈ n'.graph.output_names) :
    o ∈ g.input_names ↔ ∃ r n, first ≤ r ∧ r ≤ first + count ∧ helper.graph.nodes[r]? = some n ∧
      o ∈ n.graph.input_names ∧ (first < r ∧ n.graph.isParam o = true ∨
        ∀ j n', first ≤ j → j < r → helper.graph.nodes[j]? = some n' →
          o ∉ n'.graph.output_names) := by
  induction count generalizing g graphs with
  | zero =>
    obtain ⟨base, hbase, hgraphs⟩ := Option.bind_eq_some_iff.mp hgraphs
    obtain ⟨rfl, -⟩ := List.cons.inj (Option.some.inj hgraphs)
    constructor
    · exact fun ho => ⟨first, base, le_rfl, le_rfl, hbase, ho, Or.inr fun _ _ _ _ => by omega⟩
    · rintro ⟨r, n, hr, hr_last, hn, ho, -⟩
      obtain rfl : r = first := by omega
      rw [hbase, Option.some.injEq] at hn
      exact hn ▸ ho
  | succ count ih =>
    have hknown := prefixGraphs_known hsorted hgraphs
    obtain ⟨g', base, shorter, tgt, heq, hshorter, htgt, hg⟩ := prefixGraphs_inv hgraphs
    obtain ⟨rfl, -⟩ := List.cons.inj heq
    have hmerge := mem_mergeTwo_input_names (prefixGraphs_known hsorted hshorter)
      (hsorted.known tgt (List.mem_of_getElem? htgt)) hg (o := o)
    have hbase := ih hshorter (by omega)
    constructor
    · intro ho
      rcases hmerge.1 ho with ho | ⟨ho, hnew⟩
      · obtain ⟨r, n, hr, hr_last, hn⟩ := hbase.mp ho
        exact ⟨r, n, hr, by omega, hn⟩
      · refine ⟨first + count + 1, tgt, by omega, le_rfl, htgt, ho, ?_⟩
        refine hnew.imp (fun hparam => ⟨by omega, hparam⟩) fun hout => ?_
        intro j n' hle hlt' hj hmade
        apply hout
        exact mem_output_names_of_made hshorter hi hread (by omega) hj hle (by omega) hmade
    · rintro ⟨r, n, hr, hr_last, hn, ho, hnew⟩
      have hjr : j ≤ r := hsorted.order hcarried hj hn hmade ho
      refine hmerge.2 (mem_output_names_of_made hgraphs hi hread (by omega) hj hle (by omega) hmade)
        ?_
      by_cases hr_eq : r = first + count + 1
      · subst hr_eq
        rw [htgt, Option.some.injEq] at hn
        subst hn
        refine Or.inr ⟨ho, hnew.imp (fun hparam => hparam.2) fun hnone hout => ?_⟩
        obtain ⟨j', n'', hle', hj', hn'', hout'⟩ := exists_made hshorter hout
        exact hnone j' n'' hle' (by omega) hn'' hout'
      · exact Or.inl (hbase.mpr ⟨r, n, hr, by omega, hn, ho, hnew⟩)

theorem mem_dropLast_iff (hgraphs : helper.prefixGraphs first count = some graphs) :
    g ∈ graphs.dropLast ↔
      ∃ k shorter, 0 < k ∧ k ≤ count ∧ helper.prefixGraphs first k = some (g :: shorter) := by
  induction count generalizing graphs with
  | zero =>
    obtain ⟨base, -, hgraphs⟩ := Option.bind_eq_some_iff.mp hgraphs
    obtain rfl := Option.some.inj hgraphs
    simp only [List.dropLast_singleton, List.not_mem_nil, false_iff]
    rintro ⟨k, _, hk, hle, -⟩
    omega
  | succ count ih =>
    obtain ⟨g', base, shorter, tgt, rfl, hshorter, htgt, hg⟩ := prefixGraphs_inv hgraphs
    rw [List.dropLast_cons_of_ne_nil (by simp), List.mem_cons, ih hshorter]
    constructor
    · rintro (rfl | ⟨k, shorter', hk, hle, hk_graphs⟩)
      · exact ⟨count + 1, _, by omega, le_rfl, hgraphs⟩
      · exact ⟨k, shorter', hk, by omega, hk_graphs⟩
    · rintro ⟨k, shorter', hk, hle, hk_graphs⟩
      by_cases hk_eq : k = count + 1
      · subst hk_eq
        rw [hgraphs] at hk_graphs
        exact Or.inl (List.cons.inj (Option.some.inj hk_graphs)).1.symm
      · exact Or.inr ⟨k, shorter', hk, by omega, hk_graphs⟩

theorem mem_dropLast_tail_iff {base : IRGraph}
    (hgraphs : helper.prefixGraphs first count = some (base :: graphs)) :
    g ∈ (base :: graphs).dropLast.tail ↔
      ∃ k shorter, 0 < k ∧ k < count ∧ helper.prefixGraphs first k = some (g :: shorter) := by
  cases count with
  | zero =>
    obtain ⟨base', -, hgraphs⟩ := Option.bind_eq_some_iff.mp hgraphs
    obtain ⟨rfl, rfl⟩ := List.cons.inj (Option.some.inj hgraphs)
    simp
  | succ count =>
    have hne := (prefixGraphs_head hgraphs).2
    rw [List.dropLast_cons_of_ne_nil hne, List.tail_cons,
      mem_dropLast_iff (prefixGraphs_tail hgraphs).1]
    simp only [Nat.lt_succ_iff]

theorem foldRange_succ : helper.foldRange first (first + count + 1) =
    (helper.foldRange first (first + count)).bind fun g =>
      helper.graph.nodes[first + count + 1]?.bind fun tgt =>
        mergeTwo (getMergedGraphId first (first + count + 1)) g tgt.graph
          (helper.unmergedInputs first (first + count + 1)) := by
  have hcount : first + count + 1 - first = count + 1 := by omega
  have hlast : first + count - first = count := by omega
  unfold foldRange
  rw [hcount, hlast, List.range'_concat, Nat.one_mul, Nat.add_right_comm first 1 count]
  cases helper.graph.nodes[first]? with
  | none => rfl
  | some base =>
    simp only [List.foldlM_append, List.foldlM_cons, List.foldlM_nil, bind_pure]
    rfl

theorem foldRange_inv (h : helper.foldRange first (first + count + 1) = some g) : ∃ base tgt,
    helper.foldRange first (first + count) = some base ∧
      helper.graph.nodes[first + count + 1]? = some tgt ∧
      mergeTwo (getMergedGraphId first (first + count + 1)) base tgt.graph
        (helper.unmergedInputs first (first + count + 1)) = some g := by
  rw [foldRange_succ] at h
  obtain ⟨base, hbase, h⟩ := Option.bind_eq_some_iff.mp h
  obtain ⟨tgt, htgt, hg⟩ := Option.bind_eq_some_iff.mp h
  exact ⟨base, tgt, hbase, htgt, hg⟩

theorem exists_foldRange (hsorted : helper.Sorted)
    (hlast : first + count < helper.graph.nodes.length) :
    ∃ g, helper.foldRange first (first + count) = some g ∧ g.InputsKnown := by
  induction count with
  | zero =>
    have hbase : helper.graph.nodes[first]? = some helper.graph.nodes[first] :=
      List.getElem?_eq_getElem hlast
    refine ⟨helper.graph.nodes[first].graph, ?_, hsorted.known _ (List.getElem_mem hlast)⟩
    simp [foldRange, hbase]
  | succ count ih =>
    obtain ⟨base, hbase, hknown⟩ := ih (by omega)
    have htgt : helper.graph.nodes[first + count + 1]? =
        some helper.graph.nodes[first + count + 1] := List.getElem?_eq_getElem hlast
    obtain ⟨g, hg, hg_known⟩ := exists_mergeTwo hknown (hsorted.known _ (List.mem_of_getElem? htgt))
      (getMergedGraphId first (first + count + 1))
      (helper.unmergedInputs first (first + count + 1))
    refine ⟨g, ?_, hg_known⟩
    rw [← Nat.add_assoc, foldRange_succ, hbase, Option.bind_some, htgt, Option.bind_some, hg]

/-- Where nothing is stale the graph is that of the fold. -/
theorem foldRange_eq_of_fresh (hsorted : helper.Sorted) (hcarried : helper.graph.Carried)
    (hfresh : ∀ i o, i ≤ first + count → ¬ helper.Stale first i o)
    (hgraphs : helper.prefixGraphs first count = some (g :: graphs)) :
    helper.foldRange first (first + count) = some g := by
  induction count generalizing g graphs with
  | zero =>
    obtain ⟨base, hbase, hgraphs⟩ := Option.bind_eq_some_iff.mp hgraphs
    obtain ⟨rfl, -⟩ := List.cons.inj (Option.some.inj hgraphs)
    simp [foldRange, hbase]
  | succ count ih =>
    obtain ⟨g', base, shorter, tgt, heq, hshorter, htgt, hg⟩ := prefixGraphs_inv hgraphs
    obtain ⟨rfl, -⟩ := List.cons.inj heq
    rw [← Nat.add_assoc, foldRange_succ, ih (fun i o hi => hfresh i o (by omega)) hshorter,
      Option.bind_some, htgt, Option.bind_some, ← hg]
    refine mergeTwo_congr fun o hout hread => ?_
    rw [List.mem_append, or_iff_right_of_imp]
    intro hstale
    by_contra hunread
    obtain ⟨g', hg', hinput⟩ := List.mem_flatMap.mp hstale
    obtain ⟨k, shorter', hk, hk_lt, hk_graphs⟩ := (mem_dropLast_tail_iff hshorter).mp hg'
    obtain ⟨j, n', hle, hj, hn', hmade⟩ := exists_made hshorter hout
    obtain ⟨r, n, hr, hr_last, hn, hn_read, hnew⟩ := (mem_input_names_iff hsorted hcarried hk_graphs
      htgt hread (by omega) hn' hle hmade).mp hinput
    refine hfresh (first + count + 1) o le_rfl
      ⟨⟨j, n', hle, by omega, hn', hmade⟩, ⟨tgt, htgt, hread⟩, ?_, r, n, hr, by omega, hn,
        hn_read, hnew⟩
    intro m n hm hm_read
    by_contra hout
    exact hunread (mem_unmergedInputs.mpr ⟨m, n, hm, by omega, hm_read⟩)

/-- A stale value stays an output of all longer ranges. -/
theorem count_lt_of_stale (hsorted : helper.Sorted) (hcarried : helper.graph.Carried) {k : ℕ}
    (hfresh : ∀ i o, i ≤ first + count → ¬ helper.Stale first i o)
    (hstale : helper.Stale first (first + count + 1) o)
    (hgraphs : helper.prefixGraphs first (count + 1 + k) = some (g :: graphs)) {g' : IRGraph}
    (hfold : helper.foldRange first (first + (count + 1 + k)) = some g') :
    g'.output_names.count o < g.output_names.count o := by
  induction k generalizing g graphs g' with
  | zero =>
    obtain ⟨_, base, shorter, tgt, heq, hshorter, htgt, hg⟩ := prefixGraphs_inv hgraphs
    obtain ⟨rfl, -⟩ := List.cons.inj heq
    obtain ⟨base', tgt', hbase', htgt', hg'⟩ := foldRange_inv hfold
    rw [foldRange_eq_of_fresh hsorted hcarried hfresh hshorter, Option.some.injEq] at hbase'
    rw [htgt, Option.some.injEq] at htgt'
    subst hbase' htgt'
    obtain ⟨n, hn, hread⟩ := hstale.read
    rw [htgt, Option.some.injEq] at hn
    subst hn
    obtain ⟨j, n', hle, hj, hn', hmade⟩ := hstale.made
    have hout : o ∈ base.output_names :=
      mem_output_names_of_made hshorter htgt hread (by omega) hn' hle (by omega) hmade
    have hunread : o ∉ helper.unmergedInputs first (first + count + 1) := by
      intro hmem
      obtain ⟨m, n, hm, hm_out, hm_read⟩ := mem_unmergedInputs.mp hmem
      have hm_last := hstale.last m n hm hm_read
      omega
    have hkept : o ∈ (base :: shorter).dropLast.tail.flatMap IRGraph.input_names := by
      obtain ⟨r, n, hr, hr_last, hn, hn_read, hnew⟩ := hstale.input
      have hlen := (List.getElem?_eq_some_iff.mp htgt).1
      have hlast : first + (max r (first + 1) - first) < helper.graph.nodes.length := by omega
      obtain ⟨graphs', hgraphs', hne, -⟩ := exists_prefixGraphs hsorted hlast
      obtain ⟨g', shorter', rfl⟩ := List.exists_cons_of_ne_nil hne
      refine List.mem_flatMap.mpr ⟨g', (mem_dropLast_tail_iff hshorter).mpr
        ⟨_, shorter', by omega, by omega, hgraphs'⟩, ?_⟩
      exact (mem_input_names_iff hsorted hcarried hgraphs' htgt hread (by omega) hn' hle hmade).mpr
        ⟨r, n, hr, by omega, hn, hn_read, hnew⟩
    have hzero : (base.output_names.filter fun o1 => o1 ∉ tgt.graph.input_names ∨
        o1 ∈ helper.unmergedInputs first (first + count + 1)).count o = 0 :=
      List.count_eq_zero.mpr (by simp [hread, hunread])
    have hpos : 0 < base.output_names.count o := List.count_pos_iff.mpr hout
    rw [mergeTwo_output_names hg', mergeTwo_output_names hg, List.count_append,
      List.count_append, hzero, List.count_filter (by simp [hkept])]
    omega
  | succ k ih =>
    obtain ⟨_, base, shorter, tgt, heq, hshorter, htgt, hg⟩ := prefixGraphs_inv hgraphs
    obtain ⟨rfl, -⟩ := List.cons.inj heq
    obtain ⟨base', tgt', hbase', htgt', hg'⟩ := foldRange_inv hfold
    rw [htgt, Option.some.injEq] at htgt'
    subst htgt'
    have hlt := ih hshorter hbase'
    have hunread : o ∉ tgt.graph.input_names := by
      intro hread
      have hlast : first + (count + 1 + k) + 1 ≤ first + count + 1 :=
        (hstale.last _ tgt htgt hread).2
      omega
    rw [mergeTwo_output_names hg', mergeTwo_output_names hg, List.count_append,
      List.count_append, List.count_filter (by simp [hunread]),
      List.count_filter (by simp [hunread])]
    omega

end Prefixes

/-- What two graphs that differ in their names only have in common. -/
def SameGraph (g g' : IRGraph) : Prop :=
  g.nodes = g'.nodes ∧ g.input_names = g'.input_names ∧ g.output_names = g'.output_names

/-- No value stays an output for nothing. -/
def Fresh (helper : GraphMergeHelper) (first last : ℕ) : Prop :=
  ∀ i o, i ≤ last → ¬ helper.Stale first i o

theorem exists_first_stale {first last : ℕ} (h : ¬ helper.Fresh first last) :
    ∃ i ≤ last, ∃ o, helper.Stale first i o ∧ ∀ i' o', i' < i → ¬ helper.Stale first i' o' := by
  classical
  have hex : ∃ i, ∃ o, i ≤ last ∧ helper.Stale first i o := by
    unfold Fresh at h
    push Not at h
    exact h
  obtain ⟨o, hle, hstale⟩ := Nat.find_spec hex
  refine ⟨Nat.find hex, hle, o, hstale, fun i' o' hlt hstale' => ?_⟩
  exact Nat.find_min hex hlt ⟨o', hlt.le.trans hle, hstale'⟩

/-- After any calls a call returns what it returns at first. This is the fold just where no value
stays an output for nothing. -/
theorem mergeCached_eq_foldRange_iff (hsorted : helper.Sorted) (hcarried : helper.graph.Carried)
    {calls : List (ℕ × ℕ)}
    (hcalls : ∀ range ∈ calls, range.1 ≤ range.2 ∧ range.2 < helper.graph.nodes.length)
    {first last : ℕ} (hle : first ≤ last) (hlast : last < helper.graph.nodes.length) :
    ∃ cached g cached', helper.afterCalls calls = some cached ∧
      helper.mergeCached cached first last = some (g, cached') ∧
      (∃ cached₀, helper.mergeCached helper.initialCache first last = some (g, cached₀)) ∧
      ∃ g', helper.foldRange first last = some g' ∧
        (SameGraph g g' ↔ helper.Fresh first last) := by
  obtain ⟨cached, hcached, hok⟩ := exists_afterCalls hsorted hcalls
  obtain ⟨g, graphs, cached', hcall, hgraphs, -⟩ := hok.mergeCached hsorted hle hlast
  obtain ⟨g₀, graphs₀, cached₀, hcall₀, hgraphs₀, -⟩ :=
    cacheOk_initialCache.mergeCached hsorted hle hlast
  obtain ⟨rfl, -⟩ := List.cons.inj (Option.some.inj (hgraphs₀.symm.trans hgraphs))
  obtain ⟨count, rfl⟩ := Nat.exists_eq_add_of_le hle
  rw [Nat.add_sub_cancel_left] at hgraphs
  obtain ⟨g', hfold, -⟩ := exists_foldRange hsorted hlast
  refine ⟨cached, g₀, cached', hcached, hcall, ⟨cached₀, hcall₀⟩, g', hfold, fun hsame => ?_,
    fun hfresh => ?_⟩
  · by_contra hnot
    obtain ⟨i, hi, o, hstale, hmin⟩ := exists_first_stale hnot
    obtain ⟨r, -, hr, hr_lt, -⟩ := hstale.input
    obtain ⟨c, rfl⟩ : ∃ c, i = first + c + 1 := ⟨i - (first + 1), by omega⟩
    obtain ⟨k, rfl⟩ : ∃ k, count = c + 1 + k := ⟨count - (c + 1), by omega⟩
    have hlt := count_lt_of_stale hsorted hcarried (fun i o hi => hmin i o (by omega)) hstale
      hgraphs hfold
    rw [hsame.2.2] at hlt
    exact lt_irrefl _ hlt
  · rw [foldRange_eq_of_fresh hsorted hcarried hfresh hgraphs, Option.some.injEq] at hfold
    exact hfold ▸ ⟨rfl, rfl, rfl⟩

theorem fresh_of_later {first last : ℕ}
    (hlater : ∀ (j l : ℕ) (n n' : MLNode), helper.graph.nodes[j]? = some n →
      helper.graph.nodes[l]? = some n' → ∀ o ∈ n.graph.output_names, o ∈ n'.graph.input_names →
        j < l ∧ n'.graph.isParam o = false) : helper.Fresh first last := by
  rintro i o - ⟨⟨j, n', hle, -, hn', hmade⟩, -, -, r, n, hr, -, hn, hread, hnew⟩
  obtain ⟨hlt, hparam⟩ := hlater j r n' n hn' hn o hmade hread
  rcases hnew with ⟨-, hparam'⟩ | hnone
  · rw [hparam] at hparam'
    exact absurd hparam' (by simp)
  · exact hnone j n' hle hlt hn' hmade

/-- A graph of one operator that returns the value it reads as well. -/
def passingNode (id op input output : String) : MLNode :=
  let n := MLPartitioner.crossingNode id op [input] output
  { n with graph := { n.graph with output_names := [output, input] } }

/-- Four nodes that read the same value, which the first of them returns. -/
def passingHelper : GraphMergeHelper where
  graph :=
    { nodes := [passingNode "ML_a" "relu" "x" "p",
        MLPartitioner.crossingNode "ML_b" "tanh" ["x"] "q",
        MLPartitioner.crossingNode "ML_c" "exp" ["x"] "r",
        MLPartitioner.crossingNode "ML_d" "neg" ["x"] "s"]
      edges := [MLPartitioner.crossingEdge "ML_a" "ML_b" "x",
        MLPartitioner.crossingEdge "ML_a" "ML_c" "x",
        MLPartitioner.crossingEdge "ML_a" "ML_d" "x"] }
  names := MLPartitioner.crossingNames
  used := 0
  edge_order := MLPartitioner.crossingPartitioner.edge_order

theorem passingHelper_sorted : passingHelper.Sorted where
  topo := by
    refine ⟨by decide, ?_⟩
    unfold MLGraph.Forward
    decide
  named := by decide
  ml := by
    have hids : ∀ n ∈ passingHelper.graph.nodes,
        ∃ s ∈ ["a", "b", "c", "d"], n.id = "ML_" ++ s := by
      decide
    intro n hn
    obtain ⟨s, -, hs⟩ := hids n hn
    exact ⟨s, hs⟩
  known := by
    unfold IRGraph.InputsKnown
    decide
  fresh i _ := by
    have hids : passingHelper.graph.ids = ["ML_a", "ML_b", "ML_c", "ML_d"] := rfl
    rw [hids]
    exact MLPartitioner.crossingNames_fresh (by simp) i

theorem passingHelper_carried : passingHelper.graph.Carried := by
  unfold MLGraph.Carried
  decide

theorem mergeCached_eq_foldRange_iff_passing :
    ∃ cached g cached', passingHelper.afterCalls [(0, 1), (0, 2)] = some cached ∧
      passingHelper.mergeCached cached 0 3 = some (g, cached') ∧
      (∃ cached₀, passingHelper.mergeCached passingHelper.initialCache 0 3 = some (g, cached₀)) ∧
      ∃ g', passingHelper.foldRange 0 3 = some g' ∧ (SameGraph g g' ↔ passingHelper.Fresh 0 3) :=
  mergeCached_eq_foldRange_iff passingHelper_sorted passingHelper_carried (by decide) (by decide)
    (by decide)

/-- The value stays an output of the graph of all four nodes. -/
theorem not_mergeCached_eq_foldRange : ¬ ∀ helper : GraphMergeHelper, helper.Sorted →
    helper.graph.Carried → ∀ calls : List (ℕ × ℕ),
    (∀ range ∈ calls, range.1 ≤ range.2 ∧ range.2 < helper.graph.nodes.length) →
    ∀ first last, first ≤ last → last < helper.graph.nodes.length →
      ∃ cached g cached' g', helper.afterCalls calls = some cached ∧
        helper.mergeCached cached first last = some (g, cached') ∧
        helper.foldRange first last = some g' ∧ SameGraph g g' := by
  intro h
  obtain ⟨cached, g, cached', g', hcached, hg, hg', -, -, houtputs⟩ :=
    h passingHelper passingHelper_sorted passingHelper_carried [] (by simp) 0 3 (by decide)
      (by decide)
  obtain rfl := Option.some.inj hcached
  have hmerged : (passingHelper.mergeCached passingHelper.initialCache 0 3).map
      (fun res => res.1.output_names) = some ["p", "x", "q", "r", "s"] := by decide +kernel
  have hfold : (passingHelper.foldRange 0 3).map IRGraph.output_names =
      some ["p", "q", "r", "s"] := by decide +kernel
  rw [hg, Option.map_some, Option.some.injEq] at hmerged
  rw [hg', Option.map_some, Option.some.injEq] at hfold
  rw [hmerged, hfold] at houtputs
  exact absurd houtputs (by decide)

end GraphMergeHelper

end Rannc
