import Rannc.Graph.MergeCache
import Rannc.Lib.OptionFold

/-!
# What the cache holds

Whatever was asked for before, the cached node of a range has the graph that is merged without a
cache, and what is kept beside it is known from the graphs of the shorter ranges.
-/
namespace Rannc

section Maps

variable {α : Type} {map : List (String × α)} {key x : String} {value : α}

theorem lookup_eraseKey : (eraseKey key map).lookup x = if x = key then none else map.lookup x := by
  induction map with
  | nil => simp [eraseKey]
  | cons it map ih =>
    rw [eraseKey] at ih ⊢
    by_cases hit : it.1 = key
    · rw [List.filter_cons_of_neg (by simpa using hit), ih, List.lookup_cons]
      by_cases hx : x = key
      · simp [hx]
      · simp [hx, hit, beq_eq_false_iff_ne.mpr hx]
    · rw [List.filter_cons_of_pos (by simpa using hit), List.lookup_cons, ih, List.lookup_cons]
      by_cases hx : x = it.1
      · simp [hx, hit]
      · simp [beq_eq_false_iff_ne.mpr hx]

theorem lookup_insertKey :
    (insertKey key value map).lookup x = if x = key then some value else map.lookup x := by
  rw [insertKey, List.lookup_cons]
  by_cases hx : x = key
  · simp [hx]
  · simp [hx, beq_eq_false_iff_ne.mpr hx, lookup_eraseKey]

theorem mem_eraseKey {it : String × α} : it ∈ eraseKey key map ↔ it ∈ map ∧ it.1 ≠ key := by
  simp [eraseKey]

end Maps

theorem getMergedGraphId_inj {first i j : ℕ} :
    getMergedGraphId first i = getMergedGraphId first j ↔ i = j :=
  append_repr_inj

theorem getMergedGraphId_ne {first i : ℕ} {s : String} : "ML_" ++ s ≠ getMergedGraphId first i := by
  intro h
  have hlist := congrArg String.toList h
  simp [getMergedGraphId, String.toList_append] at hlist

namespace GraphMergeHelper

variable {helper : GraphMergeHelper}

/-- The nodes are in topological order, their names differ from those of merged nodes, and their
graphs know their inputs. -/
structure Sorted (helper : GraphMergeHelper) : Prop where
  topo : helper.graph.TopoOrdered
  named : ∀ n ∈ helper.graph.nodes, n.graph.name = n.id
  ml : ∀ n ∈ helper.graph.nodes, ∃ s, n.id = "ML_" ++ s
  known : ∀ n ∈ helper.graph.nodes, n.graph.InputsKnown
  fresh : ∀ i, helper.used ≤ i → helper.names.generateName i "ML_" ∉ helper.graph.ids

theorem Sorted.index_inj (hsorted : helper.Sorted) {m k : ℕ} {n n' : MLNode}
    (hm : helper.graph.nodes[m]? = some n) (hk : helper.graph.nodes[k]? = some n')
    (hid : n.id = n'.id) : m = k := by
  have hm_id : helper.graph.ids[m]? = some n.id := by simp [MLGraph.ids, hm]
  have hk_id : helper.graph.ids[k]? = some n'.id := by simp [MLGraph.ids, hk]
  have hlt : m < helper.graph.ids.length := (List.getElem?_eq_some_iff.mp hm_id).1
  exact (List.getElem?_inj hlt hsorted.topo.nodup).mp (by rw [hm_id, hk_id, hid])

theorem Sorted.name_ne (hsorted : helper.Sorted) {n : MLNode} {m first last : ℕ}
    (hm : helper.graph.nodes[m]? = some n) : n.id ≠ getMergedGraphId first last := by
  obtain ⟨s, hs⟩ := hsorted.ml n (List.mem_of_getElem? hm)
  exact hs ▸ getMergedGraphId_ne

section Prefixes

variable {first count : ℕ} {graphs : List IRGraph}

theorem prefixGraphs_succ {tgt : MLNode} {base g : IRGraph}
    (hgraphs : helper.prefixGraphs first count = some (base :: graphs))
    (htgt : helper.graph.nodes[first + count + 1]? = some tgt)
    (hg : mergeTwo (getMergedGraphId first (first + count + 1)) base tgt.graph
      ((base :: graphs).dropLast.tail.flatMap IRGraph.input_names ++
        helper.unmergedInputs first (first + count + 1)) = some g) :
    helper.prefixGraphs first (count + 1) = some (g :: base :: graphs) := by
  rw [prefixGraphs, hgraphs]
  simp only [Option.bind_eq_bind, Option.bind_some, List.head?_cons, htgt, hg]
  rfl

theorem prefixGraphs_inv {longer : List IRGraph}
    (h : helper.prefixGraphs first (count + 1) = some longer) : ∃ g base graphs tgt,
      longer = g :: base :: graphs ∧ helper.prefixGraphs first count = some (base :: graphs) ∧
        helper.graph.nodes[first + count + 1]? = some tgt ∧
        mergeTwo (getMergedGraphId first (first + count + 1)) base tgt.graph
          ((base :: graphs).dropLast.tail.flatMap IRGraph.input_names ++
            helper.unmergedInputs first (first + count + 1)) = some g := by
  obtain ⟨shorter, hshorter, h⟩ := Option.bind_eq_some_iff.mp h
  obtain ⟨base, hbase, h⟩ := Option.bind_eq_some_iff.mp h
  obtain ⟨tgt, htgt, h⟩ := Option.bind_eq_some_iff.mp h
  obtain ⟨g, hg, h⟩ := Option.bind_eq_some_iff.mp h
  obtain ⟨graphs, rfl⟩ := List.head?_eq_some_iff.mp hbase
  exact ⟨g, base, graphs, tgt, (Option.some.inj h).symm, hshorter, htgt, hg⟩

theorem exists_prefixGraphs (hsorted : helper.Sorted)
    (hlast : first + count < helper.graph.nodes.length) :
    ∃ graphs, helper.prefixGraphs first count = some graphs ∧ graphs ≠ [] ∧
      ∀ g ∈ graphs, g.InputsKnown := by
  induction count with
  | zero =>
    have hbase : helper.graph.nodes[first]? = some helper.graph.nodes[first] :=
      List.getElem?_eq_getElem hlast
    refine ⟨[helper.graph.nodes[first].graph], ?_, by simp, ?_⟩
    · simp [prefixGraphs, hbase]
    · simpa using hsorted.known _ (List.getElem_mem hlast)
  | succ count ih =>
    obtain ⟨graphs, hgraphs, hne, hknown⟩ := ih (by omega)
    obtain ⟨base, shorter, rfl⟩ := List.exists_cons_of_ne_nil hne
    have htgt : helper.graph.nodes[first + count + 1]? =
        some helper.graph.nodes[first + count + 1] := List.getElem?_eq_getElem hlast
    obtain ⟨g, hg, hg_known⟩ := exists_mergeTwo (hknown base List.mem_cons_self)
      (hsorted.known _ (List.mem_of_getElem? htgt)) (getMergedGraphId first (first + count + 1))
      ((base :: shorter).dropLast.tail.flatMap IRGraph.input_names ++
        helper.unmergedInputs first (first + count + 1))
    exact ⟨g :: base :: shorter, prefixGraphs_succ hgraphs htgt hg, by simp,
      List.forall_mem_cons.mpr ⟨hg_known, hknown⟩⟩

theorem prefixGraphs_names (hgraphs : helper.prefixGraphs first count = some graphs) :
    graphs.dropLast.map IRGraph.name =
      (List.range' (first + 1) count).reverse.map (getMergedGraphId first) := by
  induction count generalizing graphs with
  | zero =>
    obtain ⟨base, -, hgraphs⟩ := Option.bind_eq_some_iff.mp hgraphs
    obtain rfl := Option.some.inj hgraphs
    rfl
  | succ count ih =>
    obtain ⟨g, base, shorter, tgt, rfl, hshorter, -, hg⟩ := prefixGraphs_inv hgraphs
    rw [List.dropLast_cons_of_ne_nil (by simp), List.map_cons, ih hshorter, mergeTwo_name hg,
      List.range'_concat, Nat.one_mul, Nat.add_right_comm first 1 count]
    simp

theorem prefixGraphs_head {g : IRGraph}
    (hgraphs : helper.prefixGraphs first (count + 1) = some (g :: graphs)) :
    g.name = getMergedGraphId first (first + count + 1) ∧ graphs ≠ [] := by
  obtain ⟨g', base, shorter, tgt, heq, -, -, hg⟩ := prefixGraphs_inv hgraphs
  obtain ⟨rfl, rfl⟩ := List.cons.inj heq
  exact ⟨mergeTwo_name hg, by simp⟩

theorem prefixGraphs_tail {g : IRGraph}
    (hgraphs : helper.prefixGraphs first (count + 1) = some (g :: graphs)) :
    helper.prefixGraphs first count = some graphs ∧
      ∃ tgt, helper.graph.nodes[first + count + 1]? = some tgt := by
  obtain ⟨g', base, shorter, tgt, heq, hshorter, htgt, -⟩ := prefixGraphs_inv hgraphs
  obtain ⟨rfl, rfl⟩ := List.cons.inj heq
  exact ⟨hshorter, tgt, htgt⟩

theorem prefixGraphs_range (hgraphs : helper.prefixGraphs first count = some graphs) {g : IRGraph}
    (hg : g ∈ graphs.dropLast) :
    ∃ k, first < k ∧ k ≤ first + count ∧ g.name = getMergedGraphId first k := by
  have hname := List.mem_map_of_mem (f := IRGraph.name) hg
  rw [prefixGraphs_names hgraphs, List.mem_map] at hname
  obtain ⟨k, hk, hk_name⟩ := hname
  rw [List.mem_reverse, List.mem_range'_1] at hk
  exact ⟨k, by omega, by omega, hk_name.symm⟩

theorem mem_outside {α : Type} {l : List α} {a : α} {last : ℕ} :
    a ∈ l.take first ++ l.drop (last + 1) ↔ ∃ m, l[m]? = some a ∧ (m < first ∨ last < m) := by
  rw [List.mem_append, List.mem_iff_getElem?, List.mem_iff_getElem?]
  simp only [List.getElem?_take, List.getElem?_drop]
  constructor
  · rintro (⟨m, hm⟩ | ⟨m, hm⟩)
    · split_ifs at hm with hlt
      exact ⟨m, hm, Or.inl hlt⟩
    · exact ⟨last + 1 + m, hm, Or.inr (by omega)⟩
  · rintro ⟨m, hm, hlt | hlt⟩
    · exact Or.inl ⟨m, by rw [if_pos hlt, hm]⟩
    · have hm' : last + 1 + (m - (last + 1)) = m := by omega
      exact Or.inr ⟨m - (last + 1), by rw [hm', hm]⟩

theorem mem_unmergedInputs {last : ℕ} {o : String} :
    o ∈ helper.unmergedInputs first last ↔ ∃ m n, helper.graph.nodes[m]? = some n ∧
      (m < first ∨ last < m) ∧ o ∈ n.graph.input_names := by
  rw [unmergedInputs, List.mem_flatMap]
  constructor
  · rintro ⟨n, hn, ho⟩
    obtain ⟨m, hm, hout⟩ := mem_outside.mp hn
    exact ⟨m, n, hm, hout, ho⟩
  · rintro ⟨m, n, hm, hout, ho⟩
    exact ⟨n, mem_outside.mpr ⟨m, hm, hout⟩, ho⟩

end Prefixes

/-- The renaming keeps what is left, and knows both ends of every edge that is left. -/
structure EdgesKnown (st : MergeBase) : Prop where
  same : ∀ x v, st.name_map.lookup x = some v → v = x
  ends : ∀ e ∈ st.rest_edges,
    (st.name_map.lookup e.src_id).isSome ∧ (st.name_map.lookup e.tgt_id).isSome

/-- The node of a range of `count + 1` nodes. -/
structure RangeNode (helper : GraphMergeHelper) (first count : ℕ) (graphs : List IRGraph)
    (node : MLNode) : Prop where
  graphs : helper.prefixGraphs first count = some (node.graph :: graphs)
  id : count = 0 ∧ helper.graph.nodes[first]? = some node ∨
    0 < count ∧ ∃ i, helper.used ≤ i ∧ node.id = helper.names.generateName i "ML_"

/-- What is beside a range of `count + 1` nodes: the nodes outside it, and the shorter ranges. -/
structure Beside (helper : GraphMergeHelper) (first count : ℕ) (graphs : List IRGraph)
    (st : MergeBase) : Prop where
  base : helper.RangeNode first count graphs st.base
  edges : EdgesKnown st
  keyed : ∀ it ∈ st.rest_nodes, it.1 = it.2.graph.name
  rest : ∀ g, (∃ it ∈ st.rest_nodes, it.2.graph = g) ↔
    g ∈ (st.base.graph :: graphs).dropLast ∨ ∃ m n, helper.graph.nodes[m]? = some n ∧
      n.graph = g ∧ (count = 0 ∨ m < first ∨ first + count < m)

section Beside

variable {first count : ℕ} {graphs : List IRGraph} {st : MergeBase}

theorem EdgesKnown.advance (hst : EdgesKnown st) (helper : GraphMergeHelper) (first i : ℕ)
    (tgt merged_node : MLNode) :
    ∃ st', helper.advance first st i tgt merged_node = some st' ∧ st'.base = merged_node ∧
      EdgesKnown st' ∧ st'.rest_nodes = insertKey (getMergedGraphId first i) merged_node
        (eraseKey tgt.id (eraseKey st.base.id st.rest_nodes)) := by
  set merged_graph_id := getMergedGraphId first i with hmerged
  set name_map := insertKey tgt.id merged_graph_id
    (insertKey st.base.id merged_graph_id st.name_map) with hname_map
  have hlookup : ∀ x, name_map.lookup x =
      if x = tgt.id ∨ x = st.base.id then some merged_graph_id else st.name_map.lookup x := by
    intro x
    rw [hname_map, lookup_insertKey, lookup_insertKey]
    split_ifs <;> tauto
  have hsome : ∀ e ∈ st.rest_edges,
      (name_map.lookup e.src_id).isSome ∧ (name_map.lookup e.tgt_id).isSome := by
    intro e he
    obtain ⟨hsrc, htgt⟩ := hst.ends e he
    rw [hlookup, hlookup]
    constructor
    · split_ifs
      · rfl
      · exact hsrc
    · split_ifs
      · rfl
      · exact htgt
  obtain ⟨rest_edges, hedges⟩ := Option.isSome_iff_exists.mp
    (MLPartitioner.mergeEdgesNoCopy_isSome helper.edge_order hsome)
  have hlookup' : ∀ x, (insertKey merged_graph_id merged_graph_id
      (eraseKey tgt.id (eraseKey st.base.id name_map))).lookup x =
        if x = merged_graph_id then some merged_graph_id
        else if x = tgt.id ∨ x = st.base.id then none else st.name_map.lookup x := by
    intro x
    rw [lookup_insertKey, lookup_eraseKey, lookup_eraseKey, hlookup]
    split_ifs <;> tauto
  have hend : ∀ x v, name_map.lookup x = some v → ((insertKey merged_graph_id merged_graph_id
      (eraseKey tgt.id (eraseKey st.base.id name_map))).lookup v).isSome := by
    intro x v hv
    rw [hlookup] at hv
    rw [hlookup']
    split_ifs at hv with hx
    · rw [if_pos (Option.some.inj hv).symm]
      rfl
    · rw [hst.same x v hv]
      split_ifs
      · rfl
      · rw [hv]
        rfl
  have hadvance : helper.advance first st i tgt merged_node =
      some ⟨merged_node, insertKey merged_graph_id merged_node
        (eraseKey tgt.id (eraseKey st.base.id st.rest_nodes)), rest_edges,
        insertKey merged_graph_id merged_graph_id
          (eraseKey tgt.id (eraseKey st.base.id name_map))⟩ :=
    Option.bind_eq_some_iff.mpr ⟨rest_edges, hedges, rfl⟩
  refine ⟨_, hadvance, rfl, ⟨?_, ?_⟩, rfl⟩
  · intro x v hv
    dsimp only at hv
    rw [hlookup'] at hv
    split_ifs at hv with hx
    · exact (Option.some.inj hv).symm.trans hx.symm
    · exact hst.same x v hv
  · intro e he
    obtain ⟨-, hends⟩ := mergeEdgesNoCopy_ends hedges
    obtain ⟨-, e₀, -, hsrc, htgt⟩ := (hends _ _).mp (List.mem_map_of_mem he)
    exact ⟨hend _ _ hsrc, hend _ _ htgt⟩

theorem RangeNode.id_ne (hsorted : helper.Sorted) {node n : MLNode} {m : ℕ}
    (hnode : helper.RangeNode first count graphs node) (hm : helper.graph.nodes[m]? = some n)
    (hne : count = 0 → m ≠ first) : n.id ≠ node.id := by
  cases hnode.id with
  | inl hbase =>
    exact fun heq => hne hbase.1 (hsorted.index_inj hm hbase.2 heq)
  | inr hname =>
    obtain ⟨-, i, hi, hid⟩ := hname
    rw [hid]
    intro heq
    exact hsorted.fresh i hi (heq ▸ List.mem_map_of_mem (List.mem_of_getElem? hm))

theorem RangeNode.ml (hsorted : helper.Sorted) {node : MLNode}
    (hnode : helper.RangeNode first count graphs node) : ∃ s, node.id = "ML_" ++ s := by
  cases hnode.id with
  | inl hbase => exact hsorted.ml _ (List.mem_of_getElem? hbase.2)
  | inr hname =>
    obtain ⟨-, i, -, hid⟩ := hname
    exact ⟨_, hid⟩

theorem RangeNode.outside_next {node tgt n : MLNode} {m : ℕ}
    (hnode : helper.RangeNode first count graphs node)
    (htgt : helper.graph.nodes[first + count + 1]? = some tgt)
    (hm : helper.graph.nodes[m]? = some n) (hne : n ≠ node) (hne_tgt : n ≠ tgt)
    (hout : count = 0 ∨ m < first ∨ first + count < m) : m < first ∨ first + count + 1 < m := by
  have hm_tgt : m ≠ first + count + 1 := by
    rintro rfl
    rw [htgt, Option.some.injEq] at hm
    exact hne_tgt hm.symm
  have hm_base : count = 0 → m ≠ first := by
    rintro rfl rfl
    have hbase := (hnode.id.resolve_right (by omega)).2
    rw [hbase, Option.some.injEq] at hm
    exact hne hm.symm
  omega

/-- A merged node takes the place of its two parts, but what was merged before stays. -/
theorem Beside.advance (hsorted : helper.Sorted) (hst : helper.Beside first count graphs st)
    {tgt merged_node : MLNode} (htgt : helper.graph.nodes[first + count + 1]? = some tgt)
    (hmerged : helper.RangeNode first (count + 1) (st.base.graph :: graphs) merged_node) :
    ∃ st', helper.advance first st (first + count + 1) tgt merged_node = some st' ∧
      st'.base = merged_node ∧ helper.Beside first (count + 1) (st.base.graph :: graphs) st' := by
  obtain ⟨st', hst', hbase, hedges, hrest⟩ := hst.edges.advance helper first
    (first + count + 1) tgt merged_node
  obtain ⟨hname, -⟩ := prefixGraphs_head hmerged.graphs
  have hmem : ∀ it, it ∈ st'.rest_nodes ↔
      it = (getMergedGraphId first (first + count + 1), merged_node) ∨ it ∈ st.rest_nodes ∧
        it.1 ≠ st.base.id ∧ it.1 ≠ tgt.id ∧
        it.1 ≠ getMergedGraphId first (first + count + 1) := by
    intro it
    rw [hrest, insertKey, List.mem_cons, mem_eraseKey, mem_eraseKey, mem_eraseKey]
    tauto
  have hlast : (merged_node.graph :: st.base.graph :: graphs).dropLast =
      merged_node.graph :: (st.base.graph :: graphs).dropLast := rfl
  refine ⟨st', hst', hbase, ⟨hbase ▸ hmerged, hedges, ?_, ?_⟩⟩
  · intro it hit
    cases (hmem it).mp hit with
    | inl hit => rw [hit, hname]
    | inr hit => exact hst.keyed it hit.1
  · intro g
    rw [hbase, hlast, List.mem_cons, or_assoc]
    constructor
    · rintro ⟨it, hit, rfl⟩
      cases (hmem it).mp hit with
      | inl hit => exact Or.inl (by rw [hit])
      | inr hit =>
        obtain ⟨hit, hne_base, hne_tgt, -⟩ := hit
        refine Or.inr (((hst.rest _).mp ⟨it, hit, rfl⟩).imp_right ?_)
        rintro ⟨m, n, hm, hgraph, hout⟩
        have hkey : it.1 = n.id := by
          rw [hst.keyed it hit, ← hgraph, hsorted.named n (List.mem_of_getElem? hm)]
        exact ⟨m, n, hm, hgraph, Or.inr (hst.base.outside_next htgt hm
          (fun heq => hne_base (hkey.trans (by rw [heq])))
          (fun heq => hne_tgt (hkey.trans (by rw [heq]))) hout)⟩
    · rintro (rfl | hg | ⟨m, n, hm, rfl, hout⟩)
      · exact ⟨_, (hmem _).mpr (Or.inl rfl), rfl⟩
      · obtain ⟨it, hit, rfl⟩ := (hst.rest g).mpr (Or.inl hg)
        obtain ⟨k, hk, hle, hk_name⟩ := prefixGraphs_range hst.base.graphs hg
        have hkey : it.1 = getMergedGraphId first k := (hst.keyed it hit).trans hk_name
        obtain ⟨s, hs⟩ := hst.base.ml hsorted
        refine ⟨it, (hmem it).mpr (Or.inr ⟨hit, ?_, ?_, ?_⟩), rfl⟩
        · rw [hkey, hs]
          exact getMergedGraphId_ne.symm
        · rw [hkey]
          exact (hsorted.name_ne htgt).symm
        · rw [hkey, Ne, getMergedGraphId_inj]
          omega
      · obtain ⟨it, hit, hgraph⟩ := (hst.rest n.graph).mpr
          (Or.inr ⟨m, n, hm, rfl, by omega⟩)
        have hkey : it.1 = n.id := by
          rw [hst.keyed it hit, hgraph, hsorted.named n (List.mem_of_getElem? hm)]
        refine ⟨it, (hmem it).mpr (Or.inr ⟨hit, ?_, ?_, ?_⟩), hgraph⟩
        · rw [hkey]
          exact hst.base.id_ne hsorted hm (by omega)
        · rw [hkey]
          intro heq
          have hidx := hsorted.index_inj hm htgt heq
          omega
        · rw [hkey]
          exact hsorted.name_ne hm

theorem RangeNode.graph_name (hsorted : helper.Sorted) {node : MLNode}
    (hnode : helper.RangeNode first count graphs node) :
    count = 0 ∧ helper.graph.nodes[first]? = some node ∧ node.graph.name = node.id ∨
      0 < count ∧ node.graph.name = getMergedGraphId first (first + count) := by
  cases count with
  | zero =>
    have hbase := (hnode.id.resolve_right (by omega)).2
    exact Or.inl ⟨rfl, hbase, hsorted.named node (List.mem_of_getElem? hbase)⟩
  | succ count => exact Or.inr ⟨by omega, (prefixGraphs_head hnode.graphs).1⟩

/-- The required inputs are those of the nodes that are not merged, and of what was merged before
the last node. -/
theorem Beside.required (hsorted : helper.Sorted) (hst : helper.Beside first count graphs st)
    {tgt : MLNode} (htgt : helper.graph.nodes[first + count + 1]? = some tgt) (o : String) :
    o ∈ getRequiredInputs st.base tgt (st.rest_nodes.map Prod.snd) ↔
      o ∈ (st.base.graph :: graphs).dropLast.tail.flatMap IRGraph.input_names ++
        helper.unmergedInputs first (first + count + 1) := by
  have htgt_name : tgt.graph.name = tgt.id := hsorted.named tgt (List.mem_of_getElem? htgt)
  have hbase_name := hst.base.graph_name hsorted
  rw [List.mem_append, mem_unmergedInputs, List.mem_flatMap]
  simp only [getRequiredInputs, List.mem_flatMap, List.mem_filter, List.mem_map, decide_eq_true_eq]
  constructor
  · rintro ⟨n, ⟨⟨it, hit, rfl⟩, hne_base, hne_tgt⟩, ho⟩
    cases (hst.rest it.2.graph).mp ⟨it, hit, rfl⟩ with
    | inl hmem =>
      refine Or.inl ⟨it.2.graph, ?_, ho⟩
      cases graphs with
      | nil => exact absurd hmem (by simp)
      | cons g graphs =>
        rw [List.dropLast_cons_of_ne_nil (by simp)] at hmem ⊢
        cases List.mem_cons.mp hmem with
        | inl heq => exact absurd (by rw [heq]) hne_base
        | inr hmem => exact hmem
    | inr hmem =>
      obtain ⟨m, n, hm, hgraph, hout⟩ := hmem
      rw [← hgraph] at hne_base hne_tgt ho
      exact Or.inr ⟨m, n, hm, hst.base.outside_next htgt hm (fun heq => hne_base (by rw [heq]))
        (fun heq => hne_tgt (by rw [heq])) hout, ho⟩
  · rintro (⟨g, hg, ho⟩ | ⟨m, n, hm, hout, ho⟩)
    · obtain ⟨it, hit, rfl⟩ := (hst.rest g).mpr (Or.inl (List.mem_of_mem_tail hg))
      refine ⟨it.2, ⟨⟨it, hit, rfl⟩, ?_, ?_⟩, ho⟩
      · cases count with
        | zero =>
          obtain ⟨k, hk, hle, -⟩ := prefixGraphs_range hst.base.graphs (List.mem_of_mem_tail hg)
          omega
        | succ count =>
          obtain ⟨hhead, hne⟩ := prefixGraphs_head hst.base.graphs
          rw [List.dropLast_cons_of_ne_nil hne, List.tail_cons] at hg
          obtain ⟨k, hk, hle, hname⟩ := prefixGraphs_range (prefixGraphs_tail hst.base.graphs).1 hg
          rw [hhead, hname, Ne, getMergedGraphId_inj]
          omega
      · obtain ⟨k, -, -, hname⟩ := prefixGraphs_range hst.base.graphs (List.mem_of_mem_tail hg)
        rw [hname, htgt_name]
        exact (hsorted.name_ne htgt).symm
    · obtain ⟨it, hit, hgraph⟩ := (hst.rest n.graph).mpr (Or.inr ⟨m, n, hm, rfl, by omega⟩)
      have hn_name : n.graph.name = n.id := hsorted.named n (List.mem_of_getElem? hm)
      refine ⟨it.2, ⟨⟨it, hit, rfl⟩, ?_, ?_⟩, hgraph ▸ ho⟩
      · rw [hgraph, hn_name]
        rcases hbase_name with ⟨-, hbase, hname⟩ | ⟨-, hname⟩
        · rw [hname]
          intro heq
          have hidx := hsorted.index_inj hm hbase heq
          omega
        · rw [hname]
          exact hsorted.name_ne hm
      · rw [hgraph, hn_name, htgt_name]
        intro heq
        have hidx := hsorted.index_inj hm htgt heq
        omega

/-- The next node is merged into the graph of the longer range. -/
theorem Beside.merge (hsorted : helper.Sorted) (hst : helper.Beside first count graphs st)
    {tgt : MLNode} (htgt : helper.graph.nodes[first + count + 1]? = some tgt) {i : ℕ}
    (hi : helper.used ≤ i) : ∃ merged_node,
      Rannc.merge (helper.names.generateName i "ML_") st.base tgt (st.rest_nodes.map Prod.snd)
        st.rest_edges = some merged_node ∧
      helper.RangeNode first (count + 1) (st.base.graph :: graphs)
        { merged_node with
          graph := merged_node.graph.rename (getMergedGraphId first (first + count + 1)) } := by
  have hlast : first + count < helper.graph.nodes.length := by
    have hlt := (List.getElem?_eq_some_iff.mp htgt).1
    omega
  obtain ⟨graphs', hgraphs', -, hknown⟩ := exists_prefixGraphs hsorted hlast
  obtain rfl := Option.some.inj (hgraphs'.symm.trans hst.base.graphs)
  obtain ⟨g, hg, -⟩ := exists_mergeTwo (hknown _ List.mem_cons_self)
    (hsorted.known tgt (List.mem_of_getElem? htgt)) (helper.names.generateName i "ML_")
    (getRequiredInputs st.base tgt (st.rest_nodes.map Prod.snd))
  have hrange : mergeTwo (getMergedGraphId first (first + count + 1)) st.base.graph tgt.graph
      ((st.base.graph :: graphs).dropLast.tail.flatMap IRGraph.input_names ++
        helper.unmergedInputs first (first + count + 1)) =
      some (g.rename (getMergedGraphId first (first + count + 1))) := by
    rw [← mergeTwo_congr fun o _ _ => hst.required hsorted htgt o,
      mergeTwo_rename (helper.names.generateName i "ML_"), hg]
    rfl
  refine ⟨_, by rw [merge_eq_mergeTwo, hg]; rfl, prefixGraphs_succ hst.base.graphs htgt hrange,
    Or.inr ⟨by omega, i, hi, mergeTwo_name hg⟩⟩

end Beside

section Calls

variable {first last : ℕ} {cached : MergeCache}

/-- Every cached node is that of its range, and the ranges before a cached one are cached too. -/
structure CacheOk (helper : GraphMergeHelper) (cached : MergeCache) : Prop where
  node : ∀ {first last node}, cached.cache.lookup (first, last) = some node →
    first ≤ last ∧ ∃ graphs, helper.RangeNode first (last - first) graphs node
  single : ∀ {first}, first < helper.graph.nodes.length →
    (cached.cache.lookup (first, first)).isSome
  shorter : ∀ {first last m}, (cached.cache.lookup (first, last)).isSome → first ≤ m → m ≤ last →
    (cached.cache.lookup (first, m)).isSome
  used : helper.used ≤ cached.used

theorem exists_start (hsorted : helper.Sorted) (hfirst : first < helper.graph.nodes.length) :
    ∃ st, helper.start first = some st ∧ helper.Beside first 0 [] st := by
  have hbase : helper.graph.nodes[first]? = some helper.graph.nodes[first] :=
    List.getElem?_eq_getElem hfirst
  have hlookup : ∀ (nodes : List MLNode) (x : String),
      (nodes.map fun n => (n.id, n.id)).lookup x =
        if x ∈ nodes.map MLNode.id then some x else none := by
    intro nodes x
    induction nodes with
    | nil => rfl
    | cons n nodes ih =>
      rw [List.map_cons, List.lookup_cons, ih]
      by_cases hx : x = n.id
      · simp [hx]
      · simp [hx, beq_eq_false_iff_ne.mpr hx]
  refine ⟨_, by rw [start, hbase]; rfl, ⟨by rw [prefixGraphs, hbase]; rfl, Or.inl ⟨rfl, hbase⟩⟩,
    ⟨?_, ?_⟩, ?_, ?_⟩
  · intro x v hv
    dsimp only at hv
    rw [hlookup] at hv
    split_ifs at hv
    exact (Option.some.inj hv).symm
  · intro e he
    obtain ⟨hsrc, htgt⟩ := hsorted.topo.forward.ends he
    dsimp only
    rw [hlookup, hlookup]
    exact ⟨by simpa [MLGraph.ids] using hsrc, by simpa [MLGraph.ids] using htgt⟩
  · intro it hit
    obtain ⟨n, hn, rfl⟩ := List.mem_map.mp hit
    exact (hsorted.named n hn).symm
  · intro g
    constructor
    · rintro ⟨it, hit, hgraph⟩
      obtain ⟨n, hn, rfl⟩ := List.mem_map.mp hit
      obtain ⟨m, hm⟩ := List.mem_iff_getElem?.mp hn
      exact Or.inr ⟨m, n, hm, hgraph, Or.inl rfl⟩
    · rintro (hnil | ⟨m, n, hm, hgraph, -⟩)
      · simp at hnil
      · exact ⟨_, List.mem_map_of_mem (List.mem_of_getElem? hm), hgraph⟩

/-- The state of the helper before a merge: the ranges up to the base are cached. -/
structure Ready (helper : GraphMergeHelper) (first count : ℕ) (st : MergeBase)
    (cached : MergeCache) : Prop where
  beside : ∃ graphs, helper.Beside first count graphs st
  cache : helper.CacheOk cached
  ranges : ∀ m, first ≤ m → m ≤ first + count → (cached.cache.lookup (first, m)).isSome

theorem Ready.resume (hsorted : helper.Sorted) (fuel : ℕ) {count : ℕ} {st : MergeBase}
    (hready : helper.Ready first count st cached) : ∃ count' st',
      helper.resume cached.cache first fuel (first + count + 1) st =
        some (first + count' + 1, st') ∧ helper.Ready first count' st' cached := by
  induction fuel generalizing count st with
  | zero => exact ⟨count, st, rfl, hready⟩
  | succ fuel ih =>
    rw [GraphMergeHelper.resume]
    cases hlookup : cached.cache.lookup (first, first + count + 1) with
    | none => exact ⟨count, st, rfl, hready⟩
    | some base =>
      obtain ⟨graphs, hst⟩ := hready.beside
      obtain ⟨-, graphs', hbase⟩ := hready.cache.node hlookup
      have hcount : first + count + 1 - first = count + 1 := by omega
      rw [hcount] at hbase
      obtain ⟨hshorter, tgt, htgt⟩ := prefixGraphs_tail hbase.graphs
      have hgraphs : graphs' = st.base.graph :: graphs :=
        Option.some.inj (hshorter.symm.trans hst.base.graphs)
      obtain ⟨st', hst', hst'_base, hbeside⟩ := hst.advance hsorted htgt (hgraphs ▸ hbase)
      have hranges : ∀ m, first ≤ m → m ≤ first + (count + 1) →
          (cached.cache.lookup (first, m)).isSome :=
        fun m hle hm => hready.cache.shorter (hlookup ▸ rfl) hle hm
      simp only [Option.bind_eq_bind, htgt, hst', Option.bind_some]
      exact ih ⟨⟨_, hbeside⟩, hready.cache, hranges⟩

theorem lookup_cached (node : MLNode) (q q' : ℕ × ℕ) (cache : List ((ℕ × ℕ) × MLNode)) :
    List.lookup q' ((q, node) :: cache) = if q' = q then some node else cache.lookup q' := by
  rw [List.lookup_cons]
  by_cases hq : q' = q
  · simp [hq]
  · simp [hq, beq_eq_false_iff_ne.mpr hq]

theorem CacheOk.insert (hcached : helper.CacheOk cached) {count used : ℕ} {graphs : List IRGraph}
    {node : MLNode} (hnode : helper.RangeNode first count graphs node)
    (hranges : ∀ m, first ≤ m → m < first + count → (cached.cache.lookup (first, m)).isSome)
    (hused : cached.used ≤ used) :
    helper.CacheOk ⟨((first, first + count), node) :: cached.cache, used⟩ := by
  have hold : ∀ q, (cached.cache.lookup q).isSome →
      (List.lookup q (((first, first + count), node) :: cached.cache)).isSome := by
    intro q hq
    rw [lookup_cached]
    split_ifs
    · rfl
    · exact hq
  constructor
  case node =>
    intro first' last' node' h
    rw [lookup_cached] at h
    split_ifs at h with hq
    · obtain ⟨rfl, rfl⟩ := Prod.mk.inj hq
      obtain rfl := Option.some.inj h
      exact ⟨by omega, graphs, by rwa [Nat.add_sub_cancel_left]⟩
    · exact hcached.node h
  case single =>
    intro first' hfirst'
    exact hold _ (hcached.single hfirst')
  case shorter =>
    intro first' last' m h hle hm
    rw [lookup_cached] at h
    split_ifs at h with hq
    · obtain ⟨rfl, rfl⟩ := Prod.mk.inj hq
      rcases Nat.lt_or_eq_of_le hm with hlt | rfl
      · exact hold _ (hranges m hle hlt)
      · rw [lookup_cached, if_pos rfl]
        rfl
    · exact hold _ (hcached.shorter h hle hm)
  case used => exact hcached.used.trans hused

theorem Ready.mergeAndCache (hsorted : helper.Sorted) {count : ℕ} {st : MergeBase}
    (hready : helper.Ready first count st cached)
    (hlast : first + count + 1 < helper.graph.nodes.length) : ∃ st',
      helper.mergeAndCache first (st, cached) (first + count + 1) = some st' ∧
        helper.Ready first (count + 1) st'.1 st'.2 := by
  obtain ⟨graphs, hst⟩ := hready.beside
  have htgt : helper.graph.nodes[first + count + 1]? =
      some helper.graph.nodes[first + count + 1] := List.getElem?_eq_getElem hlast
  obtain ⟨merged_node, hmerged, hnode⟩ := hst.merge hsorted htgt hready.cache.used
  obtain ⟨st', hst', hbase, hbeside⟩ := hst.advance hsorted htgt hnode
  have hranges : ∀ m, first ≤ m → m < first + (count + 1) →
      (cached.cache.lookup (first, m)).isSome := fun m hle hm => hready.ranges m hle (by omega)
  refine ⟨(st', _), ?_, ⟨_, hbeside⟩, hready.cache.insert hnode hranges (Nat.le_succ _), ?_⟩
  · simp only [GraphMergeHelper.mergeAndCache, htgt, hmerged, hst', Option.bind_eq_bind,
      Option.bind_some, Option.pure_def]
    rfl
  · intro m hle hm
    dsimp only
    rw [lookup_cached]
    split_ifs with hq
    · rfl
    · refine hready.ranges m hle ?_
      have hne : m ≠ first + (count + 1) := by
        rintro rfl
        exact hq rfl
      omega

theorem Ready.mergeAll (hsorted : helper.Sorted) {count k : ℕ} {st : MergeBase}
    (hready : helper.Ready first count st cached)
    (hlast : first + count + k < helper.graph.nodes.length) : ∃ st',
      (List.range' (first + count + 1) k).foldlM (helper.mergeAndCache first) (st, cached) =
        some st' ∧ helper.Ready first (count + k) st'.1 st'.2 := by
  induction k generalizing count st cached with
  | zero => exact ⟨_, rfl, hready⟩
  | succ k ih =>
    obtain ⟨st₁, hst₁, hready₁⟩ := hready.mergeAndCache hsorted (by omega)
    obtain ⟨st', hst', hready'⟩ := ih hready₁ (by omega)
    have hcount : count + 1 + k = count + (k + 1) := by omega
    refine ⟨st', ?_, hcount ▸ hready'⟩
    rw [List.range'_succ, List.foldlM_cons, hst₁]
    exact hst'

/-- A call returns the graph of its range, whatever was asked for before. -/
theorem CacheOk.mergeCached (hsorted : helper.Sorted) (hcached : helper.CacheOk cached)
    (hle : first ≤ last) (hlast : last < helper.graph.nodes.length) : ∃ g graphs cached',
      helper.mergeCached cached first last = some (g, cached') ∧
        helper.prefixGraphs first (last - first) = some (g :: graphs) ∧
        helper.CacheOk cached' := by
  cases hlookup : cached.cache.lookup (first, last) with
  | some node =>
    obtain ⟨-, graphs, hnode⟩ := hcached.node hlookup
    refine ⟨node.graph, graphs, cached, ?_, hnode.graphs, hcached⟩
    rw [GraphMergeHelper.mergeCached, hlookup]
  | none =>
    obtain ⟨st, hst, hbeside⟩ := exists_start hsorted (hle.trans_lt hlast)
    have hsingle : ∀ m, first ≤ m → m ≤ first + 0 → (cached.cache.lookup (first, m)).isSome := by
      intro m hm hm'
      obtain rfl : m = first := by omega
      exact hcached.single (hle.trans_lt hlast)
    have hstart : helper.Ready first 0 st cached := ⟨⟨[], hbeside⟩, hcached, hsingle⟩
    obtain ⟨count, st₁, hresume, hready⟩ :=
      hstart.resume hsorted helper.graph.nodes.length
    have hcount : first + count < last := by
      by_contra hge
      have hsome := hready.ranges last hle (by omega)
      rw [hlookup] at hsome
      exact absurd hsome (by simp)
    obtain ⟨st₂, hall, hready₂⟩ := hready.mergeAll (k := last - (first + count)) hsorted (by omega)
    obtain ⟨graphs, hbeside₂⟩ := hready₂.beside
    have hk : last + 1 - (first + count + 1) = last - (first + count) := by omega
    have hrange : count + (last - (first + count)) = last - first := by omega
    have hfirst_last : first + (last - first) = last := by omega
    rw [hrange] at hbeside₂ hready₂
    have hcached' := hready₂.cache.insert hbeside₂.base
      (fun m hm hm' => hready₂.ranges m hm hm'.le) le_rfl
    rw [hfirst_last] at hcached'
    refine ⟨st₂.1.base.graph, graphs, _, ?_, hbeside₂.base.graphs, hcached'⟩
    rw [GraphMergeHelper.mergeCached, hlookup]
    simp only [hlast, guard_true, hst, hresume, hk, hall, Option.bind_eq_bind, Option.bind_some,
      Option.pure_def]

theorem lookup_zipIdx (nodes : List MLNode) (k a b : ℕ) :
    ((nodes.zipIdx k).map fun (n, i) => ((i, i), n)).lookup (a, b) =
      if a = b ∧ k ≤ a then nodes[a - k]? else none := by
  induction nodes generalizing k with
  | nil => simp
  | cons n nodes ih =>
    rw [List.zipIdx_cons, List.map_cons, List.lookup_cons, ih]
    by_cases hk : a = k ∧ b = k
    · simp [hk]
    · have hne : ((a, b) == (k, k)) = false := by simpa using hk
      rw [hne]
      by_cases hab : a = b ∧ k ≤ a
      · obtain ⟨rfl, hle⟩ := hab
        have hlt : k + 1 ≤ a := by omega
        have hsucc : a - k = a - (k + 1) + 1 := by omega
        rw [if_pos ⟨rfl, hlt⟩, if_pos ⟨rfl, hle⟩, hsucc, List.getElem?_cons_succ]
      · rw [if_neg hab, if_neg (by omega)]

theorem cacheOk_initialCache : helper.CacheOk helper.initialCache := by
  have hlookup : ∀ a b, helper.initialCache.cache.lookup (a, b) =
      if a = b then helper.graph.nodes[a]? else none := by
    intro a b
    rw [initialCache, lookup_zipIdx]
    simp
  constructor
  case node =>
    intro first last node h
    rw [hlookup] at h
    split_ifs at h with hq
    subst hq
    refine ⟨le_rfl, [], ?_, Or.inl ⟨Nat.sub_self _, h⟩⟩
    rw [Nat.sub_self, prefixGraphs, h]
    rfl
  case single =>
    intro first hfirst
    rw [hlookup, if_pos rfl, List.getElem?_eq_getElem hfirst]
    rfl
  case shorter =>
    intro first last m h hle hm
    rw [hlookup] at h ⊢
    by_cases hq : first = last
    · rw [if_pos hq] at h
      rwa [if_pos (by omega)]
    · rw [if_neg hq] at h
      exact absurd h (by simp)
  case used => exact le_rfl

theorem exists_afterCalls (hsorted : helper.Sorted) {calls : List (ℕ × ℕ)}
    (hcalls : ∀ range ∈ calls, range.1 ≤ range.2 ∧ range.2 < helper.graph.nodes.length) :
    ∃ cached, helper.afterCalls calls = some cached ∧ helper.CacheOk cached := by
  have hrun : ∀ cached, helper.CacheOk cached → ∃ cached', calls.foldlM (fun cached range =>
      (helper.mergeCached cached range.1 range.2).map Prod.snd) cached = some cached' ∧
        helper.CacheOk cached' := by
    induction calls with
    | nil => exact fun cached hcached => ⟨cached, rfl, hcached⟩
    | cons range calls ih =>
      intro cached hcached
      obtain ⟨hle, hlast⟩ := hcalls range List.mem_cons_self
      obtain ⟨g, graphs, cached₁, hcall, -, hcached₁⟩ := hcached.mergeCached hsorted hle hlast
      obtain ⟨cached', hrest, hcached'⟩ :=
        ih (List.forall_mem_of_forall_mem_cons hcalls) cached₁ hcached₁
      refine ⟨cached', ?_, hcached'⟩
      rw [List.foldlM_cons, hcall]
      exact hrest
  exact hrun _ cacheOk_initialCache

theorem mergeNext_eq {st : MergeBase} {i : ℕ} : helper.mergeNext first st i = (do
    let tgt ← helper.graph.nodes[i]?
    let merged_node ← Rannc.merge (helper.names.generateName (helper.used + i) "ML_") st.base tgt
      (st.rest_nodes.map Prod.snd) st.rest_edges
    helper.advance first st i tgt
      { merged_node with graph := merged_node.graph.rename (getMergedGraphId first i) }) := rfl

theorem exists_mergeUntil (hsorted : helper.Sorted) {count : ℕ}
    (hlast : first + count < helper.graph.nodes.length) : ∃ st graphs,
      helper.mergeUntil first (first + count) = some st ∧ helper.Beside first count graphs st := by
  induction count with
  | zero =>
    rw [Nat.add_zero] at hlast ⊢
    obtain ⟨st, hst, hbeside⟩ := exists_start hsorted hlast
    refine ⟨st, [], ?_, hbeside⟩
    simp [mergeUntil, hst]
  | succ count ih =>
    obtain ⟨st, graphs, hst, hbeside⟩ := ih (by omega)
    have htgt : helper.graph.nodes[first + count + 1]? =
        some helper.graph.nodes[first + count + 1] := List.getElem?_eq_getElem hlast
    obtain ⟨merged_node, hmerged, hnode⟩ := hbeside.merge hsorted htgt
      (Nat.le_add_right helper.used (first + count + 1))
    obtain ⟨st', hst', -, hbeside'⟩ := hbeside.advance hsorted htgt hnode
    refine ⟨st', _, ?_, hbeside'⟩
    rw [← Nat.add_assoc, mergeUntil_succ (by omega), hst, Option.bind_some, mergeNext_eq, htgt]
    simp only [Option.bind_eq_bind, Option.bind_some, hmerged, hst']

theorem CacheOk.mergeCached_eq_merge (hsorted : helper.Sorted) (hcached : helper.CacheOk cached)
    (hle : first ≤ last) (hlast : last < helper.graph.nodes.length) :
    (helper.mergeCached cached first last).map Prod.fst = helper.merge first last := by
  obtain ⟨g, graphs, cached', hcall, hgraphs, -⟩ := hcached.mergeCached hsorted hle hlast
  obtain ⟨count, rfl⟩ := Nat.exists_eq_add_of_le hle
  obtain ⟨st, graphs', hst, hbeside⟩ := exists_mergeUntil hsorted hlast
  rw [Nat.add_sub_cancel_left, hbeside.base.graphs] at hgraphs
  obtain ⟨rfl, -⟩ := List.cons.inj (Option.some.inj hgraphs)
  simp [hcall, GraphMergeHelper.merge, hlast, hst]

end Calls

end GraphMergeHelper

end Rannc
