import Rannc.Common.BatchSplit
import Rannc.Graph.BatchEdges

/-!
# Subgraphs closed under their flow

With the ranks of the partitioning, only values that are batches cross from rank to rank, so a
subgraph has the inputs of its operators. It has their outputs exactly when the outputs of an
operator that is not a batch are wanted on the same ranks.
-/
namespace Rannc

open Rannc.Digraph

/-- Subgraphs with the inputs and outputs of their operators, with the labelled operators of their
ranks and with a connection for what comes from another rank. -/
structure Closed (g : BGraph) (d : BDecomposition) : Prop where
  flow : ∀ it ∈ d.graphs, ∀ vi ∈ it.2.vertices, vi.type = .NODE →
    ∀ name ∈ vi.node.input_names ++ vi.node.output_names,
      ∃ val ∈ it.2.vertices, val.type = .VALUE ∧ val.name = name
  exact : ∀ v, (g.info v).isLabelled = true → ∀ id,
    (∃ it ∈ d.graphs, it.1 = id ∧ ∃ vi ∈ it.2.vertices, vi.id = (g.info v).id) ↔
      ∃ r ∈ g.ranks v, id = createSubgraphId g.id r
  delivered : ∀ u v r, (u, v) ∈ g.edges → r ∈ g.ranks v →
    r ∈ g.ranks u ∨ ∃ con ∈ d.connections, Delivers g u r con

/-- The outputs of an operator that is not a batch are wanted by the same ranks. -/
def SameDemand (g : BGraph) : Prop :=
  ∀ v, (g.info v).type = .NODE → (g.info v).isBatch = false →
    ∀ w ∈ g.target_nodes v, ∀ w' ∈ g.target_nodes v, ∀ r, Demand g w r → Demand g w' r

section Content

variable {g : BGraph}

theorem BGraph.exists_vertex_iff (g : BGraph) (p : VertexInfo → Prop)
    (hp : ∀ vi, p vi.core ↔ p vi) :
    (∃ vi ∈ g.vertices, p vi) ↔ ∃ x ∈ g.content, p x := by
  constructor
  · rintro ⟨vi, hvi, h⟩
    exact ⟨vi.core, List.mem_map_of_mem hvi, (hp vi).mpr h⟩
  · rintro ⟨x, hx, h⟩
    obtain ⟨vi, hvi, rfl⟩ := List.mem_map.mp hx
    exact ⟨vi, hvi, (hp vi).mp h⟩

theorem lt_of_type_node {v : ℕ} (h : (g.info v).type = .NODE) : v < g.vertices.length := by
  by_contra hv
  rw [BGraph.info_of_ge (not_lt.mp hv)] at h
  exact absurd h nofun

end Content

section Partitioned

variable {labelled g : BGraph}

theorem Fixed.crossing (hg : g.Flow) (hlabelled : Labelled labelled) (h : Fixed labelled g)
    {u v r : ℕ} (hc : Crossing g u v r) :
    (g.info u).type = .VALUE ∧ (g.info u).isBatch = true :=
  h.crossing_batch (hg.of_erase h.erase.symm).batchTyped
    (fun v w hlabel hvw => hlabelled.labelled v hlabel w hvw) hc

theorem Fixed.mem_ranks_node (hg : g.Flow) (hlabelled : Labelled labelled) (h : Fixed labelled g)
    {v w r : ℕ} (hnode : (g.info v).type = .NODE) (hbatch : (g.info v).isBatch = false)
    (hvw : (v, w) ∈ g.edges) :
    r ∈ g.ranks v ↔ ∃ w', (v, w') ∈ g.edges ∧ r ∈ g.ranks w' := by
  rw [← mem_targetRanks]
  rw [h.ranks v, ← isBatch_of_erase h.erase]
  split_ifs with hfix
  · rfl
  · have hempty : targetRanks g v = ∅ := by
      rw [← Finset.not_nonempty_iff_eq_empty]
      exact fun hne => hfix ⟨hbatch, hne⟩
    rw [hempty]
    refine iff_of_false (fun hr => ?_) (Finset.notMem_empty r)
    by_cases hlabel : (labelled.info v).isLabelled = true
    · have hedge : (v, w) ∈ labelled.edges := BGraph.edges_of_erase h.erase ▸ hvw
      have hw : r ∈ labelled.ranks w := hlabelled.labelled v hlabel w hedge ▸ hr
      have hne : (g.ranks w).Nonempty := (h.nonempty_iff (hg.of_erase h.erase.symm) w).mpr
        ⟨w, .refl, r, hw⟩
      obtain ⟨s, hs⟩ := hne
      have hmem : s ∈ targetRanks g v := mem_targetRanks.mpr ⟨w, hvw, hs⟩
      rw [hempty] at hmem
      exact absurd hmem (Finset.notMem_empty s)
    · have hnone := hlabelled.unlabelled v (type_of_erase h.erase v ▸ hnode) (by simpa using hlabel)
      rw [hnone] at hr
      exact absurd hr (Finset.notMem_empty r)

theorem Fixed.ranks_batch_output (hg : g.Flow) (hlabelled : Labelled labelled)
    (h : Fixed labelled g) {v w : ℕ} (hnode : (g.info v).type = .NODE)
    (hbatch : (g.info v).isBatch = true) (hvw : (v, w) ∈ g.edges) : g.ranks w = g.ranks v := by
  have hwbatch : (g.info w).isBatch = true := by
    cases (hg.edge hvw).2.2 with
    | read hv _ _ => exact absurd (hnode.symm.trans hv) nofun
    | write _ _ _ hwbatch _ => rw [hwbatch, hbatch]
  have hnodebatch : (g.info v).node.is_batch = true := by
    simpa [VertexInfo.isBatch, hnode] using hbatch
  have hlabel : (labelled.info v).isLabelled = true := by
    rw [← isLabelled_of_erase h.erase]
    simp [VertexInfo.isLabelled, hnode, hnodebatch]
  have hedge : (v, w) ∈ labelled.edges := BGraph.edges_of_erase h.erase ▸ hvw
  rw [h.ranks_of_batch hwbatch, hlabelled.labelled v hlabel w hedge, ← h.ranks_of_batch hbatch]

end Partitioned

/-- The node writes the value, and it is a batch or writes nothing else. -/
def IRNode.Makes (n : IRNode) (name : String) : Prop :=
  name ∈ n.output_names ∧ (n.is_batch = true ∨ n.output_names = [name])

section Subgraphs

variable {sort : TopologicalSort} {order : SetOrder} {labelled g : BGraph} {d : BDecomposition}

theorem createSubGraphs_members (hg : g.Flow) (hlabelled : Labelled labelled)
    (hfixed : Fixed labelled g) (h : createSubGraphs sort order g = some d)
    {it : String × BGraph} (hit : it ∈ d.graphs) :
    ∃ r ∈ allRanks g, it.1 = createSubgraphId g.id r ∧ ∀ x, x ∈ it.2.content ↔
      ∃ u < g.vertices.length, (g.info u).core = x ∧
        (r ∈ g.ranks u ∨ ∃ v, Crossing g u v r) := by
  obtain ⟨cons, hcons, hcontents, -⟩ := createSubGraphs_spec h
  have hok := addConnections_ok hcons
  obtain ⟨r, hr, hid, hmem⟩ := createSubGraphs_mem hg hcontents hit
  refine ⟨r, hr, hid, fun x => ?_⟩
  rw [hmem]
  constructor
  · rintro (⟨u, hu, hru, hx⟩ | hx)
    · exact ⟨u, hu, hx, Or.inl hru⟩
    · obtain ⟨u, v, hc, hx⟩ := mem_receivedVertices hg hok hx
      have hu : u < g.vertices.length := (hg.edge hc.edge).1.trans (hg.edge hc.edge).2.1
      exact ⟨u, hu, hx, Or.inr ⟨v, hc⟩⟩
  · rintro ⟨u, hu, rfl, hru | ⟨v, hc⟩⟩
    · exact Or.inl ⟨u, hu, hru, rfl⟩
    · refine Or.inr (receivedVertices_of_crossing hg hok ?_ hc)
      intro u' v' r' hc' hname
      have hu' : u' < g.vertices.length := (hg.edge hc'.edge).1.trans (hg.edge hc'.edge).2.1
      exact hg.name_inj hu' hu (hfixed.crossing hg hlabelled hc').1
        (hfixed.crossing hg hlabelled hc).1 hname

theorem createSubGraphs_exact (hg : g.Flow) (hlabelled : Labelled labelled)
    (hfixed : Fixed labelled g) (h : createSubGraphs sort order g = some d) {v : ℕ}
    (hlabel : (g.info v).isLabelled = true) (id : String) :
    (∃ it ∈ d.graphs, it.1 = id ∧ ∃ vi ∈ it.2.vertices, vi.id = (g.info v).id) ↔
      ∃ r ∈ g.ranks v, id = createSubgraphId g.id r := by
  have hnode := type_of_isLabelled hlabel
  have hv := lt_of_type_node hnode
  constructor
  · rintro ⟨it, hit, rfl, hvi⟩
    obtain ⟨r, -, hid, hmem⟩ := createSubGraphs_members hg hlabelled hfixed h hit
    obtain ⟨x, hx, hxid⟩ := (it.2.exists_vertex_iff (fun vi => vi.id = (g.info v).id)
      fun _ => Iff.rfl).mp hvi
    obtain ⟨u, hu, rfl, hru⟩ := (hmem x).mp hx
    obtain rfl : u = v := hg.id_inj hu hv hxid
    refine ⟨r, hru.resolve_right ?_, hid⟩
    rintro ⟨w, hc⟩
    exact absurd (hnode.symm.trans (hfixed.crossing hg hlabelled hc).1) nofun
  · rintro ⟨r, hr, rfl⟩
    obtain ⟨cons, -, hcontents, -⟩ := createSubGraphs_spec h
    obtain ⟨sg, hsg⟩ := createSubGraphs_of_mem hcontents (mem_allRanks.mpr ⟨v, hv, hr⟩)
    obtain ⟨r', -, hid, hmem⟩ := createSubGraphs_members hg hlabelled hfixed h hsg
    obtain rfl : r = r' := createSubgraphId_inj.mp hid
    refine ⟨_, hsg, rfl, (sg.exists_vertex_iff (fun vi => vi.id = (g.info v).id)
      fun _ => Iff.rfl).mpr ⟨(g.info v).core, (hmem _).mpr ⟨v, hv, rfl, Or.inl hr⟩, rfl⟩⟩

theorem createSubGraphs_delivered (hg : g.Flow) (hlabelled : Labelled labelled)
    (hfixed : Fixed labelled g) (h : createSubGraphs sort order g = some d) {u v r : ℕ}
    (huv : (u, v) ∈ g.edges) (hr : r ∈ g.ranks v) :
    r ∈ g.ranks u ∨ ∃ con ∈ d.connections, Delivers g u r con := by
  by_cases hru : r ∈ g.ranks u
  · exact Or.inl hru
  · obtain ⟨cons, hcons, -, hconnections⟩ := createSubGraphs_spec h
    have hc : Crossing g u v r := ⟨huv, hr, hru⟩
    obtain ⟨hvalue, hbatch⟩ := hfixed.crossing hg hlabelled hc
    have hparam : (g.info u).is_param = false := by
      obtain ⟨hlt, hv, -⟩ := hg.edge huv
      rcases hg.source (hlt.trans hv) hvalue with ⟨t, htu⟩ | hsource
      · cases (hg.edge htu).2.2 with
        | read _ hu _ => exact absurd (hvalue.symm.trans hu) nofun
        | write _ _ _ _ hparam => exact hparam
      · rw [hbatch] at hsource
        simpa using hsource.symm
    obtain ⟨con, hcon, hdel⟩ := (addConnections_ok hcons).complete u v r trivial hc
    rw [if_neg (by simp [hparam])] at hcon
    refine Or.inr ⟨con, ?_, hdel⟩
    rw [hconnections]
    exact subset_masterConnections _ _ hcon

theorem createSubGraphs_operator (hg : g.Flow) (hlabelled : Labelled labelled)
    (hfixed : Fixed labelled g) (h : createSubGraphs sort order g = some d)
    {it : String × BGraph} (hit : it ∈ d.graphs) {vi : VertexInfo} (hvi : vi ∈ it.2.vertices)
    (hvitype : vi.type = .NODE) :
    ∃ r v, r ∈ g.ranks v ∧ (g.info v).type = .NODE ∧ (g.info v).node = vi.node ∧
      ∀ u, (g.info u).type = .VALUE → u < g.vertices.length →
        (r ∈ g.ranks u ∨ ∃ x, Crossing g u x r) →
        ∃ val ∈ it.2.vertices, val.type = .VALUE ∧ val.name = (g.info u).name := by
  obtain ⟨r, -, hid, hmem⟩ := createSubGraphs_members hg hlabelled hfixed h hit
  obtain ⟨v, hv, hcore, hrv⟩ := (hmem vi.core).mp (List.mem_map_of_mem hvi)
  have hnode : (g.info v).type = .NODE := (congrArg VertexInfo.type hcore).trans hvitype
  have hvinode : (g.info v).core.node = vi.core.node := by rw [hcore]
  refine ⟨r, v, ?_, hnode, hvinode, ?_⟩
  · refine hrv.resolve_right ?_
    rintro ⟨x, hc⟩
    exact absurd (hnode.symm.trans (hfixed.crossing hg hlabelled hc).1) nofun
  · intro u hutype hu hru
    obtain ⟨val, hval, hcore⟩ := List.mem_map.mp ((hmem (g.info u).core).mpr ⟨u, hu, rfl, hru⟩)
    have hname := congrArg VertexInfo.name hcore
    exact ⟨val, hval, (congrArg VertexInfo.type hcore).trans hutype, hname⟩

/-- The subgraphs have the outputs of their operators when outputs of one operator, if that is not
a batch, are on the same ranks. -/
theorem createSubGraphs_flow_iff (hg : g.Flow) (hlabelled : Labelled labelled)
    (hfixed : Fixed labelled g) (h : createSubGraphs sort order g = some d) :
    (∀ it ∈ d.graphs, ∀ vi ∈ it.2.vertices, vi.type = .NODE →
      ∀ name ∈ vi.node.input_names ++ vi.node.output_names,
        ∃ val ∈ it.2.vertices, val.type = .VALUE ∧ val.name = name) ↔
    ∀ v, (g.info v).type = .NODE → (g.info v).isBatch = false →
      ∀ w w', (v, w) ∈ g.edges → (v, w') ∈ g.edges → g.ranks w ⊆ g.ranks w' := by
  constructor
  · intro hflow v hnode hbatch w w' hvw hvw' r hr
    have hv := lt_of_type_node hnode
    have hrv : r ∈ g.ranks v :=
      (hfixed.mem_ranks_node hg hlabelled hnode hbatch hvw).mpr ⟨w, hvw, hr⟩
    obtain ⟨cons, -, hcontents, -⟩ := createSubGraphs_spec h
    obtain ⟨sg, hsg⟩ := createSubGraphs_of_mem hcontents (mem_allRanks.mpr ⟨v, hv, hrv⟩)
    obtain ⟨r', -, hid, hmem⟩ := createSubGraphs_members hg hlabelled hfixed h hsg
    obtain rfl : r = r' := createSubgraphId_inj.mp hid
    obtain ⟨vi, hvi, hcore⟩ := List.mem_map.mp ((hmem (g.info v).core).mpr ⟨v, hv, rfl, Or.inl hrv⟩)
    have hvinode : vi.core.node = (g.info v).core.node := by rw [hcore]
    have hvitype : vi.type = .NODE := (congrArg VertexInfo.type hcore).trans hnode
    cases (hg.edge hvw').2.2 with
    | read hv _ _ => exact absurd (hnode.symm.trans hv) nofun
    | write _ hw'type hwrite hw'batch _ =>
      obtain ⟨val, hval, hvaltype, hvalname⟩ := hflow _ hsg vi hvi hvitype (g.info w').name
        (List.mem_append_right _
          (hvinode.symm ▸ hwrite : (g.info w').name ∈ vi.core.node.output_names))
      obtain ⟨u, hu, hucore, hru⟩ := (hmem val.core).mp (List.mem_map_of_mem hval)
      have hutype : (g.info u).type = .VALUE := (congrArg VertexInfo.type hucore).trans hvaltype
      have huname : (g.info u).name = (g.info w').name :=
        (congrArg VertexInfo.name hucore).trans hvalname
      obtain rfl : u = w' := hg.name_inj hu (hg.edge hvw').2.1 hutype hw'type huname
      refine hru.resolve_right ?_
      rintro ⟨x, hc⟩
      have hubatch := (hfixed.crossing hg hlabelled hc).2
      rw [hw'batch, hbatch] at hubatch
      exact absurd hubatch nofun
  · intro hsame it hit vi hvi hvitype name hname
    obtain ⟨r, v, hrv, hnode, hvinode, hpresent⟩ :=
      createSubGraphs_operator hg hlabelled hfixed h hit hvi hvitype
    have hv := lt_of_type_node hnode
    rcases List.mem_append.mp hname with hname | hname
    · obtain ⟨u, huv, rfl⟩ := hg.input hv hnode name (hvinode ▸ hname)
      have hutype : (g.info u).type = .VALUE := by
        cases (hg.edge huv).2.2 with
        | read hu _ _ => exact hu
        | write _ hv _ _ _ => exact absurd (hnode.symm.trans hv) nofun
      apply hpresent u hutype ((hg.edge huv).1.trans hv)
      by_cases hru : r ∈ g.ranks u
      · exact Or.inl hru
      · exact Or.inr ⟨v, huv, hrv, hru⟩
    · obtain ⟨w, hvw, rfl⟩ := hg.output hv hnode name (hvinode ▸ hname)
      cases (hg.edge hvw).2.2 with
      | read hv _ _ => exact absurd (hnode.symm.trans hv) nofun
      | write _ hwtype _ hwbatch _ =>
        apply hpresent w hwtype (hg.edge hvw).2.1
        cases hbatch : (g.info v).isBatch with
        | false =>
          obtain ⟨w', hvw', hrw'⟩ :=
            (hfixed.mem_ranks_node hg hlabelled hnode hbatch hvw).mp hrv
          exact Or.inl (hsame v hnode hbatch w' w hvw' hvw hrw')
        | true =>
          rw [hfixed.ranks_batch_output hg hlabelled hnode hbatch hvw]
          exact Or.inl hrv

/-- A subgraph with an operator has its outputs if the operator is a batch, and its only output. -/
theorem createSubGraphs_made (hg : g.Flow) (hlabelled : Labelled labelled)
    (hfixed : Fixed labelled g) (h : createSubGraphs sort order g = some d)
    {it : String × BGraph} (hit : it ∈ d.graphs) {vi : VertexInfo} (hvi : vi ∈ it.2.vertices)
    (hvitype : vi.type = .NODE) {name : String} (hmakes : vi.node.Makes name) :
    ∃ val ∈ it.2.vertices, val.type = .VALUE ∧ val.name = name := by
  obtain ⟨r, v, hrv, hnode, hvinode, hpresent⟩ :=
    createSubGraphs_operator hg hlabelled hfixed h hit hvi hvitype
  rw [← hvinode] at hmakes
  obtain ⟨hname, hcase⟩ := hmakes
  obtain ⟨w, hvw, rfl⟩ := hg.output (lt_of_type_node hnode) hnode name hname
  cases (hg.edge hvw).2.2 with
  | read hv _ _ => exact absurd (hnode.symm.trans hv) nofun
  | write _ hwtype _ _ _ =>
    apply hpresent w hwtype (hg.edge hvw).2.1
    cases hbatch : (g.info v).isBatch with
    | true =>
      rw [hfixed.ranks_batch_output hg hlabelled hnode hbatch hvw]
      exact Or.inl hrv
    | false =>
      have hnot : (g.info v).node.is_batch = false := by
        simpa [VertexInfo.isBatch, hnode] using hbatch
      have honly := hcase.resolve_left (by rw [hnot]; exact Bool.false_ne_true)
      obtain ⟨w', hvw', hrw'⟩ := (hfixed.mem_ranks_node hg hlabelled hnode hbatch hvw).mp hrv
      cases (hg.edge hvw').2.2 with
      | read hv _ _ => exact absurd (hnode.symm.trans hv) nofun
      | write _ hw'type hwrite _ _ =>
        rw [honly, List.mem_singleton] at hwrite
        obtain rfl : w' = w :=
          hg.name_inj (hg.edge hvw').2.1 (hg.edge hvw).2.1 hw'type hwtype hwrite
        exact Or.inl hrw'

end Subgraphs

def SetOrder.sorted : SetOrder := ⟨sortRanks, fun {s _} => mem_sortRanks s, nodup_sortRanks⟩

def tensorValue (is_batch : Bool) (name : String) : String × IRValue :=
  (name, { name := name, type := .tensor .FLOAT [2, 4] true, is_batch := is_batch })

def sizeValue (name : String) : String × IRValue :=
  (name, { name := name, type := .scalar .INT })

/-- A reshape by one of the sizes of the input, then one by the other. -/
def unpackGraph : IRGraph where
  name := "g"
  nodes := [⟨"aten::size", ["x"], ["s"], "n0", false, false⟩,
    ⟨"prim::ListUnpack", ["s"], ["h", "w"], "n1", false, false⟩,
    ⟨"aten::view", ["x", "h"], ["y"], "n2", false, true⟩,
    ⟨"aten::view", ["y", "w"], ["z"], "n3", false, true⟩]
  values := [tensorValue true "x", tensorValue true "y", tensorValue true "z",
    ("s", { name := "s", type := .list .INT [] }), sizeValue "h", sizeValue "w"]
  input_names := ["x"]
  output_names := ["z"]

theorem unpackGraph_wellFormed : unpackGraph.WellFormed :=
  .of_checks (by decide +kernel) (by decide +kernel) (by decide +kernel) (by decide +kernel)

theorem unpackGraph_typed : unpackGraph.Typed :=
  .of_checks (by decide +kernel) (by decide +kernel)

/-- The subgraphs of a graph of operators. -/
def rankedSubGraphs (ir_graph : IRGraph) : Option (BGraph × BGraph × BDecomposition) := do
  let bg ← ir_graph.toBGL
  let labelled ← labelRanks bg
  let d ← createSubGraphs .sinksFirst .sorted (fixNonBatchRanks .sinksFirst labelled)
  return (bg, labelled, d)

theorem rankedSubGraphs_eq_some {ir_graph : IRGraph} {bg labelled : BGraph} {d : BDecomposition}
    (h : rankedSubGraphs ir_graph = some (bg, labelled, d)) :
    ir_graph.toBGL = some bg ∧ labelRanks bg = some labelled ∧
      createSubGraphs .sinksFirst .sorted (fixNonBatchRanks .sinksFirst labelled) = some d := by
  obtain ⟨bg', hbg, h⟩ := Option.bind_eq_some_iff.mp h
  obtain ⟨labelled', hlabelled, h⟩ := Option.bind_eq_some_iff.mp h
  obtain ⟨d', hd, h⟩ := Option.bind_eq_some_iff.mp h
  obtain ⟨rfl, heq⟩ := Prod.mk.inj (Option.some.inj h)
  obtain ⟨rfl, rfl⟩ := Prod.mk.inj heq
  exact ⟨hbg, hlabelled, hd⟩

theorem unpackGraph_missing : (rankedSubGraphs unpackGraph).any (fun res =>
    res.2.2.graphs.any fun it => (it.2.vertices.any fun vi =>
      vi.type = .NODE ∧ "w" ∈ vi.node.input_names ++ vi.node.output_names) &&
      it.2.vertices.all fun vi => vi.name ≠ "w") = true := by
  decide +kernel

end Rannc
