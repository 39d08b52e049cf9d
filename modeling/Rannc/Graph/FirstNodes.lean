import Rannc.Graph.Closed
import Rannc.Graph.Links
import Rannc.Graph.MergeSmall
import Rannc.Graph.SubGraphFlow
import Rannc.Lib.OptionRel

/-!
# The first nodes

A vertex for an output of the model keeps its mark wherever it is copied to. So a first node that
has the value of an output at all, be it only to read it, also has it as an output.
-/
namespace Rannc

open Rannc.Digraph

/-- The outputs of the model that its nodes produce. -/
def IRGraph.producedOutputs (g : IRGraph) : List String :=
  g.output_names.filter fun out => out ∉ g.input_names

/-- A value of the list is marked as an output. -/
def VertexInfo.Marked (outputs : List String) (vi : VertexInfo) : Prop :=
  vi.type = .VALUE → vi.name ∈ outputs → vi.is_output = true

section Marked

variable {ir_graph : IRGraph}

theorem addNodeOutput_marked {v : ℕ} {st st' : BGraphBuilder} {output_name : String}
    (hname : ∀ value, ir_graph.getValue output_name = some value → value.name = output_name)
    (hst : ∀ vi ∈ st.graph.vertices, vi.Marked ir_graph.producedOutputs)
    (h : addNodeOutput ir_graph v st output_name = some st') :
    ∀ vi ∈ st'.graph.vertices, vi.Marked ir_graph.producedOutputs := by
  obtain ⟨value, hvalue, h⟩ := Option.bind_eq_some_iff.mp h
  obtain rfl := Option.some.inj h
  intro vi hvi
  cases List.mem_append.mp hvi with
  | inl hvi => exact hst vi hvi
  | inr hvi =>
    obtain rfl := List.mem_singleton.mp hvi
    intro _ hmem
    have hmem : value.name ∈ ir_graph.producedOutputs := hmem
    rw [hname value hvalue] at hmem
    exact decide_eq_true (List.mem_filter.mp hmem).1

theorem addNode_marked {st st' : BGraphBuilder} {in_node : IRNode}
    (hname : ∀ name ∈ in_node.output_names,
      ∀ value, ir_graph.getValue name = some value → value.name = name)
    (hst : ∀ vi ∈ st.graph.vertices, vi.Marked ir_graph.producedOutputs)
    (h : addNode ir_graph st in_node = some st') :
    ∀ vi ∈ st'.graph.vertices, vi.Marked ir_graph.producedOutputs := by
  have hinputs : ∀ (names : List String) (st : BGraphBuilder) (v : ℕ),
      (names.foldl (addNodeInput v) st).graph.vertices = st.graph.vertices := by
    intro names
    induction names with
    | nil => exact fun _ _ => rfl
    | cons name names ih => exact fun st v => ih (addNodeInput v st name) v
  refine foldlM_invariant (P := fun st : BGraphBuilder =>
    ∀ vi ∈ st.graph.vertices, vi.Marked ir_graph.producedOutputs)
    (fun st name st' hmem hst hstep => addNodeOutput_marked (hname name hmem) hst hstep) ?_ h
  rw [hinputs]
  intro vi hvi
  cases List.mem_append.mp hvi with
  | inl hvi => exact hst vi hvi
  | inr hvi =>
    obtain rfl := List.mem_singleton.mp hvi
    exact nofun

theorem toBGL_marked (hwf : ir_graph.WellFormed) {bg : BGraph} (h : ir_graph.toBGL = some bg) :
    ∀ vi ∈ bg.vertices, vi.Marked ir_graph.producedOutputs := by
  have hname : ∀ name ∈ ir_graph.definedNames,
      ∀ value, ir_graph.getValue name = some value → value.name = name := by
    intro name hmem value hvalue
    obtain ⟨value', hvalue', heq⟩ := hwf.values name hmem
    obtain rfl := Option.some.inj (hvalue.symm.trans hvalue')
    exact heq
  obtain ⟨st₁, hinputs, h⟩ := Option.bind_eq_some_iff.mp h
  obtain ⟨st₂, hnodes, h⟩ := Option.bind_eq_some_iff.mp h
  obtain rfl := Option.some.inj h
  refine foldlM_invariant (P := fun st : BGraphBuilder =>
    ∀ vi ∈ st.graph.vertices, vi.Marked ir_graph.producedOutputs)
    (fun st n st' hmem hst hstep => addNode_marked (fun name hout => hname name ?_) hst hstep)
    ?_ hnodes
  · exact List.mem_append_right _ (List.mem_flatMap.mpr ⟨n, hmem, hout⟩)
  refine foldlM_invariant (P := fun st : BGraphBuilder =>
    ∀ vi ∈ st.graph.vertices, vi.Marked ir_graph.producedOutputs)
    (fun st input_name st' hmem hst hstep => ?_) (by simp) hinputs
  obtain ⟨value, hvalue, hstep⟩ := Option.bind_eq_some_iff.mp hstep
  obtain rfl := Option.some.inj hstep
  intro vi hvi
  cases List.mem_append.mp hvi with
  | inl hvi => exact hst vi hvi
  | inr hvi =>
    obtain rfl := List.mem_singleton.mp hvi
    intro _ hout
    have hout : value.name ∈ ir_graph.producedOutputs := hout
    rw [hname input_name (List.mem_append_left _ hmem) value hvalue] at hout
    exact absurd hmem (of_decide_eq_true (List.mem_filter.mp hout).2)

end Marked

section SubGraphs

variable {outputs : List String}

theorem mem_modify {α : Type} {l : List α} {i : ℕ} {f : α → α} {a : α} (h : a ∈ l.modify i f) :
    a ∈ l ∨ ∃ b ∈ l, f b = a := by
  obtain ⟨j, hj, rfl⟩ := List.mem_iff_getElem.mp h
  rw [List.length_modify] at hj
  rw [List.getElem_modify]
  split_ifs
  · exact Or.inr ⟨l[j], List.getElem_mem hj, rfl⟩
  · exact Or.inl (List.getElem_mem hj)

theorem info_marked {g : BGraph} (hg : ∀ vi ∈ g.vertices, vi.Marked outputs) {v : ℕ}
    (hv : v < g.vertices.length) : (g.info v).Marked outputs := by
  apply hg
  simp [BGraph.info, hv]

theorem marked_of_erase {g g' : BGraph} (h : g'.erase = g.erase)
    (hg : ∀ vi ∈ g.vertices, vi.Marked outputs) : ∀ vi ∈ g'.vertices, vi.Marked outputs := by
  intro vi hvi
  have hmem : ({ vi with ranks := ∅ } : VertexInfo) ∈ g.erase.vertices := by
    rw [← h]
    exact List.mem_map_of_mem hvi
  obtain ⟨vi', hvi', heq⟩ := List.mem_map.mp hmem
  have htype := congrArg VertexInfo.type heq
  have hname := congrArg VertexInfo.name heq
  have hout := congrArg VertexInfo.is_output heq
  intro hvalue hmem
  exact hout.symm.trans (hg vi' hvi' (htype.trans hvalue) (hname ▸ hmem))

theorem createSubGraphs_marked {sort : TopologicalSort} {order : SetOrder} {g : BGraph}
    {d : BDecomposition} (hflow : g.Flow) (hg : ∀ vi ∈ g.vertices, vi.Marked outputs)
    (h : createSubGraphs sort order g = some d) :
    ∀ it ∈ d.graphs, ∀ vi ∈ it.2.vertices, vi.Marked outputs := by
  refine createSubGraphs_invariant (Q := fun sg => ∀ vi ∈ sg.vertices, vi.Marked outputs) ?_ ?_ h
  · intro it hit vi hvi
    obtain ⟨r, -, -, hvertices⟩ := mem_createSubgraphsByRank hit
    rw [hvertices] at hvi
    obtain ⟨v, hv, -, rfl⟩ := (mem_createSubgraphByRank hflow).mp hvi
    exact info_marked hg hv
  · intro u v r r' _
    constructor
    case receive =>
      intro sg src tgt hsg hsrc _ vi hvi
      cases List.mem_append.mp hvi with
      | inl hvi => exact hsg vi hvi
      | inr hvi =>
        obtain rfl := List.mem_singleton.mp hvi
        exact info_marked hg (List.mem_range.mp (List.mem_of_find?_eq_some hsrc))
    case output =>
      intro sg w hsg vi hvi
      cases mem_modify hvi with
      | inl hvi => exact hsg vi hvi
      | inr hvi =>
        obtain ⟨vi', -, rfl⟩ := hvi
        exact fun _ _ => rfl
    case input =>
      intro sg w hsg vi hvi
      cases mem_modify hvi with
      | inl hvi => exact hsg vi hvi
      | inr hvi =>
        obtain ⟨vi', hvi', rfl⟩ := hvi
        exact hsg vi' hvi'

end SubGraphs

/-- An output with a route to the master: a batch, or a loss that is all its operator writes. -/
def IRGraph.RoutedOutput (g : IRGraph) (out : String) : Prop :=
  ∃ n ∈ g.nodes, n.Makes out ∧ (n.is_batch = true ∨ n.is_criterion = true)

/-- A first node has the values that it reads and those that its operators make. The outputs of the
model that are among its values are its outputs. -/
structure FirstNode (ir_graph : IRGraph) (n : MLNode) : Prop where
  first : n.sub_nodes = []
  reads : ∀ name ∈ n.graph.input_names, n.graph.hasValue name = true
  writes : ∀ node ∈ n.graph.nodes, ∀ name, node.Makes name → n.graph.hasValue name = true
  shows : ∀ out ∈ ir_graph.producedOutputs, n.graph.hasValue out = true →
    out ∈ n.graph.output_names

/-- The first nodes have different ids, and together all operators that are batches or losses. -/
structure FirstNodes (ir_graph : IRGraph) (ml_graph : MLGraph) : Prop where
  nodes : ∀ n ∈ ml_graph.nodes, FirstNode ir_graph n
  nodup : (ml_graph.nodes.map MLNode.id).Nodup
  labelled : ∀ node ∈ ir_graph.nodes, node.is_batch = true ∨ node.is_criterion = true →
    ∃ n ∈ ml_graph.nodes, node ∈ n.graph.nodes

section Initial

variable {sort : TopologicalSort} {order : SetOrder} {graph_order : MapOrder (String × IRGraph)}
  {ir_graph : IRGraph} {ml_graph : MLGraph}

theorem createSubGraphs_nodup {g : BGraph} {d : BDecomposition}
    (h : createSubGraphs sort order g = some d) : (d.graphs.map Prod.fst).Nodup := by
  obtain ⟨cons, -, hcontents, -⟩ := createSubGraphs_spec h
  have hids : d.graphs.map Prod.fst = (order.order (allRanks g)).map (createSubgraphId g.id) := by
    have hfst := congrArg (List.map Prod.fst) hcontents
    simpa [contents, createSubgraphsByRank, Function.comp_def] using hfst
  rw [hids]
  exact (order.nodup _).map fun _ _ heq => createSubgraphId_inj.mp heq

theorem Fixed.labelled_nonempty {labelled g : BGraph} (hfixed : Fixed labelled g) {v : ℕ}
    (hv : (labelled.ranks v).Nonempty) : (g.ranks v).Nonempty := by
  rw [hfixed.ranks v]
  split_ifs with hfix
  · exact hfix.2
  · exact hv

theorem createSubGraphs_placed {labelled g : BGraph} {d : BDecomposition} (hg : g.Flow)
    (hlabelled : Labelled labelled) (hfixed : Fixed labelled g)
    (h : createSubGraphs sort order g = some d) {v : ℕ} (hv : v < g.vertices.length)
    (hranks : (g.ranks v).Nonempty) :
    ∃ it ∈ d.graphs, ∃ vi ∈ it.2.vertices, vi.core = (g.info v).core := by
  obtain ⟨r, hr⟩ := hranks
  obtain ⟨cons, -, hcontents, -⟩ := createSubGraphs_spec h
  obtain ⟨sg, hsg⟩ := createSubGraphs_of_mem hcontents (mem_allRanks.mpr ⟨v, hv, hr⟩)
  obtain ⟨r', -, hid, hmembers⟩ := createSubGraphs_members hg hlabelled hfixed h hsg
  obtain rfl : r = r' := createSubgraphId_inj.mp hid
  have hmem := (hmembers (g.info v).core).mpr ⟨v, hv, rfl, Or.inl hr⟩
  obtain ⟨vi, hvi, hcore⟩ := List.mem_map.mp hmem
  exact ⟨_, hsg, vi, hvi, hcore⟩

theorem exists_vertex_of_node {bg : BGraph} (hbg : ir_graph.toBGL = some bg) {node : IRNode}
    (hnode : node ∈ ir_graph.nodes) :
    ∃ v < bg.vertices.length, (bg.info v).type = .NODE ∧ (bg.info v).node = node := by
  rw [← IRGraph.toBGL_nodes hbg] at hnode
  obtain ⟨vi, hvi, rfl⟩ := List.mem_map.mp hnode
  obtain ⟨hvi, htype⟩ := List.mem_filter.mp hvi
  obtain ⟨v, hv, rfl⟩ := List.mem_iff_getElem.mp hvi
  have hinfo : bg.info v = bg.vertices[v] := by simp [BGraph.info, hv]
  rw [← hinfo] at htype ⊢
  exact ⟨v, hv, of_decide_eq_true htype, rfl⟩

/-- Each first node has the graph of a subgraph of the decomposition by ranks, and is named after
it. -/
structure NodesOf (sort : TopologicalSort) (d : BDecomposition) (ml_graph : MLGraph) : Prop where
  subgraph : ∀ n ∈ ml_graph.nodes, n.sub_nodes = [] ∧ ∃ sg ∈ d.graphs, ∃ sg_graph,
    fromBGL sort sg.2 = some sg_graph ∧ n.graph = sg_graph.rename n.id
  node : ∀ sg ∈ d.graphs, ∃ n ∈ ml_graph.nodes, ∃ sg_graph,
    fromBGL sort sg.2 = some sg_graph ∧ n.graph = sg_graph.rename n.id
  ids : (ml_graph.nodes.map MLNode.id).Perm ((d.graphs.map Prod.fst).map ("ML_" ++ ·))

theorem initialMLGraph_nodesOf
    (h : initialMLGraph sort order graph_order ir_graph = some ml_graph) :
    ∃ bg labelled d, ir_graph.toBGL = some bg ∧ labelRanks bg = some labelled ∧
      createSubGraphs sort order (fixNonBatchRanks sort labelled) = some d ∧
      NodesOf sort d ml_graph := by
  obtain ⟨bg, hbg, h⟩ := Option.bind_eq_some_iff.mp h
  obtain ⟨labelled, hlabel, h⟩ := Option.bind_eq_some_iff.mp h
  obtain ⟨partitions, hpart, h⟩ := Option.bind_eq_some_iff.mp h
  obtain ⟨edges, -, h⟩ := Option.bind_eq_some_iff.mp h
  obtain rfl := Option.some.inj h
  obtain ⟨d, hd, hpart⟩ := Option.bind_eq_some_iff.mp hpart
  obtain ⟨comp_graphs, hcomp, hpart⟩ := Option.bind_eq_some_iff.mp hpart
  obtain ⟨comp_connection, -, hpart⟩ := Option.bind_eq_some_iff.mp hpart
  obtain ⟨_, -, hpart⟩ := Option.bind_eq_some_iff.mp hpart
  obtain ⟨graph, -, hpart⟩ := Option.bind_eq_some_iff.mp hpart
  obtain rfl := Option.some.inj hpart
  have hmem := fun {it} => (graph_order.perm comp_graphs).mem_iff (a := it)
  refine ⟨bg, labelled, d, hbg, hlabel, hd, fun n hn => ?_, fun sg hsg => ?_, ?_⟩
  · obtain ⟨it, hit, rfl⟩ := List.mem_map.mp hn
    obtain ⟨sg, hsg, hmap⟩ := exists_of_mem_mapM hcomp (hmem.mp hit)
    obtain ⟨sg_graph, hfrom, rfl⟩ := Option.map_eq_some_iff.mp hmap
    exact ⟨rfl, sg, hsg, sg_graph, hfrom, rfl⟩
  · obtain ⟨it, hmap⟩ := Option.isSome_iff_exists.mp (isSome_of_mapM hcomp hsg)
    have hit := mem_of_mapM hcomp hsg hmap
    obtain ⟨sg_graph, hfrom, rfl⟩ := Option.map_eq_some_iff.mp hmap
    exact ⟨_, List.mem_map_of_mem (hmem.mpr hit), sg_graph, hfrom, rfl⟩
  · have hfst : comp_graphs.map Prod.fst = d.graphs.map Prod.fst := by
      refine map_of_mapM_congr (fun it comp_graph hit => ?_) hcomp
      obtain ⟨_, -, rfl⟩ := Option.map_eq_some_iff.mp hit
      rfl
    rw [← hfst, List.map_map, List.map_map]
    exact (graph_order.perm _).map _

section Decomposed

variable {bg labelled : BGraph} {d : BDecomposition} (hwf : ir_graph.WellFormed)
  (htyped : ir_graph.Typed) (hbg : ir_graph.toBGL = some bg)
  (hlabel : labelRanks bg = some labelled)
  (hd : createSubGraphs sort order (fixNonBatchRanks sort labelled) = some d)
include hwf htyped hbg hlabel

theorem labelRanks_flow (sort : TopologicalSort) :
    (fixNonBatchRanks sort labelled).Flow ∧ Labelled labelled ∧
    Fixed labelled (fixNonBatchRanks sort labelled) ∧
    (fixNonBatchRanks sort labelled).erase = bg.erase := by
  obtain ⟨hflow, hempty⟩ := toBGL_flow hwf htyped hbg
  obtain ⟨herase, hlabelled⟩ := labelRanks_ok hflow hempty hlabel
  have hfixed := fixNonBatchRanks_fixed sort (hflow.of_erase herase)
  exact ⟨(hflow.of_erase herase).of_erase hfixed.erase, hlabelled, hfixed,
    hfixed.erase.trans herase⟩

include hd

theorem firstNode_of_subgraph {n : MLNode} (hn : n.sub_nodes = []) {sg : String × BGraph}
    (hsg : sg ∈ d.graphs) {sg_graph : IRGraph} (hfrom : fromBGL sort sg.2 = some sg_graph)
    (hgraph : n.graph = sg_graph.rename n.id) : FirstNode ir_graph n := by
  obtain ⟨hg, hlabelled, hfixed, herase⟩ := labelRanks_flow hwf htyped hbg hlabel sort
  have hmarked := marked_of_erase herase (toBGL_marked hwf hbg)
  obtain ⟨hvalues, houtputs, hinputs, hnodes⟩ :=
    fromBGL_spec ((createSubGraphs_edgesFrom hd sg hsg).acyclic hg) hfrom
  constructor
  case first => exact hn
  all_goals rw [hgraph]
  case reads =>
    intro name hname
    obtain ⟨vi, hvi, htype, -, hname⟩ := hinputs name hname
    exact (hvalues name).mpr ⟨vi, hvi, htype, hname⟩
  case writes =>
    intro node hnode name hmakes
    obtain ⟨vi, hvi, htype, rfl⟩ := (hnodes node).mp hnode
    exact (hvalues name).mpr (createSubGraphs_made hg hlabelled hfixed hd hsg hvi htype hmakes)
  case shows =>
    intro out hout hvalue
    obtain ⟨vi, hvi, htype, rfl⟩ := (hvalues out).mp hvalue
    have hout := createSubGraphs_marked hg hmarked hd sg hsg vi hvi htype hout
    exact (houtputs _).mpr ⟨vi, hvi, htype, hout, rfl⟩

/-- An operator that is labelled is in a subgraph. -/
theorem exists_subgraph_of_labelled {node : IRNode} (hnode : node ∈ ir_graph.nodes)
    (hcase : node.is_batch = true ∨ node.is_criterion = true) :
    ∃ sg ∈ d.graphs, ∀ sg_graph, fromBGL sort sg.2 = some sg_graph → node ∈ sg_graph.nodes := by
  obtain ⟨hg, hlabelled, hfixed, herase⟩ := labelRanks_flow hwf htyped hbg hlabel sort
  obtain ⟨v, hv, htype, rfl⟩ := exists_vertex_of_node hbg hnode
  have hlabel_v : (bg.info v).isLabelled = true := by
    simpa [VertexInfo.isLabelled, htype] using hcase
  have hv_g : v < (fixNonBatchRanks sort labelled).vertices.length := by
    rw [BGraph.length_of_erase herase]
    exact hv
  have hranks := hfixed.labelled_nonempty
    (labelRanks_nonempty (toBGL_flow hwf htyped hbg).1 hlabel hlabel_v)
  obtain ⟨sg, hsg, vi, hvi, hcore⟩ := createSubGraphs_placed hg hlabelled hfixed hd hv_g hranks
  refine ⟨sg, hsg, fun sg_graph hfrom => ?_⟩
  obtain ⟨-, -, -, hnodes⟩ :=
    fromBGL_spec ((createSubGraphs_edgesFrom hd sg hsg).acyclic hg) hfrom
  have hcore_type := congrArg VertexInfo.type hcore
  have hcore_node := congrArg VertexInfo.node hcore
  have herased_node := congrArg VertexInfo.node (BGraph.info_of_erase herase v)
  exact (hnodes _).mpr ⟨vi, hvi, hcore_type.trans ((type_of_erase herase v).trans htype),
    hcore_node.trans herased_node⟩

end Decomposed

theorem initialMLGraph_firstNodes (hwf : ir_graph.WellFormed) (htyped : ir_graph.Typed)
    (h : initialMLGraph sort order graph_order ir_graph = some ml_graph) :
    FirstNodes ir_graph ml_graph := by
  obtain ⟨bg, labelled, d, hbg, hlabel, hd, hnodes⟩ := initialMLGraph_nodesOf h
  constructor
  case nodes =>
    intro n hn
    obtain ⟨hfirst, sg, hsg, sg_graph, hfrom, hgraph⟩ := hnodes.subgraph n hn
    exact firstNode_of_subgraph hwf htyped hbg hlabel hd hfirst hsg hfrom hgraph
  case nodup =>
    refine hnodes.ids.nodup_iff.mpr ((createSubGraphs_nodup hd).map fun a b heq => ?_)
    simpa using heq
  case labelled =>
    intro node hnode hcase
    obtain ⟨sg, hsg, hmem⟩ := exists_subgraph_of_labelled hwf htyped hbg hlabel hd hnode hcase
    obtain ⟨n, hn, sg_graph, hfrom, hgraph⟩ := hnodes.node sg hsg
    refine ⟨n, hn, ?_⟩
    rw [hgraph]
    exact hmem sg_graph hfrom

end Initial

end Rannc
