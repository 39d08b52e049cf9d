import Rannc.Graph.MasterRoutes
import Rannc.Graph.SubGraphFlow

/-!
# Values at the boundaries of subgraphs

The connections between subgraphs carry values of batches, and where a value is looked up for a
route it is the one of the whole graph: there is a type of route for it in both directions.
-/
namespace Rannc

open Rannc.Digraph

section Boundary

variable {g : BGraph} {sort : TopologicalSort} {order : SetOrder} {d : BDecomposition}

/-- Connections with the master are the only ones that are added in the end. -/
theorem mem_masterConnections {subgraphs : List (String × BGraph)}
    {connections : List GraphConnection} {con : GraphConnection}
    (hcon : con ∈ subgraphs.foldl (fun connections it =>
      it.2.vertices.foldl (addMasterConnection it.1) connections) connections)
    (hin : con.isGraphInput = false) (hout : con.isGraphOutput = false) : con ∈ connections := by
  have hstep (sg_id : String) (connections : List GraphConnection) (vi : VertexInfo)
      (h : con ∈ addMasterConnection sg_id connections vi) : con ∈ connections := by
    rw [addMasterConnection_eq] at h
    simp only [List.mem_append] at h
    rcases h with (h | h) | h
    · exact h
    · split_ifs at h
      · rw [List.mem_singleton.mp h] at hin
        simp [GraphConnection.isGraphInput] at hin
      · exact absurd h List.not_mem_nil
    · split_ifs at h
      · rw [List.mem_singleton.mp h] at hout
        simp [GraphConnection.isGraphOutput] at hout
      · exact absurd h List.not_mem_nil
  have hvertices (sg_id : String) (vertices : List VertexInfo)
      (connections : List GraphConnection)
      (h : con ∈ vertices.foldl (addMasterConnection sg_id) connections) : con ∈ connections := by
    induction vertices generalizing connections with
    | nil => exact h
    | cons vi vertices ih => exact hstep sg_id connections vi (ih _ h)
  induction subgraphs generalizing connections with
  | nil => exact hcon
  | cons it subgraphs ih => exact hvertices it.1 it.2.vertices connections (ih hcon)

/-- A connection between subgraphs carries the value of a batch. -/
def CarriesBatch (g : BGraph) (con : GraphConnection) : Prop :=
  ∃ u < g.vertices.length, (g.info u).type = .VALUE ∧ (g.info u).name = con.value ∧
    (g.info u).value.is_batch = true

theorem createSubGraphs_carriesBatch {labelled : BGraph} (hg : labelled.BatchTyped)
    (hshares : labelled.SharesRanks) (hfixed : Fixed labelled g)
    (h : createSubGraphs sort order g = some d) {con : GraphConnection}
    (hcon : con ∈ d.connections) (hin : con.isGraphInput = false)
    (hout : con.isGraphOutput = false) : CarriesBatch g con := by
  obtain ⟨cons, hcons, -, hconnections⟩ := createSubGraphs_spec h
  rw [hconnections] at hcon
  have hmem := mem_masterConnections hcon hin hout
  obtain ⟨u, v, r, r', hc, -, -, rfl⟩ := (addConnections_ok hcons).sound con hmem
  obtain ⟨hvalue, hbatch⟩ := hfixed.crossing_batch hg hshares hc
  refine ⟨u, ((hg.of_erase hfixed.erase).bound hc.edge).1, hvalue, rfl, ?_⟩
  simpa [VertexInfo.isBatch, hvalue] using hbatch

/-- All vertices are those of the whole graph, up to the marks of inputs and outputs. -/
def BGraph.VerticesFrom (g sg : BGraph) : Prop :=
  ∀ vi ∈ sg.vertices, ∃ u < g.vertices.length, (g.info u).core = vi.core

theorem BGraph.VerticesFrom.modify {sg : BGraph} (h : g.VerticesFrom sg) (v : ℕ)
    {f : VertexInfo → VertexInfo} (hf : ∀ vi, (f vi).core = vi.core) :
    g.VerticesFrom { sg with vertices := sg.vertices.modify v f } := by
  intro vi hvi
  obtain ⟨i, hi, rfl⟩ := List.mem_iff_getElem.mp hvi
  rw [List.length_modify] at hi
  obtain ⟨u, hu, hcore⟩ := h _ (List.getElem_mem hi)
  refine ⟨u, hu, hcore.trans ?_⟩
  rw [List.getElem_modify]
  split_ifs
  · exact (hf _).symm
  · rfl

theorem createSubGraphs_verticesFrom (hacyclic : Acyclic (Edge g.edges))
    (h : createSubGraphs sort order g = some d) : ∀ it ∈ d.graphs, g.VerticesFrom it.2 := by
  refine createSubGraphs_invariant ?_ ?_ h
  · intro it hit vi hvi
    obtain ⟨r, -, rfl⟩ := List.mem_map.mp hit
    simp only [createSubgraphByRank, createSubgraph, foldl_addSubVertex_vertices,
      List.nil_append] at hvi
    obtain ⟨u, hu, rfl⟩ := List.mem_map.mp hvi
    have hrange := (sort.perm hacyclic).mem_iff.mp (List.mem_of_mem_filter hu)
    exact ⟨u, List.mem_range.mp hrange, rfl⟩
  · intro u v r r' huv
    constructor
    case receive =>
      intro sg src tgt hsg hsrc _ vi hvi
      have hlt := List.mem_range.mp (List.mem_of_find?_eq_some hsrc)
      simp only [BGraph.vertices_add_edge, BGraph.add_vertex, List.mem_append,
        List.mem_singleton] at hvi
      cases hvi with
      | inl hvi => exact hsg vi hvi
      | inr heq => exact ⟨src, hlt, by rw [heq]⟩
    case output => exact fun sg v hsg => hsg.modify v fun _ => rfl
    case input => exact fun sg v hsg => hsg.modify v fun _ => rfl

theorem fromBGL_value {sg : BGraph} {ir_graph : IRGraph} (hsg : Acyclic (Edge sg.edges))
    (h : fromBGL sort sg = some ir_graph) {name : String} {val : IRValue}
    (hval : ir_graph.getValue name = some val) :
    ∃ vi ∈ sg.vertices, vi.type = .VALUE ∧ vi.name = name ∧ vi.value = val := by
  obtain ⟨is_replicable, rfl⟩ := IRGraph.create_eq h
  obtain ⟨before, after, hsplit, -⟩ := List.lookup_eq_some_iff.mp hval
  have hmem : (name, val) ∈ before ++ (name, val) :: after := by simp
  dsimp only at hsplit
  rw [← hsplit] at hmem
  simp only [List.mem_map, List.mem_reverse, List.mem_filter, mem_all_nodes_topo hsg,
    decide_eq_true_eq] at hmem
  obtain ⟨vi, ⟨hvi, htype⟩, heq⟩ := hmem
  obtain ⟨hname, hvalue⟩ := Prod.mk.inj heq
  exact ⟨vi, hvi, htype, hname, hvalue⟩

theorem createPartition_value (hg : g.BatchTyped) {part : Partition}
    (hpart : createPartition sort order g = some part) {name : String} {val : IRValue}
    (hval : (part.subgraphs.filterMap fun it => it.2.getValue name).head? = some val) {u : ℕ}
    (hu : u < g.vertices.length) (hvalue : (g.info u).type = .VALUE)
    (hname : (g.info u).name = name) : val = (g.info u).value := by
  obtain ⟨d, hd, hpart⟩ := Option.bind_eq_some_iff.mp hpart
  obtain ⟨comp_graphs, hcomp, hpart⟩ := Option.bind_eq_some_iff.mp hpart
  obtain ⟨_, -, hpart⟩ := Option.bind_eq_some_iff.mp hpart
  obtain ⟨_, -, hpart⟩ := Option.bind_eq_some_iff.mp hpart
  obtain ⟨_, -, hpart⟩ := Option.bind_eq_some_iff.mp hpart
  obtain rfl := Option.some.inj hpart
  obtain ⟨it, hit, hget⟩ := List.mem_filterMap.mp (List.mem_of_head? hval)
  obtain ⟨it', hit', hfrom⟩ := exists_of_mem_mapM hcomp hit
  obtain ⟨ir_graph, hir, rfl⟩ := Option.map_eq_some_iff.mp hfrom
  have hacyclic := (createSubGraphs_edgesFrom hd it' hit').acyclic_of_ids hg.ids hg.acyclic
    hg.bound
  obtain ⟨vi, hvi, htype, hvi_name, rfl⟩ := fromBGL_value hacyclic hir hget
  obtain ⟨w, hw, hcore⟩ := createSubGraphs_verticesFrom hg.acyclic hd it' hit' vi hvi
  have hwtype := congrArg VertexInfo.type hcore
  have hwname := congrArg VertexInfo.name hcore
  have hwvalue := congrArg VertexInfo.value hcore
  dsimp only [VertexInfo.core] at hwtype hwname hwvalue
  have hsame : w = u := hg.name_inj hw hu (hwtype.trans htype) hvalue
    (hwname.trans (hvi_name.trans hname.symm))
  rw [← hwvalue, hsame]

end Boundary

/-- Only batches leave the ranks of a vertex, which are final after one sweep, and there is a type
of route for everything that is carried between subgraphs. -/
theorem boundaries_carry_batches (sort : TopologicalSort) (order : SetOrder) {g : BGraph}
    (hg : g.BatchTyped) (hshares : g.SharesRanks) :
    (∀ v w, (v, w) ∈ g.edges → (g.info v).isBatch = false →
      ((fixNonBatchRanks sort g).ranks w).Nonempty →
        (fixNonBatchRanks sort g).ranks w ⊆ (fixNonBatchRanks sort g).ranks v) ∧
    fixNonBatchRanks sort (fixNonBatchRanks sort g) = fixNonBatchRanks sort g ∧
    (∀ d, createSubGraphs sort order (fixNonBatchRanks sort g) = some d →
      ∀ con ∈ d.connections, con.isGraphInput = false → con.isGraphOutput = false →
        CarriesBatch g con) ∧
    ∀ part, createPartition sort order (fixNonBatchRanks sort g) = some part →
      ∀ con ∈ part.connections, con.isGraphInput = false → con.isGraphOutput = false →
        ∀ val, (part.subgraphs.filterMap fun it => it.2.getValue con.value).head? = some val →
          ∀ fwd, (chooseRouteType val.is_batch val.is_loss fwd).isSome = true := by
  have hfixed := fixNonBatchRanks_fixed_of_acyclic sort hg.acyclic fun hvw => (hg.bound hvw).1
  have hedges := BGraph.edges_of_erase hfixed.erase
  have hcarries : ∀ con, CarriesBatch (fixNonBatchRanks sort g) con → CarriesBatch g con := by
    rintro con ⟨u, hu, htype, hname, hbatch⟩
    have hinfo := BGraph.info_of_erase hfixed.erase u
    have hname' := congrArg VertexInfo.name hinfo
    have hvalue' := congrArg VertexInfo.value hinfo
    dsimp only at hname' hvalue'
    rw [BGraph.length_of_erase hfixed.erase] at hu
    rw [type_of_erase hfixed.erase] at htype
    exact ⟨u, hu, htype, hname'.symm.trans hname, hvalue' ▸ hbatch⟩
  refine ⟨?_, hfixed.fixNonBatchRanks_eq sort, ?_, ?_⟩
  · intro v w hvw hbatch _
    rw [← isBatch_of_erase hfixed.erase] at hbatch
    exact hfixed.ranks_subset (hedges ▸ hvw) hbatch
  · intro d hd con hcon hin hout
    exact hcarries con (createSubGraphs_carriesBatch hg hshares hfixed hd hcon hin hout)
  · intro part hpart con hcon hin hout val hval fwd
    obtain ⟨d, hd, hconnections⟩ := createPartition_connections hpart
    rw [hconnections] at hcon
    obtain ⟨u, hu, htype, hname, hbatch⟩ :=
      createSubGraphs_carriesBatch hg hshares hfixed hd hcon hin hout
    rw [createPartition_value (hg.of_erase hfixed.erase) hpart hval hu htype hname, hbatch]
    rfl

theorem unpackGraph_connected : (rankedDeployment unpackGraph).any (fun res =>
    res.2.1.connections.any fun con => !con.isGraphInput && !con.isGraphOutput) = true := by
  decide +kernel

theorem boundaries_carry_batches_unpack : ∃ labelled part,
    createPartition .sinksFirst .sorted (fixNonBatchRanks .sinksFirst labelled) = some part ∧
      ∃ con ∈ part.connections, con.isGraphInput = false ∧ con.isGraphOutput = false ∧
        ∀ val, (part.subgraphs.filterMap fun it => it.2.getValue con.value).head? = some val →
          ∀ fwd, (chooseRouteType val.is_batch val.is_loss fwd).isSome = true := by
  obtain ⟨⟨labelled, part, d, fwd, bwd⟩, hrun, hcon⟩ :=
    (Option.any_eq_true _ _).mp unpackGraph_connected
  obtain ⟨bg, size, allocation, hbg, hlabelled, hpart, -⟩ := rankedDeployment_eq_some hrun
  obtain ⟨hflow, hempty⟩ := toBGL_flow unpackGraph_wellFormed unpackGraph_typed hbg
  obtain ⟨herase, hlabels⟩ := labelRanks_ok hflow hempty hlabelled
  obtain ⟨con, hmem, hinternal⟩ := List.any_eq_true.mp hcon
  simp only [Bool.and_eq_true, Bool.not_eq_true'] at hinternal
  have hcarry := boundaries_carry_batches .sinksFirst .sorted (hflow.of_erase herase).batchTyped
    fun v w hlabel hvw => hlabels.labelled v hlabel w hvw
  exact ⟨labelled, part, hpart, con, hmem, hinternal.1, hinternal.2,
    hcarry.2.2.2 part hpart con hmem hinternal.1 hinternal.2⟩

end Rannc
