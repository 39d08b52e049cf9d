import Rannc.Graph.CreateDeployment
import Rannc.Graph.Ranks
import Rannc.Lib.OptionFold

/-!
# The flow inside a subgraph

Every edge of a subgraph comes from one of the whole graph, so subgraphs are acyclic, and their
graphs of operators have the values of their vertices.
-/
namespace Rannc

open Rannc.Digraph

theorem BGraph.info_congr {g g' : BGraph} (h : g.vertices = g'.vertices) (v : ℕ) :
    g.info v = g'.info v := by
  simp only [info, h]

/-- Every edge is one of the whole graph, by the ids of its ends. -/
def BGraph.EdgesFrom (g sg : BGraph) : Prop :=
  ∀ i j, (i, j) ∈ sg.edges → i < sg.vertices.length ∧ j < sg.vertices.length ∧
    ∃ u v, (u, v) ∈ g.edges ∧ (sg.info i).id = (g.info u).id ∧ (sg.info j).id = (g.info v).id

namespace BGraph.EdgesFrom

variable {g sg : BGraph}

theorem add_vertex (h : g.EdgesFrom sg) (vi : VertexInfo) : g.EdgesFrom (sg.add_vertex vi) := by
  intro i j hij
  obtain ⟨hi, hj, u, v, huv, hidu, hidv⟩ := h i j hij
  rw [length_add_vertex, info_add_vertex_of_lt hi, info_add_vertex_of_lt hj]
  exact ⟨Nat.lt_succ_of_lt hi, Nat.lt_succ_of_lt hj, u, v, huv, hidu, hidv⟩

theorem add_edge (h : g.EdgesFrom sg) {i j u v : ℕ} (hi : i < sg.vertices.length)
    (hj : j < sg.vertices.length) (huv : (u, v) ∈ g.edges) (hidu : (sg.info i).id = (g.info u).id)
    (hidv : (sg.info j).id = (g.info v).id) : g.EdgesFrom (sg.add_edge i j) := by
  intro i' j' hij
  cases mem_edges_add_edge.mp hij with
  | inl hij => exact h i' j' hij
  | inr heq =>
    obtain ⟨rfl, rfl⟩ := Prod.mk.inj heq
    exact ⟨hi, hj, u, v, huv, hidu, hidv⟩

/-- Marks do not change the edges. -/
theorem modify (h : g.EdgesFrom sg) (w : ℕ) {f : VertexInfo → VertexInfo}
    (hf : ∀ vi, (f vi).id = vi.id) :
    g.EdgesFrom { sg with vertices := sg.vertices.modify w f } := by
  have hid : ∀ x, (info { sg with vertices := sg.vertices.modify w f } x).id = (sg.info x).id := by
    intro x
    simp only [info, List.getD_eq_getElem?_getD, List.getElem?_modify]
    cases sg.vertices[x]? with
    | none => rfl
    | some vi =>
      simp only [Option.getD_some]
      split_ifs
      · exact hf vi
      · rfl
  intro i j hij
  obtain ⟨hi, hj, u, v, huv, hidu, hidv⟩ := h i j hij
  rw [hid, hid, List.length_modify]
  exact ⟨hi, hj, u, v, huv, hidu, hidv⟩

theorem acyclic_of_ids (hids : (g.vertices.map VertexInfo.id).Nodup)
    (hacyclic : Acyclic (Edge g.edges))
    (hbound : ∀ {v w}, (v, w) ∈ g.edges → v < g.vertices.length ∧ w < g.vertices.length)
    (h : g.EdgesFrom sg) : Acyclic (Edge sg.edges) := by
  intro i hcycle
  apply hacyclic ((findVertexById g (sg.info i).id).getD 0)
  apply hcycle.lift fun i => (findVertexById g (sg.info i).id).getD 0
  intro i j hij
  obtain ⟨-, -, u, v, huv, hidu, hidv⟩ := h i j hij
  obtain ⟨hu, hv⟩ := hbound huv
  simpa [Function.onFun, Edge, hidu, hidv, findVertexById_id hids hu, findVertexById_id hids hv]
    using huv

theorem acyclic (hg : g.Flow) (h : g.EdgesFrom sg) : Acyclic (Edge sg.edges) :=
  h.acyclic_of_ids hg.ids hg.acyclic fun huv =>
    ⟨(hg.edge huv).1.trans (hg.edge huv).2.1, (hg.edge huv).2.1⟩

end BGraph.EdgesFrom

section CreateSubgraph

variable {g : BGraph} {sort : TopologicalSort}

/-- The subgraph so far, where the vertices are known by their ids. -/
structure SubBuildOk (g : BGraph) (st : BGraph × List (String × ℕ)) : Prop where
  known : ∀ {id w}, st.2.lookup id = some w → w < st.1.vertices.length ∧ (st.1.info w).id = id
  edges : g.EdgesFrom st.1

theorem addSubVertex_ok {st : BGraph × List (String × ℕ)} (h : SubBuildOk g st) (v : ℕ) :
    SubBuildOk g (addSubVertex g st v) := by
  have hknown : ∀ {id w}, (((g.info v).id, st.1.vertices.length) :: st.2).lookup id = some w →
      w < (st.1.add_vertex (g.info v)).vertices.length ∧
        ((st.1.add_vertex (g.info v)).info w).id = id := by
    intro id w hw
    rw [List.lookup_cons] at hw
    split at hw
    · rename_i heq
      obtain rfl := Option.some.inj hw
      rw [BGraph.info_add_vertex_self]
      exact ⟨by simp, (of_decide_eq_true heq).symm⟩
    · obtain ⟨hlt, hid⟩ := h.known hw
      rw [BGraph.info_add_vertex_of_lt hlt, BGraph.length_add_vertex]
      exact ⟨Nat.lt_succ_of_lt hlt, hid⟩
  have hedges : (addSubVertex g st v).1.vertices = (st.1.add_vertex (g.info v)).vertices ∧
      g.EdgesFrom (addSubVertex g st v).1 := by
    apply List.foldlRecOn (motive := fun subgraph : BGraph =>
      subgraph.vertices = (st.1.add_vertex (g.info v)).vertices ∧ g.EdgesFrom subgraph)
    · exact ⟨rfl, h.edges.add_vertex (g.info v)⟩
    · intro subgraph hsub out hout
      obtain ⟨hvertices, hsub⟩ := hsub
      cases hlookup : (((g.info v).id, st.1.vertices.length) :: st.2).lookup (g.info out).id with
      | none => exact ⟨hvertices, hsub⟩
      | some w =>
        obtain ⟨hw, hid⟩ := hknown hlookup
        have hinfo := BGraph.info_congr hvertices
        refine ⟨hvertices, hsub.add_edge ?_ ?_ (BGraph.mem_target_nodes.mp hout) ?_ ?_⟩
        · rw [hvertices]
          simp
        · rw [hvertices]
          exact hw
        · rw [hinfo, BGraph.info_add_vertex_self]
        · rw [hinfo, hid]
  constructor
  · intro id w hw
    rw [BGraph.info_congr hedges.1, hedges.1]
    exact hknown hw
  · exact hedges.2

theorem createSubgraphByRank_edgesFrom (sort : TopologicalSort) (g : BGraph) (r : ℕ) :
    g.EdgesFrom (createSubgraphByRank sort g r) := by
  have hfold : ∀ (vs : List ℕ) (st : BGraph × List (String × ℕ)), SubBuildOk g st →
      SubBuildOk g (vs.foldl (addSubVertex g) st) := by
    intro vs
    induction vs with
    | nil => exact fun _ h => h
    | cons v vs ih => exact fun st h => ih _ (addSubVertex_ok h v)
  apply (hfold _ _ ?_).edges
  exact ⟨nofun, nofun⟩

end CreateSubgraph

section Invariant

variable {g : BGraph} {subgraphs subgraphs' : List (String × BGraph)} {Q : BGraph → Prop}

theorem updateGraph_invariant {id : String} {f : BGraph → Option BGraph}
    (hf : ∀ sg sg', Q sg → f sg = some sg' → Q sg') (hQ : ∀ it ∈ subgraphs, Q it.2)
    (h : updateGraph subgraphs id f = some subgraphs') : ∀ it ∈ subgraphs', Q it.2 := by
  intro it' hit'
  obtain ⟨it, hit, hupdate⟩ := exists_of_mem_mapM h hit'
  split_ifs at hupdate
  · obtain ⟨sg', hsg', rfl⟩ := Option.map_eq_some_iff.mp hupdate
    exact hf it.2 sg' (hQ it hit) hsg'
  · obtain rfl := Option.some.inj hupdate
    exact hQ it hit

/-- The three changes that a connection makes. -/
structure ReceiveKeeps (g : BGraph) (Q : BGraph → Prop) (con : GraphConnection) : Prop where
  receive : ∀ sg src tgt, Q sg → findVertexById g con.id = some src →
    findVertexById (sg.add_vertex (g.info src)) con.targetId = some tgt →
    Q ((sg.add_vertex (g.info src)).add_edge sg.vertices.length tgt)
  output : ∀ sg v, Q sg →
    Q { sg with vertices := sg.vertices.modify v fun vi => { vi with is_output := true } }
  input : ∀ sg v, Q sg →
    Q { sg with vertices := sg.vertices.modify v fun vi => { vi with is_input := true } }

theorem addReceiveBuffer_invariant {con : GraphConnection} (hcon : ReceiveKeeps g Q con)
    (hQ : ∀ it ∈ subgraphs, Q it.2) (h : addReceiveBuffer g subgraphs con = some subgraphs') :
    ∀ it ∈ subgraphs', Q it.2 := by
  obtain ⟨src, hsrc, h⟩ := Option.bind_eq_some_iff.mp h
  obtain ⟨subgraphs₁, hadd, h⟩ := Option.bind_eq_some_iff.mp h
  have h₁ := updateGraph_invariant (fun sg sg' hsg hsg' => by
    obtain ⟨tgt, htgt, hsg'⟩ := Option.bind_eq_some_iff.mp hsg'
    obtain rfl := Option.some.inj hsg'
    exact hcon.receive sg src tgt hsg hsrc htgt) hQ hadd
  split_ifs at h with hparam
  · obtain rfl := Option.some.inj h
    exact h₁
  · obtain ⟨subgraphs₂, hout, hin⟩ := Option.bind_eq_some_iff.mp h
    have h₂ := updateGraph_invariant (fun sg sg' hsg hsg' => by
      obtain ⟨v, -, hsg'⟩ := Option.bind_eq_some_iff.mp hsg'
      obtain rfl := Option.some.inj hsg'
      exact hcon.output sg v hsg) h₁ hout
    exact updateGraph_invariant (fun sg sg' hsg hsg' => by
      obtain ⟨v, -, hsg'⟩ := Option.bind_eq_some_iff.mp hsg'
      obtain rfl := Option.some.inj hsg'
      exact hcon.input sg v hsg) h₂ hin

variable {sort : TopologicalSort} {order : SetOrder} {d : BDecomposition}

/-- What holds of the subgraphs of the ranks and is kept by the connections of crossing edges holds
of the subgraphs in the end. -/
theorem createSubGraphs_invariant (hrank : ∀ it ∈ createSubgraphsByRank sort order g, Q it.2)
    (hcon : ∀ u v r r', (u, v) ∈ g.edges → ReceiveKeeps g Q (crossingConnection g u v r r'))
    (h : createSubGraphs sort order g = some d) : ∀ it ∈ d.graphs, Q it.2 := by
  obtain ⟨cons, hcons, h⟩ := Option.bind_eq_some_iff.mp h
  obtain ⟨subgraphs, hsubgraphs, h⟩ := Option.bind_eq_some_iff.mp h
  obtain rfl := Option.some.inj h
  have hok := addConnections_ok hcons
  refine foldlM_invariant (P := fun subgraphs => ∀ it ∈ subgraphs, Q it.2)
    (fun subgraphs con subgraphs' hmem hQ hstep => ?_) hrank hsubgraphs
  refine addReceiveBuffer_invariant ?_ hQ hstep
  cases List.mem_append.mp hmem with
  | inl hmem =>
    obtain ⟨u, v, r, r', hc, -, -, rfl⟩ := hok.sound con hmem
    exact hcon u v r r' hc.edge
  | inr hmem =>
    obtain ⟨u, v, r, r', hc, -, -, rfl⟩ := hok.param_sound con hmem
    exact hcon u v r r' hc.edge

/-- The edges of a subgraph come from those of the whole graph. -/
theorem createSubGraphs_edgesFrom (h : createSubGraphs sort order g = some d) :
    ∀ it ∈ d.graphs, g.EdgesFrom it.2 := by
  refine createSubGraphs_invariant ?_ ?_ h
  · intro it hit
    obtain ⟨r, -, rfl⟩ := List.mem_map.mp hit
    exact createSubgraphByRank_edgesFrom sort g r
  · intro u v r r' huv
    constructor
    case receive =>
      intro sg src tgt hsg hsrc htgt
      have hsrc_id := List.find?_some hsrc
      have htgt_id := List.find?_some htgt
      have htgt_lt := List.mem_range.mp (List.mem_of_find?_eq_some htgt)
      apply (hsg.add_vertex (g.info src)).add_edge ?_ htgt_lt huv
      · rw [BGraph.info_add_vertex_self]
        exact of_decide_eq_true hsrc_id
      · exact of_decide_eq_true htgt_id
      · simp
    case output => exact fun sg w hsg => hsg.modify w fun _ => rfl
    case input => exact fun sg w hsg => hsg.modify w fun _ => rfl

end Invariant

section FromBGL

variable {sg : BGraph} {ir_graph : IRGraph} {sort : TopologicalSort}

theorem map_info_perm (hsg : Acyclic (Edge sg.edges)) :
    ((all_nodes_topo sort sg).map sg.info).Perm sg.vertices := by
  have hperm : (all_nodes_topo sort sg).Perm (List.range sg.vertices.length) :=
    (List.reverse_perm _).trans (sort.perm hsg)
  have hinfo : (List.range sg.vertices.length).map sg.info = sg.vertices := by
    apply List.ext_getElem (by simp)
    intro i hi hi'
    simp [BGraph.info, hi']
  rw [← hinfo]
  exact hperm.map sg.info

theorem mem_topo_iff (hsg : Acyclic (Edge sg.edges)) {v : ℕ} :
    v ∈ all_nodes_topo sort sg ↔ v < sg.vertices.length := by
  unfold all_nodes_topo
  rw [List.mem_reverse, (sort.perm hsg).mem_iff, List.mem_range]

theorem nodup_topo (hsg : Acyclic (Edge sg.edges)) : (all_nodes_topo sort sg).Nodup := by
  unfold all_nodes_topo
  rw [List.nodup_reverse]
  exact (sort.perm hsg).nodup_iff.mpr List.nodup_range

theorem mem_all_nodes_topo (hsg : Acyclic (Edge sg.edges)) {vi : VertexInfo} :
    vi ∈ (all_nodes_topo sort sg).map sg.info ↔ vi ∈ sg.vertices :=
  (map_info_perm hsg).mem_iff

theorem mem_before_of_edge (hsg : Acyclic (Edge sg.edges)) {before after : List ℕ}
    {v w : ℕ} (htopo : all_nodes_topo sort sg = before ++ w :: after)
    (hv : v < sg.vertices.length) (hvw : (v, w) ∈ sg.edges) : v ∈ before := by
  have horder := List.pairwise_reverse.mpr (sort.order hsg (n := sg.vertices.length))
  have hmem : v ∈ all_nodes_topo sort sg := (mem_topo_iff hsg).mpr hv
  rw [htopo, List.mem_append, List.mem_cons] at hmem
  rcases hmem with hbefore | rfl | hafter
  · exact hbefore
  · exact absurd (.single hvw) (hsg v)
  · change (all_nodes_topo sort sg).Pairwise _ at horder
    rw [htopo, List.pairwise_append, List.pairwise_cons] at horder
    exact absurd hvw (horder.2.1.1 v hafter)

/-- The values are those of the vertices, and the outputs the ones that are marked. -/
theorem fromBGL_spec (hsg : Acyclic (Edge sg.edges)) (h : fromBGL sort sg = some ir_graph) :
    (∀ name, ir_graph.hasValue name = true ↔
      ∃ vi ∈ sg.vertices, vi.type = .VALUE ∧ vi.name = name) ∧
    (∀ name, name ∈ ir_graph.output_names ↔
      ∃ vi ∈ sg.vertices, vi.type = .VALUE ∧ vi.is_output = true ∧ vi.name = name) ∧
    (∀ name ∈ ir_graph.input_names,
      ∃ vi ∈ sg.vertices, vi.type = .VALUE ∧ vi.is_input = true ∧ vi.name = name) ∧
    ∀ n, n ∈ ir_graph.nodes ↔ ∃ vi ∈ sg.vertices, vi.type = .NODE ∧ vi.node = n := by
  obtain ⟨is_replicable, rfl⟩ := IRGraph.create_eq h
  refine ⟨fun name => ?_, fun name => ?_, fun name hname => ?_, fun n => ?_⟩
  · rw [IRGraph.hasValue, IRGraph.getValue, List.lookup_isSome_iff]
    simp only [List.mem_map, List.mem_reverse, List.mem_filter, mem_all_nodes_topo hsg]
    constructor
    · rintro ⟨it, ⟨vi, ⟨hvi, htype⟩, rfl⟩, hname⟩
      exact ⟨vi, hvi, of_decide_eq_true htype, (of_decide_eq_true hname).symm⟩
    · rintro ⟨vi, hvi, htype, rfl⟩
      exact ⟨_, ⟨vi, ⟨hvi, decide_eq_true htype⟩, rfl⟩, decide_eq_true rfl⟩
  · simp only [List.mem_map, List.mem_filter, mem_all_nodes_topo hsg, decide_eq_true_eq, and_assoc]
  · simp only [List.mem_append, List.mem_map, List.mem_filter, mem_all_nodes_topo hsg,
      decide_eq_true_eq, Bool.and_eq_true] at hname
    rcases hname with ⟨vi, ⟨⟨hvi, htype⟩, hinput, -⟩, rfl⟩ | ⟨vi, ⟨⟨hvi, htype⟩, hinput, -⟩, rfl⟩
    · exact ⟨vi, hvi, htype, hinput, rfl⟩
    · exact ⟨vi, hvi, htype, hinput, rfl⟩
  · simp only [List.mem_map, List.mem_filter, mem_all_nodes_topo hsg, decide_eq_true_eq, and_assoc]

end FromBGL

end Rannc
