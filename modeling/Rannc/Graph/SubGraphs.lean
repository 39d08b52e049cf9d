import Rannc.Graph.Ranks

/-!
# Subgraphs by rank

A graph with ranks is cut into the subgraphs of its ranks. Where an operator reads a value that is
not on its rank, a connection brings the value there from a rank that has it.
-/
namespace Rannc

open Rannc.Digraph

structure GraphConnection where
  value : String
  src : String
  dest : String
  id : String
  targetId : String
  deriving DecidableEq, Repr

structure BDecomposition where
  graphs : List (String × BGraph)
  connections : List GraphConnection
  order : List String

def MASTER_NAME : String := "MASTER"

/-- The order in which an unordered set is traversed. -/
structure SetOrder where
  order : Finset ℕ → List ℕ
  mem : ∀ {s r}, r ∈ order s ↔ r ∈ s
  nodup : ∀ s, (order s).Nodup

def containsVertex (g : BGraph) (vertices : List ℕ) (tgt : ℕ) : Bool :=
  vertices.any fun v => (g.info v).id = (g.info tgt).id

def findVertexById (g : BGraph) (id : String) : Option ℕ :=
  g.all_nodes.find? fun v => (g.info v).id = id

/-- A vertex of the subgraph, with edges to those that are there already. -/
def addSubVertex (g : BGraph) (st : BGraph × List (String × ℕ)) (v : ℕ) :
    BGraph × List (String × ℕ) :=
  let (subgraph, new_nodes) := st
  let sv := subgraph.vertices.length
  let new_nodes := ((g.info v).id, sv) :: new_nodes
  let subgraph := (g.target_nodes v).foldl
    (fun subgraph out =>
      match new_nodes.lookup (g.info out).id with
      | none => subgraph
      | some w => subgraph.add_edge sv w)
    (subgraph.add_vertex (g.info v))
  (subgraph, new_nodes)

def createSubgraph (sort : TopologicalSort) (g : BGraph) (sub_vertices : List ℕ) : BGraph :=
  let rev_topo_vertices := sort.sort g.vertices.length g.edges
  ((rev_topo_vertices.filter (containsVertex g sub_vertices)).foldl (addSubVertex g) ({}, [])).1

def createSubgraphByRank (sort : TopologicalSort) (g : BGraph) (rank : ℕ) : BGraph :=
  createSubgraph sort g (g.all_nodes.filter fun v => rank ∈ g.ranks v)

/-- All ranks of the graph. -/
def allRanks (g : BGraph) : Finset ℕ := g.all_nodes.toFinset.biUnion g.ranks

def createSubgraphId (orig_name : String) (index : ℕ) : String :=
  orig_name ++ "_p" ++ Nat.repr index

/-- The subgraphs with their ids. -/
def createSubgraphsByRank (sort : TopologicalSort) (order : SetOrder) (g : BGraph) :
    List (String × BGraph) :=
  (order.order (allRanks g)).map fun idx =>
    let sg_id := createSubgraphId g.id idx
    (sg_id, { createSubgraphByRank sort g idx with id := sg_id })

def containsConnection (connections : List GraphConnection) (con : GraphConnection) : Bool :=
  connections.any fun c => c.src = con.src ∧ c.dest = con.dest ∧ c.value = con.value

def hasSameValueConnection (connections : List GraphConnection) (value_name dest_sg : String) :
    Bool :=
  connections.any fun c => c.value = value_name ∧ c.dest = dest_sg

/-- The connections and those of parameters. -/
structure ConnectionLists where
  connections : List GraphConnection
  param_connections : List GraphConnection

def pushConnection (connections : List GraphConnection) (con : GraphConnection) :
    List GraphConnection :=
  if containsConnection connections con then connections else connections ++ [con]

/-- A connection for the rank of a target that the source is not on; the source has to be on some
rank. -/
def addConnection (order : SetOrder) (g : BGraph) (e : ℕ × ℕ) (cons : ConnectionLists)
    (tgt_rank : ℕ) : Option ConnectionLists :=
  let (src, tgt) := e
  if tgt_rank ∈ g.ranks src then some cons
  else do
    let src_rank ← (order.order (g.ranks src)).head?
    let con : GraphConnection := ⟨(g.info src).name, createSubgraphId g.id src_rank,
      createSubgraphId g.id tgt_rank, (g.info src).id, (g.info tgt).id⟩
    if (g.info src).is_param then
      return { cons with param_connections := pushConnection cons.param_connections con }
    else return { cons with connections := pushConnection cons.connections con }

def addConnections (order : SetOrder) (g : BGraph) : Option ConnectionLists :=
  g.edges.foldlM (fun cons e => (order.order (g.ranks e.2)).foldlM (addConnection order g e) cons)
    ⟨[], []⟩

/-- Change the graph with an id. -/
def updateGraph (subgraphs : List (String × BGraph)) (id : String) (f : BGraph → Option BGraph) :
    Option (List (String × BGraph)) :=
  subgraphs.mapM fun it => if it.1 = id then (f it.2).map (it.1, ·) else some it

/-- The value of a connection is added to its destination, where an input receives it. -/
def addReceiveBuffer (g : BGraph) (subgraphs : List (String × BGraph)) (con : GraphConnection) :
    Option (List (String × BGraph)) := do
  let src ← findVertexById g con.id
  let subgraphs ← updateGraph subgraphs con.dest fun tgt_graph => do
    let tgt_src := tgt_graph.vertices.length
    let tgt_graph := tgt_graph.add_vertex (g.info src)
    let tgt_tgt ← findVertexById tgt_graph con.targetId
    return tgt_graph.add_edge tgt_src tgt_tgt
  if (g.info src).is_param then return subgraphs
  else
    let subgraphs ← updateGraph subgraphs con.src fun src_graph => do
      let v_src ← findVertexById src_graph con.id
      return { src_graph with
        vertices := src_graph.vertices.modify v_src fun vi => { vi with is_output := true } }
    updateGraph subgraphs con.dest fun tgt_graph => do
      let v_tgt ← findVertexById tgt_graph con.id
      return { tgt_graph with
        vertices := tgt_graph.vertices.modify v_tgt fun vi => { vi with is_input := true } }

/-- Connections with the master for the inputs and outputs of the whole graph. -/
def addMasterConnection (sg_id : String) (connections : List GraphConnection) (vi : VertexInfo) :
    List GraphConnection :=
  if vi.type ≠ .VALUE then connections
  else
    let connections :=
      if vi.is_orig_input && !vi.is_param && !hasSameValueConnection connections vi.name sg_id then
        connections ++ [⟨vi.name, MASTER_NAME, sg_id, "NA", vi.id⟩]
      else connections
    if vi.is_orig_output then connections ++ [⟨vi.name, sg_id, MASTER_NAME, vi.id, "NA"⟩]
    else connections

def createSubGraphs (sort : TopologicalSort) (order : SetOrder) (g : BGraph) :
    Option BDecomposition := do
  let subgraphs := createSubgraphsByRank sort order g
  let cons ← addConnections order g
  let subgraphs ← (cons.connections ++ cons.param_connections).foldlM (addReceiveBuffer g) subgraphs
  let connections := subgraphs.foldl
    (fun connections it => it.2.vertices.foldl (addMasterConnection it.1) connections)
    cons.connections
  return ⟨subgraphs, connections, subgraphs.map Prod.fst⟩

theorem createSubgraphId_inj {orig_name : String} {i j : ℕ} :
    createSubgraphId orig_name i = createSubgraphId orig_name j ↔ i = j :=
  append_repr_inj

section Ids

variable {g : BGraph} (hids : (g.vertices.map VertexInfo.id).Nodup)

include hids

theorem BGraph.id_inj {v w : ℕ} (hv : v < g.vertices.length) (hw : w < g.vertices.length)
    (h : (g.info v).id = (g.info w).id) : v = w := by
  have hv' : v < (g.vertices.map VertexInfo.id).length := by simpa using hv
  have hw' : w < (g.vertices.map VertexInfo.id).length := by simpa using hw
  have hget : (g.vertices.map VertexInfo.id)[v] = (g.vertices.map VertexInfo.id)[w] := by
    simpa [info, hv, hw] using h
  exact (List.Nodup.getElem_inj_iff hids).mp hget

theorem BGraph.findVertexById_id {v : ℕ} (hv : v < g.vertices.length) :
    findVertexById g (g.info v).id = some v := by
  unfold findVertexById
  cases hfind : g.all_nodes.find? fun w => decide ((g.info w).id = (g.info v).id) with
  | none =>
    have hne := List.find?_eq_none.mp hfind v (List.mem_range.mpr hv)
    simp at hne
  | some w =>
    have hw : w < g.vertices.length := List.mem_range.mp (List.mem_of_find?_eq_some hfind)
    have hid := List.find?_some hfind
    rw [BGraph.id_inj hids hw hv (by simpa using hid)]

end Ids

namespace BGraph.Flow

variable {g : BGraph}

theorem id_inj (hg : g.Flow) {v w : ℕ} (hv : v < g.vertices.length) (hw : w < g.vertices.length)
    (h : (g.info v).id = (g.info w).id) : v = w :=
  BGraph.id_inj hg.ids hv hw h

theorem name_inj (hg : g.Flow) {v w : ℕ} (hv : v < g.vertices.length)
    (hw : w < g.vertices.length) (hvtype : (g.info v).type = .VALUE)
    (hwtype : (g.info w).type = .VALUE) (h : (g.info v).name = (g.info w).name) : v = w :=
  hg.id_inj hv hw (by rw [hg.value_id hv hvtype, hg.value_id hw hwtype, h])

theorem findVertexById_id (hg : g.Flow) {v : ℕ} (hv : v < g.vertices.length) :
    findVertexById g (g.info v).id = some v :=
  BGraph.findVertexById_id hg.ids hv

end BGraph.Flow

section CreateSubgraph

variable {g : BGraph} {sort : TopologicalSort}

theorem addSubVertex_vertices (st : BGraph × List (String × ℕ)) (v : ℕ) :
    (addSubVertex g st v).1.vertices = st.1.vertices ++ [g.info v] := by
  apply List.foldlRecOn (motive := fun subgraph : BGraph =>
    subgraph.vertices = st.1.vertices ++ [g.info v])
  · rfl
  · intro subgraph hvertices out _
    split
    · exact hvertices
    · exact hvertices

theorem foldl_addSubVertex_vertices (vs : List ℕ) (st : BGraph × List (String × ℕ)) :
    (vs.foldl (addSubVertex g) st).1.vertices = st.1.vertices ++ vs.map g.info := by
  induction vs generalizing st with
  | nil => simp
  | cons v vs ih => simp [ih, addSubVertex_vertices]

theorem containsVertex_iff (hg : g.Flow) {vertices : List ℕ} {tgt : ℕ}
    (hvertices : ∀ v ∈ vertices, v < g.vertices.length) (htgt : tgt < g.vertices.length) :
    containsVertex g vertices tgt = true ↔ tgt ∈ vertices := by
  simp only [containsVertex, List.any_eq_true, decide_eq_true_eq]
  constructor
  · rintro ⟨v, hv, hid⟩
    rwa [← hg.id_inj (hvertices v hv) htgt hid]
  · exact fun h => ⟨tgt, h, rfl⟩

theorem createSubgraphByRank_perm (hg : g.Flow) (r : ℕ) :
    (createSubgraphByRank sort g r).vertices.Perm
      ((g.all_nodes.filter fun v => r ∈ g.ranks v).map g.info) := by
  have hperm := sort.perm (n := g.vertices.length) hg.acyclic
  have hsub : ∀ v ∈ g.all_nodes.filter fun v => r ∈ g.ranks v, v < g.vertices.length := by
    intro v hv
    exact List.mem_range.mp (List.mem_of_mem_filter hv)
  simp only [createSubgraphByRank, createSubgraph, foldl_addSubVertex_vertices, List.nil_append]
  refine ((hperm.filter _).trans (List.Perm.of_eq ?_)).map _
  refine List.filter_congr fun v hv => ?_
  have hv' : v < g.vertices.length := List.mem_range.mp hv
  rw [Bool.eq_iff_iff, containsVertex_iff hg hsub hv']
  simp [BGraph.all_nodes, hv']

theorem mem_createSubgraphByRank (hg : g.Flow) {r : ℕ} {vi : VertexInfo} :
    vi ∈ (createSubgraphByRank sort g r).vertices ↔
      ∃ v < g.vertices.length, r ∈ g.ranks v ∧ g.info v = vi := by
  simp [(createSubgraphByRank_perm hg r).mem_iff, BGraph.all_nodes, and_assoc]

theorem mem_createSubgraphsByRank {order : SetOrder} {it : String × BGraph}
    (h : it ∈ createSubgraphsByRank sort order g) :
    ∃ r ∈ allRanks g, it.1 = createSubgraphId g.id r ∧
      it.2.vertices = (createSubgraphByRank sort g r).vertices := by
  obtain ⟨r, hr, rfl⟩ := List.mem_map.mp h
  exact ⟨r, order.mem.mp hr, rfl, rfl⟩

theorem createSubgraphsByRank_of_mem (sort : TopologicalSort) (order : SetOrder) {r : ℕ}
    (hr : r ∈ allRanks g) :
    ∃ sg, (createSubgraphId g.id r, sg) ∈ createSubgraphsByRank sort order g := by
  exact ⟨_, List.mem_map.mpr ⟨r, order.mem.mpr hr, rfl⟩⟩

theorem mem_allRanks {r : ℕ} :
    r ∈ allRanks g ↔ ∃ v < g.vertices.length, r ∈ g.ranks v := by
  simp [allRanks, BGraph.all_nodes]

end CreateSubgraph

/-- A vertex on a rank that is reached by an edge from a vertex that is not on it. -/
structure Crossing (g : BGraph) (u v r : ℕ) : Prop where
  edge : (u, v) ∈ g.edges
  target : r ∈ g.ranks v
  source : r ∉ g.ranks u

/-- The connection that brings a value to a rank. -/
def crossingConnection (g : BGraph) (u v r r' : ℕ) : GraphConnection :=
  ⟨(g.info u).name, createSubgraphId g.id r', createSubgraphId g.id r, (g.info u).id,
    (g.info v).id⟩

/-- A connection that brings the value of a vertex to a rank, from a rank that has it. -/
def Delivers (g : BGraph) (u r : ℕ) (con : GraphConnection) : Prop :=
  con.value = (g.info u).name ∧ con.dest = createSubgraphId g.id r ∧
    ∃ r' ∈ g.ranks u, con.src = createSubgraphId g.id r'

/-- The connections there are, for the edges and ranks that were looked at. -/
structure ConnectionsOk (order : SetOrder) (g : BGraph) (done : ℕ × ℕ → ℕ → Prop)
    (cons : ConnectionLists) : Prop where
  sound : ∀ con ∈ cons.connections, ∃ u v r r', Crossing g u v r ∧
    (order.order (g.ranks u)).head? = some r' ∧ (g.info u).is_param = false ∧
    con = crossingConnection g u v r r'
  param_sound : ∀ con ∈ cons.param_connections, ∃ u v r r', Crossing g u v r ∧
    (order.order (g.ranks u)).head? = some r' ∧ (g.info u).is_param = true ∧
    con = crossingConnection g u v r r'
  once : cons.connections.Pairwise fun c c' =>
    ¬(c.src = c'.src ∧ c.dest = c'.dest ∧ c.value = c'.value)
  complete : ∀ u v r, done (u, v) r → Crossing g u v r →
    ∃ con ∈ if (g.info u).is_param then cons.param_connections else cons.connections,
      Delivers g u r con

section Connections

variable {g : BGraph} {order : SetOrder} {cons cons' : ConnectionLists}

theorem mem_pushConnection {connections : List GraphConnection} {con con' : GraphConnection}
    (h : con' ∈ pushConnection connections con) : con' ∈ connections ∨ con' = con := by
  unfold pushConnection at h
  split_ifs at h
  · exact Or.inl h
  · simpa using h

theorem subset_pushConnection (connections : List GraphConnection) (con : GraphConnection) :
    connections ⊆ pushConnection connections con := by
  unfold pushConnection
  split_ifs
  · exact fun _ h => h
  · exact fun _ h => List.mem_append_left _ h

theorem pushConnection_same (connections : List GraphConnection) (con : GraphConnection) :
    ∃ c ∈ pushConnection connections con,
      c.src = con.src ∧ c.dest = con.dest ∧ c.value = con.value := by
  unfold pushConnection
  split_ifs with h
  · simpa [containsConnection] using h
  · exact ⟨con, by simp, rfl, rfl, rfl⟩

theorem pushConnection_once {connections : List GraphConnection} (con : GraphConnection)
    (h : connections.Pairwise fun c c' =>
      ¬(c.src = c'.src ∧ c.dest = c'.dest ∧ c.value = c'.value)) :
    (pushConnection connections con).Pairwise fun c c' =>
      ¬(c.src = c'.src ∧ c.dest = c'.dest ∧ c.value = c'.value) := by
  unfold pushConnection
  split_ifs with hcon
  · exact h
  · refine List.pairwise_append.mpr ⟨h, List.pairwise_singleton _ _, fun c hc c' hc' hsame => ?_⟩
    obtain rfl := List.mem_singleton.mp hc'
    exact hcon (List.any_eq_true.mpr ⟨c, hc, decide_eq_true hsame⟩)

theorem ConnectionsOk.mono {done done' : ℕ × ℕ → ℕ → Prop} (h : ConnectionsOk order g done cons)
    (hdone : ∀ u v r, done' (u, v) r → Crossing g u v r → done (u, v) r) :
    ConnectionsOk order g done' cons :=
  ⟨h.sound, h.param_sound, h.once, fun u v r hd hc => h.complete u v r (hdone u v r hd hc) hc⟩

theorem addConnection_ok {done : ℕ × ℕ → ℕ → Prop} {e : ℕ × ℕ} {tgt_rank : ℕ}
    (h : ConnectionsOk order g done cons) (he : e ∈ g.edges) (htgt : tgt_rank ∈ g.ranks e.2)
    (hstep : addConnection order g e cons tgt_rank = some cons') :
    ConnectionsOk order g (fun e' r => done e' r ∨ e' = e ∧ r = tgt_rank) cons' := by
  obtain ⟨src, tgt⟩ := e
  unfold addConnection at hstep
  dsimp only at hstep htgt
  split_ifs at hstep with hsrc hparam
  · obtain rfl := Option.some.inj hstep
    refine h.mono fun u v r hd hc => hd.resolve_right ?_
    rintro ⟨heq, rfl⟩
    obtain ⟨rfl, rfl⟩ := Prod.mk.inj heq
    exact hc.source hsrc
  all_goals
    obtain ⟨src_rank, hhead, hcons'⟩ := Option.bind_eq_some_iff.mp hstep
    have hsrc_rank : src_rank ∈ g.ranks src := order.mem.mp (List.mem_of_head? hhead)
    have hcross : Crossing g src tgt tgt_rank := ⟨he, htgt, hsrc⟩
    have hcon := fun connections =>
      pushConnection_same connections (crossingConnection g src tgt tgt_rank src_rank)
    obtain rfl := Option.some.inj hcons'
  · refine ⟨h.sound, fun con hmem => ?_, h.once, fun u v r hd hc => ?_⟩
    · rcases mem_pushConnection hmem with hmem | rfl
      · exact h.param_sound con hmem
      · exact ⟨src, tgt, tgt_rank, src_rank, hcross, hhead, hparam, rfl⟩
    · rcases hd with hd | ⟨heq, rfl⟩
      · obtain ⟨con, hmem, hdel⟩ := h.complete u v r hd hc
        refine ⟨con, ?_, hdel⟩
        split_ifs with hu
        · rw [if_pos hu] at hmem
          exact subset_pushConnection _ _ hmem
        · rwa [if_neg hu] at hmem
      · obtain ⟨rfl, rfl⟩ := Prod.mk.inj heq
        obtain ⟨c, hc, hcsrc, hcdest, hcvalue⟩ := hcon cons.param_connections
        rw [if_pos hparam]
        exact ⟨c, hc, hcvalue, hcdest, src_rank, hsrc_rank, hcsrc⟩
  · rw [Bool.not_eq_true] at hparam
    refine ⟨fun con hmem => ?_, h.param_sound, pushConnection_once _ h.once,
      fun u v r hd hc => ?_⟩
    · rcases mem_pushConnection hmem with hmem | rfl
      · exact h.sound con hmem
      · exact ⟨src, tgt, tgt_rank, src_rank, hcross, hhead, hparam, rfl⟩
    · rcases hd with hd | ⟨heq, rfl⟩
      · obtain ⟨con, hmem, hdel⟩ := h.complete u v r hd hc
        refine ⟨con, ?_, hdel⟩
        split_ifs with hu
        · rwa [if_pos hu] at hmem
        · rw [if_neg hu] at hmem
          exact subset_pushConnection _ _ hmem
      · obtain ⟨rfl, rfl⟩ := Prod.mk.inj heq
        obtain ⟨c, hc, hcsrc, hcdest, hcvalue⟩ := hcon cons.connections
        rw [if_neg (by simp [hparam])]
        exact ⟨c, hc, hcvalue, hcdest, src_rank, hsrc_rank, hcsrc⟩

theorem addConnectionRanks_ok {done : ℕ × ℕ → ℕ → Prop} {e : ℕ × ℕ} {ranks : List ℕ}
    (h : ConnectionsOk order g done cons) (he : e ∈ g.edges) (hranks : ∀ r ∈ ranks, r ∈ g.ranks e.2)
    (hsteps : ranks.foldlM (addConnection order g e) cons = some cons') :
    ConnectionsOk order g (fun e' r => done e' r ∨ e' = e ∧ r ∈ ranks) cons' := by
  induction ranks generalizing cons done with
  | nil =>
    obtain rfl := Option.some.inj hsteps
    exact h.mono fun u v r hd _ => by simpa using hd
  | cons rank ranks ih =>
    rw [List.foldlM_cons] at hsteps
    obtain ⟨cons₁, hstep, hrest⟩ := Option.bind_eq_some_iff.mp hsteps
    have hcons₁ := addConnection_ok h he (hranks rank List.mem_cons_self) hstep
    have hcons' := ih hcons₁ (fun r hr => hranks r (List.mem_cons_of_mem _ hr)) hrest
    refine hcons'.mono fun u v r hd _ => ?_
    rw [List.mem_cons] at hd
    tauto

theorem addConnections_ok (h : addConnections order g = some cons) :
    ConnectionsOk order g (fun _ _ => True) cons := by
  have hrun : ∀ (edges : List (ℕ × ℕ)) (done : ℕ × ℕ → ℕ → Prop) (cons₀ : ConnectionLists),
      ConnectionsOk order g done cons₀ → edges ⊆ g.edges →
      edges.foldlM (fun cons e => (order.order (g.ranks e.2)).foldlM (addConnection order g e) cons)
        cons₀ = some cons →
      ConnectionsOk order g (fun e r => done e r ∨ e ∈ edges ∧ r ∈ g.ranks e.2) cons := by
    intro edges
    induction edges with
    | nil =>
      intro done cons₀ h₀ _ hsteps
      obtain rfl := Option.some.inj hsteps
      exact h₀.mono fun u v r hd _ => by simpa using hd
    | cons e edges ih =>
      intro done cons₀ h₀ hsub hsteps
      rw [List.foldlM_cons] at hsteps
      obtain ⟨cons₁, hstep, hrest⟩ := Option.bind_eq_some_iff.mp hsteps
      have hcons₁ := addConnectionRanks_ok h₀ (hsub List.mem_cons_self)
        (fun r hr => order.mem.mp hr) hstep
      have hcons := ih _ _ hcons₁ (fun e he => hsub (List.mem_cons_of_mem _ he)) hrest
      refine hcons.mono fun u v r hd _ => ?_
      rcases hd with hd | ⟨hmem, hr⟩
      · exact Or.inl (Or.inl hd)
      · rcases List.mem_cons.mp hmem with rfl | hmem
        · exact Or.inl (Or.inr ⟨rfl, order.mem.mpr hr⟩)
        · exact Or.inr ⟨hmem, hr⟩
  have hstart : ConnectionsOk order g (fun _ _ => False) ⟨[], []⟩ := ⟨nofun, nofun, .nil, nofun⟩
  refine (hrun g.edges _ _ hstart (fun _ h => h) h).mono fun u v r _ hc => ?_
  exact Or.inr ⟨hc.edge, hc.target⟩

end Connections

/-- A vertex without the marks of inputs and outputs of a subgraph. -/
def VertexInfo.core (vi : VertexInfo) : VertexInfo :=
  { vi with is_input := false, is_output := false }

def BGraph.content (g : BGraph) : List VertexInfo := g.vertices.map VertexInfo.core

def contents (subgraphs : List (String × BGraph)) : List (String × List VertexInfo) :=
  subgraphs.map fun it => (it.1, it.2.content)

/-- The vertices that connections bring to a subgraph. -/
def receivedVertices (g : BGraph) (connections : List GraphConnection) (id : String) :
    List VertexInfo :=
  (connections.filter fun con => con.dest = id).filterMap fun con =>
    (findVertexById g con.id).map fun v => (g.info v).core

section Receive

variable {g : BGraph} {subgraphs subgraphs' : List (String × BGraph)}

theorem BGraph.content_add_vertex (g : BGraph) (vi : VertexInfo) :
    (g.add_vertex vi).content = g.content ++ [vi.core] := by
  simp [content, add_vertex]

theorem BGraph.content_modify (g : BGraph) (v : ℕ) (f : VertexInfo → VertexInfo)
    (hf : ∀ vi, (f vi).core = vi.core) :
    ({ g with vertices := g.vertices.modify v f } : BGraph).content = g.content := by
  refine List.ext_getElem (by simp [content]) fun i hi _ => ?_
  simp only [content, List.getElem_map, List.getElem_modify]
  split_ifs
  · exact hf _
  · rfl

theorem updateGraph_contents {id : String} {f : BGraph → Option BGraph} (extra : List VertexInfo)
    (hf : ∀ sg sg', f sg = some sg' → sg'.content = sg.content ++ extra)
    (h : updateGraph subgraphs id f = some subgraphs') :
    contents subgraphs' =
      (contents subgraphs).map fun it => if it.1 = id then (it.1, it.2 ++ extra) else it := by
  induction subgraphs generalizing subgraphs' with
  | nil =>
    obtain rfl : subgraphs' = [] := by simpa [updateGraph] using h.symm
    rfl
  | cons it subgraphs ih =>
    simp only [updateGraph, List.mapM_cons] at h
    obtain ⟨it', hit, h⟩ := Option.bind_eq_some_iff.mp h
    obtain ⟨rest, hrest, h⟩ := Option.bind_eq_some_iff.mp h
    obtain rfl := Option.some.inj h
    have hhead : (it'.1, it'.2.content) = if it.1 = id then (it.1, it.2.content ++ extra) else
        (it.1, it.2.content) := by
      split_ifs at hit ⊢ with hid
      · obtain ⟨sg', hsg', rfl⟩ := Option.map_eq_some_iff.mp hit
        rw [hf _ _ hsg']
      · rw [← Option.some.inj hit]
    have htail := ih hrest
    simp only [contents] at htail
    simp only [contents, List.map_cons, htail, hhead]

theorem addReceiveBuffer_contents {con : GraphConnection}
    (h : addReceiveBuffer g subgraphs con = some subgraphs') :
    contents subgraphs' =
      (contents subgraphs).map fun it => (it.1, it.2 ++ receivedVertices g [con] it.1) := by
  obtain ⟨src, hsrc, h⟩ := Option.bind_eq_some_iff.mp h
  obtain ⟨subgraphs₁, hadd, h⟩ := Option.bind_eq_some_iff.mp h
  have hcontents₁ := updateGraph_contents [(g.info src).core] (fun sg sg' hsg => by
    obtain ⟨tgt, -, hsg⟩ := Option.bind_eq_some_iff.mp hsg
    obtain rfl := Option.some.inj hsg
    exact BGraph.content_add_vertex sg _) hadd
  have hmarks : contents subgraphs' = contents subgraphs₁ := by
    split_ifs at h with hparam
    · obtain rfl := Option.some.inj h
      rfl
    · obtain ⟨subgraphs₂, hout, hin⟩ := Option.bind_eq_some_iff.mp h
      have hcontents₂ := updateGraph_contents [] (fun sg sg' hsg => by
        obtain ⟨v, -, hsg⟩ := Option.bind_eq_some_iff.mp hsg
        obtain rfl := Option.some.inj hsg
        rw [List.append_nil]
        exact BGraph.content_modify sg v _ fun _ => rfl) hout
      have hcontents₃ := updateGraph_contents [] (fun sg sg' hsg => by
        obtain ⟨v, -, hsg⟩ := Option.bind_eq_some_iff.mp hsg
        obtain rfl := Option.some.inj hsg
        rw [List.append_nil]
        exact BGraph.content_modify sg v _ fun _ => rfl) hin
      rw [hcontents₃, hcontents₂]
      simp
  rw [hmarks, hcontents₁]
  refine List.map_congr_left fun it _ => ?_
  by_cases hid : it.1 = con.dest
  · simp [receivedVertices, hid, hsrc]
  · have hid' : con.dest ≠ it.1 := Ne.symm hid
    simp [receivedVertices, hid, hid']

theorem addReceiveBuffers_contents {connections : List GraphConnection}
    (h : connections.foldlM (addReceiveBuffer g) subgraphs = some subgraphs') :
    contents subgraphs' =
      (contents subgraphs).map fun it => (it.1, it.2 ++ receivedVertices g connections it.1) := by
  induction connections generalizing subgraphs with
  | nil =>
    obtain rfl := Option.some.inj h
    simp [receivedVertices]
  | cons con connections ih =>
    rw [List.foldlM_cons] at h
    obtain ⟨subgraphs₁, hstep, hrest⟩ := Option.bind_eq_some_iff.mp h
    rw [ih hrest, addReceiveBuffer_contents hstep, List.map_map]
    refine List.map_congr_left fun it _ => ?_
    have hsplit : receivedVertices g (con :: connections) it.1 =
        receivedVertices g [con] it.1 ++ receivedVertices g connections it.1 := by
      by_cases hid : con.dest = it.1
      · cases hfind : findVertexById g con.id <;> simp [receivedVertices, hid, hfind]
      · simp [receivedVertices, hid]
    simp [hsplit]

end Receive

section Members

variable {g : BGraph} {sort : TopologicalSort} {order : SetOrder} {d : BDecomposition}

theorem createSubGraphs_spec (h : createSubGraphs sort order g = some d) :
    ∃ cons, addConnections order g = some cons ∧
      contents d.graphs = (contents (createSubgraphsByRank sort order g)).map (fun it =>
        (it.1, it.2 ++
          receivedVertices g (cons.connections ++ cons.param_connections) it.1)) ∧
      d.connections = d.graphs.foldl (fun connections it =>
        it.2.vertices.foldl (addMasterConnection it.1) connections) cons.connections := by
  obtain ⟨cons, hcons, h⟩ := Option.bind_eq_some_iff.mp h
  obtain ⟨subgraphs, hsubgraphs, h⟩ := Option.bind_eq_some_iff.mp h
  obtain rfl := Option.some.inj h
  exact ⟨cons, hcons, addReceiveBuffers_contents hsubgraphs, rfl⟩

/-- Everything that is received is the source of an edge to the rank. -/
theorem mem_receivedVertices {cons : ConnectionLists} {done : ℕ × ℕ → ℕ → Prop} {r : ℕ}
    {x : VertexInfo} (hg : g.Flow) (hcons : ConnectionsOk order g done cons)
    (hx : x ∈ receivedVertices g (cons.connections ++ cons.param_connections)
      (createSubgraphId g.id r)) :
    ∃ u v, Crossing g u v r ∧ (g.info u).core = x := by
  obtain ⟨con, hmem, hfind⟩ := List.mem_filterMap.mp hx
  obtain ⟨hmem, hdest⟩ := List.mem_filter.mp hmem
  have hsound : ∃ u v r r', Crossing g u v r ∧ con = crossingConnection g u v r r' := by
    rcases List.mem_append.mp hmem with hmem | hmem
    · obtain ⟨u, v, r, r', hc, -, -, heq⟩ := hcons.sound con hmem
      exact ⟨u, v, r, r', hc, heq⟩
    · obtain ⟨u, v, r, r', hc, -, -, heq⟩ := hcons.param_sound con hmem
      exact ⟨u, v, r, r', hc, heq⟩
  obtain ⟨u, v, s, r', hc, rfl⟩ := hsound
  obtain rfl : s = r := createSubgraphId_inj.mp (of_decide_eq_true hdest)
  have hu : u < g.vertices.length := (hg.edge hc.edge).1.trans (hg.edge hc.edge).2.1
  have hid : findVertexById g (crossingConnection g u v s r').id = some u :=
    hg.findVertexById_id hu
  rw [hid] at hfind
  exact ⟨u, v, hc, Option.some.inj hfind⟩

theorem receivedVertices_of_crossing {cons : ConnectionLists} {u v r : ℕ} (hg : g.Flow)
    (hcons : ConnectionsOk order g (fun _ _ => True) cons)
    (hname : ∀ {u' v' r'}, Crossing g u' v' r' → (g.info u').name = (g.info u).name → u' = u)
    (hc : Crossing g u v r) :
    (g.info u).core ∈ receivedVertices g (cons.connections ++ cons.param_connections)
      (createSubgraphId g.id r) := by
  obtain ⟨con, hmem, hvalue, hdest, -⟩ := hcons.complete u v r trivial hc
  have hall : con ∈ cons.connections ++ cons.param_connections := by
    split_ifs at hmem
    · exact List.mem_append_right _ hmem
    · exact List.mem_append_left _ hmem
  have hsound : ∃ u' v' s r', Crossing g u' v' s ∧ con = crossingConnection g u' v' s r' := by
    rcases List.mem_append.mp hall with hmem | hmem
    · obtain ⟨u', v', s, r', hc, -, -, heq⟩ := hcons.sound con hmem
      exact ⟨u', v', s, r', hc, heq⟩
    · obtain ⟨u', v', s, r', hc, -, -, heq⟩ := hcons.param_sound con hmem
      exact ⟨u', v', s, r', hc, heq⟩
  obtain ⟨u', v', s, r', hc', rfl⟩ := hsound
  obtain rfl : u' = u := hname hc' hvalue
  have hu : u' < g.vertices.length := (hg.edge hc'.edge).1.trans (hg.edge hc'.edge).2.1
  refine List.mem_filterMap.mpr ⟨_, List.mem_filter.mpr ⟨hall, decide_eq_true hdest⟩, ?_⟩
  have hid : findVertexById g (crossingConnection g u' v' s r').id = some u' :=
    hg.findVertexById_id hu
  rw [hid]
  rfl

/-- A subgraph has the vertices of its rank and those it receives. -/
theorem createSubGraphs_mem (hg : g.Flow) {cons : ConnectionLists}
    (hcontents : contents d.graphs = (contents (createSubgraphsByRank sort order g)).map
      fun it => (it.1, it.2 ++
        receivedVertices g (cons.connections ++ cons.param_connections) it.1))
    {it : String × BGraph} (hit : it ∈ d.graphs) :
    ∃ r ∈ allRanks g, it.1 = createSubgraphId g.id r ∧ ∀ x, x ∈ it.2.content ↔
      (∃ u < g.vertices.length, r ∈ g.ranks u ∧ (g.info u).core = x) ∨
      x ∈ receivedVertices g (cons.connections ++ cons.param_connections)
        (createSubgraphId g.id r) := by
  have hmem : (it.1, it.2.content) ∈ contents d.graphs := List.mem_map.mpr ⟨it, hit, rfl⟩
  rw [hcontents] at hmem
  obtain ⟨it₁, hit₁, heq⟩ := List.mem_map.mp hmem
  obtain ⟨it₀, hit₀, rfl⟩ := List.mem_map.mp hit₁
  obtain ⟨r, hr, hid, hvertices⟩ := mem_createSubgraphsByRank hit₀
  obtain ⟨heq₁, heq₂⟩ := Prod.mk.inj heq
  refine ⟨r, hr, heq₁.symm.trans hid, fun x => ?_⟩
  rw [← heq₂, List.mem_append]
  dsimp only
  rw [hid, BGraph.content, hvertices, List.mem_map]
  refine or_congr_left ⟨?_, ?_⟩
  · rintro ⟨vi, hvi, rfl⟩
    obtain ⟨u, hu, hru, rfl⟩ := (mem_createSubgraphByRank hg).mp hvi
    exact ⟨u, hu, hru, rfl⟩
  · rintro ⟨u, hu, hru, rfl⟩
    exact ⟨g.info u, (mem_createSubgraphByRank hg).mpr ⟨u, hu, hru, rfl⟩, rfl⟩

/-- Every rank has its subgraph. -/
theorem createSubGraphs_of_mem {cons : ConnectionLists}
    (hcontents : contents d.graphs = (contents (createSubgraphsByRank sort order g)).map
      fun it => (it.1, it.2 ++
        receivedVertices g (cons.connections ++ cons.param_connections) it.1))
    {r : ℕ} (hr : r ∈ allRanks g) : ∃ sg, (createSubgraphId g.id r, sg) ∈ d.graphs := by
  obtain ⟨sg, hsg⟩ := createSubgraphsByRank_of_mem sort order hr
  have hmem : createSubgraphId g.id r ∈ (contents d.graphs).map Prod.fst := by
    rw [hcontents]
    simp only [contents, List.map_map]
    exact List.mem_map.mpr ⟨_, hsg, rfl⟩
  obtain ⟨c, hc, hfst⟩ := List.mem_map.mp hmem
  obtain ⟨it, hit, rfl⟩ := List.mem_map.mp hc
  refine ⟨it.2, ?_⟩
  rw [← hfst]
  exact hit

theorem subset_addMasterConnection (sg_id : String) (connections : List GraphConnection)
    (vi : VertexInfo) : connections ⊆ addMasterConnection sg_id connections vi := by
  intro con hcon
  unfold addMasterConnection
  split_ifs <;> simp [hcon]

theorem subset_masterConnections (subgraphs : List (String × BGraph))
    (connections : List GraphConnection) : connections ⊆ subgraphs.foldl (fun connections it =>
      it.2.vertices.foldl (addMasterConnection it.1) connections) connections := by
  have hinner : ∀ (sg_id : String) (vertices : List VertexInfo)
      (connections : List GraphConnection),
      connections ⊆ vertices.foldl (addMasterConnection sg_id) connections := by
    intro sg_id vertices
    induction vertices with
    | nil => exact fun _ _ h => h
    | cons vi vertices ih =>
      exact fun connections _ h => ih _ (subset_addMasterConnection sg_id connections vi h)
  induction subgraphs generalizing connections with
  | nil => exact fun _ h => h
  | cons it subgraphs ih =>
    exact fun _ h => ih _ (hinner it.1 it.2.vertices connections h)

end Members

end Rannc
