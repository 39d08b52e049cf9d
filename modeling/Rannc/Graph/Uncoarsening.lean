import Rannc.Graph.EdgeSizes

/-!
# Going down the levels

A node of the level below is replaced by its own sub nodes, and an edge by its own sub edges. Two
coarse graphs on top of each other become one on the lowest of the three. After each level that it
goes down the graph is adjusted, until its nodes are made of operators only.
-/
namespace Rannc

namespace MLNode

/-- How often nodes were merged into the node. -/
def getLevel : MLNode → ℕ
  | ⟨_, _, [], _⟩ => 0
  | ⟨_, _, sn :: _, _⟩ => sn.getLevel + 1

mutual

/-- The nodes of the lowest level that a node is made of. -/
def atomicNodes : MLNode → List MLNode
  | ⟨id, graph, [], sub_edges⟩ => [⟨id, graph, [], sub_edges⟩]
  | ⟨_, _, sn :: sub_nodes, _⟩ => sn.atomicNodes ++ atomicNodesOf sub_nodes

def atomicNodesOf : List MLNode → List MLNode
  | [] => []
  | sn :: sub_nodes => sn.atomicNodes ++ atomicNodesOf sub_nodes

end

end MLNode

def MLGraph.getLevel (g : MLGraph) : ℤ :=
  match g.nodes with
  | [] => -1
  | n :: _ => n.getLevel

def doToLowerLevel (ml_node : MLNode) : MLNode :=
  { ml_node with
    sub_nodes := ml_node.sub_nodes.flatMap MLNode.sub_nodes
    sub_edges := ml_node.sub_nodes.flatMap MLNode.sub_edges ++
      ml_node.sub_edges.flatMap MLEdge.sub_edges }

def toLowerLevel (ml_graph : MLGraph) : MLGraph where
  nodes := ml_graph.nodes.map doToLowerLevel
  edges := ml_graph.edges.map fun e =>
    { e with
      sub_edges := e.sub_edges.flatMap MLEdge.sub_edges
      base_edges := e.sub_edges.flatMap MLEdge.base_edges }

namespace MLPartitioner

variable (p : MLPartitioner) (orders : AdjustOrders)

/-- The loop, which stops without a result after as many turns as `fuel` says. -/
def uncoarsenLoop : ℕ → MLGraph → ℕ → Option (MLGraph × ℕ)
  | 0, _, _ => none
  | fuel + 1, graph, used =>
    if graph.getLevel > 1 then do
      let (graph, used) ← p.adjustBoundaries orders (toLowerLevel graph) used
      uncoarsenLoop fuel graph used
    else some (graph, used)

def uncoarsen (fuel : ℕ) (ml_graph : MLGraph) (used : ℕ) : Option (MLGraph × ℕ) := do
  let (graph, used) ← p.adjustBoundaries orders ml_graph used
  p.uncoarsenLoop orders fuel graph used

/-- A number of turns. -/
def uncoarsenTurns : ℕ → MLGraph → ℕ → Option (MLGraph × ℕ)
  | 0, graph, used => some (graph, used)
  | turns + 1, graph, used => do
    let (graph, used) ← p.adjustBoundaries orders (toLowerLevel graph) used
    uncoarsenTurns turns graph used

end MLPartitioner

namespace MLNode

/-- All operators of the node are as deep as this. -/
def Uniform : ℕ → MLNode → Prop
  | 0, n => n.sub_nodes = []
  | L + 1, n => n.sub_nodes ≠ [] ∧ ∀ sn ∈ n.sub_nodes, sn.Uniform L

variable {n : MLNode} {L : ℕ}

theorem Uniform.getLevel_eq (h : n.Uniform L) : n.getLevel = L := by
  induction L generalizing n with
  | zero =>
    obtain ⟨id, graph, sub_nodes, sub_edges⟩ := n
    obtain rfl : sub_nodes = [] := h
    rw [getLevel]
  | succ L ih =>
    obtain ⟨id, graph, sub_nodes, sub_edges⟩ := n
    obtain ⟨hne, hsub⟩ := h
    cases sub_nodes with
    | nil => exact absurd rfl hne
    | cons sn sub_nodes => rw [getLevel, ih (hsub sn List.mem_cons_self)]

theorem Uniform.toLower (h : n.Uniform (L + 2)) : (doToLowerLevel n).Uniform (L + 1) := by
  obtain ⟨hne, hsub⟩ := h
  constructor
  · obtain ⟨sn, hsn⟩ := List.exists_mem_of_ne_nil _ hne
    obtain ⟨ssn, hssn⟩ := List.exists_mem_of_ne_nil _ (hsub sn hsn).1
    exact List.ne_nil_of_mem (List.mem_flatMap.mpr ⟨sn, hsn, hssn⟩)
  · intro ssn hssn
    obtain ⟨sn, hsn, hssn⟩ := List.mem_flatMap.mp hssn
    exact (hsub sn hsn).2 ssn hssn

theorem atomicNodesOf_eq (nodes : List MLNode) :
    atomicNodesOf nodes = nodes.flatMap atomicNodes := by
  induction nodes with
  | nil => rw [atomicNodesOf, List.flatMap_nil]
  | cons n nodes ih => rw [atomicNodesOf, ih, List.flatMap_cons]

theorem atomicNodes_eq (h : n.sub_nodes ≠ []) :
    n.atomicNodes = n.sub_nodes.flatMap atomicNodes := by
  obtain ⟨id, graph, sub_nodes, sub_edges⟩ := n
  cases sub_nodes with
  | nil => exact absurd rfl h
  | cons sn sub_nodes => rw [atomicNodes, atomicNodesOf_eq, List.flatMap_cons]

theorem Uniform.atomicNodes_toLower (h : n.Uniform (L + 2)) :
    (doToLowerLevel n).atomicNodes = n.atomicNodes := by
  rw [atomicNodes_eq h.toLower.1, atomicNodes_eq h.1, doToLowerLevel, List.flatMap_assoc]
  exact List.flatMap_congr fun sn hsn => (atomicNodes_eq (h.2 sn hsn).1).symm

end MLNode

namespace Hierarchy

variable {next lower g : MLGraph}

theorem mem_lower_sub_ids (h : Hierarchy next lower) {sn : MLNode} (hsn : sn ∈ lower.nodes)
    {id x : String} (hid : sn.id = id) (hx : x ∈ lower.subnode_ids id) :
    x ∈ sn.sub_nodes.map MLNode.id := by
  obtain ⟨sn', hsn', hid', hx⟩ := MLGraph.mem_subnode_ids.mp hx
  rwa [List.inj_on_of_nodup_map h.ids hsn' hsn (hid'.trans hid.symm)] at hx

theorem mem_flatMap_sub_ids (h : Hierarchy next lower) {sub_nodes : List MLNode}
    (hsub : ∀ sn ∈ sub_nodes, sn ∈ lower.nodes) {id x : String}
    (hid : id ∈ sub_nodes.map MLNode.id) (hx : x ∈ lower.subnode_ids id) :
    x ∈ (sub_nodes.flatMap MLNode.sub_nodes).map MLNode.id := by
  obtain ⟨sn, hsn, hid⟩ := List.mem_map.mp hid
  rw [List.map_flatMap]
  exact List.mem_flatMap.mpr ⟨sn, hsn, h.mem_lower_sub_ids (hsub sn hsn) hid hx⟩

theorem ids_toLowerLevel (g : MLGraph) : (toLowerLevel g).ids = g.ids := by
  rw [MLGraph.ids, MLGraph.ids, toLowerLevel, List.map_map]
  rfl

theorem ends_toLowerLevel (g : MLGraph) : (toLowerLevel g).ends = g.ends := by
  rw [MLGraph.ends, MLGraph.ends, toLowerLevel, List.map_map]
  rfl

theorem verify_toLowerLevel (hlower : Hierarchy next lower) (h : Hierarchy lower g) :
    (toLowerLevel g).verify = true := by
  obtain ⟨hnodes, hedges⟩ := MLGraph.verify_iff.mp h.verified
  obtain ⟨hlower_nodes, hlower_edges⟩ := MLGraph.verify_iff.mp hlower.verified
  have hsub_nodes : ∀ n ∈ g.nodes, ∀ sn ∈ n.sub_nodes, sn ∈ lower.nodes :=
    fun n hn sn hsn => h.nodes.mem_iff.mp (List.mem_flatMap.mpr ⟨n, hn, hsn⟩)
  have hids : ∀ {id x y : String}, y ∈ g.subnode_ids id → x ∈ lower.subnode_ids y →
      x ∈ (toLowerLevel g).subnode_ids id := by
    intro id x y hy hx
    obtain ⟨n, hn, hid, hy⟩ := MLGraph.mem_subnode_ids.mp hy
    exact MLGraph.mem_subnode_ids.mpr ⟨doToLowerLevel n, List.mem_map_of_mem hn, hid,
      hlower.mem_flatMap_sub_ids (hsub_nodes n hn) hy hx⟩
  refine MLGraph.verify_iff.mpr ⟨fun n' hn' sse hsse => ?_, fun e' he' => ?_⟩
  · obtain ⟨n, hn, rfl⟩ := List.mem_map.mp hn'
    rcases List.mem_append.mp hsse with hsse | hsse
    · obtain ⟨sn, hsn, hsse⟩ := List.mem_flatMap.mp hsse
      have hin : ∀ {x}, x ∈ sn.sub_nodes.map MLNode.id →
          x ∈ (n.sub_nodes.flatMap MLNode.sub_nodes).map MLNode.id := by
        intro x hx
        rw [List.map_flatMap]
        exact List.mem_flatMap.mpr ⟨sn, hsn, hx⟩
      exact (hlower_nodes sn (hsub_nodes n hn sn hsn) sse hsse).imp hin hin
    · obtain ⟨se, hse, hsse⟩ := List.mem_flatMap.mp hsse
      have hse_lower : se ∈ lower.edges := h.edges.mem_iff.mp
        (List.mem_append_right _ (List.mem_flatMap.mpr ⟨n, hn, hse⟩))
      obtain ⟨hsrc, htgt⟩ := hnodes n hn se hse
      exact ((hlower_edges se hse_lower).2.2 sse hsse).imp
        (hlower.mem_flatMap_sub_ids (hsub_nodes n hn) hsrc)
        (hlower.mem_flatMap_sub_ids (hsub_nodes n hn) htgt)
  · obtain ⟨e, he, rfl⟩ := List.mem_map.mp he'
    have hinside : ∀ se ∈ e.sub_edges, ∀ sse ∈ se.sub_edges,
        sse.src_id ∈ (toLowerLevel g).subnode_ids e.src_id ∧
          sse.tgt_id ∈ (toLowerLevel g).subnode_ids e.tgt_id := by
      intro se hse sse hsse
      have hse_lower : se ∈ lower.edges := h.edges.mem_iff.mp
        (List.mem_append_left _ (List.mem_flatMap.mpr ⟨e, he, hse⟩))
      obtain ⟨hsrc, htgt⟩ := (hedges e he).2.2 se hse
      exact ((hlower_edges se hse_lower).2.2 sse hsse).imp (hids hsrc) (hids htgt)
    obtain ⟨se, hse⟩ := List.exists_mem_of_ne_nil _ (h.full e he)
    have hse_lower : se ∈ lower.edges := h.edges.mem_iff.mp
      (List.mem_append_left _ (List.mem_flatMap.mpr ⟨e, he, hse⟩))
    obtain ⟨sse, hsse⟩ := List.exists_mem_of_ne_nil _ (hlower.full se hse_lower)
    obtain ⟨hsrc, htgt⟩ := hinside se hse sse hsse
    refine ⟨List.ne_nil_of_mem hsrc, List.ne_nil_of_mem htgt, fun sse hsse => ?_⟩
    obtain ⟨se, hse, hsse⟩ := List.mem_flatMap.mp hsse
    exact hinside se hse sse hsse

theorem lowerEdges_toLowerLevel (g : MLGraph) : (toLowerLevel g).lowerEdges.Perm
    (g.lowerEdges.flatMap MLEdge.sub_edges ++ g.lowerNodes.flatMap MLNode.sub_edges) := by
  have hcross : (toLowerLevel g).edges.flatMap MLEdge.sub_edges =
      (g.edges.flatMap MLEdge.sub_edges).flatMap MLEdge.sub_edges := by
    rw [toLowerLevel, List.flatMap_map, List.flatMap_assoc]
  have hinside : ((toLowerLevel g).nodes.flatMap MLNode.sub_edges).Perm
      (g.lowerNodes.flatMap MLNode.sub_edges ++
        (g.nodes.flatMap MLNode.sub_edges).flatMap MLEdge.sub_edges) := by
    rw [toLowerLevel, List.flatMap_map, List.flatMap_assoc, List.flatMap_assoc]
    exact (List.flatMap_append_perm _ _ _).symm
  rw [MLGraph.lowerEdges, hcross, MLGraph.lowerEdges, List.flatMap_append, List.append_assoc]
  exact (hinside.trans List.perm_append_comm).append_left _

/-- Without the graph in the middle. -/
theorem toLowerLevel (hlower : Hierarchy next lower) (h : Hierarchy lower g) :
    Hierarchy next (toLowerLevel g) := by
  constructor
  case verified => exact hlower.verify_toLowerLevel h
  case ids => exact (ids_toLowerLevel g).symm ▸ h.ids
  case ends => exact (ends_toLowerLevel g).symm ▸ h.ends
  case apart => exact (ends_toLowerLevel g).symm ▸ h.apart
  case full =>
    intro e' he'
    obtain ⟨e, he, rfl⟩ := List.mem_map.mp he'
    obtain ⟨se, hse⟩ := List.exists_mem_of_ne_nil _ (h.full e he)
    have hse_lower : se ∈ lower.edges := h.edges.mem_iff.mp
      (List.mem_append_left _ (List.mem_flatMap.mpr ⟨e, he, hse⟩))
    obtain ⟨sse, hsse⟩ := List.exists_mem_of_ne_nil _ (hlower.full se hse_lower)
    exact List.ne_nil_of_mem (List.mem_flatMap.mpr ⟨se, hse, hsse⟩)
  case nonempty =>
    intro n' hn'
    obtain ⟨n, hn, rfl⟩ := List.mem_map.mp hn'
    obtain ⟨sn, hsn⟩ := List.exists_mem_of_ne_nil _ (h.nonempty n hn)
    have hsn_lower := h.nodes.mem_iff.mp (List.mem_flatMap.mpr ⟨n, hn, hsn⟩)
    obtain ⟨ssn, hssn⟩ := List.exists_mem_of_ne_nil _ (hlower.nonempty sn hsn_lower)
    exact List.ne_nil_of_mem (List.mem_flatMap.mpr ⟨sn, hsn, hssn⟩)
  case nodes =>
    have hflat : (Rannc.toLowerLevel g).nodes.flatMap MLNode.sub_nodes =
        g.lowerNodes.flatMap MLNode.sub_nodes := by
      rw [Rannc.toLowerLevel, List.flatMap_map, List.flatMap_assoc]
      rfl
    rw [hflat]
    exact (h.nodes.flatMap_right _).trans hlower.nodes
  case edges =>
    refine (lowerEdges_toLowerLevel g).trans (List.Perm.trans ?_ hlower.edges)
    exact (h.edges.flatMap_right _).append (h.nodes.flatMap_right _)

theorem sumEdgeSizes_toLowerLevel (hlower : Hierarchy next lower) (h : Hierarchy lower g) :
    sumEdgeSizes (Rannc.toLowerLevel g).edges = sumEdgeSizes g.edges := by
  refine sumEdgeSizes_map fun e he => ?_
  have hfull : ∀ se ∈ e.sub_edges, se.sub_edges ≠ [] := fun se hse => hlower.full se
    (h.edges.mem_iff.mp (List.mem_append_left _ (List.mem_flatMap.mpr ⟨e, he, hse⟩)))
  have hne := (hlower.toLowerLevel h).full _ (List.mem_map_of_mem he)
  rw [calcEdgeSize_eq_sum hne, calcEdgeSize_eq_sum (h.full e he)]
  exact sumEdgeSizes_flatMap hfull

end Hierarchy

end Rannc
