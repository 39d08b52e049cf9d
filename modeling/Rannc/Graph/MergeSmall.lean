import Rannc.Graph.Coarsening
import Rannc.Graph.CreateDeployment
import Rannc.Graph.Ranks

/-!
# Merging small nodes

The subgraphs of a partition become the first nodes. After coarsening the nodes are sorted, and the
smallest one is merged with its smaller neighbour in this order while there are too many.
-/
namespace Rannc

open Rannc.Digraph

/-- A node for each subgraph, and an edge for each connection between two of them. -/
def convert (order : MapOrder (String × IRGraph)) (partition : Partition) : Option MLGraph := do
  let nodes : List MLNode := (order.order partition.subgraphs).map fun it =>
    ⟨"ML_" ++ it.1, it.2.rename ("ML_" ++ it.1), [], []⟩
  let id_map := partition.subgraphs.map Prod.fst
  let cons := partition.connections.filter fun con => con.src ∈ id_map ∧ con.dest ∈ id_map
  let edges ← cons.mapM fun con => do
    let value ← partition.graph.getValue con.value
    return ⟨"ML_" ++ con.src, "ML_" ++ con.dest, [], [⟨con.src, con.dest, value⟩]⟩
  return ⟨nodes, edges⟩

/-- One node for each operator that is a batch, with the other operators that it needs. -/
def initialMLGraph (sort : TopologicalSort) (order : SetOrder)
    (graph_order : MapOrder (String × IRGraph)) (ir_graph : IRGraph) : Option MLGraph := do
  let bg ← ir_graph.toBGL
  let labelled ← labelRanks bg
  let partitions ← createPartition sort order (fixNonBatchRanks sort labelled)
  convert graph_order partitions

/-- The nodes in topological order; there is none if the graph has a cycle. -/
def sortMLGraph (sort : TopologicalSort) (graph : MLGraph) : Option MLGraph := do
  let bg ← toBGL graph
  let ids := bg.nodes.map MLNode.id
  let edges := bg.edges.map fun e => (ids.idxOf e.1, ids.idxOf e.2)
  let rev_topo := sort.sort ids.length edges
  guard (rev_topo.Perm (List.range ids.length) ∧ rev_topo.Pairwise (fun a b => ¬Edge edges a b) ∧
    ∀ v < ids.length, ¬Edge edges v v)
  return ⟨rev_topo.reverse.filterMap fun v => bg.nodes[v]?, graph.edges⟩

namespace MLPartitioner

variable (p : MLPartitioner)

/-- The first of the nodes with the smallest evaluation. -/
def minNode (nodes : List MLNode) : Option ℕ :=
  (nodes.zipIdx.foldl
    (fun (min_val, min_node_idx) (n, idx) =>
      if p.evalNode n < min_val then (p.evalNode n, some idx) else (min_val, min_node_idx))
    (LONG_MAX, none)).2

/-- A pair that can be merged, as the merged node and its evaluation. -/
structure PairMerge where
  n1 : MLNode
  n2 : MLNode
  merged : MLNode
  eval : ℤ

/-- The node at the index with those before and after it. -/
def neighbours (nodes : List MLNode) (idx : ℕ) : List (MLNode × MLNode) :=
  match nodes[idx]? with
  | none => []
  | some min_node =>
    (if 0 < idx then nodes[idx - 1]?.toList.map (·, min_node) else []) ++
      nodes[idx + 1]?.toList.map (min_node, ·)

/-- The smallest of the merges. There is none if one of them does not fit. -/
def bestMerge (graph : MLGraph) :
    List (MLNode × MLNode) → Option PairMerge → ℕ → Option (Option PairMerge × ℕ)
  | [], best, used => some (best, used)
  | (n1, n2) :: pairs, best, used => do
    let merged ← merge (p.names.generateName used "ML_") n1 n2 graph.nodes graph.edges
    let prof := p.profile merged.graph
    if !p.fitToMem merged.graph prof then return (none, used + 1)
    else
      let min_adj_eval := (best.map PairMerge.eval).getD LONG_MAX
      bestMerge graph pairs
        (if p.eval prof < min_adj_eval then some ⟨n1, n2, merged, p.eval prof⟩ else best) (used + 1)

/-- The merge of the smallest node with a neighbour, and the number of names used. -/
def findSmallMerge (graph : MLGraph) (used : ℕ) : Option (Option PairMerge × ℕ) := do
  let min_node_idx ← p.minNode graph.nodes
  p.bestMerge graph (neighbours graph.nodes min_node_idx) none used

/-- The merged node takes the place of the first of the two. -/
def replacePair (pair : PairMerge) : Bool → List MLNode → List MLNode
  | _, [] => []
  | merged_added, n :: nodes =>
    if n.id = pair.n1.id ∨ n.id = pair.n2.id then
      (if merged_added then [] else [pair.merged]) ++ replacePair pair true nodes
    else n :: replacePair pair merged_added nodes

def mergePair (graph : MLGraph) (pair : PairMerge) : Option MLGraph := do
  let name_map := graph.nodes.map fun n =>
    (n.id, if n.id = pair.n1.id ∨ n.id = pair.n2.id then pair.merged.id else n.id)
  let merged_edges ← mergeEdgesNoCopy p.edge_order graph.edges name_map
  return ⟨replacePair pair false graph.nodes, merged_edges⟩

/-- Each iteration leaves a node less. -/
def mergeSmallLoop (min_partition_num : ℕ) : ℕ → MLGraph → ℕ → Option (MLGraph × ℕ)
  | 0, merged_graph, used => some (merged_graph, used)
  | fuel + 1, merged_graph, used =>
    if merged_graph.nodes.length ≤ min_partition_num then some (merged_graph, used)
    else do
      let (pair, used) ← p.findSmallMerge merged_graph used
      match pair with
      | none => return (merged_graph, used)
      | some pair => mergeSmallLoop min_partition_num fuel (← p.mergePair merged_graph pair) used

def mergeSmall (ml_graph : MLGraph) (min_partition_num used : ℕ) : Option (MLGraph × ℕ) :=
  p.mergeSmallLoop min_partition_num ml_graph.nodes.length ml_graph used

variable {p} {graph : MLGraph}

/-- A pair of neighbours that was merged. -/
structure PairOk (graph : MLGraph) (pair : PairMerge) : Prop where
  adjacent : ∃ i, graph.nodes[i]? = some pair.n1 ∧ graph.nodes[i + 1]? = some pair.n2
  merged : ∃ name, merge name pair.n1 pair.n2 graph.nodes graph.edges = some pair.merged

theorem mem_neighbours {nodes : List MLNode} {idx : ℕ} {q : MLNode × MLNode}
    (hq : q ∈ neighbours nodes idx) : ∃ i, nodes[i]? = some q.1 ∧ nodes[i + 1]? = some q.2 := by
  unfold neighbours at hq
  cases hmin : nodes[idx]? with
  | none =>
    rw [hmin] at hq
    exact absurd hq List.not_mem_nil
  | some min_node =>
    simp only [hmin, List.mem_append, List.mem_map, Option.mem_toList] at hq
    cases hq with
    | inl hpre =>
      split_ifs at hpre with hpos
      · obtain ⟨preceding, hpreceding, rfl⟩ := List.mem_map.mp hpre
        have hidx : idx - 1 + 1 = idx := by omega
        exact ⟨idx - 1, Option.mem_toList.mp hpreceding, by rw [hidx, hmin]⟩
      · exact absurd hpre List.not_mem_nil
    | inr hfol =>
      obtain ⟨following, hfollowing, rfl⟩ := hfol
      exact ⟨idx, hmin, hfollowing⟩

theorem bestMerge_ok {pairs : List (MLNode × MLNode)} {best res : Option PairMerge}
    {used used' : ℕ}
    (hpairs : ∀ q ∈ pairs, ∃ i, graph.nodes[i]? = some q.1 ∧ graph.nodes[i + 1]? = some q.2)
    (hbest : ∀ pair, best = some pair → PairOk graph pair)
    (h : p.bestMerge graph pairs best used = some (res, used')) :
    ∀ pair, res = some pair → PairOk graph pair := by
  induction pairs generalizing best used with
  | nil =>
    obtain ⟨rfl, -⟩ := Prod.mk.inj (Option.some.inj h)
    exact hbest
  | cons q pairs ih =>
    rw [bestMerge] at h
    obtain ⟨merged, hmerged, h⟩ := Option.bind_eq_some_iff.mp h
    dsimp only at h
    have hrest : ∀ q' ∈ pairs, ∃ i, graph.nodes[i]? = some q'.1 ∧ graph.nodes[i + 1]? = some q'.2 :=
      fun q' hq' => hpairs q' (List.mem_cons_of_mem _ hq')
    split_ifs at h with hfit hless
    · obtain ⟨rfl, -⟩ := Prod.mk.inj (Option.some.inj h)
      exact nofun
    · apply ih hrest ?_ h
      intro pair hpair
      obtain rfl := Option.some.inj hpair
      exact ⟨hpairs q List.mem_cons_self, _, hmerged⟩
    · exact ih hrest hbest h

theorem findSmallMerge_ok {pair : PairMerge} {used used' : ℕ}
    (h : p.findSmallMerge graph used = some (some pair, used')) : PairOk graph pair := by
  obtain ⟨idx, -, h⟩ := Option.bind_eq_some_iff.mp h
  have hnone : ∀ pair, (none : Option PairMerge) = some pair → PairOk graph pair := nofun
  exact bestMerge_ok (fun q hq => mem_neighbours hq) hnone h pair rfl

theorem mem_replacePair {pair : PairMerge} {merged_added : Bool} {nodes : List MLNode}
    {n : MLNode} (hn : n ∈ replacePair pair merged_added nodes) : n = pair.merged ∨ n ∈ nodes := by
  induction nodes generalizing merged_added with
  | nil => exact absurd hn List.not_mem_nil
  | cons m nodes ih =>
    rw [replacePair] at hn
    split_ifs at hn with hm hadded
    · exact (ih hn).imp_right (List.mem_cons_of_mem _)
    · cases hn with
      | head => exact Or.inl rfl
      | tail _ hn => exact (ih hn).imp_right (List.mem_cons_of_mem _)
    · cases hn with
      | head => exact Or.inr List.mem_cons_self
      | tail _ hn => exact (ih hn).imp_right (List.mem_cons_of_mem _)

theorem length_replacePair (pair : PairMerge) (merged_added : Bool) (nodes : List MLNode) :
    (replacePair pair merged_added nodes).length +
        nodes.countP (fun n => n.id = pair.n1.id ∨ n.id = pair.n2.id) ≤
      nodes.length + if merged_added then 0 else 1 := by
  induction nodes generalizing merged_added with
  | nil => simp [replacePair]
  | cons m nodes ih =>
    rw [replacePair, List.countP_cons]
    have ih_true := ih true
    have ih_added := ih merged_added
    simp only [if_true, Nat.add_zero] at ih_true
    by_cases hm : m.id = pair.n1.id ∨ m.id = pair.n2.id
    · rw [if_pos hm, if_pos (decide_eq_true hm), List.length_append, List.length_cons]
      cases merged_added
      · simp only [Bool.false_eq_true, if_false, List.length_singleton]
        omega
      · simp only [if_true, List.length_nil]
        omega
    · rw [if_neg hm, if_neg (by simpa using hm), List.length_cons, List.length_cons]
      omega

theorem two_le_countP {α : Type} {P : α → Bool} {l : List α} {i : ℕ} {a b : α}
    (ha : l[i]? = some a) (hb : l[i + 1]? = some b) (hPa : P a = true) (hPb : P b = true) :
    2 ≤ l.countP P := by
  induction l generalizing i with
  | nil => exact absurd ha (by simp)
  | cons c l ih =>
    rw [List.countP_cons]
    cases i with
    | zero =>
      obtain rfl : c = a := by simpa using ha
      have hpos : 0 < l.countP P :=
        List.countP_pos_iff.mpr ⟨b, List.mem_of_getElem? (by simpa using hb), hPb⟩
      rw [if_pos hPa]
      omega
    | succ i =>
      have hrest := ih (by simpa using ha) (by simpa using hb)
      omega

theorem mergePair_length_lt {pair : PairMerge} {merged_graph : MLGraph} (hpair : PairOk graph pair)
    (h : p.mergePair graph pair = some merged_graph) :
    merged_graph.nodes.length < graph.nodes.length := by
  obtain ⟨merged_edges, -, h⟩ := Option.bind_eq_some_iff.mp h
  obtain rfl := Option.some.inj h
  obtain ⟨i, hn1, hn2⟩ := hpair.adjacent
  have hlength := length_replacePair pair false graph.nodes
  have htwo : 2 ≤ graph.nodes.countP (fun n => n.id = pair.n1.id ∨ n.id = pair.n2.id) :=
    two_le_countP hn1 hn2 (by simp) (by simp)
  simp only [Bool.false_eq_true, if_false] at hlength
  dsimp only
  omega

theorem mergeSmallLoop_done {min_partition_num fuel used used' : ℕ} {merged_graph res : MLGraph}
    (hfuel : merged_graph.nodes.length ≤ fuel)
    (h : p.mergeSmallLoop min_partition_num fuel merged_graph used = some (res, used')) :
    res.nodes.length ≤ min_partition_num ∨
      ∃ used₁, p.findSmallMerge res used₁ = some (none, used') := by
  induction fuel generalizing merged_graph used with
  | zero =>
    obtain ⟨rfl, -⟩ := Prod.mk.inj (Option.some.inj h)
    exact Or.inl (by omega)
  | succ fuel ih =>
    rw [mergeSmallLoop] at h
    split_ifs at h with hsmall
    · obtain ⟨rfl, -⟩ := Prod.mk.inj (Option.some.inj h)
      exact Or.inl hsmall
    · obtain ⟨⟨pair, used₁⟩, hfind, h⟩ := Option.bind_eq_some_iff.mp h
      cases pair with
      | none =>
        obtain ⟨rfl, rfl⟩ := Prod.mk.inj (Option.some.inj h)
        exact Or.inr ⟨used, hfind⟩
      | some pair =>
        obtain ⟨merged_graph', hmerge, hrest⟩ := Option.bind_eq_some_iff.mp h
        have hlt := mergePair_length_lt (findSmallMerge_ok hfind) hmerge
        exact ih (by omega) hrest

end MLPartitioner

end Rannc
