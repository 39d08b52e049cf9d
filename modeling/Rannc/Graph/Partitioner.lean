import Rannc.Lib.Digraph
import Rannc.Graph.MLGraph
import Rannc.Lib.MachineInt
import Rannc.Lib.OptionFold

/-!
# Coarsening

One pass of coarsening goes over the nodes by their evaluation and merges each with the best of the
nodes it has an edge to. A pair is merged only if no path goes around its edge, but this is looked
up in the graph before the pass: pairs merged in the same pass are not seen. The graph after the
pass is acyclic just where every pair is still convex in the graph contracted by the pairs that
were merged before it.
-/
namespace Rannc

open Rannc.Digraph

/-- The settings of the partitioner and what profiling tells it. -/
structure MLPartitioner where
  profile : IRGraph → GraphProfile
  fitToMem : IRGraph → GraphProfile → Bool
  calcCommTime : ℕ → ℤ
  dev_num : ℕ
  max_pipeline_num : ℕ
  coarsen_by_time : Bool
  names : NameSupply
  edge_order : MapOrder ((String × String) × List MLEdge)

/-- The vertices are the nodes, which are known by their ids. -/
structure MLBGraph where
  nodes : List MLNode
  edges : List (String × String)

def MLGraph.ends (g : MLGraph) : List (String × String) := g.edges.map MLEdge.ends

/-- No walk along the edges comes back. -/
def MLGraph.Acyclic (g : MLGraph) : Prop := Digraph.Acyclic (Edge g.ends)

def toBGL (ml_graph : MLGraph) : Option MLBGraph :=
  let node_map := ml_graph.nodes.map MLNode.id
  if ∀ e ∈ ml_graph.ends, e.1 ∈ node_map ∧ e.2 ∈ node_map then
    some ⟨ml_graph.nodes, ml_graph.ends⟩
  else none

namespace MLBGraph

def node? (bg : MLBGraph) (v : String) : Option MLNode := bg.nodes.find? fun n => n.id = v

def target_nodes (v : String) (bg : MLBGraph) : List String :=
  (bg.edges.filter fun e => e.1 = v).map Prod.snd

end MLBGraph

/-- The edge is removed for the search and put back after it. -/
def isConvex (n1 n2 : String) (graph : MLBGraph) : Bool :=
  !reachable (removeEdge graph.edges n1 n2) n1 n2

structure MergeStatistics where
  eval_sum : ℤ
  eval_ave : ℤ
  /-- `d * d` for every node. -/
  squares : List ℤ
  eval_var : ℤ
  /-- What the square root is taken of. -/
  variance : ℤ
  eval_sigma : ℤ
  deriving DecidableEq, Repr

/-- The evaluation from which on nodes are not merged. -/
def MergeStatistics.limit (st : MergeStatistics) : ℤ :=
  toLong (st.eval_ave + toLong (st.eval_sigma * 2))

namespace MLPartitioner

variable (p : MLPartitioner)

def eval (prof : GraphProfile) : ℤ :=
  if p.coarsen_by_time then toLong (prof.fwd_time + prof.bwd_time) else prof.max_allocated_mem

def evalNode (v : MLNode) : ℤ := p.eval (p.profile v.graph)

def sortNodesByEval (nodes : List MLNode) : List MLNode :=
  nodes.insertionSort fun x y => p.evalNode x ≤ p.evalNode y

/-- The average and the deviation of the evaluations. A division by a size is one of unsigned
numbers, and there is none by zero. -/
def mergeStatistics (profs : List GraphProfile) : Option MergeStatistics := do
  let eval_sum := sumLong (profs.map p.eval)
  guard (profs.length ≠ 0)
  let eval_ave := toLong (toSize eval_sum / profs.length : ℕ)
  let squares := profs.map fun prof =>
    let d := toLong (p.eval prof - eval_ave)
    toLong (d * d)
  let eval_var := sumLong squares
  let variance := toSize eval_var / profs.length
  return ⟨eval_sum, eval_ave, squares, eval_var, variance, sqrtDouble variance⟩

/-- The evaluation of a merged node, if the nodes may be merged. -/
def evalMerged (skip_profiling : Bool) (limit : ℤ) (v adj merged : MLNode) : Option ℤ :=
  if skip_profiling then
    if p.evalNode v > limit ∨ p.evalNode adj > limit then none else some 0
  else if !p.fitToMem merged.graph (p.profile merged.graph) then none
  else if p.evalNode merged > limit then none
  else some (p.evalNode merged)

/-- The best merge of a node that was found so far, and the number of names used. -/
structure BestMerge where
  best_imprv : ℤ
  best_adj : Option String
  best_merged : MLNode
  used : ℕ

/-- The neighbour to merge with, if there is one. -/
def BestMerge.accepted (best : BestMerge) : Option String :=
  if best.best_imprv ≥ 0 then best.best_adj else none

/-- What one pass works on. -/
structure Pass where
  ml_graph : MLGraph
  bg : MLBGraph
  nodes_sort : List MLNode
  eval_limit : ℤ
  skip_profiling : Bool
  min_partition_num : ℕ

structure MergeState where
  matched : List String
  merged_nodes : List MLNode
  name_map : List (String × String)
  used : ℕ

variable (pass : Pass)

/-- Try a neighbour of `v`. -/
def tryTarget (matched : List String) (v : MLNode) (best : BestMerge) (b_adj : String) :
    Option BestMerge :=
  if b_adj ∈ matched then some best
  else if !isConvex v.id b_adj pass.bg then some best
  else do
    let adj ← pass.bg.node? b_adj
    let cut_values ← getCutValues v adj
    let cut_size ← getSize cut_values
    guard (p.dev_num * p.max_pipeline_num ≠ 0)
    let comm_time := p.calcCommTime (toSize cut_size / (p.dev_num * p.max_pipeline_num))
    let merged ← merge (p.names.generateName best.used "ML_") v adj pass.ml_graph.nodes
      pass.ml_graph.edges
    let best := { best with used := best.used + 1 }
    match p.evalMerged pass.skip_profiling pass.eval_limit v adj merged with
    | none => return best
    | some eval_merged =>
      let imprv := toLong (p.evalNode v + p.evalNode adj + comm_time - eval_merged)
      if best.best_imprv ≤ imprv then
        return { best with best_imprv := imprv, best_adj := b_adj, best_merged := merged }
      else return best

/-- The best merge of `v` with a node that it has an edge to. -/
def findBest (st : MergeState) (v : MLNode) : Option BestMerge :=
  let best : BestMerge :=
    ⟨-1, none, liftUp (p.names.generateName st.used "ML_") v, st.used + 1⟩
  let targets :=
    if pass.nodes_sort.length - st.matched.length + st.merged_nodes.length >
        pass.min_partition_num then pass.bg.target_nodes v.id
    else []
  targets.foldlM (tryTarget p pass st.matched v) best

/-- A node that is not matched yet becomes a merged node, alone or with its best neighbour. -/
def mergeNode (st : MergeState) (v : MLNode) : Option MergeState :=
  if v.id ∈ st.matched then some st
  else do
    let best ← findBest p pass st v
    let group := v.id :: best.accepted.toList
    return ⟨group ++ st.matched, st.merged_nodes ++ [best.best_merged],
      group.map (·, best.best_merged.id) ++ st.name_map, best.used⟩

def startPass (ml_graph : MLGraph) (skip_profiling : Bool) (min_partition_num : ℕ) :
    Option Pass := do
  let bg ← toBGL ml_graph
  let nodes_sort := p.sortNodesByEval bg.nodes
  let st ← p.mergeStatistics (nodes_sort.map fun v => p.profile v.graph)
  return ⟨ml_graph, bg, nodes_sort, st.limit, skip_profiling, min_partition_num⟩

def mergeAdjacents (ml_graph : MLGraph) (skip_profiling : Bool) (min_partition_num used : ℕ) :
    Option (MLGraph × ℕ) := do
  let pass ← p.startPass ml_graph skip_profiling min_partition_num
  let st ← pass.nodes_sort.foldlM (mergeNode p pass) ⟨[], [], [], used⟩
  let merged_edges ← mergeEdgesNoCopy p.edge_order ml_graph.edges st.name_map
  return (⟨st.merged_nodes, merged_edges⟩, st.used)

section Pass

variable {p pass}

/-- A name is new, and the neighbour chosen could be chosen. -/
structure BestOk (p : MLPartitioner) (pass : Pass) (matched : List String) (v : MLNode) (used : ℕ)
    (best : BestMerge) : Prop where
  fresh : ∃ i, used ≤ i ∧ i < best.used ∧ best.best_merged.id = p.names.generateName i "ML_"
  choice : ∀ adj, best.best_adj = some adj →
    adj ∉ matched ∧ adj ∈ pass.bg.target_nodes v.id ∧ isConvex v.id adj pass.bg = true

theorem tryTarget_ok {matched : List String} {v : MLNode} {used : ℕ} {best best' : BestMerge}
    {b_adj : String} (hb : b_adj ∈ pass.bg.target_nodes v.id)
    (hbest : BestOk p pass matched v used best)
    (h : tryTarget p pass matched v best b_adj = some best') :
    BestOk p pass matched v used best' := by
  obtain ⟨i, hused, hi, hid⟩ := hbest.fresh
  unfold tryTarget at h
  split_ifs at h with hmatched hconvex
  · exact Option.some.inj h ▸ hbest
  · exact Option.some.inj h ▸ hbest
  · simp only [Option.bind_eq_bind, Option.bind_eq_some_iff] at h
    obtain ⟨adj, -, cut_values, -, cut_size, -, -, -, merged, hmerged, h⟩ := h
    have hskip : BestOk p pass matched v used { best with used := best.used + 1 } :=
      ⟨⟨i, hused, Nat.lt_succ_of_lt hi, hid⟩, hbest.choice⟩
    cases hevals : p.evalMerged pass.skip_profiling pass.eval_limit v adj merged with
    | none =>
      rw [hevals] at h
      exact Option.some.inj h ▸ hskip
    | some eval_merged =>
      simp only [hevals] at h
      split_ifs at h with himprv
      · obtain rfl := Option.some.inj h
        refine ⟨⟨best.used, by omega, Nat.lt_succ_self _, merge_id hmerged⟩, ?_⟩
        intro adj' hadj'
        obtain rfl := Option.some.inj hadj'
        exact ⟨hmatched, hb, by simpa using hconvex⟩
      · exact Option.some.inj h ▸ hskip

theorem findBest_ok {st : MergeState} {v : MLNode} {best : BestMerge}
    (h : findBest p pass st v = some best) : BestOk p pass st.matched v st.used best := by
  unfold findBest at h
  refine foldlM_invariant (fun best b_adj best' hb hbest => tryTarget_ok ?_ hbest) ?_ h
  · split_ifs at hb
    · exact hb
    · exact absurd hb List.not_mem_nil
  · exact ⟨⟨st.used, le_rfl, Nat.lt_succ_self _, rfl⟩, nofun⟩

/-- The neighbour that a node is merged with in its turn. -/
def acceptedBy (p : MLPartitioner) (pass : Pass) (st : MergeState) (v : MLNode) : Option String :=
  if v.id ∈ st.matched then none else (findBest p pass st v).bind BestMerge.accepted

/-- The pairs that are merged, in their order. -/
def acceptedPairs (p : MLPartitioner) (pass : Pass) (st : MergeState) :
    List MLNode → List (String × String)
  | [] => []
  | v :: nodes =>
    (acceptedBy p pass st v).toList.map (v.id, ·) ++
      match mergeNode p pass st v with
      | none => []
      | some st' => acceptedPairs p pass st' nodes

/-- After some nodes: the merged nodes are the matched ones, in groups given by the pairs. -/
structure MergeOk (p : MLPartitioner) (pass : Pass) (st : MergeState)
    (pairs : List (String × String)) : Prop where
  matched : ∀ x, x ∈ st.matched ↔ ∃ id, st.name_map.lookup x = some id
  merged : ∀ {x id}, st.name_map.lookup x = some id → id ∈ st.merged_nodes.map MLNode.id
  fresh : ∀ id ∈ st.merged_nodes.map MLNode.id, ∃ i < st.used, id = p.names.generateName i "ML_"
  nodup : (st.merged_nodes.map MLNode.id).Nodup
  same : ∀ {x y}, x ∈ st.matched → y ∈ st.matched →
    (st.name_map.lookup x = st.name_map.lookup y ↔ x = y ∨ (x, y) ∈ pairs ∨ (y, x) ∈ pairs)
  pairs_matched : ∀ x ∈ pairNodes pairs, x ∈ st.matched
  pairs_nodup : (pairNodes pairs).Nodup
  pairs_edge : ∀ q ∈ pairs, q ∈ pass.bg.edges

theorem mergeOk_nil (p : MLPartitioner) (pass : Pass) (used : ℕ) :
    MergeOk p pass ⟨[], [], [], used⟩ [] := by
  constructor <;> simp [pairNodes]

theorem mem_target_nodes {v adj : String} {bg : MLBGraph} :
    adj ∈ bg.target_nodes v ↔ (v, adj) ∈ bg.edges := by
  simp [MLBGraph.target_nodes]

theorem isConvex_ne {v adj : String} {bg : MLBGraph} (h : isConvex v adj bg = true) : v ≠ adj := by
  rintro rfl
  rw [isConvex, Bool.not_eq_true', ← Bool.not_eq_true, reachable_iff] at h
  exact h .refl

theorem lookup_group {group : List String} {id : String} {name_map : List (String × String)}
    (x : String) : (group.map (·, id) ++ name_map).lookup x =
      if x ∈ group then some id else name_map.lookup x := by
  induction group with
  | nil => rfl
  | cons y group ih =>
    rw [List.map_cons, List.cons_append, List.lookup_cons, ih]
    by_cases hxy : x = y
    · simp [hxy]
    · simp [hxy, beq_false_of_ne hxy]

/-- The nodes of a new group are all the pairs of the group speak of, and all of them are paired. -/
structure GroupOk (bg : MLBGraph) (matched group : List String)
    (pairs : List (String × String)) : Prop where
  unmatched : ∀ x ∈ group, x ∉ matched
  paired : ∀ {x y}, x ∈ group → y ∈ group → x = y ∨ (x, y) ∈ pairs ∨ (y, x) ∈ pairs
  nodes : ∀ x ∈ pairNodes pairs, x ∈ group
  nodup : (pairNodes pairs).Nodup
  edge : ∀ q ∈ pairs, q ∈ bg.edges

section Group

variable {st : MergeState} {pairs group_pairs : List (String × String)}

/-- Nodes come to the same group if they did before or are both of the new one. -/
theorem MergeOk.group_same {group : List String} (hst : MergeOk p pass st pairs)
    (hgroup : GroupOk pass.bg st.matched group group_pairs) {id : String}
    (hnew : id ∉ st.merged_nodes.map MLNode.id) {x y : String} (hx : x ∈ group ++ st.matched)
    (hy : y ∈ group ++ st.matched) :
    ((group.map (·, id) ++ st.name_map).lookup x = (group.map (·, id) ++ st.name_map).lookup y ↔
      x = y ∨ (x, y) ∈ pairs ++ group_pairs ∨ (y, x) ∈ pairs ++ group_pairs) := by
  have hold : ∀ {x y}, (x, y) ∈ pairs → x ∉ group ∧ y ∉ group := by
    intro x y hxy
    obtain ⟨hx, hy⟩ := mem_pairNodes hxy
    exact ⟨fun h => hgroup.unmatched _ h (hst.pairs_matched _ hx),
      fun h => hgroup.unmatched _ h (hst.pairs_matched _ hy)⟩
  have hgroup_pairs : ∀ {x y}, (x, y) ∈ group_pairs → x ∈ group ∧ y ∈ group := fun hxy =>
    ⟨hgroup.nodes _ (mem_pairNodes hxy).1, hgroup.nodes _ (mem_pairNodes hxy).2⟩
  have hapart : ∀ {x y}, x ∈ group → y ∉ group →
      ¬(x = y ∨ (x, y) ∈ pairs ++ group_pairs ∨ (y, x) ∈ pairs ++ group_pairs) := by
    intro x y hx hy
    rw [List.mem_append, List.mem_append]
    rintro (rfl | (h | h) | (h | h))
    · exact hy hx
    · exact (hold h).1 hx
    · exact hy (hgroup_pairs h).2
    · exact (hold h).2 hx
    · exact hy (hgroup_pairs h).1
  have hlookup : ∀ y, some id ≠ st.name_map.lookup y := fun y hy => hnew (hst.merged hy.symm)
  rw [lookup_group, lookup_group]
  by_cases hxg : x ∈ group
  · by_cases hyg : y ∈ group
    · rw [if_pos hxg, if_pos hyg, List.mem_append, List.mem_append]
      have hpaired := hgroup.paired hxg hyg
      exact iff_of_true rfl (hpaired.imp_right (Or.imp Or.inr Or.inr))
    · rw [if_pos hxg, if_neg hyg]
      exact iff_of_false (hlookup y) (hapart hxg hyg)
  · by_cases hyg : y ∈ group
    · rw [if_neg hxg, if_pos hyg]
      have hyx := hapart hyg hxg
      refine iff_of_false (hlookup x).symm fun h => hyx ?_
      exact h.imp Eq.symm Or.symm
    · have hx := (List.mem_append.mp hx).resolve_left hxg
      have hy := (List.mem_append.mp hy).resolve_left hyg
      rw [if_neg hxg, if_neg hyg, hst.same hx hy, List.mem_append, List.mem_append]
      have hxy : (x, y) ∉ group_pairs := fun h => hxg (hgroup_pairs h).1
      have hyx : (y, x) ∉ group_pairs := fun h => hyg (hgroup_pairs h).1
      rw [or_iff_left hxy, or_iff_left hyx]

theorem MergeOk.group {group : List String} {node : MLNode} {used i : ℕ}
    (hst : MergeOk p pass st pairs)
    (hgroup : GroupOk pass.bg st.matched group group_pairs)
    (hi : st.used ≤ i ∧ i < used) (hid : node.id = p.names.generateName i "ML_") :
    MergeOk p pass ⟨group ++ st.matched, st.merged_nodes ++ [node],
      group.map (·, node.id) ++ st.name_map, used⟩ (pairs ++ group_pairs) := by
  have hnew : node.id ∉ st.merged_nodes.map MLNode.id := by
    intro hmem
    obtain ⟨j, hj, hjd⟩ := hst.fresh _ hmem
    have hij := p.names.generateName_injective "ML_" (hid.symm.trans hjd)
    omega
  have hpairs_append : pairNodes (pairs ++ group_pairs) =
      pairNodes pairs ++ pairNodes group_pairs := List.flatMap_append
  constructor
  case matched =>
    intro x
    rw [lookup_group, List.mem_append, hst.matched]
    split_ifs with hx <;> simp [hx]
  case merged =>
    intro x id hx
    rw [lookup_group] at hx
    rw [List.map_append, List.mem_append]
    split_ifs at hx
    · exact Or.inr (by simpa using hx.symm)
    · exact Or.inl (hst.merged hx)
  case fresh =>
    intro id hmem
    rw [List.map_append, List.mem_append] at hmem
    rcases hmem with hmem | hmem
    · obtain ⟨j, hj, hjd⟩ := hst.fresh id hmem
      exact ⟨j, hj.trans_le (hi.1.trans hi.2.le), hjd⟩
    · obtain rfl : id = node.id := by simpa using hmem
      exact ⟨i, hi.2, hid⟩
  case nodup =>
    rw [List.map_append, List.map_singleton]
    exact List.nodup_append.mpr ⟨hst.nodup, List.nodup_singleton _, by grind⟩
  case same => exact fun hx hy => hst.group_same hgroup hnew hx hy
  case pairs_matched =>
    intro x hx
    rw [hpairs_append, List.mem_append] at hx
    rcases hx with hx | hx
    · exact List.mem_append_right _ (hst.pairs_matched x hx)
    · exact List.mem_append_left _ (hgroup.nodes x hx)
  case pairs_nodup =>
    rw [hpairs_append]
    refine List.nodup_append.mpr ⟨hst.pairs_nodup, hgroup.nodup, ?_⟩
    rintro x hx y hy rfl
    exact hgroup.unmatched x (hgroup.nodes x hy) (hst.pairs_matched x hx)
  case pairs_edge =>
    exact List.forall_mem_append.mpr ⟨hst.pairs_edge, hgroup.edge⟩

end Group

theorem mergeNode_ok {st st' : MergeState} {pairs : List (String × String)} {v : MLNode}
    (hst : MergeOk p pass st pairs) (h : mergeNode p pass st v = some st') :
    MergeOk p pass st' (pairs ++ (acceptedBy p pass st v).toList.map (v.id, ·)) ∧
      (∀ x ∈ st.matched, x ∈ st'.matched) ∧ v.id ∈ st'.matched ∧
      st'.merged_nodes.length ≤ st.merged_nodes.length + 1 := by
  unfold mergeNode at h
  split_ifs at h with hv
  · obtain rfl := Option.some.inj h
    refine ⟨?_, fun x hx => hx, hv, Nat.le_succ _⟩
    simpa [acceptedBy, hv] using hst
  simp only [Option.bind_eq_bind, Option.bind_eq_some_iff, Option.pure_def] at h
  obtain ⟨best, hfind, h⟩ := h
  obtain rfl := Option.some.inj h
  obtain ⟨⟨i, hused, hi, hid⟩, hchoice⟩ := findBest_ok hfind
  have haccepted : acceptedBy p pass st v = best.accepted := by
    rw [acceptedBy, if_neg hv, hfind, Option.bind_some]
  have hgroup : GroupOk pass.bg st.matched (v.id :: best.accepted.toList)
      (best.accepted.toList.map (v.id, ·)) := by
    cases hadj : best.accepted with
    | none => constructor <;> simp [hv, pairNodes]
    | some adj =>
      have hbest : best.best_adj = some adj := by
        unfold BestMerge.accepted at hadj
        split_ifs at hadj
        exact hadj
      obtain ⟨hmatched, hedge, hconvex⟩ := hchoice adj hbest
      have hne := isConvex_ne hconvex
      have hedge := mem_target_nodes.mp hedge
      constructor
      case unmatched => simp [hv, hmatched]
      case paired =>
        intro x y hx hy
        simp only [Option.toList_some, List.mem_cons, List.not_mem_nil, or_false] at hx hy
        rcases hx with rfl | rfl <;> rcases hy with rfl | rfl <;> simp
      case nodes => simp [pairNodes]
      case nodup => simpa [pairNodes] using hne
      case edge => simpa using hedge
  rw [haccepted]
  refine ⟨hst.group hgroup ⟨hused, hi⟩ hid, ?_, ?_, ?_⟩
  · exact fun x hx => List.mem_append_right _ hx
  · exact List.mem_append_left _ List.mem_cons_self
  · simp

/-- After all nodes every node is matched, and none was split. -/
theorem mergeNodes_ok {nodes : List MLNode} {st st' : MergeState} {pairs : List (String × String)}
    (hst : MergeOk p pass st pairs) (h : nodes.foldlM (mergeNode p pass) st = some st') :
    MergeOk p pass st' (pairs ++ acceptedPairs p pass st nodes) ∧
      (∀ x ∈ st.matched, x ∈ st'.matched) ∧ (∀ v ∈ nodes, v.id ∈ st'.matched) ∧
      st'.merged_nodes.length ≤ st.merged_nodes.length + nodes.length := by
  induction nodes generalizing st pairs with
  | nil =>
    obtain rfl := Option.some.inj h
    simpa [acceptedPairs] using hst
  | cons v nodes ih =>
    rw [List.foldlM_cons] at h
    obtain ⟨st₁, hstep, hrest⟩ := Option.bind_eq_some_iff.mp h
    obtain ⟨hst₁, hmono, hv, hlength⟩ := mergeNode_ok hst hstep
    obtain ⟨hst', hmono', hnodes, hlength'⟩ := ih hst₁ hrest
    refine ⟨?_, fun x hx => hmono' x (hmono x hx), ?_, ?_⟩
    · rw [acceptedPairs, hstep]
      simpa using hst'
    · exact List.forall_mem_cons.mpr ⟨hmono' _ hv, hnodes⟩
    · rw [List.length_cons]
      omega

end Pass

section Acyclic

variable {p}

/-- Both nodes as one. -/
def contractPair (n1 n2 : String) (graph : MLBGraph) : MLBGraph :=
  { graph with edges := contractEdges graph.edges (mergeInto n1 n2) }

/-- Every pair is convex in the graph with the pairs before it contracted. -/
def allConvex : List (String × String) → MLBGraph → Bool
  | [], _ => true
  | (n1, n2) :: pairs, graph => isConvex n1 n2 graph && allConvex pairs (contractPair n1 n2 graph)

theorem isConvex_iff {n1 n2 : String} {graph : MLBGraph} (h : Acyclic (Edge graph.edges))
    (hne : n1 ≠ n2) : isConvex n1 n2 graph = true ↔ ¬ Bypass (Edge graph.edges) n1 n2 := by
  rw [isConvex, Bool.not_eq_true', ← Bool.not_eq_true, reachable_iff, bypass_iff h hne]

theorem allConvex_iff {pairs : List (String × String)} (graph : MLBGraph)
    (h : Acyclic (Edge graph.edges)) (hr : ∀ q ∈ pairs, Edge graph.edges q.1 q.2)
    (hnodup : (pairNodes pairs).Nodup) :
    allConvex pairs graph = true ↔ ConvexInTurn (Edge graph.edges) pairs := by
  induction pairs generalizing graph with
  | nil => simp [allConvex, ConvexInTurn]
  | cons q pairs ih =>
    obtain ⟨n1, n2⟩ := q
    have hedge : Edge graph.edges n1 n2 := hr (n1, n2) List.mem_cons_self
    have hne : n1 ≠ n2 := fun heq => h.irrefl n2 (heq ▸ hedge)
    have hcontract : Edge (contractPair n1 n2 graph).edges =
        contract (Edge graph.edges) (mergeInto n1 n2) := edge_contractEdges _ _
    rw [allConvex, ConvexInTurn, Bool.and_eq_true, isConvex_iff h hne]
    refine and_congr_right fun hconvex => ?_
    rw [← hcontract]
    refine ih _ ?_ ?_ ?_
    · rw [hcontract]
      exact (acyclic_contract_iff h hedge).mpr hconvex
    · rw [hcontract]
      exact contract_of_mem h hr hnodup
    · exact hnodup.sublist (List.sublist_append_right _ _)

theorem mergeAdjacents_eq_some {ml_graph g' : MLGraph} {skip_profiling : Bool}
    {min_partition_num used used' : ℕ}
    (h : p.mergeAdjacents ml_graph skip_profiling min_partition_num used = some (g', used')) :
    ∃ pass st, p.startPass ml_graph skip_profiling min_partition_num = some pass ∧
      pass.nodes_sort.foldlM (mergeNode p pass) ⟨[], [], [], used⟩ = some st ∧
      mergeEdgesNoCopy p.edge_order ml_graph.edges st.name_map = some g'.edges ∧
      g'.nodes = st.merged_nodes ∧ used' = st.used := by
  simp only [mergeAdjacents, Option.bind_eq_bind, Option.bind_eq_some_iff, Option.pure_def] at h
  obtain ⟨pass, hpass, st, hst, merged_edges, hedges, h⟩ := h
  obtain ⟨rfl, rfl⟩ := Prod.mk.inj (Option.some.inj h)
  exact ⟨pass, st, hpass, hst, hedges, rfl, rfl⟩

theorem startPass_eq_some {ml_graph : MLGraph} {skip_profiling : Bool} {min_partition_num : ℕ}
    {pass : Pass} (h : p.startPass ml_graph skip_profiling min_partition_num = some pass) :
    (∀ e ∈ ml_graph.ends, e.1 ∈ pass.nodes_sort.map MLNode.id ∧
      e.2 ∈ pass.nodes_sort.map MLNode.id) ∧
      pass.nodes_sort.Perm ml_graph.nodes ∧ pass.bg = ⟨ml_graph.nodes, ml_graph.ends⟩ := by
  obtain ⟨bg, hbg, h⟩ := Option.bind_eq_some_iff.mp h
  obtain ⟨st, -, h⟩ := Option.bind_eq_some_iff.mp h
  obtain rfl := Option.some.inj h
  unfold toBGL at hbg
  dsimp only at hbg
  split_ifs at hbg with hends
  obtain rfl := Option.some.inj hbg
  have hperm : (p.sortNodesByEval ml_graph.nodes).Perm ml_graph.nodes :=
    List.perm_insertionSort _ _
  refine ⟨fun e he => ?_, hperm, rfl⟩
  rw [(hperm.map MLNode.id).mem_iff, (hperm.map MLNode.id).mem_iff]
  exact hends e he

/-- The pairs that a pass merges, in their order. -/
def passPairs (p : MLPartitioner) (ml_graph : MLGraph) (skip_profiling : Bool)
    (min_partition_num used : ℕ) : List (String × String) :=
  match p.startPass ml_graph skip_profiling min_partition_num with
  | none => []
  | some pass => acceptedPairs p pass ⟨[], [], [], used⟩ pass.nodes_sort

/-- Every pair is convex when it is merged, also with the pairs merged before it. -/
def MergesConvex (p : MLPartitioner) (ml_graph : MLGraph) (skip_profiling : Bool)
    (min_partition_num used : ℕ) : Prop :=
  allConvex (p.passPairs ml_graph skip_profiling min_partition_num used)
    ⟨ml_graph.nodes, ml_graph.ends⟩ = true

theorem exists_mergeOk {ml_graph g' : MLGraph} {skip_profiling : Bool}
    {min_partition_num used used' : ℕ}
    (h : p.mergeAdjacents ml_graph skip_profiling min_partition_num used = some (g', used')) :
    ∃ pass st, MergeOk p pass st (p.passPairs ml_graph skip_profiling min_partition_num used) ∧
      pass.bg.edges = ml_graph.ends ∧
      (∀ e ∈ ml_graph.ends, e.1 ∈ st.matched ∧ e.2 ∈ st.matched) ∧
      mergeEdgesNoCopy p.edge_order ml_graph.edges st.name_map = some g'.edges ∧
      g'.nodes.length ≤ ml_graph.nodes.length := by
  obtain ⟨pass, st, hpass, hst, hedges, hnodes, -⟩ := mergeAdjacents_eq_some h
  obtain ⟨hends, hperm, hbg⟩ := startPass_eq_some hpass
  obtain ⟨hok, -, hmatched, hlength'⟩ := mergeNodes_ok (mergeOk_nil p pass used) hst
  have hpairs : p.passPairs ml_graph skip_profiling min_partition_num used =
      acceptedPairs p pass ⟨[], [], [], used⟩ pass.nodes_sort := by
    rw [passPairs, hpass]
  have hids : ∀ x ∈ pass.nodes_sort.map MLNode.id, x ∈ st.matched := by
    intro x hx
    obtain ⟨v, hv, rfl⟩ := List.mem_map.mp hx
    exact hmatched v hv
  refine ⟨pass, st, hpairs ▸ hok, by rw [hbg], fun e he => ?_, hedges, ?_⟩
  · exact ⟨hids _ (hends e he).1, hids _ (hends e he).2⟩
  · rw [hnodes, ← hperm.length_eq]
    simpa using hlength'

theorem mem_ends {ml_graph : MLGraph} {a b : String} :
    (a, b) ∈ ml_graph.ends ↔ ∃ e ∈ ml_graph.edges, e.src_id = a ∧ e.tgt_id = b := by
  simp [MLGraph.ends, MLEdge.ends]

/-- The graph after a pass is the one before with the pairs contracted. -/
theorem acyclic_iff_contract {ml_graph g' : MLGraph} {skip_profiling : Bool}
    {min_partition_num used used' : ℕ}
    (h : p.mergeAdjacents ml_graph skip_profiling min_partition_num used = some (g', used')) :
    g'.Acyclic ↔ Digraph.Acyclic (contract (Edge ml_graph.ends)
      (mergeAll (p.passPairs ml_graph skip_profiling min_partition_num used))) := by
  obtain ⟨pass, st, hok, -, hends, hedges, -⟩ := exists_mergeOk h
  obtain ⟨-, hedges⟩ := mergeEdgesNoCopy_ends hedges
  set new_id : String → String := fun x => (st.name_map.lookup x).getD ""
  have hnew_id : ∀ {x id}, x ∈ st.matched → (st.name_map.lookup x = some id ↔ new_id x = id) := by
    intro x id hx
    obtain ⟨id', hid'⟩ := (hok.matched x).mp hx
    simp [new_id, hid']
  have hcontract : Edge g'.ends = contract (Edge ml_graph.ends) new_id := by
    funext x y
    refine propext ((hedges x y).trans (and_congr_right fun _ => ?_))
    constructor
    · rintro ⟨e, he, hx, hy⟩
      have hmem : (e.src_id, e.tgt_id) ∈ ml_graph.ends := mem_ends.mpr ⟨e, he, rfl, rfl⟩
      obtain ⟨hsrc, htgt⟩ := hends _ hmem
      exact ⟨e.src_id, e.tgt_id, hmem, (hnew_id hsrc).mp hx, (hnew_id htgt).mp hy⟩
    · rintro ⟨a, b, hab, hx, hy⟩
      obtain ⟨ha, hb⟩ := hends _ hab
      obtain ⟨e, he, rfl, rfl⟩ := mem_ends.mp hab
      exact ⟨e, he, (hnew_id ha).mpr hx, (hnew_id hb).mpr hy⟩
  have hclasses : ∀ {x y}, x ∈ st.matched → y ∈ st.matched → (new_id x = new_id y ↔
      mergeAll (p.passPairs ml_graph skip_profiling min_partition_num used) x =
        mergeAll (p.passPairs ml_graph skip_profiling min_partition_num used) y) := by
    intro x y hx hy
    rw [mergeAll_eq_mergeAll_iff hok.pairs_nodup, ← hok.same hx hy, ← hnew_id hx,
      (hnew_id hy).mpr rfl]
  have hmatched : ∀ {a b}, Edge ml_graph.ends a b → a ∈ st.matched ∧ b ∈ st.matched :=
    fun hab => hends _ hab
  rw [MLGraph.Acyclic, hcontract]
  exact ⟨fun hacyclic => hacyclic.contract_congr hmatched hclasses,
    fun hacyclic => hacyclic.contract_congr hmatched fun hx hy => (hclasses hx hy).symm⟩

theorem mergeAdjacents_acyclic_iff {ml_graph g' : MLGraph} {skip_profiling : Bool}
    {min_partition_num used used' : ℕ} (hacyclic : ml_graph.Acyclic)
    (h : p.mergeAdjacents ml_graph skip_profiling min_partition_num used = some (g', used')) :
    g'.Acyclic ↔ p.MergesConvex ml_graph skip_profiling min_partition_num used := by
  obtain ⟨pass, st, hok, hbg, -, -, -⟩ := exists_mergeOk h
  have hr : ∀ q ∈ p.passPairs ml_graph skip_profiling min_partition_num used,
      Edge ml_graph.ends q.1 q.2 := fun q hq => hbg ▸ hok.pairs_edge q hq
  rw [acyclic_iff_contract h, acyclic_contract_mergeAll_iff hacyclic hr hok.pairs_nodup]
  exact (allConvex_iff ⟨ml_graph.nodes, ml_graph.ends⟩ hacyclic hr hok.pairs_nodup).symm

theorem mergeAdjacents_length_le {ml_graph g' : MLGraph} {skip_profiling : Bool}
    {min_partition_num used used' : ℕ}
    (h : p.mergeAdjacents ml_graph skip_profiling min_partition_num used = some (g', used')) :
    g'.nodes.length ≤ ml_graph.nodes.length := by
  obtain ⟨_, _, -, -, -, -, hlength⟩ := exists_mergeOk h
  exact hlength

end Acyclic

end MLPartitioner

end Rannc
