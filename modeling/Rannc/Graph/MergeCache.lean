import Rannc.Graph.GraphMergeHelper
import Rannc.Graph.SmallMergeOrder

/-!
# The cache of stage graphs

A stage graph is merged on from the longest range before it that was asked for already. The graph
that comes out is the same as without the cache. The merged nodes are kept beside the base by the
ids of their ranges and removed by their own ids, so that the ones before the last stay there.
-/
namespace Rannc

namespace GraphMergeHelper

variable (helper : GraphMergeHelper)

/-- The merged nodes by their ranges, and the number of names used. -/
structure MergeCache where
  cache : List ((ℕ × ℕ) × MLNode)
  used : ℕ

def initialCache : MergeCache :=
  ⟨helper.graph.nodes.zipIdx.map fun (n, i) => ((i, i), n), helper.used⟩

/-- What is left beside a merged node when it becomes the base. -/
def advance (first : ℕ) (st : MergeBase) (i : ℕ) (tgt merged_node : MLNode) :
    Option MergeBase := do
  let merged_graph_id := getMergedGraphId first i
  let name_map := insertKey tgt.id merged_graph_id
    (insertKey st.base.id merged_graph_id st.name_map)
  let rest_edges ← mergeEdgesNoCopy helper.edge_order st.rest_edges name_map
  let name_map := insertKey merged_graph_id merged_graph_id
    (eraseKey tgt.id (eraseKey st.base.id name_map))
  let rest_nodes := insertKey merged_graph_id merged_node
    (eraseKey tgt.id (eraseKey st.base.id st.rest_nodes))
  return ⟨merged_node, rest_nodes, rest_edges, name_map⟩

/-- Go on to the first range that is not cached. -/
def resume (cache : List ((ℕ × ℕ) × MLNode)) (first : ℕ) :
    ℕ → ℕ → MergeBase → Option (ℕ × MergeBase)
  | 0, avail_to, st => some (avail_to, st)
  | fuel + 1, avail_to, st =>
    match cache.lookup (first, avail_to) with
    | none => some (avail_to, st)
    | some base => do
      let tgt ← helper.graph.nodes[avail_to]?
      let st ← helper.advance first st avail_to tgt base
      resume cache first fuel (avail_to + 1) st

/-- Merge the next node and put it into the cache. -/
def mergeAndCache (first : ℕ) (st : MergeBase × MergeCache) (i : ℕ) :
    Option (MergeBase × MergeCache) := do
  let tgt ← helper.graph.nodes[i]?
  let merged_node ← Rannc.merge (helper.names.generateName st.2.used "ML_") st.1.base tgt
    (st.1.rest_nodes.map Prod.snd) st.1.rest_edges
  let merged_node :=
    { merged_node with graph := merged_node.graph.rename (getMergedGraphId first i) }
  let base ← helper.advance first st.1 i tgt merged_node
  return (base, ⟨((first, i), merged_node) :: st.2.cache, st.2.used + 1⟩)

def mergeCached (cached : MergeCache) (first last : ℕ) : Option (IRGraph × MergeCache) :=
  match cached.cache.lookup (first, last) with
  | some node => some (node.graph, cached)
  | none => do
    guard (last < helper.graph.nodes.length)
    let st ← helper.start first
    let (avail_to, st) ← helper.resume cached.cache first helper.graph.nodes.length (first + 1) st
    let (st, cached) ← (List.range' avail_to (last + 1 - avail_to)).foldlM
      (helper.mergeAndCache first) (st, cached)
    return (st.base.graph, { cached with cache := ((first, last), st.base) :: cached.cache })

/-- The cache after some calls. -/
def afterCalls (calls : List (ℕ × ℕ)) : Option MergeCache :=
  calls.foldlM (fun cached range => (helper.mergeCached cached range.1 range.2).map Prod.snd)
    helper.initialCache

/-- What the nodes outside a range read. -/
def unmergedInputs (first last : ℕ) : List String :=
  (helper.graph.nodes.take first ++ helper.graph.nodes.drop (last + 1)).flatMap
    fun n => n.graph.input_names

/-- Two graphs as one, without what the required inputs do not need. -/
def mergeTwo (name : String) (g1 g2 : IRGraph) (required_inputs : List String) :
    Option IRGraph := do
  let graph ← mergeGraphs name g1 g2 required_inputs
  graph.removeUnusedNodes

/-- Merge the nodes of a range from the left. What the nodes outside the range merged so far read
is required. -/
def foldRange (first last : ℕ) : Option IRGraph := do
  let base ← helper.graph.nodes[first]?
  (List.range' (first + 1) (last - first)).foldlM
    (fun g i => do
      let tgt ← helper.graph.nodes[i]?
      mergeTwo (getMergedGraphId first i) g tgt.graph (helper.unmergedInputs first i))
    base.graph

/-- The graphs of the ranges from `first` on, the longest in front. The inputs of all but the last
of them are required as well. -/
def prefixGraphs (first : ℕ) : ℕ → Option (List IRGraph)
  | 0 => do
    let base ← helper.graph.nodes[first]?
    return [base.graph]
  | count + 1 => do
    let graphs ← prefixGraphs first count
    let base ← graphs.head?
    let tgt ← helper.graph.nodes[first + count + 1]?
    let merged ← mergeTwo (getMergedGraphId first (first + count + 1)) base tgt.graph
      (graphs.dropLast.tail.flatMap IRGraph.input_names ++
        helper.unmergedInputs first (first + count + 1))
    return merged :: graphs

end GraphMergeHelper

namespace IRGraph

theorem create_rename (name new_name : String) {nodes : List IRNode}
    {values : List (String × IRValue)} {input_names output_names : List String} :
    create new_name nodes values input_names output_names =
      (create name nodes values input_names output_names).map (rename · new_name) := by
  have hcheck : ∀ input_names' : List String,
      (IRGraph.mk new_name nodes values input_names output_names false).checkReplicable
          input_names' =
        (IRGraph.mk name nodes values input_names output_names false).checkReplicable
          input_names' := by
    intro input_names'
    induction input_names' with
    | nil => rfl
    | cons in_name input_names' ih =>
      rw [checkReplicable, checkReplicable, ih]
      rfl
  simp only [create, hcheck, Option.bind_eq_bind, Option.pure_def, Option.map_bind]
  rfl

theorem removeUnusedLoop_rename {g new_g : IRGraph} {name : String} {fuel : ℕ} :
    (g.rename name).removeUnusedLoop fuel (new_g.rename name) =
      (g.removeUnusedLoop fuel new_g).map (rename · name) := by
  induction fuel generalizing new_g with
  | zero => rfl
  | succ fuel ih =>
    have hunused : (new_g.rename name).detectUnusedNodes = new_g.detectUnusedNodes := rfl
    rw [removeUnusedLoop, removeUnusedLoop, hunused]
    split_ifs
    · rfl
    · simp only [rename, create_rename g.name name, Option.bind_eq_bind,
        Option.bind_map, Option.map_bind]
      congr 1
      funext new_g'
      exact ih

theorem removeUnusedNodes_rename {g : IRGraph} {name : String} :
    (g.rename name).removeUnusedNodes = g.removeUnusedNodes.map (rename · name) := by
  have hloop : (g.rename name).removeUnusedLoop g.nodes.length (g.rename name) =
      (g.removeUnusedLoop g.nodes.length g).map (rename · name) := removeUnusedLoop_rename
  rw [removeUnusedNodes, removeUnusedNodes]
  simp only [rename] at hloop ⊢
  simp only [hloop, create_rename g.name name, Option.bind_eq_bind,
    Option.bind_map, Option.map_bind]
  rfl

end IRGraph

theorem mergeGraphs_rename (name new_name : String) {g1 g2 : IRGraph}
    {required_inputs : List String} : mergeGraphs new_name g1 g2 required_inputs =
      (mergeGraphs name g1 g2 required_inputs).map (IRGraph.rename · new_name) := by
  simp only [mergeGraphs, IRGraph.create_rename name new_name, Option.bind_eq_bind,
    Option.map_bind, Function.comp_def]

theorem mergeGraphs_congr {name : String} {g1 g2 : IRGraph} {r r' : List String}
    (h : ∀ o ∈ g1.output_names, o ∈ g2.input_names → (o ∈ r ↔ o ∈ r')) :
    mergeGraphs name g1 g2 r = mergeGraphs name g1 g2 r' := by
  have hfilter : (g1.output_names.filter fun o1 => o1 ∉ g2.input_names ∨ o1 ∈ r) =
      g1.output_names.filter fun o1 => o1 ∉ g2.input_names ∨ o1 ∈ r' := by
    refine List.filter_congr fun o ho => ?_
    by_cases ho2 : o ∈ g2.input_names
    · simp [ho2, h o ho ho2]
    · simp [ho2]
  rw [mergeGraphs, mergeGraphs, hfilter]

namespace GraphMergeHelper

theorem mergeTwo_rename (name new_name : String) {g1 g2 : IRGraph} {r : List String} :
    mergeTwo new_name g1 g2 r = (mergeTwo name g1 g2 r).map (IRGraph.rename · new_name) := by
  simp only [mergeTwo, mergeGraphs_rename name new_name, Option.bind_eq_bind, Option.bind_map,
    Option.map_bind]
  congr 1
  funext g
  exact IRGraph.removeUnusedNodes_rename

theorem mergeTwo_congr {name : String} {g1 g2 : IRGraph} {r r' : List String}
    (h : ∀ o ∈ g1.output_names, o ∈ g2.input_names → (o ∈ r ↔ o ∈ r')) :
    mergeTwo name g1 g2 r = mergeTwo name g1 g2 r' := by
  rw [mergeTwo, mergeTwo, mergeGraphs_congr h]

theorem mergeTwo_name {name : String} {g1 g2 g : IRGraph} {r : List String}
    (h : mergeTwo name g1 g2 r = some g) : g.name = name := by
  obtain ⟨merged, hmerged, hg⟩ := Option.bind_eq_some_iff.mp h
  exact (IRGraph.removeUnusedNodes_name hg).trans (mergeGraphs_name hmerged)

theorem mergeTwo_output_names {name : String} {g1 g2 g : IRGraph} {r : List String}
    (h : mergeTwo name g1 g2 r = some g) : g.output_names =
      (g1.output_names.filter fun o1 => o1 ∉ g2.input_names ∨ o1 ∈ r) ++ g2.output_names := by
  obtain ⟨merged, hmerged, hg⟩ := Option.bind_eq_some_iff.mp h
  rw [IRGraph.removeUnusedNodes_output_names hg, mergeGraphs_output_names hmerged]

theorem exists_mergeTwo {g1 g2 : IRGraph} (h1 : g1.InputsKnown) (h2 : g2.InputsKnown)
    (name : String) (r : List String) :
    ∃ g, mergeTwo name g1 g2 r = some g ∧ g.InputsKnown := by
  obtain ⟨merged, hmerged, hknown⟩ := h1.mergeGraphs h2 name r
  obtain ⟨g, hg, hg_known⟩ := hknown.removeUnusedNodes
  exact ⟨g, Option.bind_eq_some_iff.mpr ⟨merged, hmerged, hg⟩, hg_known⟩

theorem merge_eq_mergeTwo {name : String} {n1 n2 : MLNode} {all_nodes : List MLNode}
    {edges : List MLEdge} : Rannc.merge name n1 n2 all_nodes edges =
      (mergeTwo name n1.graph n2.graph (getRequiredInputs n1 n2 all_nodes)).map fun g =>
        ⟨g.name, g, [n1, n2], ml_edge n1 n2 edges⟩ := by
  simp only [Rannc.merge, mergeTwo, Option.map_eq_bind, Option.bind_eq_bind, Option.bind_assoc]
  rfl

end GraphMergeHelper

end Rannc
