import Rannc.Graph.MLGraph

/-!
# Graphs of stages

A stage is a range of the sorted nodes. Its graph is merged node by node from the left, next to the
nodes that are not in it.
-/
namespace Rannc

def getMergedGraphId (first last : ℕ) : String :=
  "MERGE_" ++ toString first ++ "_" ++ toString last

/-- The sorted nodes, and the names of the graphs that are merged from them. -/
structure GraphMergeHelper where
  graph : MLGraph
  names : NameSupply
  used : ℕ
  edge_order : MapOrder ((String × String) × List MLEdge)

/-- The part of a stage that is merged, and what is left beside it. -/
structure MergeBase where
  base : MLNode
  rest_nodes : List (String × MLNode)
  rest_edges : List MLEdge
  name_map : List (String × String)

section Maps

variable {α : Type}

def eraseKey (key : String) (map : List (String × α)) : List (String × α) :=
  map.filter fun it => it.1 ≠ key

def insertKey (key : String) (value : α) (map : List (String × α)) : List (String × α) :=
  (key, value) :: eraseKey key map

end Maps

namespace GraphMergeHelper

variable (helper : GraphMergeHelper)

def start (first : ℕ) : Option MergeBase := do
  let base ← helper.graph.nodes[first]?
  return ⟨base, helper.graph.nodes.map fun n => (n.id, n), helper.graph.edges,
    helper.graph.nodes.map fun n => (n.id, n.id)⟩

/-- Merge the next node. The merged node goes by the id of its range outside, but keeps the name
that was generated for it as its own id. -/
def mergeNext (first : ℕ) (st : MergeBase) (i : ℕ) : Option MergeBase := do
  let tgt ← helper.graph.nodes[i]?
  let merged_node ← Rannc.merge (helper.names.generateName (helper.used + i) "ML_") st.base tgt
    (st.rest_nodes.map Prod.snd) st.rest_edges
  let merged_graph_id := getMergedGraphId first i
  let merged_node := { merged_node with graph := merged_node.graph.rename merged_graph_id }
  let name_map := insertKey tgt.id merged_graph_id
    (insertKey st.base.id merged_graph_id st.name_map)
  let rest_edges ← mergeEdgesNoCopy helper.edge_order st.rest_edges name_map
  let name_map := insertKey merged_graph_id merged_graph_id
    (eraseKey tgt.id (eraseKey st.base.id name_map))
  let rest_nodes := insertKey merged_graph_id merged_node
    (eraseKey tgt.id (eraseKey st.base.id st.rest_nodes))
  return ⟨merged_node, rest_nodes, rest_edges, name_map⟩

def mergeUntil (first last : ℕ) : Option MergeBase := do
  let st ← helper.start first
  (List.range' (first + 1) (last - first)).foldlM (helper.mergeNext first) st

/-- The graph of the nodes from `first` to `last`. -/
def merge (first last : ℕ) : Option IRGraph := do
  guard (last < helper.graph.nodes.length)
  let st ← helper.mergeUntil first last
  return st.base.graph

variable {helper}

theorem mergeUntil_succ {first last : ℕ} (h : first ≤ last) :
    helper.mergeUntil first (last + 1) =
      (helper.mergeUntil first last).bind fun st => helper.mergeNext first st (last + 1) := by
  have hcount : last + 1 - first = (last - first) + 1 := by omega
  have hnext : first + 1 + (last - first) = last + 1 := by omega
  unfold mergeUntil
  rw [hcount, List.range'_concat, Nat.one_mul, hnext]
  cases helper.start first with
  | none => rfl
  | some st =>
    simp only [List.foldlM_append, List.foldlM_cons, List.foldlM_nil, bind_pure]
    rfl

end GraphMergeHelper

end Rannc
