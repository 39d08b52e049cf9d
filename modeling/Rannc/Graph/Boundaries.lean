import Rannc.Lib.Dict
import Rannc.Graph.Evaluation
import Rannc.Graph.Partitioner

/-!
# Moving nodes over the boundaries

The nodes of a coarse graph are made of the nodes one level below. Where an edge of the lower level
goes from one coarse node to another, the node at either of its ends can change sides. The moves
that are possible are listed once; then the best move of each lower node is made, one node after
the other, if the two coarse nodes get faster by it.
-/
namespace Rannc

mutual

def calcEdgeSize : MLEdge → Option ℕ
  | ⟨_, _, [], base_edges⟩ => do
    let sizes ← base_edges.mapM fun be => be.value.getSizeInByte
    return sizes.sum
  | ⟨_, _, se :: sub_edges, _⟩ => do
    let size ← calcEdgeSize se
    let rest ← sumEdgeSizes sub_edges
    return size + rest

def sumEdgeSizes : List MLEdge → Option ℕ
  | [] => some 0
  | e :: edges => do
    let size ← calcEdgeSize e
    let rest ← sumEdgeSizes edges
    return size + rest

end

/-- The sub edges of a node are between its sub nodes. -/
def MLNode.verify (n : MLNode) : Bool :=
  n.sub_edges.all fun se =>
    se.src_id ∈ n.sub_nodes.map MLNode.id ∧ se.tgt_id ∈ n.sub_nodes.map MLNode.id

/-- The ids of the sub nodes of a node. A node that has none has no entry. -/
def MLGraph.subnode_ids (g : MLGraph) (id : String) : List String :=
  (g.nodes.filter fun n => n.id = id).flatMap fun n => n.sub_nodes.map MLNode.id

/-- The sub edges of an edge go from the sub nodes of its source to those of its target. -/
def MLGraph.verify (g : MLGraph) : Bool :=
  g.nodes.all MLNode.verify && g.edges.all fun e =>
    g.subnode_ids e.src_id ≠ [] ∧ g.subnode_ids e.tgt_id ≠ [] ∧
      ∀ se ∈ e.sub_edges, se.src_id ∈ g.subnode_ids e.src_id ∧ se.tgt_id ∈ g.subnode_ids e.tgt_id

/-- The inputs and the results that are neither read nor given out. -/
def IRGraph.findUnusedValue (g : IRGraph) : List String :=
  g.definedNames.filter (· ∉ g.getRequiredValues)

def IRGraph.noUnusedValue (g : IRGraph) : Bool := g.findUnusedValue.isEmpty

def adj_ml_nodes (graph : MLGraph) (ids : List String) : Option (List MLNode) :=
  let node_map := Dict.ofList (graph.nodes.map fun gn => (gn.id, gn))
  ids.mapM node_map.get

def src_ml_nodes (n : MLNode) (graph : MLGraph) : Option (List MLNode) :=
  adj_ml_nodes graph ((graph.edges.filter fun e => e.tgt_id = n.id).map MLEdge.src_id)

def tgt_ml_nodes (n : MLNode) (graph : MLGraph) : Option (List MLNode) :=
  adj_ml_nodes graph ((graph.edges.filter fun e => e.src_id = n.id).map MLEdge.tgt_id)

def countRefTgtInSubgraph (node sub_node : MLNode) : Option ℕ := do
  let nodes ← tgt_ml_nodes sub_node ⟨node.sub_nodes, node.sub_edges⟩
  return nodes.length

def countRefSrcInSubgraph (node sub_node : MLNode) : Option ℕ := do
  let nodes ← src_ml_nodes sub_node ⟨node.sub_nodes, node.sub_edges⟩
  return nodes.length

def countRefInEdgesSrc (node : MLNode) (edges : List MLEdge) : ℕ :=
  edges.countP fun e => e.src_id = node.id

def countRefInEdgesTgt (node : MLNode) (edges : List MLEdge) : ℕ :=
  edges.countP fun e => e.tgt_id = node.id

def containsSubgraph (n : MLNode) (subgraph_id : String) : Bool :=
  subgraph_id ∈ n.sub_nodes.map MLNode.id

def containsSubedge (edge sub_edge : MLEdge) : Bool :=
  (edge.sub_edges.map MLEdge.ends).contains sub_edge.ends

/-- What the lower nodes of the other coarse nodes read. -/
def getPreservedOutputs (src_node_id moved_graph_id : String) (all_nodes : List MLNode) :
    List String :=
  (all_nodes.filter fun n => n.id ≠ src_node_id).flatMap fun n =>
    (n.sub_nodes.filter fun sn => sn.graph.name ≠ moved_graph_id).flatMap
      fun sn => sn.graph.input_names

/-- The nodes of `g2` are taken out of `g1`, and the values that no other node has. -/
def doRemoveSubgraph (name : String) (g1 g2 : IRGraph) : Option IRGraph :=
  let removed_nodes := g2.nodes.map IRNode.id
  let nodes := g1.nodes.filter fun n => n.id ∉ removed_nodes
  let val_names := nodes.flatMap fun n => n.input_names ++ n.output_names
  IRGraph.create name nodes (g1.values.filter fun it => it.1 ∈ val_names)
    (g1.input_names.filter (· ∈ val_names)) (g1.output_names.filter (· ∈ val_names))

/-- `g2` is at the end of `g1`: what it reads becomes an output. -/
def removeTailSubgraph (name : String) (g1 g2 : IRGraph) : Option IRGraph := do
  let g ← doRemoveSubgraph name g1 g2
  let outputs ← g2.input_names.foldlM
    (fun outputs o =>
      if o ∈ outputs then some outputs
      else do
        let value ← g2.getValue o
        if !value.is_param && g.hasValue o then return outputs ++ [o] else return outputs)
    g.output_names
  let g ← IRGraph.create g.name g.nodes g.values g.input_names outputs
  g.removeUnusedNodes

/-- `g2` is at the beginning of `g1`: what the others read of it becomes an input. -/
def removeHeadSubgraph (name : String) (g1 g2 : IRGraph) : Option IRGraph := do
  let g ← doRemoveSubgraph name g1 g2
  let non_param_inputs ← g.getNonParamInputNames
  let inputs := non_param_inputs.foldl
    (fun inputs in_name => if in_name ∉ inputs then inputs ++ [in_name] else inputs) []
  let required_val_names := g.nodes.flatMap IRNode.input_names
  let inputs := g2.output_names.foldl
    (fun inputs out_name =>
      if out_name ∈ required_val_names ∧ out_name ∉ inputs then inputs ++ [out_name] else inputs)
    inputs
  let param_inputs ← g.getParamInputNames
  let g ← IRGraph.create g.name g.nodes g.values (inputs ++ param_inputs) g.output_names
  g.removeUnusedNodes

structure MoveResult where
  src_node : MLNode
  tgt_node : MLNode
  edge : MLEdge

/-- `moved_node` goes from `src_node` to `tgt_node`. -/
def move_to_tgt (names : NameSupply) (used : ℕ) (src_node : MLNode) (edge : MLEdge)
    (tgt_node : MLNode) (sub_edge : MLEdge) (moved_node : MLNode) (required_inputs : List String) :
    Option MoveResult := do
  let new_src_graph ← removeTailSubgraph (names.generateName used "REMOVED_") src_node.graph
    moved_node.graph
  let new_tgt_graph ← mergeGraphs (names.generateName (used + 1) "ML_") moved_node.graph
    tgt_node.graph required_inputs
  let new_src_elem_nodes := src_node.sub_nodes.filter fun elem => elem.id ≠ moved_node.id
  let new_src_edges := src_node.sub_edges.filter fun se => se.tgt_id ≠ moved_node.id
  let new_sub_edges := (src_node.sub_edges.filter fun se => se.tgt_id = moved_node.id) ++
    edge.sub_edges.filter fun se => se.src_id ≠ moved_node.id
  return {
    src_node := ⟨src_node.id, new_src_graph, new_src_elem_nodes, new_src_edges⟩
    tgt_node := ⟨tgt_node.id, new_tgt_graph, moved_node :: tgt_node.sub_nodes,
      tgt_node.sub_edges ++ [sub_edge]⟩
    edge := ⟨edge.src_id, edge.tgt_id, new_sub_edges, []⟩ }

/-- `moved_node` goes from `tgt_node` to `src_node`. -/
def move_to_src (names : NameSupply) (used : ℕ) (src_node : MLNode) (edge : MLEdge)
    (tgt_node : MLNode) (sub_edge : MLEdge) (moved_node : MLNode) (required_inputs : List String) :
    Option MoveResult := do
  let new_src_graph ← mergeGraphs (names.generateName used "ML_") src_node.graph moved_node.graph
    required_inputs
  let new_tgt_graph ← removeHeadSubgraph (names.generateName (used + 1) "REMOVED_") tgt_node.graph
    moved_node.graph
  let new_tgt_elem_graphs := tgt_node.sub_nodes.filter fun elem => elem.id ≠ moved_node.id
  let new_tgt_edges := tgt_node.sub_edges.filter fun se => se.src_id ≠ moved_node.id
  let new_sub_edges := (tgt_node.sub_edges.filter fun se => se.src_id = moved_node.id) ++
    edge.sub_edges.filter fun se => se.tgt_id ≠ moved_node.id
  return {
    src_node := ⟨src_node.id, new_src_graph, src_node.sub_nodes ++ [moved_node],
      src_node.sub_edges ++ [sub_edge]⟩
    tgt_node := ⟨tgt_node.id, new_tgt_graph, new_tgt_elem_graphs, new_tgt_edges⟩
    edge := ⟨edge.src_id, edge.tgt_id, new_sub_edges, []⟩ }

/-- A move that was listed. It goes from the source to the target if `direction` is set. -/
structure NodeMove where
  src_id : String
  edge : MLEdge
  tgt_id : String
  moved_node : MLNode
  sub_edge : MLEdge
  direction : Bool

namespace NodeMove

variable (move : NodeMove)

/-- The references that keep the node where it is. -/
def blocked (src_node tgt_node : MLNode) (all_sub_edges : List MLEdge) : Option Bool :=
  if move.direction then
    if src_node.sub_nodes.length < 2 then some true
    else do
      let refs ← countRefTgtInSubgraph src_node move.moved_node
      return refs ≠ 0 ∨ countRefInEdgesSrc move.moved_node all_sub_edges > 1 ∨
        countRefInEdgesTgt move.moved_node all_sub_edges ≠ 0
  else
    if tgt_node.sub_nodes.length < 2 then some true
    else do
      let refs ← countRefSrcInSubgraph tgt_node move.moved_node
      return refs ≠ 0 ∨ countRefInEdgesTgt move.moved_node all_sub_edges > 1 ∨
        countRefInEdgesSrc move.moved_node all_sub_edges ≠ 0

/-- The node that the moved one is taken from. -/
def origin (src_node tgt_node : MLNode) : MLNode := if move.direction then src_node else tgt_node

def apply (names : NameSupply) (used : ℕ) (src_node : MLNode) (edge : MLEdge) (tgt_node : MLNode)
    (all_nodes : List MLNode) : Option MoveResult :=
  if move.direction then
    move_to_tgt names used src_node edge tgt_node move.sub_edge move.moved_node
      (getRequiredInputs src_node tgt_node all_nodes)
  else
    move_to_src names used src_node edge tgt_node move.sub_edge move.moved_node
      (getPreservedOutputs src_node.id move.moved_node.graph.name all_nodes)

end NodeMove

/-- The checks after a move whose failure ends the run. What the nodes read is checked before. -/
def MoveResult.verify (moved_result : MoveResult) : Bool :=
  moved_result.src_node.verify && moved_result.tgt_node.verify &&
    moved_result.src_node.graph.verifyNoDuplicatedOutputs &&
    moved_result.tgt_node.graph.verifyNoDuplicatedOutputs &&
    moved_result.src_node.graph.noUnusedValue && moved_result.tgt_node.graph.noUnusedValue

/-- The orders in which the maps are traversed. -/
structure AdjustOrders where
  move_choices : MapOrder String
  node_map : MapOrder MLNode
  edge_map : MapOrder MLEdge

/-- Where the run is between two candidates. -/
structure Adjusting where
  node_map : Dict String MLNode
  edge_map : Dict (String × String) MLEdge
  all_nodes : List MLNode
  all_sub_edges : List MLEdge
  used : ℕ

structure BestMove where
  best_imprv : ℤ
  best_moved_result : Option MoveResult
  used : ℕ

/-- The moves that are possible along an edge. -/
def edgeMoves (node_map lower_node_map : Dict String MLNode) (e : MLEdge) :
    Option (List NodeMove) := do
  let src_node ← node_map.get e.src_id
  let tgt_node ← node_map.get e.tgt_id
  let moves ← e.sub_edges.mapM fun se => do
    let moved_node_src ← lower_node_map.get se.src_id
    let moved_node_tgt ← lower_node_map.get se.tgt_id
    return [⟨src_node.id, e, tgt_node.id, moved_node_src, se, true⟩,
      ⟨src_node.id, e, tgt_node.id, moved_node_tgt, se, false⟩]
  return moves.flatten

/-- The first state, and the moves. -/
def startAdjusting (ml_graph : MLGraph) (used : ℕ) : Option (Adjusting × List NodeMove) := do
  let node_map := Dict.ofList (ml_graph.nodes.map fun n => (n.id, n))
  let lower_node_map := Dict.ofList
    ((ml_graph.nodes.flatMap MLNode.sub_nodes).map fun sn => (sn.id, sn))
  guard (ml_graph.nodes.all MLNode.verify = true)
  let edge_map := Dict.ofList (ml_graph.edges.map fun e => (e.ends, e))
  let moves ← ml_graph.edges.mapM (edgeMoves node_map lower_node_map)
  return (⟨node_map, edge_map, ml_graph.nodes, ml_graph.edges.flatMap MLEdge.sub_edges, used⟩,
    moves.flatten)

namespace Adjusting

variable (orders : AdjustOrders) (st : Adjusting)

/-- The graph that the maps stand for. -/
def graph : MLGraph :=
  ⟨orders.node_map.order st.node_map.values, orders.edge_map.order st.edge_map.values⟩

/-- Take over a move. An edge without sub edges is erased. -/
def accept (moved : MoveResult) (used : ℕ) : Adjusting :=
  let node_map := (st.node_map.set moved.src_node.id moved.src_node).set moved.tgt_node.id
    moved.tgt_node
  let edge_map :=
    if moved.edge.sub_edges.isEmpty then st.edge_map.erase moved.edge.ends
    else st.edge_map.set moved.edge.ends moved.edge
  { node_map := node_map
    edge_map := edge_map
    all_nodes := orders.node_map.order node_map.values
    all_sub_edges := (orders.edge_map.order edge_map.values).flatMap MLEdge.sub_edges
    used := used }

end Adjusting

namespace MLPartitioner

variable (p : MLPartitioner) (orders : AdjustOrders)

/-- The time of two nodes and of the edge between them. -/
def evalSides (src_node tgt_node : MLNode) (edge : MLEdge) : Option ℤ := do
  let size ← calcEdgeSize edge
  guard (p.dev_num * p.max_pipeline_num ≠ 0)
  return p.evalNode src_node + p.evalNode tgt_node +
    p.calcCommTime (toSize size / (p.dev_num * p.max_pipeline_num))

/-- Try one of the moves of a node. -/
def tryMove (st : Adjusting) (best : BestMove) (move : NodeMove) : Option BestMove := do
  let src_node ← st.node_map.get move.src_id
  let tgt_node ← st.node_map.get move.tgt_id
  let blocked ← move.blocked src_node tgt_node st.all_sub_edges
  if blocked then return best
  let edge ← st.edge_map.get move.edge.ends
  if !containsSubedge edge move.sub_edge then return best
  if !containsSubgraph (move.origin src_node tgt_node) move.moved_node.id then return best
  let moved ← move.apply p.names best.used src_node edge tgt_node st.all_nodes
  let best := { best with used := best.used + 2 }
  if !moved.src_node.graph.verifyNodeInputs || !moved.tgt_node.graph.verifyNodeInputs then
    return best
  guard (moved.verify = true)
  let time ← p.evalSides src_node tgt_node edge
  if !p.fitToMem moved.src_node.graph (p.profile moved.src_node.graph) then return best
  if !p.fitToMem moved.tgt_node.graph (p.profile moved.tgt_node.graph) then return best
  let moved_time ← p.evalSides moved.src_node moved.tgt_node moved.edge
  let imprv := toLong (time - moved_time)
  if imprv > best.best_imprv then
    return { best with best_imprv := imprv, best_moved_result := some moved }
  return best

/-- Find the best move of a node and make it. -/
def adjustNode (moves : List NodeMove) (st : Adjusting) (move_node_id : String) :
    Option Adjusting := do
  let possible_moves := moves.filter fun move => move.moved_node.id = move_node_id
  let best ← possible_moves.foldlM (p.tryMove st) ⟨0, none, st.used⟩
  if best.best_imprv > 0 then
    let moved ← best.best_moved_result
    return st.accept orders moved best.used
  return { st with used := best.used }

/-- The nodes that can be moved. -/
def moveCandIds (moves : List NodeMove) : List String :=
  orders.move_choices.order (moves.map fun move => move.moved_node.id).dedup

def adjustBoundaries (ml_graph : MLGraph) (used : ℕ) : Option (MLGraph × ℕ) := do
  let (st, moves) ← startAdjusting ml_graph used
  let st ← (moveCandIds orders moves).foldlM (p.adjustNode orders moves) st
  return (st.graph orders, st.used)

end MLPartitioner

end Rannc
