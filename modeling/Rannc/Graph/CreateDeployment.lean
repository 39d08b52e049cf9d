import Rannc.Comp.Routes
import Rannc.Graph.SubGraphs

/-!
# From subgraphs to routes

The subgraphs become graphs of operators and the connections routes between the ranks that the
subgraphs are allocated to. Connections with the master are the routes of the inputs and outputs of
the whole model; the gradients go the other way.
-/
namespace Rannc

open Rannc.Digraph

structure Partition where
  id : String
  graph : IRGraph
  subgraphs : List (String × IRGraph)
  connections : List GraphConnection
  order : List String

/-- The vertices in topological order. -/
def all_nodes_topo (sort : TopologicalSort) (g : BGraph) : List ℕ :=
  (sort.sort g.vertices.length g.edges).reverse

/-- The graph of operators; inputs that are parameters come last. -/
def fromBGL (sort : TopologicalSort) (b_graph : BGraph) : Option IRGraph :=
  let vertices := (all_nodes_topo sort b_graph).map b_graph.info
  let value_nodes := vertices.filter fun vi => vi.type = .VALUE
  let names p := (value_nodes.filter p).map VertexInfo.name
  IRGraph.create b_graph.id
    ((vertices.filter fun vi => vi.type = .NODE).map VertexInfo.node)
    (value_nodes.reverse.map fun vi => (vi.name, vi.value))
    (names (fun vi => vi.is_input && !vi.is_param) ++ names fun vi => vi.is_input && vi.is_param)
    (names fun vi => vi.is_output)

def find_value_node (name : String) (g : BGraph) : Option ℕ :=
  g.all_nodes.find? fun v => (g.info v).type = .VALUE ∧ (g.info v).name = name

/-- The end of a connection, which has to have the value unless it is the master. -/
def searchGraphWithValue (subgraphs : List (String × IRGraph)) (id val_name : String) :
    Option String := do
  if id = MASTER_NAME then return id
  else
    let g ← subgraphs.lookup id
    if g.hasValue val_name then return id else none

/-- The size of the connections is only reported, but has to be known. -/
def cutSize (g : BGraph) (connections : List GraphConnection) : Option ℕ := do
  let sizes ← connections.mapM fun con => do
    (g.info (← find_value_node con.value g)).value.getSizeInByte
  return sizes.sum

/-- Partition a graph by the ranks of its vertices. -/
def createPartition (sort : TopologicalSort) (order : SetOrder) (g : BGraph) :
    Option Partition := do
  let b_decomp ← createSubGraphs sort order g
  let comp_graphs ← b_decomp.graphs.mapM fun it => (fromBGL sort it.2).map (it.1, ·)
  let comp_connection ← b_decomp.connections.mapM fun con => do
    let comp_src ← searchGraphWithValue comp_graphs con.src con.value
    let comp_dest ← searchGraphWithValue comp_graphs con.dest con.value
    return { con with src := comp_src, dest := comp_dest }
  let _cut_size ← cutSize g b_decomp.connections
  let graph ← fromBGL sort g
  return ⟨g.id, graph, comp_graphs, comp_connection, b_decomp.order⟩

inductive RouteTypeDP
  | REDIST
  | BROADCAST
  | WEIGHTED_REDUCE
  deriving DecidableEq, Repr

def chooseRouteType (is_batch is_loss fwd : Bool) : Option RouteTypeDP :=
  if is_batch then some .REDIST
  else if is_loss then
    if fwd then some .BROADCAST else some .WEIGHTED_REDUCE
  else none

def IRScalarType.passedForBackward : IRScalarType → Bool
  | .FLOAT => true
  | .NONE | .NUMBER | .INT | .BOOL | .DEVICE => false

def IRTensorElemType.passedForBackward : IRTensorElemType → Bool
  | .FLOAT | .HALF | .BFLOAT16 | .DOUBLE | .UNDEF => true
  | .INT | .LONG | .BOOL => false

namespace IRType

mutual

/-- Whether there is a gradient for the value. -/
def passedForBackward : IRType → Bool
  | scalar scalar_type => scalar_type.passedForBackward
  | tensor elem_type _ _ => elem_type.passedForBackward
  | list list_type compound_types =>
    (list_type = .TENSOR || list_type = .GENERIC) && allPassedForBackward compound_types
  | tuple compound_types => allPassedForBackward compound_types
  | string => false
  | optional _ => false
  | none => false
  | function _ => false

def allPassedForBackward : List IRType → Bool
  | [] => true
  | type :: types => passedForBackward type && allPassedForBackward types

end

end IRType

def getGraphRanks (order : SetOrder) (size : ℕ) (graph_id : String)
    (allocation : List (String × Finset ℕ)) : Option (List ℕ) :=
  if graph_id = MASTER_NAME then some (order.order (Finset.range size))
  else (allocation.lookup graph_id).map order.order

def GraphConnection.isGraphInput (con : GraphConnection) : Bool := con.src = MASTER_NAME

def GraphConnection.isGraphOutput (con : GraphConnection) : Bool := con.dest = MASTER_NAME

/-- The routes of one direction: between subgraphs, and from and to the master. -/
structure RouteLists where
  routes : List RouteDP := []
  in_routes : List RouteDP := []
  out_routes : List RouteDP := []

def addFwdRoute (lists : RouteLists) (con : GraphConnection) (r : RouteDP) : RouteLists :=
  if con.isGraphInput then { lists with in_routes := lists.in_routes ++ [r] }
  else if con.isGraphOutput then { lists with out_routes := lists.out_routes ++ [r] }
  else { lists with routes := lists.routes ++ [r] }

/-- The gradient of an input goes out and that of an output comes in. -/
def addBwdRoute (lists : RouteLists) (con : GraphConnection) (r : RouteDP) : RouteLists :=
  if con.isGraphInput then { lists with out_routes := lists.out_routes ++ [r] }
  else if con.isGraphOutput then { lists with in_routes := lists.in_routes ++ [r] }
  else { lists with routes := lists.routes ++ [r] }

section CreateDeployment

variable (sort : TopologicalSort) (order : SetOrder) (size : ℕ)

/-- The routes of a connection. The value is looked up in the first subgraph that has it. -/
def addRoutes (subgraphs : List (String × IRGraph)) (allocation : List (String × Finset ℕ))
    (lists : RouteLists × RouteLists) (con : GraphConnection) :
    Option (RouteLists × RouteLists) := do
  let val ← (subgraphs.filterMap fun it => it.2.getValue con.value).head?
  let sources ← getGraphRanks order size con.src allocation
  let dests ← getGraphRanks order size con.dest allocation
  let _type ← chooseRouteType val.is_batch val.is_loss true
  let fwd := addFwdRoute lists.1 con ⟨⟨con.value, []⟩, sources, con.src, dests, con.dest⟩
  if val.type.passedForBackward then
    let _type ← chooseRouteType val.is_batch val.is_loss false
    return (fwd, addBwdRoute lists.2 con ⟨⟨con.value, []⟩, dests, con.dest, sources, con.src⟩)
  else return (fwd, lists.2)

/-- A graph of subgraphs and routes: the names of its vertices, none for a route, and its edges. -/
structure RGraph where
  names : List (Option String)
  edges : List (ℕ × ℕ)

def RGraph.addGraph (rg : RGraph) (id : String) : RGraph :=
  if some id ∈ rg.names then rg else { rg with names := rg.names ++ [some id] }

def RGraph.addRoute (rg : RGraph) (r : RouteDP) : RGraph :=
  let rg := (rg.addGraph r.source_graph).addGraph r.dest_graph
  let e := rg.names.length
  { names := rg.names ++ [none]
    edges := rg.edges ++ [(rg.names.idxOf (some r.source_graph), e),
      (e, rg.names.idxOf (some r.dest_graph))] }

def toRGraph (subgraphs : List String) (routes : List RouteDP) : RGraph :=
  routes.foldl RGraph.addRoute ⟨subgraphs.map some, []⟩

/-- The subgraphs in topological order of the routes; there is none if the routes have a cycle. -/
def sortGraphs (subgraphs : List String) (routes : List RouteDP) : Option (List String) :=
  let rg := toRGraph subgraphs routes
  let rev_topo := sort.sort rg.names.length rg.edges
  if rev_topo.Perm (List.range rg.names.length) ∧
      rev_topo.Pairwise (fun a b => (a, b) ∉ rg.edges) ∧
      ∀ v < rg.names.length, (v, v) ∉ rg.edges then
    some (rev_topo.reverse.filterMap fun v => rg.names.getD v none)
  else none

/-- The deployment and its routes from and to the master, forward and backward. -/
def createDeployment (pipeline_num : ℕ) (subgraphs : List (String × IRGraph))
    (connections : List GraphConnection) (allocation : List (String × Finset ℕ)) :
    Option (Deployment × RouteLists × RouteLists) := do
  let (fwd, bwd) ← connections.foldlM (addRoutes order size subgraphs allocation) ({}, {})
  let names := subgraphs.map Prod.fst
  let fwd_graph_order ← sortGraphs sort names fwd.routes
  let bwd_graph_order ← sortGraphs sort names bwd.routes
  return (⟨names, fun name => (allocation.lookup name).getD ∅, fwd.routes, fwd_graph_order,
    bwd.routes, bwd_graph_order, pipeline_num⟩, fwd, bwd)

end CreateDeployment

end Rannc
