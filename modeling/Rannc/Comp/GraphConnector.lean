import Rannc.Comp.Routes
import Mathlib.Logic.Function.Basic

/-!
# One split of the pipeline on one rank

For every subgraph of the rank, in order, the connector receives the routed inputs, runs what has
become ready and sends the outputs. A route to a subgraph several stages ahead is sent that much
later, out of the values kept of earlier splits, and what is still held back after the last split
is flushed. A step yields no result where an assertion of the code fails. The log lists the calls
of `SComm::distribute` and the runs of the driver.
-/
namespace Rannc

variable {V : Type}

/-- The values of one subgraph. A subgraph without an entry has no values. -/
abbrev IValueMap (V : Type) := IValueLocation → Option V

/-- What `SComm` remembers of the running split. -/
structure SComm where
  batch_size : ℕ
  split_index : ℤ
  deriving DecidableEq, Repr

inductive Side
  | send
  | recv
  deriving DecidableEq, Repr

/-- A call of `SComm::distribute`: the split it is for, the value handed over, and the batch size
and split index that decide how the batch is cut over the ranks. -/
structure Call (V : Type) where
  side : Side
  route : RouteDP
  split : ℕ
  value : Option V
  batch_size : ℕ
  dist_split : ℤ
  deriving DecidableEq, Repr

inductive Event (V : Type)
  | distribute (call : Call V)
  | drive (scomm : SComm) (sg_name : String) (split_index : ℕ) (graphs_done : List String)
  deriving DecidableEq, Repr

/-- What the connector is given to run subgraphs: their input names, the module, when to skip it,
and how the values received for one input are combined. -/
structure Driver (V : Type) where
  input_names : String → List String
  func : String → List (String × V) → ℕ → List (IValueLocation × V)
  skip : List (String × V) → ℕ → Bool
  combine : List V → Option V

structure Connector (V : Type) where
  split_values : ℕ → Option (String → IValueMap V)
  recv_values : String → IValueLocation → List V
  graphs_done : List String
  log : List (Event V)

namespace Connector

section Step

variable (d : Deployment) (is_bwd : Bool) (rank : ℕ) (drv : Driver V) (env : Call V → Option V)
  (scomm : SComm) (split_index : ℕ) (st : Connector V)

/-- The values of the running split. -/
def values : String → IValueMap V := (st.split_values split_index).getD fun _ _ => none

def setValues (values : String → IValueMap V) : Connector V :=
  { st with split_values := Function.update st.split_values split_index (some values) }

/-- `recv_values[r.dest_graph][r.location].push_back`, unless nothing was received. -/
def pushRecv (r : RouteDP) (recv_val : Option V) : Connector V :=
  match recv_val with
  | none => st
  | some v =>
    let sg_values := st.recv_values r.dest_graph
    let locValues := sg_values r.location ++ [v]
    { st with
      recv_values := Function.update st.recv_values r.dest_graph
        (Function.update sg_values r.location locValues) }

/-- Call `distribute`; `env` is what the other ranks make it return. -/
def distribute (call : Call V) : Connector V × Option V :=
  ({ st with log := st.log ++ [Event.distribute call] }, env call)

def recvRoute (r : RouteDP) : Option (Connector V) :=
  if rank ∈ r.dests then
    let (st, recv_val) := st.distribute env
      ⟨Side.recv, r, split_index, none, scomm.batch_size, scomm.split_index⟩
    some (st.pushRecv r recv_val)
  else none

/-- How many of the routes a rank receives end at a location. -/
def incEdgesCount (routes : List RouteDP) (sg_name : String) (loc : IValueLocation) : ℕ :=
  routes.countP fun r => r.dest_graph = sg_name ∧ r.location = loc

/-- The routes that end at the subgraphs of the rank. -/
def recvRoutesOnRank : List RouteDP :=
  (d.routes is_bwd).filter fun r => r.dest_graph ∈ d.graphsOnRank rank

/-- The combined value of a location for which everything has been received. -/
def received (sg_name : String) (loc : IValueLocation) : Option V :=
  let edge_counts := incEdgesCount (recvRoutesOnRank d is_bwd rank) sg_name loc
  if 0 < edge_counts ∧ (st.recv_values sg_name loc).length = edge_counts then
    drv.combine (st.recv_values sg_name loc)
  else none

/-- Values that are there are not replaced. -/
def aggrValue (sg_name : String) (loc : IValueLocation) : Option V :=
  (st.values split_index sg_name loc).or (st.received d is_bwd rank drv sg_name loc)

/-- Forward, no input may have two routes. -/
def aggr : Option (Connector V) :=
  let recv_routes := recvRoutesOnRank d is_bwd rank
  if is_bwd = false ∧ ∃ r ∈ recv_routes, incEdgesCount recv_routes r.dest_graph r.location ≠ 1 then
    none
  else some (st.setValues split_index (st.aggrValue d is_bwd rank drv split_index))

def isGraphReady (input_names : List String) (sg_values : IValueMap V) : Bool :=
  input_names.all fun in_name => (sg_values ⟨in_name, []⟩).isSome

/-- Outputs do not replace values that are there. -/
def addOutputs (sg_values : IValueMap V) (driver_out : List (IValueLocation × V)) : IValueMap V :=
  fun loc => (sg_values loc).or (driver_out.lookup loc)

/-- The outputs of a subgraph that is ready. -/
def driverOut (sg_name : String) : List (IValueLocation × V) :=
  let graph_inputs := (drv.input_names sg_name).filterMap fun in_name =>
    (st.values split_index sg_name ⟨in_name, []⟩).map fun v => (in_name, v)
  if drv.skip graph_inputs split_index then [] else drv.func sg_name graph_inputs split_index

/-- One subgraph in the loop of `runDriver`. -/
def runGraph (sg_name : String) : Connector V :=
  let sg_values := st.values split_index sg_name
  if sg_name ∉ st.graphs_done ∧ isGraphReady (drv.input_names sg_name) sg_values then
    let sg_values := addOutputs sg_values (st.driverOut drv split_index sg_name)
    { st.setValues split_index (Function.update (st.values split_index) sg_name sg_values) with
      graphs_done := st.graphs_done ++ [sg_name] }
  else st

/-- Run every subgraph of the rank that is ready. The event tells what `SComm` remembers meanwhile,
whose turn it is and what has been run by the end. -/
def runDriver (sg_name : String) : Connector V :=
  let st := (d.graphsOnRank rank).foldl (runGraph drv split_index) st
  { st with log := st.log ++ [Event.drive scomm sg_name split_index st.graphs_done] }

/-- The call by which a route is sent, or nothing while it is held back. -/
def distributeOutput (graph_order : String → ℕ) (flush_offset : ℕ) (r : RouteDP) :
    Option (Option (Call V)) :=
  let send_delay := getDelay graph_order r
  let tgt_split := split_index + flush_offset - send_delay
  if 0 ≤ tgt_split then do
    let values ← st.split_values tgt_split.toNat
    return some ⟨Side.send, r, tgt_split.toNat, values r.source_graph r.location,
      scomm.batch_size, scomm.split_index - (send_delay - flush_offset)⟩
  else return none

def sendRoute (r : RouteDP) : Option (Connector V) := do
  match ← st.distributeOutput scomm split_index (d.graph_order is_bwd) 0 r with
  | none => return st
  | some call =>
    let (st, recv_val) := st.distribute env call
    return st.pushRecv r recv_val

/-- One route in one step of the flush. What a flush receives is dropped. -/
def flushRoute (i : ℕ) (r : RouteDP) : Option (Connector V) :=
  if i ≤ getDelay (d.graph_order is_bwd) r then do
    match ← st.distributeOutput scomm split_index (d.graph_order is_bwd) i r with
    | none => return st
    | some call => return (st.distribute env call).1
  else return st

/-- The turn of one subgraph. -/
def computeGraph (sg_name : String) : Option (Connector V) := do
  let order := d.graph_order is_bwd
  let send_routes := sortSendRoutes order (d.routes is_bwd) sg_name
  let st ← (sortRecvRoutes order (d.routes is_bwd) sg_name).foldlM
    (recvRoute rank env scomm split_index) st
  let st ← st.aggr d is_bwd rank drv split_index
  let st := st.runDriver d rank drv scomm split_index sg_name
  let st ← send_routes.foldlM (sendRoute d is_bwd env scomm split_index) st
  if split_index + 1 = d.pipeline_num then
    (List.range' 1 (getMaxDelay order (d.routes is_bwd)).toNat).foldlM (fun st i =>
      send_routes.foldlM (fun st r => flushRoute d is_bwd env scomm split_index st i r) st) st
  else return st

/-- The subgraphs of the rank, in order. -/
def sortedGraphIds : List String :=
  (d.graphs is_bwd).filter fun sg_name => sg_name ∈ d.graphsOnRank rank

def compute (inputs : String → IValueMap V) : Option (Connector V) :=
  let history := if split_index = 0 then fun _ => none else st.split_values
  (sortedGraphIds d is_bwd rank).foldlM (computeGraph d is_bwd rank drv env scomm split_index)
    ⟨Function.update history split_index (some inputs), fun _ _ => [], [], st.log⟩

end Step

end Connector

end Rannc
