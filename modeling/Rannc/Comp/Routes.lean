import Rannc.Lib.Schedule
import Mathlib.Data.Finset.Basic
import Mathlib.Data.String.Basic
import Mathlib.Data.Prod.Lex

/-!
# Routes between deployed subgraphs

A route carries one value from the ranks of one subgraph to the ranks of another. For every
subgraph the routes are sorted by the number of splits by which the sender lags behind, and then
by the name of the value.
-/
namespace Rannc

inductive StepTypeInIValue
  | LIST
  | TUPLE
  deriving DecidableEq, Repr

structure IValueLocation where
  value_name : String
  path : List (StepTypeInIValue × ℕ)
  deriving DecidableEq, Repr

structure RouteDP where
  location : IValueLocation
  sources : List ℕ
  source_graph : String
  dests : List ℕ
  dest_graph : String
  deriving DecidableEq, Repr

/-- What the connectors read of a deployment. -/
structure Deployment where
  subgraphs : List String
  allocation : String → Finset ℕ
  fwd_routes : List RouteDP
  fwd_graph_order : List String
  bwd_routes : List RouteDP
  bwd_graph_order : List String
  pipeline_num : ℕ

namespace Deployment

variable (d : Deployment) (is_bwd : Bool)

def routes : List RouteDP := if is_bwd then d.bwd_routes else d.fwd_routes

def graphs : List String := if is_bwd then d.bwd_graph_order else d.fwd_graph_order

/-- `getGraphsOnRank` -/
def graphsOnRank (rank : ℕ) : List String :=
  d.subgraphs.filter fun sg_name => rank ∈ d.allocation sg_name

def graph_order (sg_name : String) : ℕ := (d.graphs is_bwd).idxOf sg_name

end Deployment

section Sorting

variable (graph_order : String → ℕ)

def getDelay (r : RouteDP) : ℤ :=
  (graph_order r.dest_graph : ℤ) - graph_order r.source_graph - 1

def getMaxDelay (routes : List RouteDP) : ℤ :=
  routes.foldl (fun max_delay r => max max_delay (getDelay graph_order r)) 0

/-- The comparison of `sortRoutes`. The code asserts that the delays are not negative. -/
def routeLess (r1 r2 : RouteDP) : Prop :=
  let d1 := getDelay graph_order r1
  let d2 := getDelay graph_order r2
  if d1 = d2 then r1.location.value_name < r2.location.value_name else d1 < d2

instance : DecidableRel (routeLess graph_order) := fun r1 r2 => by
  unfold routeLess
  infer_instance

def sortRoutes (routes : List RouteDP) : List RouteDP :=
  routes.insertionSort fun r1 r2 => ¬ routeLess graph_order r2 r1

def sortRecvRoutes (routes : List RouteDP) (sg_name : String) : List RouteDP :=
  sortRoutes graph_order (routes.filter fun r => r.dest_graph = sg_name)

def sortSendRoutes (routes : List RouteDP) (sg_name : String) : List RouteDP :=
  sortRoutes graph_order (routes.filter fun r => r.source_graph = sg_name)

/-- What `routeLess` compares. -/
def routeKey (r : RouteDP) : ℤ ×ₗ String := toLex (getDelay graph_order r, r.location.value_name)

theorem not_routeLess_iff (r1 r2 : RouteDP) :
    ¬ routeLess graph_order r2 r1 ↔ routeKey graph_order r1 ≤ routeKey graph_order r2 := by
  rw [← not_lt, not_iff_not, routeKey, routeKey, Prod.Lex.toLex_lt_toLex, routeLess]
  dsimp only
  split_ifs with h
  · simp [h]
  · simp [h]

theorem mem_sortRoutes {routes : List RouteDP} {r : RouteDP} :
    r ∈ sortRoutes graph_order routes ↔ r ∈ routes :=
  List.mem_insertionSort _

theorem nodup_sortRoutes {routes : List RouteDP} (h : routes.Nodup) :
    (sortRoutes graph_order routes).Nodup :=
  (List.perm_insertionSort _ routes).nodup_iff.mpr h

@[simp] theorem mem_sortRecvRoutes {routes : List RouteDP} {sg_name : String} {r : RouteDP} :
    r ∈ sortRecvRoutes graph_order routes sg_name ↔ r ∈ routes ∧ r.dest_graph = sg_name := by
  simp [sortRecvRoutes, mem_sortRoutes]

@[simp] theorem mem_sortSendRoutes {routes : List RouteDP} {sg_name : String} {r : RouteDP} :
    r ∈ sortSendRoutes graph_order routes sg_name ↔ r ∈ routes ∧ r.source_graph = sg_name := by
  simp [sortSendRoutes, mem_sortRoutes]

theorem le_getMaxDelay {routes : List RouteDP} {r : RouteDP} (hr : r ∈ routes) :
    getDelay graph_order r ≤ getMaxDelay graph_order routes := by
  have hacc : ∀ (routes : List RouteDP) (m : ℤ),
      m ≤ routes.foldl (fun max_delay r => max max_delay (getDelay graph_order r)) m ∧
        ∀ r ∈ routes, getDelay graph_order r ≤
          routes.foldl (fun max_delay r => max max_delay (getDelay graph_order r)) m := by
    intro routes
    induction routes with
    | nil => simp
    | cons a routes ih =>
      intro m
      rw [List.foldl_cons]
      have h := ih (max m (getDelay graph_order a))
      refine ⟨(le_max_left _ _).trans h.1, fun r hr => ?_⟩
      rcases List.mem_cons.mp hr with rfl | hr
      · exact (le_max_right _ _).trans h.1
      · exact h.2 r hr
  exact (hacc routes 0).2 r hr

end Sorting

/-- A deployment as the decomposition leaves it, for one direction: the order of the subgraphs is
a topological order of the routes, and a route joins the ranks of its subgraphs. Forward no two
routes deliver the same value to one subgraph, which the aggregation of received values asserts. -/
structure Deployment.Routed (d : Deployment) (is_bwd : Bool) : Prop where
  order_nodup : (d.graphs is_bwd).Nodup
  order_subset : ∀ sg_name ∈ d.graphs is_bwd, sg_name ∈ d.subgraphs
  source_mem : ∀ r ∈ d.routes is_bwd, r.source_graph ∈ d.graphs is_bwd
  dest_mem : ∀ r ∈ d.routes is_bwd, r.dest_graph ∈ d.graphs is_bwd
  topological : ∀ r ∈ d.routes is_bwd,
    d.graph_order is_bwd r.source_graph < d.graph_order is_bwd r.dest_graph
  mem_sources : ∀ r ∈ d.routes is_bwd, ∀ rank,
    rank ∈ r.sources ↔ rank ∈ d.allocation r.source_graph
  mem_dests : ∀ r ∈ d.routes is_bwd, ∀ rank, rank ∈ r.dests ↔ rank ∈ d.allocation r.dest_graph
  fwd_unique : is_bwd = false →
    ((d.routes is_bwd).map fun r => (r.dest_graph, r.location)).Nodup

/-- No route is listed twice; a route listed twice would stand for two. -/
structure Deployment.RoutedOnce (d : Deployment) (is_bwd : Bool) : Prop
    extends d.Routed is_bwd where
  routes_nodup : (d.routes is_bwd).Nodup

end Rannc
