import Rannc.Graph.MasterRoutes

/-!
# The routes of a deployment

The routes of a deployment follow the connections of the partition, forward and backward, and the
subgraphs are sorted by them. Where every subgraph gets a value over one connection, this is what
the runs of the deployment rely on.
-/
namespace Rannc

open Rannc.Digraph

section Sorting

variable {names : List String} {routes : List RouteDP}

/-- The graphs come first, and every route has a vertex of its own between its graphs. -/
structure RGraph.Joins (rg : RGraph) (names : List String) (routes : List RouteDP) : Prop where
  names_eq : rg.names = names.map some ++ List.replicate routes.length none
  edges : ∀ r ∈ routes, ∃ e < rg.names.length,
    (names.idxOf r.source_graph, e) ∈ rg.edges ∧ (e, names.idxOf r.dest_graph) ∈ rg.edges

theorem idxOf_map_some (names : List String) (id : String) :
    (names.map some).idxOf (some id) = names.idxOf id := by
  induction names with
  | nil => rfl
  | cons name names ih =>
    rw [List.map_cons, List.idxOf_cons, List.idxOf_cons, ih]
    simp

theorem RGraph.Joins.addRoute {rg : RGraph} (h : rg.Joins names routes) {r : RouteDP}
    (hsource : r.source_graph ∈ names) (hdest : r.dest_graph ∈ names) :
    (rg.addRoute r).Joins names (routes ++ [r]) := by
  have hadd : ∀ id ∈ names, rg.addGraph id = rg := by
    intro id hid
    refine if_pos ?_
    rw [h.names_eq]
    exact List.mem_append_left _ (List.mem_map_of_mem hid)
  have hidx : ∀ id ∈ names, rg.names.idxOf (some id) = names.idxOf id := by
    intro id hid
    rw [h.names_eq, List.idxOf_append_of_mem (List.mem_map_of_mem hid), idxOf_map_some]
  unfold RGraph.addRoute
  rw [hadd _ hsource, hadd _ hdest]
  dsimp only
  rw [hidx _ hsource, hidx _ hdest]
  constructor
  case names_eq =>
    dsimp only
    rw [h.names_eq, List.append_assoc, ← List.replicate_succ', List.length_append,
      List.length_singleton]
  case edges =>
    intro r' hr'
    dsimp only
    rw [List.length_append, List.length_singleton]
    cases List.mem_append.mp hr' with
    | inl hold =>
      obtain ⟨e, he, hin, hout⟩ := h.edges r' hold
      exact ⟨e, by omega, List.mem_append_left _ hin, List.mem_append_left _ hout⟩
    | inr hnew =>
      obtain rfl := List.mem_singleton.mp hnew
      exact ⟨rg.names.length, by omega, List.mem_append_right _ (by simp),
        List.mem_append_right _ (by simp)⟩

theorem toRGraph_joins (hsource : ∀ r ∈ routes, r.source_graph ∈ names)
    (hdest : ∀ r ∈ routes, r.dest_graph ∈ names) : (toRGraph names routes).Joins names routes := by
  induction routes using List.reverseRecOn with
  | nil => exact ⟨by simp [toRGraph], fun r hr => absurd hr List.not_mem_nil⟩
  | append_singleton routes r ih =>
    unfold toRGraph
    rw [List.foldl_append]
    have hrest := ih (fun r hr => hsource r (List.mem_append_left _ hr))
      fun r hr => hdest r (List.mem_append_left _ hr)
    exact hrest.addRoute (hsource r (by simp)) (hdest r (by simp))

theorem map_getD_range {α : Type} (l : List α) (default : α) :
    (List.range l.length).map (fun i => l.getD i default) = l := by
  refine List.ext_getElem (by simp) fun i hi hi' => ?_
  rw [List.getElem_map, List.getElem_range, List.getD_eq_getElem _ _ hi']

theorem idxOf_lt_of_pairwise {α : Type} [DecidableEq α] {l : List α} {S : α → α → Prop}
    (h : l.Pairwise S) {a b : α} (ha : a ∈ l) (hb : b ∈ l) (hne : a ≠ b) (hnot : ¬ S b a) :
    l.idxOf a < l.idxOf b := by
  have halt := List.idxOf_lt_length_of_mem ha
  have hblt := List.idxOf_lt_length_of_mem hb
  rcases lt_trichotomy (l.idxOf a) (l.idxOf b) with hlt | heq | hgt
  · exact hlt
  · exact absurd ((List.idxOf_inj ha).mp heq) hne
  · have hlater := List.pairwise_iff_getElem.mp h _ _ hblt halt hgt
    rw [List.getElem_idxOf, List.getElem_idxOf] at hlater
    exact absurd hlater hnot

theorem vertex_eq_idxOf (hnodup : names.Nodup) {n v : ℕ} {id : String}
    (h : (names.map some ++ List.replicate n none).getD v none = some id) : v = names.idxOf id := by
  by_cases hv : v < names.length
  · rw [List.getD_append _ _ _ _ (by simpa using hv), List.getD_eq_getElem _ _ (by simpa using hv),
      List.getElem_map, Option.some.injEq] at h
    rw [← h, hnodup.idxOf_getElem]
  · rw [List.getD_append_right _ _ _ _ (by simpa using hv)] at h
    simp at h

/-- The sorted subgraphs are all subgraphs, and routes lead to later ones. -/
theorem sortGraphs_spec {sort : TopologicalSort} {order : List String} (hnodup : names.Nodup)
    (hsource : ∀ r ∈ routes, r.source_graph ∈ names) (hdest : ∀ r ∈ routes, r.dest_graph ∈ names)
    (h : sortGraphs sort names routes = some order) :
    order.Perm names ∧
      ∀ r ∈ routes, order.idxOf r.source_graph < order.idxOf r.dest_graph := by
  have hjoins := toRGraph_joins hsource hdest
  unfold sortGraphs at h
  dsimp only at h
  split_ifs at h with hsorted
  obtain ⟨hperm, hpairwise, hself⟩ := hsorted
  obtain rfl := Option.some.inj h
  generalize toRGraph names routes = rg at hjoins hperm hpairwise hself
  generalize sort.sort rg.names.length rg.edges = rev_topo at hperm hpairwise
  have hmem : ∀ v < rg.names.length, v ∈ rev_topo.reverse := fun v hv =>
    List.mem_reverse.mpr (hperm.mem_iff.mpr (List.mem_range.mpr hv))
  have hforward := List.pairwise_reverse.mpr hpairwise
  have hidx : ∀ id ∈ names, names.idxOf id < rg.names.length := by
    intro id hid
    have hlt := List.idxOf_lt_length_of_mem hid
    rw [hjoins.names_eq, List.length_append, List.length_map]
    omega
  have hperm' : (rev_topo.reverse.filterMap fun v => rg.names.getD v none).Perm names := by
    have hnames :
        (List.range rg.names.length).filterMap (fun v => rg.names.getD v none) = names := by
      have hmap := List.filterMap_map (f := fun v => rg.names.getD v none) (g := id)
        (l := List.range rg.names.length)
      rw [map_getD_range] at hmap
      refine hmap.symm.trans ?_
      rw [hjoins.names_eq, List.filterMap_append, List.filterMap_map]
      simp
    rw [← hnames]
    exact ((List.reverse_perm rev_topo).trans hperm).filterMap _
  refine ⟨hperm', fun r hr => ?_⟩
  -- the places of the graphs among all vertices
  let pos : String → ℕ := fun id => rev_topo.reverse.idxOf (names.idxOf id)
  have hlt : pos r.source_graph < pos r.dest_graph := by
    obtain ⟨e, he, hin, hout⟩ := hjoins.edges r hr
    have hsource' := hidx _ (hsource r hr)
    have hdest' := hidx _ (hdest r hr)
    have hne : ∀ {v w}, (v, w) ∈ rg.edges → v < rg.names.length → v ≠ w := fun hedge hv heq =>
      hself _ hv (heq ▸ hedge)
    exact (idxOf_lt_of_pairwise hforward (hmem _ hsource') (hmem _ he) (hne hin hsource')
      (not_not.mpr hin)).trans (idxOf_lt_of_pairwise hforward (hmem _ he) (hmem _ hdest')
        (hne hout he) (not_not.mpr hout))
  have hpos : (rev_topo.reverse.filterMap fun v => rg.names.getD v none).Pairwise
      fun a b => pos a < pos b := by
    have hnodup' : rev_topo.reverse.Nodup :=
      List.nodup_reverse.mpr (hperm.nodup_iff.mpr List.nodup_range)
    rw [List.pairwise_filterMap, List.pairwise_iff_getElem]
    intro i j hi hj hij a ha b hb
    rw [hjoins.names_eq] at ha hb
    change rev_topo.reverse.idxOf _ < rev_topo.reverse.idxOf _
    rw [← vertex_eq_idxOf hnodup ha, ← vertex_eq_idxOf hnodup hb, hnodup'.idxOf_getElem,
      hnodup'.idxOf_getElem]
    exact hij
  refine idxOf_lt_of_pairwise hpos (hperm'.mem_iff.mpr (hsource r hr))
    (hperm'.mem_iff.mpr (hdest r hr)) ?_ (not_lt.mpr hlt.le)
  rintro heq
  rw [heq] at hlt
  exact lt_irrefl _ hlt

end Sorting

section Routes

variable (order : SetOrder) (size : ℕ) (subgraphs : List (String × IRGraph))
  (allocation : List (String × Finset ℕ))

/-- The value of a connection, as the first subgraph has it. -/
def connectedValue (name : String) : Option IRValue :=
  (subgraphs.filterMap fun it => it.2.getValue name).head?

def graphRanks (id : String) : List ℕ := (getGraphRanks order size id allocation).getD []

def fwdRoute (con : GraphConnection) : RouteDP :=
  ⟨⟨con.value, []⟩, graphRanks order size allocation con.src, con.src,
    graphRanks order size allocation con.dest, con.dest⟩

def bwdRoute (con : GraphConnection) : RouteDP :=
  ⟨⟨con.value, []⟩, graphRanks order size allocation con.dest, con.dest,
    graphRanks order size allocation con.src, con.src⟩

def hasGradient (con : GraphConnection) : Bool :=
  (connectedValue subgraphs con.value).any fun val => val.type.passedForBackward

/-- A connection of a batch or a loss between graphs with ranks. -/
structure Connects (con : GraphConnection) : Prop where
  value : ∃ val, connectedValue subgraphs con.value = some val ∧
    (val.is_batch || val.is_loss) = true
  source : (getGraphRanks order size con.src allocation).isSome
  dest : (getGraphRanks order size con.dest allocation).isSome

/-- The routes of some connections, forward. -/
def fwdRoutes (connections : List GraphConnection) : RouteLists :=
  let route := fwdRoute order size allocation
  ⟨(betweenGraphs connections).map route, (fromMaster connections).map route,
    (toMaster connections).map route⟩

/-- The routes of some connections, backward. -/
def bwdRoutes (connections : List GraphConnection) : RouteLists :=
  let route := bwdRoute order size allocation
  let connections := connections.filter (hasGradient subgraphs)
  ⟨(betweenGraphs connections).map route, (toMaster connections).map route,
    (fromMaster connections).map route⟩

def RouteLists.append (a b : RouteLists) : RouteLists :=
  ⟨a.routes ++ b.routes, a.in_routes ++ b.in_routes, a.out_routes ++ b.out_routes⟩

theorem RouteLists.append_assoc (a b c : RouteLists) :
    (a.append b).append c = a.append (b.append c) := by
  simp [RouteLists.append]

variable {order size subgraphs allocation}

theorem fwdRoutes_append (connections connections' : List GraphConnection) :
    fwdRoutes order size allocation (connections ++ connections') =
      (fwdRoutes order size allocation connections).append
        (fwdRoutes order size allocation connections') := by
  simp [fwdRoutes, RouteLists.append, fromMaster, betweenGraphs, toMaster]

theorem bwdRoutes_append (connections connections' : List GraphConnection) :
    bwdRoutes order size subgraphs allocation (connections ++ connections') =
      (bwdRoutes order size subgraphs allocation connections).append
        (bwdRoutes order size subgraphs allocation connections') := by
  simp [bwdRoutes, RouteLists.append, fromMaster, betweenGraphs, toMaster]

theorem chooseRouteType_eq_some {is_batch is_loss fwd : Bool} {type : RouteTypeDP}
    (h : chooseRouteType is_batch is_loss fwd = some type) : (is_batch || is_loss) = true := by
  unfold chooseRouteType at h
  cases is_batch <;> cases is_loss <;> simp_all

theorem addRoutes_spec {lists lists' : RouteLists × RouteLists} {con : GraphConnection}
    (h : addRoutes order size subgraphs allocation lists con = some lists') :
    Connects order size subgraphs allocation con ∧
      lists' = (lists.1.append (fwdRoutes order size allocation [con]),
        lists.2.append (bwdRoutes order size subgraphs allocation [con])) := by
  obtain ⟨val, hval, h⟩ := Option.bind_eq_some_iff.mp h
  obtain ⟨sources, hsources, h⟩ := Option.bind_eq_some_iff.mp h
  obtain ⟨dests, hdests, h⟩ := Option.bind_eq_some_iff.mp h
  obtain ⟨_, htype, h⟩ := Option.bind_eq_some_iff.mp h
  refine ⟨⟨⟨val, hval, chooseRouteType_eq_some htype⟩, Option.isSome_of_eq_some hsources,
    Option.isSome_of_eq_some hdests⟩, ?_⟩
  have hgrad : hasGradient subgraphs con = val.type.passedForBackward := by
    unfold hasGradient connectedValue
    rw [hval]
    rfl
  have hfwd : fwdRoute order size allocation con =
      ⟨⟨con.value, []⟩, sources, con.src, dests, con.dest⟩ := by
    unfold fwdRoute graphRanks
    rw [hsources, hdests]
    rfl
  have hbwd : bwdRoute order size allocation con =
      ⟨⟨con.value, []⟩, dests, con.dest, sources, con.src⟩ := by
    unfold bwdRoute graphRanks
    rw [hsources, hdests]
    rfl
  have hlists : addFwdRoute lists.1 con (fwdRoute order size allocation con) =
      lists.1.append (fwdRoutes order size allocation [con]) := by
    unfold addFwdRoute fwdRoutes RouteLists.append
    cases hi : con.isGraphInput <;> cases ho : con.isGraphOutput <;>
      simp [fromMaster, betweenGraphs, toMaster, hi, ho]
  have hlists' : val.type.passedForBackward = true →
      addBwdRoute lists.2 con (bwdRoute order size allocation con) =
        lists.2.append (bwdRoutes order size subgraphs allocation [con]) := by
    intro hpassed
    unfold addBwdRoute bwdRoutes RouteLists.append
    cases hi : con.isGraphInput <;> cases ho : con.isGraphOutput <;>
      simp [fromMaster, betweenGraphs, toMaster, hi, ho, hgrad, hpassed]
  split_ifs at h with hpassed
  · obtain ⟨_, -, h⟩ := Option.bind_eq_some_iff.mp h
    rw [← Option.some.inj h, ← hfwd, ← hbwd, hlists, hlists' hpassed]
  · rw [← Option.some.inj h, ← hfwd, hlists]
    unfold bwdRoutes RouteLists.append
    simp [fromMaster, betweenGraphs, toMaster, hgrad, hpassed]

theorem foldlM_addRoutes {lists lists' : RouteLists × RouteLists}
    {connections : List GraphConnection}
    (h : connections.foldlM (addRoutes order size subgraphs allocation) lists = some lists') :
    (∀ con ∈ connections, Connects order size subgraphs allocation con) ∧
      lists' = (lists.1.append (fwdRoutes order size allocation connections),
        lists.2.append (bwdRoutes order size subgraphs allocation connections)) := by
  induction connections generalizing lists with
  | nil =>
    obtain rfl := Option.some.inj h
    refine ⟨fun con hcon => absurd hcon List.not_mem_nil, ?_⟩
    simp [fwdRoutes, bwdRoutes, RouteLists.append, fromMaster, betweenGraphs, toMaster]
  | cons con connections ih =>
    rw [List.foldlM_cons] at h
    obtain ⟨lists₁, hstep, hrest⟩ := Option.bind_eq_some_iff.mp h
    obtain ⟨hcon, rfl⟩ := addRoutes_spec hstep
    obtain ⟨hcons, rfl⟩ := ih hrest
    refine ⟨List.forall_mem_cons.mpr ⟨hcon, hcons⟩, ?_⟩
    dsimp only
    rw [RouteLists.append_assoc, RouteLists.append_assoc, ← fwdRoutes_append, ← bwdRoutes_append,
      List.singleton_append]

variable {sort : TopologicalSort} {pipeline_num : ℕ} {connections : List GraphConnection}
  {d : Deployment} {fwd bwd : RouteLists}

/-- The deployment of some connections. -/
structure Deploys (sort : TopologicalSort) (order : SetOrder) (size pipeline_num : ℕ)
    (subgraphs : List (String × IRGraph)) (connections : List GraphConnection)
    (allocation : List (String × Finset ℕ)) (d : Deployment) (fwd bwd : RouteLists) : Prop where
  connects : ∀ con ∈ connections, Connects order size subgraphs allocation con
  fwd_eq : fwd = fwdRoutes order size allocation connections
  bwd_eq : bwd = bwdRoutes order size subgraphs allocation connections
  subgraphs_eq : d.subgraphs = subgraphs.map Prod.fst
  allocation_eq : ∀ id, d.allocation id = (allocation.lookup id).getD ∅
  fwd_routes : d.fwd_routes = fwd.routes
  bwd_routes : d.bwd_routes = bwd.routes
  fwd_order : sortGraphs sort d.subgraphs fwd.routes = some d.fwd_graph_order
  bwd_order : sortGraphs sort d.subgraphs bwd.routes = some d.bwd_graph_order
  pipeline_eq : d.pipeline_num = pipeline_num

theorem createDeployment_spec
    (h : createDeployment sort order size pipeline_num subgraphs connections allocation =
      some (d, fwd, bwd)) :
    Deploys sort order size pipeline_num subgraphs connections allocation d fwd bwd := by
  obtain ⟨⟨fwd', bwd'⟩, hroutes, h⟩ := Option.bind_eq_some_iff.mp h
  obtain ⟨fwd_graph_order, hfwd, h⟩ := Option.bind_eq_some_iff.mp h
  obtain ⟨bwd_graph_order, hbwd, h⟩ := Option.bind_eq_some_iff.mp h
  obtain ⟨rfl, hlists⟩ := Prod.mk.inj (Option.some.inj h)
  obtain ⟨rfl, rfl⟩ := Prod.mk.inj hlists
  obtain ⟨hconnects, hlists⟩ := foldlM_addRoutes hroutes
  obtain ⟨hfwd', hbwd'⟩ := Prod.mk.inj hlists
  exact ⟨hconnects, hfwd', hbwd', rfl, fun _ => rfl, rfl, rfl, hfwd, hbwd, rfl⟩

namespace Deploys

variable (h : Deploys sort order size pipeline_num subgraphs connections allocation d fwd bwd)
include h

theorem mem_graphRanks {id : String} (hid : id ≠ MASTER_NAME) {rank : ℕ} :
    rank ∈ graphRanks order size allocation id ↔ rank ∈ d.allocation id := by
  unfold graphRanks getGraphRanks
  rw [if_neg hid, h.allocation_eq]
  cases allocation.lookup id with
  | none => simp
  | some ranks => exact order.mem

theorem exists_routes (is_bwd : Bool) :
    ∃ p : GraphConnection → Bool, d.routes is_bwd = ((betweenGraphs connections).filter p).map
      (if is_bwd then bwdRoute order size allocation else fwdRoute order size allocation) := by
  cases is_bwd with
  | false =>
    refine ⟨fun _ => true, ?_⟩
    rw [Deployment.routes, if_neg Bool.false_ne_true, h.fwd_routes, h.fwd_eq, List.filter_true,
      if_neg Bool.false_ne_true]
    rfl
  | true =>
    refine ⟨hasGradient subgraphs, ?_⟩
    rw [Deployment.routes, if_pos rfl, h.bwd_routes, h.bwd_eq, if_pos rfl, betweenGraphs,
      List.filter_comm]
    rfl

section Ends

variable (hends : ∀ con ∈ betweenGraphs connections, con.src ∈ d.subgraphs ∧ con.dest ∈ d.subgraphs)
include hends

theorem route_ends {is_bwd : Bool} {r : RouteDP} (hr : r ∈ d.routes is_bwd) :
    (r.source_graph ∈ d.subgraphs ∧ r.dest_graph ∈ d.subgraphs) ∧
      (∀ rank, rank ∈ r.sources ↔ rank ∈ d.allocation r.source_graph) ∧
        ∀ rank, rank ∈ r.dests ↔ rank ∈ d.allocation r.dest_graph := by
  obtain ⟨p, hroutes⟩ := h.exists_routes is_bwd
  rw [hroutes] at hr
  obtain ⟨con, hcon, rfl⟩ := List.mem_map.mp hr
  have hmem := (List.mem_filter.mp hcon).1
  have hmaster : con.src ≠ MASTER_NAME ∧ con.dest ≠ MASTER_NAME := by
    simpa [GraphConnection.isGraphInput, GraphConnection.isGraphOutput] using
      (List.mem_filter.mp hmem).2
  obtain ⟨hsrc, hdest⟩ := hmaster
  cases is_bwd with
  | false => exact ⟨hends con hmem, fun _ => h.mem_graphRanks hsrc, fun _ => h.mem_graphRanks hdest⟩
  | true =>
    exact ⟨(hends con hmem).symm, fun _ => h.mem_graphRanks hdest, fun _ => h.mem_graphRanks hsrc⟩

theorem graphs_sorted (hnodup : d.subgraphs.Nodup) (is_bwd : Bool) :
    (d.graphs is_bwd).Perm d.subgraphs ∧ ∀ r ∈ d.routes is_bwd,
      (d.graphs is_bwd).idxOf r.source_graph < (d.graphs is_bwd).idxOf r.dest_graph := by
  have hsorted : sortGraphs sort d.subgraphs (d.routes is_bwd) = some (d.graphs is_bwd) := by
    cases is_bwd with
    | false => exact (congrArg _ h.fwd_routes).trans h.fwd_order
    | true => exact (congrArg _ h.bwd_routes).trans h.bwd_order
  exact sortGraphs_spec hnodup (fun r hr => (h.route_ends hends hr).1.1)
    (fun r hr => (h.route_ends hends hr).1.2) hsorted

end Ends

/-- Where every subgraph gets a value over one connection, the routes are as the runs need them. -/
theorem routedOnce (hnodup : d.subgraphs.Nodup)
    (hends : ∀ con ∈ betweenGraphs connections, con.src ∈ d.subgraphs ∧ con.dest ∈ d.subgraphs)
    (honce : ((betweenGraphs connections).map fun con => (con.dest, con.value)).Nodup)
    (is_bwd : Bool) : d.RoutedOnce is_bwd := by
  obtain ⟨p, hroutes⟩ := h.exists_routes is_bwd
  obtain ⟨hperm, hlt⟩ := h.graphs_sorted hends hnodup is_bwd
  have honce' : (((betweenGraphs connections).filter p).map fun con =>
      (con.dest, con.value)).Nodup := honce.sublist (List.filter_sublist.map _)
  constructor
  case routes_nodup =>
    rw [hroutes]
    cases is_bwd with
    | false =>
      refine List.Nodup.of_map (fun r : RouteDP => (r.dest_graph, r.location.value_name)) ?_
      rw [List.map_map]
      exact honce'
    | true =>
      refine List.Nodup.of_map (fun r : RouteDP => (r.source_graph, r.location.value_name)) ?_
      rw [List.map_map]
      exact honce'
  constructor
  case order_nodup => exact hperm.nodup_iff.mpr hnodup
  case order_subset => exact fun g hg => hperm.mem_iff.mp hg
  case source_mem => exact fun r hr => hperm.mem_iff.mpr (h.route_ends hends hr).1.1
  case dest_mem => exact fun r hr => hperm.mem_iff.mpr (h.route_ends hends hr).1.2
  case topological => exact hlt
  case mem_sources => exact fun r hr => (h.route_ends hends hr).2.1
  case mem_dests => exact fun r hr => (h.route_ends hends hr).2.2
  case fwd_unique =>
    rintro rfl
    rw [hroutes, List.map_map]
    have hinj : Function.Injective fun place : String × String =>
        (place.1, (⟨place.2, []⟩ : IValueLocation)) := by
      rintro ⟨id, name⟩ ⟨id', name'⟩ heq
      simpa using heq
    have hkeys := honce'.map hinj
    rwa [List.map_map] at hkeys

end Deploys

end Routes

end Rannc
