import Rannc.Comp.ConnectorRun
import Rannc.Lib.OptionFold

/-!
# Gradients from several consumers

Backward the gradients of a value that arrive over the routes between subgraphs are added up, once
all are there. The gradient that comes from the master is in its place before, and a place that is
taken is skipped: the others are received and dropped.
-/
namespace Rannc

variable {V : Type}

namespace Connector

section Gradients

variable (d : Deployment) (rank : ℕ) (drv : Driver V) (in_routes : List RouteDP)
  (recv : RouteDP → V) (side : RouteDP → Side) (split_index : ℕ)

/-- The routes that end at a place. -/
def routesTo (routes : List RouteDP) (sg_name : String) (loc : IValueLocation) : List RouteDP :=
  routes.filter fun r => r.dest_graph = sg_name ∧ r.location = loc

/-- What the launcher hands to the connector of a rank: the last gradient from the master. -/
def masterInputs : String → IValueMap V := fun sg_name loc =>
  ((routesTo in_routes sg_name loc).filter fun r => rank ∈ r.dests).getLast?.map recv

/-- The outputs of the driver on some values. -/
def runOn (vals : IValueMap V) (sg_name : String) : List (IValueLocation × V) :=
  let graph_inputs := (drv.input_names sg_name).filterMap fun in_name =>
    (vals ⟨in_name, []⟩).map fun v => (in_name, v)
  if drv.skip graph_inputs split_index then [] else drv.func sg_name graph_inputs split_index

/-- A subgraph was run on some values: it was ready with them, and they and what the driver made of
them are there. -/
structure RanOn (st : Connector V) (sg_name : String) (vals : IValueMap V) : Prop where
  done : sg_name ∈ st.graphs_done
  ready : isGraphReady (drv.input_names sg_name) vals = true
  result : ∀ loc v, addOutputs vals (runOn drv split_index vals sg_name) loc = some v →
    st.values split_index sg_name loc = some v

/-- What the collective calls of a split return: over every route the rank gets one gradient, at
one of the two calls that it may take part in. -/
def HandsOver (env : Call V → Option V) : Prop :=
  ∀ call, (match call.side with
      | .recv => call.split = split_index
      | .send => (call.split : ℤ) + getDelay (d.graph_order true) call.route = split_index) →
    env call = if call.side = side call.route then some (recv call.route) else none

/-- The gradients that calls brought to a place. -/
def arrived (calls : List (Side × RouteDP)) (sg_name : String) (loc : IValueLocation) : List V :=
  (calls.filter fun c => c.1 = side c.2 ∧ c.2.dest_graph = sg_name ∧ c.2.location = loc).map
    fun c => recv c.2

section Arrivals

variable {d rank drv in_routes recv side split_index} {scomm : SComm} {st : Connector V}

theorem recv_values_pushRecv (r : RouteDP) (v : Option V) (g : String) (loc : IValueLocation) :
    (st.pushRecv r v).recv_values g loc = st.recv_values g loc ++
      if r.dest_graph = g ∧ r.location = loc then v.toList else [] := by
  cases v with
  | none => simp [pushRecv]
  | some v =>
    by_cases hg : r.dest_graph = g
    · subst hg
      by_cases hloc : r.location = loc
      · subst hloc
        simp [pushRecv]
      · simp [pushRecv, hloc, Function.update_of_ne (Ne.symm hloc)]
    · simp [pushRecv, hg, Function.update_of_ne (Ne.symm hg)]

theorem arrived_append (seen : List (Side × RouteDP)) (s : Side) (r : RouteDP) (g : String)
    (loc : IValueLocation) :
    arrived recv side (seen ++ [(s, r)]) g loc = arrived recv side seen g loc ++
      if r.dest_graph = g ∧ r.location = loc then
        (if s = side r then some (recv r) else none).toList else [] := by
  unfold arrived
  rw [List.filter_append, List.map_append]
  by_cases hs : s = side r
  · by_cases hloc : r.dest_graph = g ∧ r.location = loc
    · simp [hs, hloc]
    · simp [hs, hloc]
  · simp [hs]

theorem distributeOutput_current {r : RouteDP} {call : Call V}
    (h : st.distributeOutput scomm split_index (d.graph_order true) 0 r = some (some call)) :
    call.side = .send ∧ call.route = r ∧
      (call.split : ℤ) + getDelay (d.graph_order true) r = split_index := by
  unfold distributeOutput at h
  dsimp only at h
  split_ifs at h with htgt
  · obtain ⟨values, _, hcall⟩ := Option.bind_eq_some_iff.mp h
    obtain rfl := Option.some.inj (Option.some.inj hcall)
    refine ⟨rfl, rfl, ?_⟩
    dsimp only
    omega
  · cases h

theorem masterInputs_eq {sg_name : String} {loc : IValueLocation}
    (hin : ∀ r ∈ in_routes, r.dest_graph = sg_name → rank ∈ r.dests) :
    masterInputs rank in_routes recv sg_name loc =
      (routesTo in_routes sg_name loc).getLast?.map recv := by
  unfold masterInputs
  rw [List.filter_eq_self.mpr]
  intro r hr
  obtain ⟨hmem, hplace⟩ := List.mem_filter.mp hr
  exact decide_eq_true (hin r hmem (of_decide_eq_true hplace).1)

theorem RanOn.exists_value {g in_name : String} {vals : IValueMap V}
    (h : RanOn drv split_index st g vals) (hname : in_name ∈ drv.input_names g) :
    ∃ v, vals ⟨in_name, []⟩ = some v ∧ st.values split_index g ⟨in_name, []⟩ = some v := by
  obtain ⟨v, hv⟩ := Option.isSome_iff_exists.mp (List.all_eq_true.mp h.ready in_name hname)
  refine ⟨v, hv, h.result _ v ?_⟩
  rw [addOutputs, hv, Option.some_or]

theorem aggr_bwd : st.aggr d true rank drv split_index =
    some (st.setValues split_index (st.aggrValue d true rank drv split_index)) := by
  unfold aggr
  dsimp only
  rw [if_neg]
  intro h
  cases h.1

end Arrivals

variable [AddCommMonoid V]

/-- The gradients over some routes to a place. -/
def gradSum (routes : List RouteDP) (sg_name : String) (loc : IValueLocation) : V :=
  ((routesTo routes sg_name loc).map recv).sum

/-- The places of a subgraph that was not run: the gradient from the master if there is one, else
nothing or the sum over the routes. -/
structure SlotOk (vals : IValueMap V) (sg_name : String) : Prop where
  taken : ∀ loc v, masterInputs rank in_routes recv sg_name loc = some v → vals loc = some v
  summed : ∀ loc v, masterInputs rank in_routes recv sg_name loc = none → vals loc = some v →
    v = gradSum recv (d.routes true) sg_name loc

/-- The state within a split, after some calls. -/
structure GradInv (calls : List (Side × RouteDP)) (st : Connector V) : Prop where
  arrivals : ∃ seen, seen.Sublist calls ∧
    ∀ g loc, st.recv_values g loc = arrived recv side seen g loc
  waiting : ∀ g ∉ st.graphs_done, SlotOk d rank in_routes recv (st.values split_index g) g
  ran : ∀ g ∈ st.graphs_done, ∃ vals, SlotOk d rank in_routes recv vals g ∧
    RanOn drv split_index st g vals

variable {d rank drv in_routes recv side split_index} {env : Call V → Option V} {scomm : SComm}
  {calls : List (Side × RouteDP)} {st st' : Connector V}

/-- What a call brings is put with what has arrived. -/
theorem GradInv.pushRecv {s : Side} {r : RouteDP} {log : List (Event V)}
    (h : GradInv d rank drv in_routes recv side split_index calls st) :
    GradInv d rank drv in_routes recv side split_index (calls ++ [(s, r)])
      (({ st with log := log } : Connector V).pushRecv r
        (if s = side r then some (recv r) else none)) := by
  obtain ⟨seen, hseen, hrecv⟩ := h.arrivals
  have hvalues : (({ st with log := log } : Connector V).pushRecv r
      (if s = side r then some (recv r) else none)).values split_index = st.values split_index := by
    unfold values
    rw [pushRecv_split_values]
  constructor
  · refine ⟨seen ++ [(s, r)], hseen.append (List.Sublist.refl _), ?_⟩
    intro g loc
    rw [recv_values_pushRecv, arrived_append, ← hrecv]
  · intro g hg
    rw [pushRecv_graphs_done] at hg
    rw [hvalues]
    exact h.waiting g hg
  · intro g hg
    rw [pushRecv_graphs_done] at hg
    obtain ⟨vals, hslot, hran⟩ := h.ran g hg
    refine ⟨vals, hslot, ?_, hran.ready, ?_⟩
    · rwa [pushRecv_graphs_done]
    · rw [hvalues]
      exact hran.result

theorem GradInv.mono {calls' : List (Side × RouteDP)}
    (h : GradInv d rank drv in_routes recv side split_index calls st)
    (hcalls : calls.Sublist calls') :
    GradInv d rank drv in_routes recv side split_index calls' st := by
  obtain ⟨seen, hseen, hrecv⟩ := h.arrivals
  exact ⟨⟨seen, hseen.trans hcalls, hrecv⟩, h.waiting, h.ran⟩

theorem GradInv.log (h : GradInv d rank drv in_routes recv side split_index calls st)
    (log : List (Event V)) :
    GradInv d rank drv in_routes recv side split_index calls { st with log := log } :=
  ⟨h.arrivals, h.waiting, fun g hg =>
    let ⟨vals, hslot, hran⟩ := h.ran g hg
    ⟨vals, hslot, hran.done, hran.ready, hran.result⟩⟩

theorem GradInv.recvRoute {r : RouteDP}
    (h : GradInv d rank drv in_routes recv side split_index calls st)
    (henv : HandsOver d recv side split_index env)
    (hstep : st.recvRoute rank env scomm split_index r = some st') :
    GradInv d rank drv in_routes recv side split_index (calls ++ [(Side.recv, r)]) st' := by
  unfold Connector.recvRoute at hstep
  split_ifs at hstep
  obtain rfl := Option.some.inj hstep
  rw [henv _ rfl]
  exact h.pushRecv

theorem GradInv.sendRoute {r : RouteDP}
    (h : GradInv d rank drv in_routes recv side split_index calls st)
    (henv : HandsOver d recv side split_index env)
    (hstep : st.sendRoute d true env scomm split_index r = some st') :
    GradInv d rank drv in_routes recv side split_index (calls ++ [(Side.send, r)]) st' := by
  obtain ⟨call, hcall, hsend⟩ := Option.bind_eq_some_iff.mp hstep
  cases call with
  | none =>
    obtain rfl := Option.some.inj hsend
    exact h.mono (List.sublist_append_left _ _)
  | some call =>
    obtain rfl := Option.some.inj hsend
    obtain ⟨hside, rfl, hcurrent⟩ := distributeOutput_current hcall
    have hvalue := henv call
    rw [hside] at hvalue
    rw [hvalue hcurrent]
    exact h.pushRecv

theorem GradInv.flushRoute {r : RouteDP} {i : ℕ}
    (h : GradInv d rank drv in_routes recv side split_index calls st)
    (hstep : st.flushRoute d true env scomm split_index i r = some st') :
    GradInv d rank drv in_routes recv side split_index calls st' := by
  unfold Connector.flushRoute at hstep
  split_ifs at hstep
  · obtain ⟨call, _, hflush⟩ := Option.bind_eq_some_iff.mp hstep
    cases call with
    | none => exact Option.some.inj hflush ▸ h
    | some call => exact Option.some.inj hflush ▸ h.log _
  · exact Option.some.inj hstep ▸ h

theorem sum_arrived (hcalls : calls.Nodup) (hroutes : ∀ c ∈ calls, c.2 ∈ d.routes true)
    {g : String} {loc : IValueLocation}
    (hlen : (arrived recv side calls g loc).length = (routesTo (d.routes true) g loc).length) :
    (arrived recv side calls g loc).sum = gradSum recv (d.routes true) g loc := by
  let routes := (calls.filter fun c =>
    c.1 = side c.2 ∧ c.2.dest_graph = g ∧ c.2.location = loc).map Prod.snd
  have harrived : arrived recv side calls g loc = routes.map recv := (List.map_map ..).symm
  have hnodup : routes.Nodup := by
    apply (hcalls.filter _).map_on
    intro c hc c' hc' heq
    have hside := (of_decide_eq_true (List.mem_filter.mp hc).2).1
    have hside' := (of_decide_eq_true (List.mem_filter.mp hc').2).1
    exact Prod.ext (by rw [hside, hside', heq]) heq
  have hsubset : routes ⊆ routesTo (d.routes true) g loc := by
    intro r hr
    obtain ⟨c, hc, rfl⟩ := List.mem_map.mp hr
    obtain ⟨hmem, hplace⟩ := List.mem_filter.mp hc
    have hto := of_decide_eq_true hplace
    exact List.mem_filter.mpr ⟨hroutes c hmem, decide_eq_true hto.2⟩
  rw [harrived, List.length_map] at hlen
  have hperm := (List.subperm_of_subset hnodup hsubset).perm_of_length_le hlen.ge
  rw [harrived]
  exact (hperm.map recv).sum_eq

theorem incEdgesCount_of_pos {g : String} {loc : IValueLocation}
    (h : 0 < incEdgesCount (recvRoutesOnRank d true rank) g loc) :
    incEdgesCount (recvRoutesOnRank d true rank) g loc =
      (routesTo (d.routes true) g loc).length := by
  obtain ⟨r, hr, hplace⟩ := List.countP_pos_iff.mp h
  have hg := of_decide_eq_true (List.mem_filter.mp hr).2
  rw [(of_decide_eq_true hplace).1] at hg
  unfold incEdgesCount recvRoutesOnRank routesTo
  rw [List.countP_filter, ← List.countP_eq_length_filter]
  apply List.countP_congr
  intro r _
  constructor
  · intro h
    exact (Bool.and_eq_true _ _ ▸ h).1
  · intro h
    have hdest : r.dest_graph ∈ d.graphsOnRank rank := (of_decide_eq_true h).1 ▸ hg
    rw [h, Bool.true_and]
    exact decide_eq_true hdest

/-- What is received for a place is the sum over the routes. -/
theorem GradInv.received (h : GradInv d rank drv in_routes recv side split_index calls st)
    (hcombine : ∀ l ≠ [], drv.combine l = some l.sum) (hcalls : calls.Nodup)
    (hroutes : ∀ c ∈ calls, c.2 ∈ d.routes true) {g : String} {loc : IValueLocation} {v : V}
    (hv : st.received d true rank drv g loc = some v) :
    v = gradSum recv (d.routes true) g loc := by
  obtain ⟨seen, hseen, hrecv⟩ := h.arrivals
  unfold Connector.received at hv
  dsimp only at hv
  split_ifs at hv with hcount
  obtain ⟨hpos, hlen⟩ := hcount
  rw [hrecv] at hv hlen
  have hne : arrived recv side seen g loc ≠ [] := List.ne_nil_of_length_pos (hlen ▸ hpos)
  rw [incEdgesCount_of_pos hpos] at hlen
  rw [hcombine _ hne, Option.some.injEq] at hv
  rw [← hv]
  exact sum_arrived (hseen.nodup hcalls) (fun c hc => hroutes c (hseen.subset hc)) hlen

/-- What is aggregated is put in its place; a place that is taken is kept. -/
theorem GradInv.aggr (h : GradInv d rank drv in_routes recv side split_index calls st)
    (hcombine : ∀ l ≠ [], drv.combine l = some l.sum) (hcalls : calls.Nodup)
    (hroutes : ∀ c ∈ calls, c.2 ∈ d.routes true)
    (hstep : st.aggr d true rank drv split_index = some st') :
    GradInv d rank drv in_routes recv side split_index calls st' := by
  obtain rfl := Option.some.inj (aggr_bwd.symm.trans hstep)
  have hkeep : ∀ g loc v, st.values split_index g loc = some v →
      st.aggrValue d true rank drv split_index g loc = some v := by
    intro g loc v hv
    unfold aggrValue
    rw [hv, Option.some_or]
  constructor
  · exact h.arrivals
  · intro g hg
    have hslot := h.waiting g hg
    rw [values_setValues]
    constructor
    · intro loc v hv
      exact hkeep g loc v (hslot.taken loc v hv)
    · intro loc v hmaster hv
      unfold aggrValue at hv
      cases hvalue : st.values split_index g loc with
      | some w =>
        rw [hvalue, Option.some_or] at hv
        exact hslot.summed loc v hmaster (hvalue.trans hv)
      | none =>
        rw [hvalue, Option.none_or] at hv
        exact h.received hcombine hcalls hroutes hv
  · intro g hg
    obtain ⟨vals, hslot, hran⟩ := h.ran g hg
    refine ⟨vals, hslot, hran.done, hran.ready, ?_⟩
    intro loc v hv
    rw [values_setValues]
    exact hkeep g loc v (hran.result loc v hv)

theorem GradInv.runGraph (h : GradInv d rank drv in_routes recv side split_index calls st)
    (g : String) :
    GradInv d rank drv in_routes recv side split_index calls (st.runGraph drv split_index g) := by
  by_cases hrun : g ∉ st.graphs_done ∧ isGraphReady (drv.input_names g) (st.values split_index g)
  · have hother : ∀ x ≠ g, (st.runGraph drv split_index g).values split_index x =
        st.values split_index x := by
      intro x hx
      exact (runGraph_frame st drv split_index g).2.2.2.2.1 split_index x (Or.inr hx)
    have hself : (st.runGraph drv split_index g).values split_index g =
        addOutputs (st.values split_index g)
          (runOn drv split_index (st.values split_index g) g) := by
      rw [runGraph_of_ready hrun.1 hrun.2]
      simp [values, setValues, driverOut, runOn]
    have hdone : (st.runGraph drv split_index g).graphs_done = st.graphs_done ++ [g] := by
      rw [runGraph_of_ready hrun.1 hrun.2]
    constructor
    · obtain ⟨seen, hseen, hrecv⟩ := h.arrivals
      refine ⟨seen, hseen, ?_⟩
      rw [(runGraph_frame st drv split_index g).2.1]
      exact hrecv
    · intro x hx
      rw [hdone, List.mem_append, List.mem_singleton, not_or] at hx
      rw [hother x hx.2]
      exact h.waiting x hx.1
    · intro x hx
      by_cases hxg : x = g
      · obtain rfl := hxg
        refine ⟨st.values split_index x, h.waiting x hrun.1, hx, hrun.2, ?_⟩
        rw [hself]
        exact fun _ _ hv => hv
      · rw [hdone, List.mem_append, List.mem_singleton] at hx
        obtain ⟨vals, hslot, hran⟩ := h.ran x (hx.resolve_right hxg)
        refine ⟨vals, hslot, ?_, hran.ready, ?_⟩
        · rw [hdone]
          exact List.mem_append_left _ hran.done
        · rw [hother x hxg]
          exact hran.result
  · have hnot : g ∈ st.graphs_done ∨
        ¬ isGraphReady (drv.input_names g) (st.values split_index g) := by
      by_contra hboth
      rw [not_or, not_not] at hboth
      exact hrun hboth
    rw [runGraph_of_not_ready hnot]
    exact h

theorem GradInv.runDriver (h : GradInv d rank drv in_routes recv side split_index calls st)
    (scomm : SComm) (sg_name : String) :
    GradInv d rank drv in_routes recv side split_index calls
      (st.runDriver d rank drv scomm split_index sg_name) := by
  have hloop : ∀ (graphs : List String) (st : Connector V),
      GradInv d rank drv in_routes recv side split_index calls st →
      GradInv d rank drv in_routes recv side split_index calls
        (graphs.foldl (Connector.runGraph drv split_index) st) := by
    intro graphs
    induction graphs with
    | nil => exact fun _ h => h
    | cons g graphs ih => exact fun st h => ih _ (h.runGraph g)
  exact (hloop _ st h).log _

/-- The calls of the turn of a subgraph. -/
def turnCalls (d : Deployment) (sg_name : String) : List (Side × RouteDP) :=
  (sortRecvRoutes (d.graph_order true) (d.routes true) sg_name).map (Side.recv, ·) ++
    (sortSendRoutes (d.graph_order true) (d.routes true) sg_name).map (Side.send, ·)

theorem GradInv.computeGraph {sg_name : String}
    (h : GradInv d rank drv in_routes recv side split_index calls st)
    (hcombine : ∀ l ≠ [], drv.combine l = some l.sum)
    (henv : HandsOver d recv side split_index env)
    (hcalls : (calls ++ turnCalls d sg_name).Nodup)
    (hroutes : ∀ c ∈ calls ++ turnCalls d sg_name, c.2 ∈ d.routes true)
    (hstep : st.computeGraph d true rank drv env scomm split_index sg_name = some st') :
    GradInv d rank drv in_routes recv side split_index (calls ++ turnCalls d sg_name) st' := by
  unfold turnCalls at hcalls hroutes ⊢
  obtain ⟨st₁, hrecv, hstep⟩ := Option.bind_eq_some_iff.mp hstep
  obtain ⟨st₂, haggr, hstep⟩ := Option.bind_eq_some_iff.mp hstep
  obtain ⟨st₃, hsend, hstep⟩ := Option.bind_eq_some_iff.mp hstep
  have h₁ := foldlM_prefix
    (I := fun done st => GradInv d rank drv in_routes recv side split_index
      (calls ++ done.map (Side.recv, ·)) st)
    (fun done r _ st st' _ hst hturn => by
      rw [List.map_append, ← List.append_assoc]
      exact hst.recvRoute henv hturn) (by simpa using h) hrecv
  rw [← List.append_assoc] at hcalls hroutes ⊢
  have hshort := List.sublist_append_left (calls ++
    (sortRecvRoutes (d.graph_order true) (d.routes true) sg_name).map (Side.recv, ·))
    ((sortSendRoutes (d.graph_order true) (d.routes true) sg_name).map (Side.send, ·))
  have h₂ := (h₁.aggr hcombine (hshort.nodup hcalls)
    (fun c hc => hroutes c (hshort.subset hc)) haggr).runDriver scomm sg_name
  have h₃ := foldlM_prefix
    (I := fun done st => GradInv d rank drv in_routes recv side split_index
      ((calls ++ (sortRecvRoutes (d.graph_order true) (d.routes true) sg_name).map
        (Side.recv, ·)) ++ done.map (Side.send, ·)) st)
    (fun done r _ st st' _ hst hturn => by
      rw [List.map_append, ← List.append_assoc]
      exact hst.sendRoute henv hturn) (by simpa using h₂) hsend
  split_ifs at hstep
  · apply foldlM_invariant (P := fun st => GradInv d rank drv in_routes recv side split_index _ st)
      _ h₃ hstep
    intro st i st' _ hst hflush
    apply foldlM_invariant (P := fun st => GradInv d rank drv in_routes recv side split_index _ st)
      _ hst hflush
    intro st r st' _ hst hturn
    exact hst.flushRoute hturn
  · exact Option.some.inj hstep ▸ h₃

/-- All calls of a split. -/
def splitCalls (d : Deployment) (rank : ℕ) : List (Side × RouteDP) :=
  (sortedGraphIds d true rank).flatMap (turnCalls d)

theorem mem_turnCalls {g : String} {c : Side × RouteDP} (h : c ∈ turnCalls d g) :
    c.2 ∈ d.routes true ∧
      (c.1 = .recv ∧ c.2.dest_graph = g ∨ c.1 = .send ∧ c.2.source_graph = g) := by
  cases List.mem_append.mp h with
  | inl h =>
    obtain ⟨r, hr, rfl⟩ := List.mem_map.mp h
    have hmem := (mem_sortRecvRoutes _).mp hr
    exact ⟨hmem.1, Or.inl ⟨rfl, hmem.2⟩⟩
  | inr h =>
    obtain ⟨r, hr, rfl⟩ := List.mem_map.mp h
    have hmem := (mem_sortSendRoutes _).mp hr
    exact ⟨hmem.1, Or.inr ⟨rfl, hmem.2⟩⟩

theorem nodup_turnCalls (hd : d.RoutedOnce true) (g : String) : (turnCalls d g).Nodup := by
  apply List.Nodup.append
  · exact (nodup_sortRoutes _ (hd.routes_nodup.filter _)).map fun r r' h => (Prod.mk.inj h).2
  · exact (nodup_sortRoutes _ (hd.routes_nodup.filter _)).map fun r r' h => (Prod.mk.inj h).2
  · intro c hrecv hsend
    obtain ⟨r, _, rfl⟩ := List.mem_map.mp hrecv
    obtain ⟨r', _, heq⟩ := List.mem_map.mp hsend
    cases heq

theorem nodup_splitCalls (hd : d.RoutedOnce true) : (splitCalls d rank).Nodup := by
  rw [splitCalls, List.nodup_flatMap]
  constructor
  · intro g _
    exact nodup_turnCalls hd g
  · apply (hd.order_nodup.filter _).imp
    intro g g' hne c hg hg'
    cases (mem_turnCalls hg).2 with
    | inl hrecv =>
      cases (mem_turnCalls hg').2 with
      | inl hrecv' => exact hne (hrecv.2.symm.trans hrecv'.2)
      | inr hsend' => cases hrecv.1.symm.trans hsend'.1
    | inr hsend =>
      cases (mem_turnCalls hg').2 with
      | inl hrecv' => cases hsend.1.symm.trans hrecv'.1
      | inr hsend' => exact hne (hsend.2.symm.trans hsend'.2)

/-- A split keeps the invariant. -/
theorem compute_gradInv (hd : d.RoutedOnce true) (hcombine : ∀ l ≠ [], drv.combine l = some l.sum)
    (henv : HandsOver d recv side split_index env)
    (hstep : st.compute d true rank drv env scomm split_index (masterInputs rank in_routes recv) =
      some st') :
    GradInv d rank drv in_routes recv side split_index (splitCalls d rank) st' := by
  have hroutes : ∀ c ∈ splitCalls d rank, c.2 ∈ d.routes true := by
    intro c hc
    obtain ⟨g, _, hc⟩ := List.mem_flatMap.mp hc
    exact (mem_turnCalls hc).1
  apply foldlM_prefix (I := fun done st => GradInv d rank drv in_routes recv side split_index
    (done.flatMap (turnCalls d)) st) _ _ hstep
  · intro before g after st st' hids hst hturn
    have hsub : (before.flatMap (turnCalls d) ++ turnCalls d g).Sublist (splitCalls d rank) := by
      rw [splitCalls, hids, List.flatMap_append, List.flatMap_cons, ← List.append_assoc]
      exact List.sublist_append_left _ _
    rw [List.flatMap_append, List.flatMap_singleton]
    exact hst.computeGraph hcombine henv (hsub.nodup (nodup_splitCalls hd))
      (fun c hc => hroutes c (hsub.subset hc)) hturn
  · constructor
    · exact ⟨[], List.Sublist.refl _, fun _ _ => rfl⟩
    · intro g _
      have hvalues : (⟨Function.update (if split_index = 0 then fun _ => none else st.split_values)
          split_index (some (masterInputs rank in_routes recv)), fun _ _ => [], [], st.log⟩ :
          Connector V).values split_index = masterInputs rank in_routes recv := by
        simp [values]
      rw [hvalues]
      refine ⟨fun _ _ hv => hv, fun loc v hnone hv => ?_⟩
      simp [hnone] at hv
    · intro g hg
      exact absurd hg List.not_mem_nil

variable (V d rank in_routes)

/-- Whenever the subgraph is run in a split, the gradient that it is run on at a place is the sum of
the gradients over all routes to the place, from the master and from other subgraphs. -/
def SumsGradients (sg_name in_name : String) : Prop :=
  ∀ (drv : Driver V) (env : Call V → Option V) (scomm : SComm) (split_index : ℕ)
    (recv : RouteDP → V) (side : RouteDP → Side) (st st' : Connector V),
    (∀ l ≠ [], drv.combine l = some l.sum) → HandsOver d recv side split_index env →
    in_name ∈ drv.input_names sg_name →
    st.compute d true rank drv env scomm split_index (masterInputs rank in_routes recv) = some st' →
    sg_name ∈ st'.graphs_done →
    ∃ vals, RanOn drv split_index st' sg_name vals ∧ vals ⟨in_name, []⟩ =
      some (gradSum recv in_routes sg_name ⟨in_name, []⟩ +
        gradSum recv (d.routes true) sg_name ⟨in_name, []⟩)

variable {V d rank in_routes}

theorem sumsGradients_of_apart (hd : d.RoutedOnce true) {sg_name in_name : String}
    (hin : ∀ r ∈ in_routes, r.dest_graph = sg_name → rank ∈ r.dests)
    (happart : routesTo in_routes sg_name ⟨in_name, []⟩ = [] ∨
      (routesTo in_routes sg_name ⟨in_name, []⟩).length = 1 ∧
        routesTo (d.routes true) sg_name ⟨in_name, []⟩ = []) :
    SumsGradients V d rank in_routes sg_name in_name := by
  intro drv env scomm split_index recv side st st' hcombine henv hname hstep hdone
  obtain ⟨vals, hslot, hran⟩ := (compute_gradInv hd hcombine henv hstep).ran sg_name hdone
  obtain ⟨v, hv, _⟩ := hran.exists_value hname
  have hmaster : masterInputs rank in_routes recv sg_name ⟨in_name, []⟩ = _ := masterInputs_eq hin
  refine ⟨vals, hran, hv.trans (congrArg some ?_)⟩
  cases happart with
  | inl hnone =>
    rw [hnone] at hmaster
    rw [hslot.summed _ v hmaster hv, gradSum, gradSum, hnone, List.map_nil, List.sum_nil, zero_add]
  | inr hone =>
    obtain ⟨m, hm⟩ := List.length_eq_one_iff.mp hone.1
    rw [hm] at hmaster
    have htaken := hslot.taken _ _ hmaster
    rw [hv, Option.some.injEq] at htaken
    rw [htaken, gradSum, gradSum, hm, hone.2, List.map_nil, List.sum_nil, List.map_singleton,
      List.sum_singleton, add_zero, List.getLast_singleton]

theorem gradSum_const (x : V) (routes : List RouteDP) (sg_name : String) (loc : IValueLocation) :
    gradSum (fun _ => x) routes sg_name loc = (routesTo routes sg_name loc).length • x := by
  rw [gradSum, List.map_const', List.sum_replicate]

/-- A driver that wants one gradient and adds up what it receives. -/
def sumDriver (V : Type) [AddCommMonoid V] (in_name : String) : Driver V where
  input_names _ := [in_name]
  func _ _ _ := []
  skip _ _ := false
  combine l := some l.sum

end Gradients

section Exact

variable {V : Type} [AddCommGroup V] [IsAddTorsionFree V] [Nontrivial V] {d : Deployment}
  {rank : ℕ} {in_routes : List RouteDP}

theorem apart_of_sumsGradients (hd : d.RoutedOnce true) {sg_name in_name : String}
    (hsg : sg_name ∈ sortedGraphIds d true rank)
    (hin : ∀ r ∈ in_routes, r.dest_graph = sg_name → rank ∈ r.dests)
    (hsum : SumsGradients V d rank in_routes sg_name in_name) :
    routesTo in_routes sg_name ⟨in_name, []⟩ = [] ∨
      (routesTo in_routes sg_name ⟨in_name, []⟩).length = 1 ∧
        routesTo (d.routes true) sg_name ⟨in_name, []⟩ = [] := by
  by_contra hmixed
  rw [not_or] at hmixed
  -- every route brings the same gradient
  obtain ⟨x, hx⟩ := exists_ne (0 : V)
  let env : Call V → Option V := fun call => if call.side = .recv then some x else none
  let recv : RouteDP → V := fun _ => x
  have henv : HandsOver d recv (fun _ => .recv) 0 env := fun call _ => rfl
  have hrun : Traced.Runs shape (Before 0)
      (Inv d true rank (sumDriver V in_name) 0 (sortedGraphIds d true rank))
      (fun st => st.compute d true rank (sumDriver V in_name) env ⟨1, 0⟩ 0
        (masterInputs rank in_routes recv)) _ := compute_inv hd.toRouted rfl _
  obtain ⟨st', hstep, hinv, _⟩ := hrun ⟨fun _ => none, fun _ _ => [], [], []⟩
    ⟨fun j hj => absurd hj (by omega), fun call hcall => absurd hcall List.not_mem_nil⟩
  have hcombine : ∀ l ≠ [], (sumDriver V in_name).combine l = some l.sum := fun _ _ => rfl
  have hgrad := compute_gradInv hd hcombine henv hstep
  have hmaster : masterInputs rank in_routes recv sg_name ⟨in_name, []⟩ = some x := by
    rw [masterInputs_eq hin, List.getLast?_eq_some_getLast hmixed.1, Option.map_some]
  have hdone : sg_name ∈ st'.graphs_done := by
    by_contra hnot
    have hready := (hinv.settled sg_name hsg).2.resolve_left hnot
    apply hready
    rw [isGraphReady, List.all_eq_true]
    intro name hname
    obtain rfl := List.mem_singleton.mp hname
    rw [(hgrad.waiting sg_name hnot).taken _ _ hmaster]
    rfl
  have hname : in_name ∈ (sumDriver V in_name).input_names sg_name := List.mem_singleton_self _
  obtain ⟨vals, hran, htotal⟩ := hsum _ env _ 0 recv _ _ st' hcombine henv hname hstep hdone
  obtain ⟨vals', hslot, hran'⟩ := hgrad.ran sg_name hdone
  obtain ⟨v, hv, hst⟩ := hran.exists_value hname
  obtain ⟨v', hv', hst'⟩ := hran'.exists_value hname
  have heq : v = v' := Option.some.inj (hst.symm.trans hst')
  have hx' : v' = x := Option.some.inj (hv'.symm.trans (hslot.taken _ _ hmaster))
  rw [hv, heq, hx', Option.some.injEq, gradSum_const, gradSum_const, ← add_nsmul] at htotal
  have hin_pos := List.length_pos_iff.mpr hmixed.1
  have hbwd_pos : (routesTo in_routes sg_name ⟨in_name, []⟩).length = 1 →
      0 < (routesTo (d.routes true) sg_name ⟨in_name, []⟩).length := by
    intro hone
    exact List.length_pos_iff.mpr fun hnone => hmixed.2 ⟨hone, hnone⟩
  obtain ⟨k, hk⟩ := Nat.exists_eq_add_of_le' (show
    2 ≤ (routesTo in_routes sg_name ⟨in_name, []⟩).length +
      (routesTo (d.routes true) sg_name ⟨in_name, []⟩).length by omega)
  rw [hk, succ_nsmul, right_eq_add] at htotal
  exact hx ((nsmul_eq_zero_iff_right (by omega)).mp htotal)

/-- The gradients of a value are added up just where the master sends none, or it sends one and no
other subgraph does. -/
theorem sumsGradients_iff (hd : d.RoutedOnce true) {sg_name : String} (in_name : String)
    (hsg : sg_name ∈ sortedGraphIds d true rank)
    (hin : ∀ r ∈ in_routes, r.dest_graph = sg_name → rank ∈ r.dests) :
    SumsGradients V d rank in_routes sg_name in_name ↔
      routesTo in_routes sg_name ⟨in_name, []⟩ = [] ∨
        (routesTo in_routes sg_name ⟨in_name, []⟩).length = 1 ∧
          routesTo (d.routes true) sg_name ⟨in_name, []⟩ = [] :=
  ⟨apart_of_sumsGradients hd hsg hin, sumsGradients_of_apart hd hin⟩

end Exact

def sharedRoute : RouteDP := ⟨⟨"v", []⟩, [1], "b", [0], "a"⟩

def masterRoute : RouteDP := ⟨⟨"v", []⟩, [0, 1], "MASTER", [0], "a"⟩

/-- Subgraph `a` on rank 0 makes a value that `b` on rank 1 reads. -/
def sharedDeployment : Deployment where
  subgraphs := ["a", "b"]
  allocation sg_name := if sg_name = "a" then {0} else {1}
  fwd_routes := [⟨⟨"v", []⟩, [0], "a", [1], "b"⟩]
  fwd_graph_order := ["a", "b"]
  bwd_routes := [sharedRoute]
  bwd_graph_order := ["b", "a"]
  pipeline_num := 1

theorem sharedDeployment_routed : sharedDeployment.RoutedOnce true where
  order_nodup := by decide
  order_subset := by decide
  source_mem := by decide
  dest_mem := by decide
  topological := by decide
  mem_sources := by simp [sharedDeployment, Deployment.routes, sharedRoute]
  mem_dests := by simp [sharedDeployment, Deployment.routes, sharedRoute]
  fwd_unique := nofun
  routes_nodup := by decide

theorem sumsGradients_shared : SumsGradients ℤ sharedDeployment 0 [] "a" "v" :=
  (sumsGradients_iff sharedDeployment_routed "v" (by decide)
    fun _ hr => absurd hr List.not_mem_nil).mpr (Or.inl rfl)

/-- The master sends 10 and `b` sends 1, but the subgraph is run on 10. -/
theorem not_sumsGradients_shared :
    ((⟨fun _ => none, fun _ _ => [], [], []⟩ : Connector ℤ).compute sharedDeployment true 0
      (sumDriver ℤ "v") (fun _ => some 1) ⟨1, 0⟩ 0
      (masterInputs 0 [masterRoute] fun _ => 10)).map
        (fun st => (st.graphs_done, st.recv_values "a" ⟨"v", []⟩, st.values 0 "a" ⟨"v", []⟩)) =
      some (["a"], [1], some 10) ∧
    ¬ SumsGradients ℤ sharedDeployment 0 [masterRoute] "a" "v" := by
  constructor
  · decide +kernel
  · intro hsum
    have happart := apart_of_sumsGradients sharedDeployment_routed (by decide)
      (by simp [masterRoute]) hsum
    revert happart
    decide

end Connector

end Rannc
