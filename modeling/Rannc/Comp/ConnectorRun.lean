import Rannc.Comp.GraphConnector
import Rannc.Lib.Traced

/-!
# What the connector does over a split

Which calls are made does not depend on the values. What is sent of a split is what the history
still holds of it later: once a subgraph had its turn, neither received values nor a run of the
driver reach it any more, since the routes lead to later subgraphs.
-/
namespace Rannc

open Traced

variable {V : Type}

namespace Connector

/-- What an event shows without looking at values. -/
def eventShape : Event V → Event Unit
  | .distribute call => .distribute
    ⟨call.side, call.route, call.split, none, call.batch_size, call.dist_split⟩
  | .drive scomm sg_name split_index _ => .drive scomm sg_name split_index []

def shape (st : Connector V) : List (Event Unit) := st.log.map eventShape

section Invariant

variable (d : Deployment) (is_bwd : Bool) (rank : ℕ) (drv : Driver V) (split_index : ℕ)

/-- Nothing is left to aggregate. -/
def Aggregated (st : Connector V) : Prop :=
  ∀ sg_name loc, st.aggrValue d is_bwd rank drv split_index sg_name loc =
    st.values split_index sg_name loc

/-- Neither the aggregation nor the driver will touch the subgraph again. -/
def Settled (st : Connector V) (sg_name : String) : Prop :=
  (∀ loc, st.aggrValue d is_bwd rank drv split_index sg_name loc =
      st.values split_index sg_name loc) ∧
    (sg_name ∈ st.graphs_done ∨
      ¬ isGraphReady (drv.input_names sg_name) (st.values split_index sg_name))

/-- The state within a split, after the turns of the subgraphs `turns`: the history is complete,
every call sent what the history still holds, and the subgraphs that had their turn are settled. -/
structure Inv (turns : List String) (st : Connector V) : Prop where
  history : ∀ j ≤ split_index, (st.split_values j).isSome
  sent : ∀ call, Event.distribute call ∈ st.log → call.side = Side.send →
    call.value = st.values call.split call.route.source_graph call.route.location ∧
      call.split ≤ split_index ∧ (call.split = split_index → call.route.source_graph ∈ turns)
  settled : ∀ sg_name ∈ turns, Settled d is_bwd rank drv split_index st sg_name

variable {d is_bwd rank drv split_index} {st st' : Connector V} {turns : List String}

@[simp] theorem values_setValues (k : ℕ) (vs : String → IValueMap V) :
    (st.setValues k vs).values k = vs := by
  simp [values, setValues]

theorem values_setValues_of_ne {j k : ℕ} (h : j ≠ k) (vs : String → IValueMap V) :
    (st.setValues k vs).values j = st.values j := by
  simp [values, setValues, h]

theorem isSome_setValues {j k : ℕ} (h : (st.split_values j).isSome) (vs : String → IValueMap V) :
    ((st.setValues k vs).split_values j).isSome := by
  by_cases hjk : j = k
  · subst hjk
    simp [setValues]
  · simpa [setValues, hjk] using h

theorem pushRecv_split_values (r : RouteDP) (v : Option V) :
    (st.pushRecv r v).split_values = st.split_values := by
  cases v <;> rfl

theorem pushRecv_graphs_done (r : RouteDP) (v : Option V) :
    (st.pushRecv r v).graphs_done = st.graphs_done := by
  cases v <;> rfl

theorem pushRecv_log (r : RouteDP) (v : Option V) : (st.pushRecv r v).log = st.log := by
  cases v <;> rfl

theorem pushRecv_recv_values {r : RouteDP} {sg_name : String} (h : sg_name ≠ r.dest_graph)
    (v : Option V) : (st.pushRecv r v).recv_values sg_name = st.recv_values sg_name := by
  cases v with
  | none => rfl
  | some v => simp [pushRecv, h]

theorem Settled.congr {g : String} (h : Settled d is_bwd rank drv split_index st g)
    (hvalues : st'.values split_index g = st.values split_index g)
    (hrecv : st'.recv_values g = st.recv_values g)
    (hdone : g ∈ st.graphs_done → g ∈ st'.graphs_done) :
    Settled d is_bwd rank drv split_index st' g := by
  refine ⟨fun loc => ?_, ?_⟩
  · have := h.1 loc
    simpa only [aggrValue, received, hvalues, hrecv] using this
  · rw [hvalues]
    exact h.2.imp_left hdone

/-- The invariant only depends on the values, the received values and the runs of subgraphs that
had their turn, and on the calls made for sending. -/
theorem Inv.congr (h : Inv d is_bwd rank drv split_index turns st)
    (hhistory : ∀ j, (st.split_values j).isSome → (st'.split_values j).isSome)
    (hvalues : ∀ j g, (j = split_index → g ∈ turns) → st'.values j g = st.values j g)
    (hrecv : ∀ g ∈ turns, st'.recv_values g = st.recv_values g)
    (hdone : ∀ g ∈ turns, g ∈ st.graphs_done → g ∈ st'.graphs_done)
    (hlog : ∀ call, Event.distribute call ∈ st'.log → call.side = Side.send →
      Event.distribute call ∈ st.log) :
    Inv d is_bwd rank drv split_index turns st' := by
  refine ⟨fun j hj => hhistory j (h.history j hj), fun call hcall hside => ?_, fun g hg => ?_⟩
  · obtain ⟨hvalue, hle, hturn⟩ := h.sent call (hlog call hcall hside) hside
    rw [hvalues _ _ hturn]
    exact ⟨hvalue, hle, hturn⟩
  · exact (h.settled g hg).congr (hvalues _ g fun _ => hg) (hrecv g hg) (hdone g hg)

variable {env : Call V → Option V} {scomm : SComm}

def recvEvent (scomm : SComm) (split_index : ℕ) (r : RouteDP) : Event Unit :=
  .distribute ⟨Side.recv, r, split_index, none, scomm.batch_size, scomm.split_index⟩

theorem recvRoute_runs {r : RouteDP} (hrank : rank ∈ r.dests) (hdest : r.dest_graph ∉ turns) :
    Runs shape (Inv d is_bwd rank drv split_index turns) (Inv d is_bwd rank drv split_index turns)
      (fun st => st.recvRoute rank env scomm split_index r) [recvEvent scomm split_index r] := by
  intro st h
  refine ⟨_, if_pos hrank, ?_, ?_⟩
  · refine h.congr (fun j hj => ?_) (fun j g _ => ?_) (fun g hg => ?_) (fun g _ hdone => ?_) ?_
    · rwa [pushRecv_split_values]
    · simp only [values, pushRecv_split_values]
    · rw [pushRecv_recv_values (fun he => hdest (he ▸ hg))]
    · rwa [pushRecv_graphs_done]
    · intro call hcall hside
      rw [pushRecv_log] at hcall
      rcases List.mem_append.mp hcall with hcall | hcall
      · exact hcall
      · cases List.mem_singleton.mp hcall
        cases hside
  · simp [shape, pushRecv_log, eventShape, recvEvent]

theorem received_setValues (k : ℕ) (vs : String → IValueMap V) (g : String)
    (loc : IValueLocation) :
    (st.setValues k vs).received d is_bwd rank drv g loc = st.received d is_bwd rank drv g loc :=
  rfl

theorem aggrValue_setValues (g : String) (loc : IValueLocation) :
    (st.setValues split_index (st.aggrValue d is_bwd rank drv split_index)).aggrValue
        d is_bwd rank drv split_index g loc =
      st.aggrValue d is_bwd rank drv split_index g loc := by
  rw [aggrValue, values_setValues, received_setValues, aggrValue, Option.or_assoc, Option.or_self]

theorem aggr_runs (hunique : is_bwd = false → ∀ r ∈ recvRoutesOnRank d is_bwd rank,
      incEdgesCount (recvRoutesOnRank d is_bwd rank) r.dest_graph r.location = 1) :
    Runs shape (Inv d is_bwd rank drv split_index turns)
      (fun st => Inv d is_bwd rank drv split_index turns st ∧
        Aggregated d is_bwd rank drv split_index st)
      (fun st => st.aggr d is_bwd rank drv split_index) [] := by
  intro st h
  refine ⟨st.setValues split_index (st.aggrValue d is_bwd rank drv split_index), if_neg ?_,
    ⟨?_, fun sg_name loc => ?_⟩, (List.append_nil _).symm⟩
  · rintro ⟨hfwd, r, hr, hne⟩
    exact hne (hunique hfwd r hr)
  · refine h.congr (fun j hj => isSome_setValues hj _) (fun j g hturn => ?_) (fun g _ => rfl)
      (fun g _ hdone => hdone) (fun call hcall _ => hcall)
    by_cases hj : j = split_index
    · subst hj
      rw [values_setValues]
      exact funext (h.settled g (hturn rfl)).1
    · rw [values_setValues_of_ne hj]
  · rw [aggrValue_setValues, values_setValues]

theorem runGraph_of_ready {g : String} (hdone : g ∉ st.graphs_done)
    (hready : isGraphReady (drv.input_names g) (st.values split_index g)) :
    st.runGraph drv split_index g =
      { st.setValues split_index (Function.update (st.values split_index) g
          (addOutputs (st.values split_index g) (st.driverOut drv split_index g))) with
        graphs_done := st.graphs_done ++ [g] } :=
  if_pos ⟨hdone, hready⟩

theorem runGraph_of_not_ready {g : String} (h : g ∈ st.graphs_done ∨
      ¬ isGraphReady (drv.input_names g) (st.values split_index g)) :
    st.runGraph drv split_index g = st :=
  if_neg fun hrun => h.elim hrun.1 fun hready => hready hrun.2

/-- A run of one subgraph adds values of that subgraph, and does nothing else. -/
theorem runGraph_frame (st : Connector V) (drv : Driver V) (split_index : ℕ) (g : String) :
    (st.runGraph drv split_index g).log = st.log ∧
    (st.runGraph drv split_index g).recv_values = st.recv_values ∧
    (∀ x ∈ st.graphs_done, x ∈ (st.runGraph drv split_index g).graphs_done) ∧
    (∀ j, (st.split_values j).isSome →
      ((st.runGraph drv split_index g).split_values j).isSome) ∧
    (∀ j x, j ≠ split_index ∨ x ≠ g →
      (st.runGraph drv split_index g).values j x = st.values j x) ∧
    ∃ out : IValueLocation → Option V, ∀ loc,
      (st.runGraph drv split_index g).values split_index g loc =
        (st.values split_index g loc).or (out loc) := by
  by_cases hrun : g ∈ st.graphs_done ∨
      ¬ isGraphReady (drv.input_names g) (st.values split_index g)
  · rw [runGraph_of_not_ready hrun]
    exact ⟨rfl, rfl, fun _ h => h, fun _ h => h, fun _ _ _ => rfl, fun _ => none,
      fun _ => Option.or_none.symm⟩
  · rw [not_or, not_not] at hrun
    rw [runGraph_of_ready hrun.1 hrun.2]
    refine ⟨rfl, rfl, fun x hx => List.mem_append_left _ hx, fun j hj => isSome_setValues hj _,
      fun j x hne => ?_,
      fun loc => (st.driverOut drv split_index g).lookup loc, fun loc => ?_⟩
    · by_cases hj : j = split_index
      · subst hj
        have hx : x ≠ g := hne.resolve_left fun h => h rfl
        simp [values, setValues, hx]
      · simp [values, setValues, hj]
    · simp [values, setValues, addOutputs]

theorem runGraph_self (g : String) :
    g ∈ (st.runGraph drv split_index g).graphs_done ∨
      ¬ isGraphReady (drv.input_names g)
        ((st.runGraph drv split_index g).values split_index g) := by
  by_cases hrun : g ∈ st.graphs_done ∨
      ¬ isGraphReady (drv.input_names g) (st.values split_index g)
  · rw [runGraph_of_not_ready hrun]
    exact hrun
  · rw [not_or, not_not] at hrun
    rw [runGraph_of_ready hrun.1 hrun.2]
    exact Or.inl (List.mem_append_right _ (List.mem_singleton_self g))

theorem runGraph_aggregated (g : String) (haggr : Aggregated d is_bwd rank drv split_index st) :
    Aggregated d is_bwd rank drv split_index (st.runGraph drv split_index g) := by
  intro x loc
  obtain ⟨-, hrecv, -, -, hother, out, hout⟩ :=
    runGraph_frame st drv split_index g
  have h := haggr x loc
  rw [aggrValue, received] at h ⊢
  rw [hrecv]
  by_cases hx : x = g
  · subst hx
    rw [hout]
    cases hv : st.values split_index x loc with
    | some v => rfl
    | none =>
      rw [hv, Option.none_or] at h
      rw [h, Option.or_none]
  · rw [hother split_index x (Or.inr hx)]
    exact h

theorem runGraph_settled {g x : String} (h : Settled d is_bwd rank drv split_index st x) :
    (st.runGraph drv split_index g).values split_index x = st.values split_index x ∧
      Settled d is_bwd rank drv split_index (st.runGraph drv split_index g) x := by
  obtain ⟨-, hrecv, hdone, -, hother, -⟩ :=
    runGraph_frame st drv split_index g
  have hvalues : (st.runGraph drv split_index g).values split_index x =
      st.values split_index x := by
    by_cases hx : x = g
    · subst hx
      rw [runGraph_of_not_ready h.2]
    · exact hother split_index x (Or.inr hx)
  exact ⟨hvalues, h.congr hvalues (congrFun hrecv x) (hdone x)⟩

theorem runGraph_inv (g : String) (h : Inv d is_bwd rank drv split_index turns st) :
    Inv d is_bwd rank drv split_index turns (st.runGraph drv split_index g) := by
  obtain ⟨hlog, hrecv, hdone, hhistory, hother, -⟩ :=
    runGraph_frame st drv split_index g
  refine h.congr hhistory (fun j x hturn => ?_) (fun x _ => congrFun hrecv x)
    (fun x _ => hdone x) (fun call hcall _ => hlog ▸ hcall)
  by_cases hj : j = split_index
  · subst hj
    exact (runGraph_settled (h.settled x (hturn rfl))).1
  · exact hother j x (Or.inl hj)

theorem foldl_runGraph_inv (graphs : List String) :
    ∀ st : Connector V, Inv d is_bwd rank drv split_index turns st →
      Aggregated d is_bwd rank drv split_index st →
      Inv d is_bwd rank drv split_index turns (graphs.foldl (runGraph drv split_index) st) ∧
      (graphs.foldl (runGraph drv split_index) st).log = st.log ∧
      ∀ g, g ∈ graphs ∨ Settled d is_bwd rank drv split_index st g →
        Settled d is_bwd rank drv split_index (graphs.foldl (runGraph drv split_index) st) g := by
  induction graphs with
  | nil =>
    intro st h _
    exact ⟨h, rfl, fun g hg => hg.resolve_left List.not_mem_nil⟩
  | cons x graphs ih =>
    intro st h haggr
    have haggr' := runGraph_aggregated x haggr
    obtain ⟨hinv, hlog, hsettled⟩ := ih _ (runGraph_inv x h) haggr'
    refine ⟨hinv, hlog.trans (runGraph_frame st drv split_index x).1, fun g hg => hsettled g ?_⟩
    rcases hg with hg | hg
    · rcases List.mem_cons.mp hg with rfl | hg
      · exact Or.inr ⟨haggr' g, runGraph_self g⟩
      · exact Or.inl hg
    · exact Or.inr (runGraph_settled hg).2

theorem runDriver_runs {sg_name : String} (hsg : sg_name ∈ d.graphsOnRank rank) :
    Runs shape (fun st => Inv d is_bwd rank drv split_index turns st ∧
        Aggregated d is_bwd rank drv split_index st)
      (Inv d is_bwd rank drv split_index (turns ++ [sg_name]))
      (fun st => some (st.runDriver d rank drv scomm split_index sg_name))
      [Event.drive scomm sg_name split_index []] := by
  rintro st ⟨h, haggr⟩
  obtain ⟨hinv, hlog, hsettled⟩ := foldl_runGraph_inv (d.graphsOnRank rank) st h haggr
  refine ⟨_, rfl, ⟨hinv.history, fun call hcall hside => ?_, fun g hg => ?_⟩, ?_⟩
  · have hmem : Event.distribute call ∈
        ((d.graphsOnRank rank).foldl (runGraph drv split_index) st).log := by
      rcases List.mem_append.mp hcall with hcall | hcall
      · exact hcall
      · cases List.mem_singleton.mp hcall
    obtain ⟨hvalue, hle, hturn⟩ := hinv.sent call hmem hside
    exact ⟨hvalue, hle, fun he => List.mem_append_left _ (hturn he)⟩
  · rcases List.mem_append.mp hg with hg | hg
    · exact hinv.settled g hg
    · rw [List.mem_singleton.mp hg]
      exact hsettled sg_name (Or.inl hsg)
  · simp [shape, runDriver, hlog, eventShape]

/-- The event of sending a route, when its split has begun. -/
def sendEvent (d : Deployment) (is_bwd : Bool) (batch_size split_index flush_offset : ℕ)
    (r : RouteDP) : List (Event Unit) :=
  let tgt_split := split_index + flush_offset - getDelay (d.graph_order is_bwd) r
  if 0 ≤ tgt_split then
    [.distribute ⟨Side.send, r, tgt_split.toNat, none, batch_size, tgt_split⟩]
  else []

/-- What is sent comes from the history of a split that has begun, of a subgraph whose turn was. -/
theorem distributeOutput_spec {r : RouteDP} {flush_offset : ℕ}
    (hoffset : flush_offset ≤ getDelay (d.graph_order is_bwd) r)
    (hsplit : scomm.split_index = split_index)
    (h : Inv d is_bwd rank drv split_index turns st) (hsource : r.source_graph ∈ turns) :
    ∃ call,
      st.distributeOutput scomm split_index (d.graph_order is_bwd) flush_offset r = some call ∧
      (call.toList.map fun c => eventShape (Event.distribute c)) =
        sendEvent d is_bwd scomm.batch_size split_index flush_offset r ∧
      ∀ c ∈ call, c.route = r ∧
        c.value = st.values c.split c.route.source_graph c.route.location ∧
        c.split ≤ split_index ∧ (c.split = split_index → c.route.source_graph ∈ turns) := by
  unfold distributeOutput sendEvent
  dsimp only
  by_cases htgt : 0 ≤ split_index + flush_offset - getDelay (d.graph_order is_bwd) r
  · have hle : (split_index + flush_offset - getDelay (d.graph_order is_bwd) r).toNat ≤
        split_index := by
      omega
    obtain ⟨values, hvalues⟩ := Option.isSome_iff_exists.mp (h.history _ hle)
    rw [if_pos htgt, if_pos htgt, hvalues]
    refine ⟨_, rfl, ?_, ?_⟩
    · simp only [Option.toList_some, List.map_cons, List.map_nil, eventShape, hsplit]
      congr 3
      omega
    · rintro c ⟨⟩
      refine ⟨rfl, ?_, hle, fun _ => hsource⟩
      simp only [Connector.values, hvalues, Option.getD_some]
  · rw [if_neg htgt, if_neg htgt]
    exact ⟨none, rfl, rfl, by simp⟩

theorem distribute_inv (env : Call V → Option V) {c : Call V}
    (h : Inv d is_bwd rank drv split_index turns st)
    (hc : c.value = st.values c.split c.route.source_graph c.route.location ∧
      c.split ≤ split_index ∧ (c.split = split_index → c.route.source_graph ∈ turns)) :
    Inv d is_bwd rank drv split_index turns (st.distribute env c).1 := by
  refine ⟨h.history, fun call hcall hside => ?_, fun g hg => ?_⟩
  · rcases List.mem_append.mp hcall with hcall | hcall
    · exact h.sent call hcall hside
    · cases List.mem_singleton.mp hcall
      exact hc
  · exact (h.settled g hg).congr rfl rfl fun hdone => hdone

theorem pushRecv_inv {r : RouteDP} (v : Option V) (hdest : r.dest_graph ∉ turns)
    (h : Inv d is_bwd rank drv split_index turns st) :
    Inv d is_bwd rank drv split_index turns (st.pushRecv r v) := by
  refine h.congr (fun j hj => ?_) (fun j g _ => ?_) (fun g hg => ?_) (fun g _ hdone => ?_) ?_
  · rwa [pushRecv_split_values]
  · simp only [values, pushRecv_split_values]
  · rw [pushRecv_recv_values fun he => hdest (he ▸ hg)]
  · rwa [pushRecv_graphs_done]
  · intro call hcall _
    rwa [pushRecv_log] at hcall

theorem sendRoute_runs {r : RouteDP} (hdelay : 0 ≤ getDelay (d.graph_order is_bwd) r)
    (hsplit : scomm.split_index = split_index) (hsource : r.source_graph ∈ turns)
    (hdest : r.dest_graph ∉ turns) :
    Runs shape (Inv d is_bwd rank drv split_index turns) (Inv d is_bwd rank drv split_index turns)
      (fun st => st.sendRoute d is_bwd env scomm split_index r)
      (sendEvent d is_bwd scomm.batch_size split_index 0 r) := by
  intro st h
  obtain ⟨call, hcall, hshape, hc⟩ := distributeOutput_spec (by exact_mod_cast hdelay) hsplit h
    hsource
  simp only [← hshape, sendRoute, hcall]
  cases call with
  | none => exact ⟨st, rfl, h, by simp⟩
  | some c =>
    refine ⟨_, rfl, pushRecv_inv _ hdest (distribute_inv env h (hc c rfl).2), ?_⟩
    simp [shape, pushRecv_log, distribute]

/-- What one step of the flush sends of a route. -/
def flushEvent (d : Deployment) (is_bwd : Bool) (batch_size split_index i : ℕ) (r : RouteDP) :
    List (Event Unit) :=
  if i ≤ getDelay (d.graph_order is_bwd) r then sendEvent d is_bwd batch_size split_index i r
  else []

theorem flushRoute_runs {r : RouteDP} (i : ℕ) (hsplit : scomm.split_index = split_index)
    (hsource : r.source_graph ∈ turns) :
    Runs shape (Inv d is_bwd rank drv split_index turns) (Inv d is_bwd rank drv split_index turns)
      (fun st => st.flushRoute d is_bwd env scomm split_index i r)
      (flushEvent d is_bwd scomm.batch_size split_index i r) := by
  intro st h
  unfold flushRoute flushEvent
  by_cases hi : i ≤ getDelay (d.graph_order is_bwd) r
  · obtain ⟨call, hcall, hshape, hc⟩ := distributeOutput_spec hi hsplit h hsource
    simp only [if_pos hi, ← hshape, hcall]
    cases call with
    | none => exact ⟨st, rfl, h, by simp⟩
    | some c => exact ⟨_, rfl, distribute_inv env h (hc c rfl).2, by simp [shape, distribute]⟩
  · simp only [if_neg hi]
    exact ⟨st, rfl, h, by simp⟩

/-- The events of the turn of one subgraph. -/
def turnEvents (d : Deployment) (is_bwd : Bool) (scomm : SComm) (split_index : ℕ)
    (sg_name : String) : List (Event Unit) :=
  let order := d.graph_order is_bwd
  let send_routes := sortSendRoutes order (d.routes is_bwd) sg_name
  ((sortRecvRoutes order (d.routes is_bwd) sg_name).flatMap fun r =>
      [recvEvent scomm split_index r]) ++
    Event.drive scomm sg_name split_index [] ::
    (send_routes.flatMap (sendEvent d is_bwd scomm.batch_size split_index 0) ++
      if split_index + 1 = d.pipeline_num then
        (List.range' 1 (getMaxDelay order (d.routes is_bwd)).toNat).flatMap fun i =>
          send_routes.flatMap (flushEvent d is_bwd scomm.batch_size split_index i)
      else [])

theorem incEdgesCount_eq_one (hd : d.Routed is_bwd) (hfwd : is_bwd = false) {r : RouteDP}
    (hr : r ∈ recvRoutesOnRank d is_bwd rank) :
    incEdgesCount (recvRoutesOnRank d is_bwd rank) r.dest_graph r.location = 1 := by
  have hnodup : ((recvRoutesOnRank d is_bwd rank).map fun r => (r.dest_graph, r.location)).Nodup :=
    (hd.fwd_unique hfwd).sublist (List.filter_sublist.map _)
  have hmem : (r.dest_graph, r.location) ∈
      (recvRoutesOnRank d is_bwd rank).map fun r => (r.dest_graph, r.location) :=
    List.mem_map.mpr ⟨r, hr, rfl⟩
  rw [← List.count_eq_one_of_mem hnodup hmem, List.count, List.countP_map, incEdgesCount]
  refine List.countP_congr fun x _ => ?_
  simp

theorem computeGraph_runs (hd : d.Routed is_bwd) {sg_name : String}
    (hsg : sg_name ∈ d.graphsOnRank rank)
    (hturns : ∀ g ∈ turns, d.graph_order is_bwd g < d.graph_order is_bwd sg_name)
    (hsplit : scomm.split_index = split_index) :
    Runs shape (Inv d is_bwd rank drv split_index turns)
      (Inv d is_bwd rank drv split_index (turns ++ [sg_name]))
      (fun st => st.computeGraph d is_bwd rank drv env scomm split_index sg_name)
      (turnEvents d is_bwd scomm split_index sg_name) := by
  have hrank : rank ∈ d.allocation sg_name := by simpa using (List.mem_filter.mp hsg).2
  have hsends : ∀ r ∈ sortSendRoutes (d.graph_order is_bwd) (d.routes is_bwd) sg_name,
      r.source_graph ∈ turns ++ [sg_name] ∧ r.dest_graph ∉ turns ++ [sg_name] ∧
        0 ≤ getDelay (d.graph_order is_bwd) r := by
    intro r hr
    obtain ⟨hroute, rfl⟩ := (mem_sortSendRoutes _).1 hr
    have hlt := hd.topological r hroute
    refine ⟨by simp, fun hmem => ?_, by rw [getDelay]; omega⟩
    rcases List.mem_append.mp hmem with hmem | hmem
    · exact absurd (hturns _ hmem) (by omega)
    · rw [List.mem_singleton.mp hmem] at hlt
      exact lt_irrefl _ hlt
  unfold computeGraph turnEvents
  refine (Runs.foldlM_const _ fun r hr => ?_).bind ((aggr_runs fun hfwd r hr => ?_).bind
    ((runDriver_runs hsg).bind ((Runs.foldlM_const _ fun r hr => ?_).bind
      (Runs.ite (fun _ => Runs.foldlM_const _ fun i _ => Runs.foldlM_const _ fun r hr => ?_)
        fun _ => Runs.skip))))
  · obtain ⟨hroute, rfl⟩ := (mem_sortRecvRoutes _).1 hr
    exact recvRoute_runs ((hd.mem_dests r hroute rank).2 hrank)
      fun hmem => lt_irrefl _ (hturns _ hmem)
  · exact incEdgesCount_eq_one hd hfwd hr
  · exact sendRoute_runs (hsends r hr).2.2 hsplit (hsends r hr).1 (hsends r hr).2.1
  · exact flushRoute_runs i hsplit (hsends r hr).1

theorem pairwise_idxOf {α : Type} [DecidableEq α] {l : List α} (h : l.Nodup) :
    l.Pairwise fun a b => l.idxOf a < l.idxOf b := by
  rw [List.pairwise_iff_getElem]
  intro i j hi hj hij
  rwa [h.idxOf_getElem, h.idxOf_getElem]

theorem graph_order_lt (hd : d.Routed is_bwd) {before after : List String} {sg_name : String}
    (h : sortedGraphIds d is_bwd rank = before ++ sg_name :: after) :
    ∀ g ∈ before, d.graph_order is_bwd g < d.graph_order is_bwd sg_name := by
  have hpairwise : (sortedGraphIds d is_bwd rank).Pairwise fun a b =>
      d.graph_order is_bwd a < d.graph_order is_bwd b :=
    (pairwise_idxOf hd.order_nodup).filter _
  rw [h, List.pairwise_append] at hpairwise
  exact fun g hg => hpairwise.2.2 g hg sg_name List.mem_cons_self

/-- The state before a split: the history is complete, and every call sent what it still holds. -/
structure Before (split_index : ℕ) (st : Connector V) : Prop where
  history : ∀ j < split_index, (st.split_values j).isSome
  sent : ∀ call, Event.distribute call ∈ st.log → call.side = Side.send →
    call.value = st.values call.split call.route.source_graph call.route.location ∧
      call.split < split_index

/-- A split settles every subgraph of the rank. -/
theorem compute_inv (hd : d.Routed is_bwd) (hsplit : scomm.split_index = split_index)
    (inputs : String → IValueMap V) :
    Runs shape (Before split_index)
      (Inv d is_bwd rank drv split_index (sortedGraphIds d is_bwd rank))
      (fun st => st.compute d is_bwd rank drv env scomm split_index inputs)
      ((sortedGraphIds d is_bwd rank).flatMap (turnEvents d is_bwd scomm split_index)) := by
  intro st h
  have hother : ∀ j < split_index, Function.update
      (if split_index = 0 then fun _ => none else st.split_values) split_index (some inputs) j =
        st.split_values j := by
    intro j hj
    rw [Function.update_of_ne (by omega), if_neg (by omega)]
  have hinv : Inv d is_bwd rank drv split_index []
      (⟨Function.update (if split_index = 0 then fun _ => none else st.split_values) split_index
        (some inputs), fun _ _ => [], [], st.log⟩ : Connector V) := by
    refine ⟨fun j hj => ?_, fun call hcall hside => ?_, by simp⟩
    · by_cases he : j = split_index
      · subst he
        simp
      · have hlt : j < split_index := by omega
        simpa only [hother j hlt] using h.history j hlt
    · obtain ⟨hvalue, hlt⟩ := h.sent call hcall hside
      refine ⟨?_, hlt.le, fun he => absurd he hlt.ne⟩
      rw [hvalue, values, values]
      dsimp only
      rw [hother _ hlt]
  have hturns : Runs shape (Inv d is_bwd rank drv split_index [])
      (Inv d is_bwd rank drv split_index (sortedGraphIds d is_bwd rank))
      (fun st => (sortedGraphIds d is_bwd rank).foldlM
        (computeGraph d is_bwd rank drv env scomm split_index) st)
      ((sortedGraphIds d is_bwd rank).flatMap (turnEvents d is_bwd scomm split_index)) := by
    refine Runs.foldlM _ fun turns sg_name after hids => ?_
    have hmem : sg_name ∈ sortedGraphIds d is_bwd rank := by
      rw [hids]
      exact List.mem_append_right _ List.mem_cons_self
    exact computeGraph_runs hd (by simpa using (List.mem_filter.mp hmem).2)
      (graph_order_lt hd hids) hsplit
  exact hturns _ hinv

theorem compute_runs (hd : d.Routed is_bwd) (hsplit : scomm.split_index = split_index)
    (inputs : String → IValueMap V) :
    Runs shape (Before split_index) (Before (split_index + 1))
      (fun st => st.compute d is_bwd rank drv env scomm split_index inputs)
      ((sortedGraphIds d is_bwd rank).flatMap (turnEvents d is_bwd scomm split_index)) := by
  apply (compute_inv hd hsplit inputs).weaken fun _ h => h
  intro st' hinv'
  refine ⟨fun j hj => hinv'.history j (by omega), fun call hcall hside => ?_⟩
  obtain ⟨hvalue, hle, -⟩ := hinv'.sent call hcall hside
  exact ⟨hvalue, by omega⟩

end Invariant

end Connector

end Rannc
