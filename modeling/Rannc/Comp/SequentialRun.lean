import Rannc.Comp.GradientSum
import Rannc.Comp.PipelineExchange
import Rannc.Lib.InOrder

/-!
# The pipeline against one split at a time

Without a pipeline every split goes through the subgraphs on its own, and a value is handed over as
soon as it is there. The ranks of a pipeline work on several splits at once, send late and flush
at the end; a rank that takes part in a split still gets the values that it would get without.
-/
namespace Rannc

open Connector GraphLauncher

variable {V : Type}

/-- What one rank gets over a route: `SComm` makes it of what the sources hand over and of the split
that the rank is in. -/
abbrev Transmit (V : Type) := RouteDP → List (Option (Call V)) → SComm → ℕ → Option V

section Turn

/-- The places of a subgraph before it is run: what was there, else what came over the routes. -/
def slotValues (drv : Driver V) (routes : List RouteDP) (recv : RouteDP → Option V)
    (inputs : IValueMap V) : IValueMap V := fun loc =>
  let recv_routes := routes.filter fun r => r.location = loc
  (inputs loc).or <|
    if 0 < recv_routes.length ∧ (recv_routes.filterMap recv).length = recv_routes.length then
      drv.combine (recv_routes.filterMap recv)
    else none

/-- The places of a subgraph after its turn. -/
def turnValues (drv : Driver V) (split_index : ℕ) (sg_name : String) (vals : IValueMap V) :
    IValueMap V :=
  if isGraphReady (drv.input_names sg_name) vals then
    addOutputs vals (runOn drv split_index vals sg_name)
  else vals

/-- The call by which a route is received in a split. -/
def recvCall (scomm : SComm) (split_index : ℕ) (r : RouteDP) : Call V :=
  ⟨.recv, r, split_index, none, scomm.batch_size, scomm.split_index⟩

variable {d : Deployment} {is_bwd : Bool} {rank : ℕ} {drv : Driver V} {env : Call V → Option V}
  {scomm : SComm} {k : ℕ} {g : String} {st st' : Connector V}

theorem slotValues_congr {routes : List RouteDP} {recv recv' : RouteDP → Option V}
    (h : ∀ r ∈ routes, recv r = recv' r) (inputs : IValueMap V) :
    slotValues drv routes recv inputs = slotValues drv routes recv' inputs := by
  funext loc
  have hfilter : (routes.filter fun r => r.location = loc).filterMap recv =
      (routes.filter fun r => r.location = loc).filterMap recv' :=
    List.filterMap_congr fun r hr => h r (List.mem_filter.mp hr).1
  unfold slotValues
  dsimp only
  rw [hfilter]

/-- What the receives of a turn leave. -/
theorem foldlM_recvRoute {routes : List RouteDP} (hdest : ∀ r ∈ routes, r.dest_graph = g)
    (h : routes.foldlM (recvRoute rank env scomm k) st = some st') :
    st'.split_values = st.split_values ∧ st'.graphs_done = st.graphs_done ∧
      ∀ loc, st'.recv_values g loc = st.recv_values g loc ++
        (routes.filter fun r => r.location = loc).filterMap fun r =>
          env (recvCall scomm k r) := by
  refine foldlM_prefix (I := fun before st' => st'.split_values = st.split_values ∧
    st'.graphs_done = st.graphs_done ∧ ∀ loc, st'.recv_values g loc = st.recv_values g loc ++
      (before.filter fun r => r.location = loc).filterMap fun r => env (recvCall scomm k r))
    ?_ ⟨rfl, rfl, fun loc => by simp⟩ h
  intro before r after st₁ st₂ hroutes ⟨hvalues, hdone, hrecv⟩ hstep
  unfold recvRoute at hstep
  split_ifs at hstep
  obtain rfl := Option.some.inj hstep
  have hr : r.dest_graph = g := hdest r (by simp [hroutes])
  refine ⟨?_, ?_, fun loc => ?_⟩
  · rw [pushRecv_split_values]
    exact hvalues
  · rw [pushRecv_graphs_done]
    exact hdone
  · rw [recv_values_pushRecv]
    change st₁.recv_values g loc ++ _ = _
    rw [hrecv, List.append_assoc, List.filter_append, List.filterMap_append]
    by_cases hloc : r.location = loc
    · rw [if_pos ⟨hr, hloc⟩, List.filter_singleton, decide_eq_true hloc, cond_true]
      change _ ++ (_ ++ (env (recvCall scomm k r)).toList) = _
      cases henv : env (recvCall scomm k r) <;> simp [henv]
    · simp [hloc]

theorem sendRoute_split_values {r : RouteDP}
    (h : st.sendRoute d is_bwd env scomm k r = some st') :
    st'.split_values = st.split_values := by
  obtain ⟨call, -, hsend⟩ := Option.bind_eq_some_iff.mp h
  cases call with
  | none => exact congrArg _ (Option.some.inj hsend).symm
  | some call =>
    obtain rfl := Option.some.inj hsend
    exact pushRecv_split_values _ _

theorem flushRoute_split_values {r : RouteDP} {i : ℕ}
    (h : st.flushRoute d is_bwd env scomm k i r = some st') :
    st'.split_values = st.split_values := by
  unfold flushRoute at h
  split_ifs at h
  · obtain ⟨call, -, hflush⟩ := Option.bind_eq_some_iff.mp h
    cases call with
    | none => exact congrArg _ (Option.some.inj hflush).symm
    | some call =>
      obtain rfl := Option.some.inj hflush
      rfl
  · exact congrArg _ (Option.some.inj h).symm

theorem incEdgesCount_eq (hg : g ∈ d.graphsOnRank rank) (loc : IValueLocation) :
    incEdgesCount (recvRoutesOnRank d is_bwd rank) g loc =
      ((sortRecvRoutes (d.graph_order is_bwd) (d.routes is_bwd) g).filter fun r =>
        r.location = loc).length := by
  have hperm : (sortRecvRoutes (d.graph_order is_bwd) (d.routes is_bwd) g).Perm
      ((d.routes is_bwd).filter fun r => r.dest_graph = g) := List.perm_insertionSort _ _
  rw [(hperm.filter _).length_eq, ← List.countP_eq_length_filter, List.countP_filter,
    incEdgesCount, recvRoutesOnRank, List.countP_filter]
  refine List.countP_congr fun r _ => ?_
  simp only [Bool.and_eq_true, decide_eq_true_eq]
  constructor
  · rintro ⟨⟨hdest, hloc⟩, -⟩
    exact ⟨hloc, hdest⟩
  · rintro ⟨hloc, hdest⟩
    exact ⟨⟨hdest, hloc⟩, hdest ▸ hg⟩

/-- What a turn leaves of the values: the sends change none. -/
theorem computeGraph_split_values (h : st.computeGraph d is_bwd rank drv env scomm k g = some st') :
    ∃ st₁, (sortRecvRoutes (d.graph_order is_bwd) (d.routes is_bwd) g).foldlM
        (recvRoute rank env scomm k) st = some st₁ ∧
      st'.split_values = ((st₁.setValues k (st₁.aggrValue d is_bwd rank drv k)).runDriver d rank drv
        scomm k g).split_values := by
  obtain ⟨st₁, hrecv, h⟩ := Option.bind_eq_some_iff.mp h
  obtain ⟨st₂, haggr, h⟩ := Option.bind_eq_some_iff.mp h
  obtain ⟨st₃, hsend, h⟩ := Option.bind_eq_some_iff.mp h
  have hst₂ : st₂ = st₁.setValues k (st₁.aggrValue d is_bwd rank drv k) := by
    unfold aggr at haggr
    dsimp only at haggr
    split_ifs at haggr
    exact (Option.some.inj haggr).symm
  have hst₃ : st₃.split_values = (st₂.runDriver d rank drv scomm k g).split_values := by
    refine foldlM_invariant
      (P := fun st => st.split_values = (st₂.runDriver d rank drv scomm k g).split_values)
      (fun st r st' _ hst hstep => ?_) rfl hsend
    exact (sendRoute_split_values hstep).trans hst
  have hst' : st'.split_values = st₃.split_values := by
    split_ifs at h
    · refine foldlM_invariant (P := fun st => st.split_values = st₃.split_values)
        (fun st i st' _ hst hstep => ?_) rfl h
      refine foldlM_invariant (P := fun st => st.split_values = st₃.split_values)
        (fun st r st' _ hst hturn => ?_) hst hstep
      exact (flushRoute_split_values hturn).trans hst
    · exact congrArg _ (Option.some.inj h).symm
  exact ⟨st₁, hrecv, by rw [hst', hst₃, hst₂]⟩

/-- A turn fills the places of the subgraph with what is received and with what the driver makes
of that, and leaves the other splits as they are. -/
theorem computeGraph_values (hrank : d.graphsOnRank rank = [g]) (hdone : g ∉ st.graphs_done)
    (hempty : ∀ loc, st.recv_values g loc = [])
    (h : st.computeGraph d is_bwd rank drv env scomm k g = some st') :
    st'.values k g = turnValues drv k g
        (slotValues drv (sortRecvRoutes (d.graph_order is_bwd) (d.routes is_bwd) g)
          (fun r => env (recvCall scomm k r)) (st.values k g)) ∧
      ∀ j ≠ k, st'.split_values j = st.split_values j := by
  obtain ⟨st₁, hrecv, hsplit⟩ := computeGraph_split_values h
  obtain ⟨hvalues₁, hdone₁, hrecv₁⟩ := foldlM_recvRoute
    (fun r hr => ((mem_sortRecvRoutes _).1 hr).2) hrecv
  obtain ⟨st₂, hst₂⟩ : ∃ st₂, st₂ = st₁.setValues k (st₁.aggrValue d is_bwd rank drv k) := ⟨_, rfl⟩
  rw [← hst₂] at hsplit
  -- what is aggregated
  have hslots : st₂.values k g = slotValues drv
      (sortRecvRoutes (d.graph_order is_bwd) (d.routes is_bwd) g)
      (fun r => env (recvCall scomm k r)) (st.values k g) := by
    have hg : g ∈ d.graphsOnRank rank := hrank ▸ List.mem_singleton_self g
    funext loc
    rw [hst₂, values_setValues, aggrValue, received, incEdgesCount_eq hg, hrecv₁, hempty,
      List.nil_append, values, hvalues₁]
    rfl
  have hdone₂ : g ∉ st₂.graphs_done := by
    rw [hst₂]
    change g ∉ st₁.graphs_done
    rwa [hdone₁]
  -- what the driver adds
  have hrun : (st₂.runDriver d rank drv scomm k g).split_values =
      (st₂.runGraph drv k g).split_values := by
    unfold runDriver
    rw [hrank]
    rfl
  have hturn : (st₂.runGraph drv k g).values k g = turnValues drv k g (st₂.values k g) := by
    unfold turnValues
    split_ifs with hready
    · rw [runGraph_of_ready hdone₂ hready]
      simp [values, setValues, driverOut, runOn]
    · rw [runGraph_of_not_ready (Or.inr hready)]
  have hother : ∀ j ≠ k, (st₂.runGraph drv k g).split_values j = st.split_values j := by
    intro j hj
    have hst₁ : st₂.split_values j = st.split_values j := by
      rw [hst₂, ← hvalues₁]
      exact Function.update_of_ne hj _ _
    rw [← hst₁]
    unfold runGraph
    dsimp only
    split_ifs
    · exact Function.update_of_ne hj _ _
    · rfl
  have hall : st'.split_values = (st₂.runGraph drv k g).split_values := hsplit.trans hrun
  refine ⟨?_, fun j hj => by rw [hall, hother j hj]⟩
  rw [values, hall, ← hslots]
  exact hturn

end Turn

section Run

variable {d : Deployment} {is_bwd : Bool} {rank : ℕ} {drv : Driver V} {env : Call V → Option V}
  {scomm : SComm} {k : ℕ} {g : String} {st st' : Connector V}

/-- The places of the rank's subgraph after a split, from what its calls of the split return. -/
def splitValues (d : Deployment) (is_bwd : Bool) (drv : Driver V) (env : Call V → Option V)
    (scomm : SComm) (k : ℕ) (inputs : String → IValueMap V) (g : String) : IValueMap V :=
  turnValues drv k g (slotValues drv (sortRecvRoutes (d.graph_order is_bwd) (d.routes is_bwd) g)
    (fun r => env (recvCall scomm k r)) (inputs g))

theorem compute_values (hids : sortedGraphIds d is_bwd rank = [g])
    (hrank : d.graphsOnRank rank = [g]) {inputs : String → IValueMap V}
    (h : st.compute d is_bwd rank drv env scomm k inputs = some st') :
    st'.values k g = splitValues d is_bwd drv env scomm k inputs g ∧
      ∀ j < k, st'.values j = st.values j := by
  unfold Connector.compute at h
  rw [hids] at h
  obtain ⟨st₁, hturn, hend⟩ := Option.bind_eq_some_iff.mp h
  obtain rfl := Option.some.inj hend
  obtain ⟨hvalues, hother⟩ := computeGraph_values hrank List.not_mem_nil (fun _ => rfl) hturn
  constructor
  · rw [hvalues]
    simp [splitValues, values]
  · intro j hj
    rw [values, hother j hj.ne, values]
    dsimp only
    rw [Function.update_of_ne hj.ne, if_neg (by omega)]

/-- After a run the values of all its splits are there. -/
theorem run_splitValues (hids : sortedGraphIds d is_bwd rank = [g])
    (hrank : d.graphsOnRank rank = [g]) {batch_size : ℕ} {graph_inputs : ℕ → String → IValueMap V}
    {history : ℕ → Option (String → IValueMap V)}
    (h : GraphLauncher.compute d is_bwd rank drv env batch_size graph_inputs history = some st) :
    ∀ k < actualPipelineNum d.pipeline_num batch_size, st.values k g =
      splitValues d is_bwd drv env (startSplit d.pipeline_num batch_size k) k (graph_inputs k)
        g := by
  have hrun := foldlM_prefix (I := fun before (st : Connector V) => ∀ k < before.length,
    st.values k g = splitValues d is_bwd drv env (startSplit d.pipeline_num batch_size k) k
      (graph_inputs k) g) ?_ ?_ h
  · rwa [List.length_range] at hrun
  · intro before k after st st' hrange hst hstep
    have hk : k = before.length := by
      have hget : (before ++ k :: after)[before.length]? = some k := by simp
      rw [← hrange] at hget
      obtain ⟨hlt, hget⟩ := List.getElem?_eq_some_iff.mp hget
      rw [← hget, List.getElem_range]
    obtain ⟨hvalues, hother⟩ := compute_values hids hrank hstep
    intro j hj
    rw [List.length_append, List.length_singleton] at hj
    rcases Nat.lt_succ_iff_lt_or_eq.mp hj with hlt | rfl
    · rw [hother j (by omega)]
      exact hst j hlt
    · rw [← hk]
      exact hvalues
  · exact fun k hk => absurd hk (Nat.not_lt_zero k)

end Run

section Others

variable {d : Deployment} {is_bwd : Bool} {rank : ℕ} {drv : Driver V} {env : Call V → Option V}
  {scomm : SComm} {k : ℕ} {g : String} {st st' : Connector V}

theorem received_of_not_mem (hg : g ∉ d.graphsOnRank rank) (loc : IValueLocation) :
    st.received d is_bwd rank drv g loc = none := by
  have hcount : incEdgesCount (recvRoutesOnRank d is_bwd rank) g loc = 0 := by
    rw [incEdgesCount, List.countP_eq_zero]
    intro r hr hplace
    obtain ⟨-, hdest⟩ := List.mem_filter.mp hr
    rw [decide_eq_true_eq] at hdest hplace
    exact hg (hplace.1 ▸ hdest)
  unfold received
  rw [hcount]
  exact if_neg fun h => absurd h.1 (lt_irrefl 0)

/-- The values of a subgraph that the rank does not have stay what they were. -/
theorem computeGraph_values_of_not_mem {g' : String} (hg : g ∉ d.graphsOnRank rank)
    (h : st.computeGraph d is_bwd rank drv env scomm k g' = some st') (j : ℕ) :
    st'.values j g = st.values j g := by
  obtain ⟨st₁, hrecv, hsplit⟩ := computeGraph_split_values h
  obtain ⟨hvalues₁, -, -⟩ := foldlM_recvRoute
    (fun r hr => ((mem_sortRecvRoutes _).1 hr).2) hrecv
  obtain ⟨st₂, hst₂⟩ : ∃ st₂, st₂ = st₁.setValues k (st₁.aggrValue d is_bwd rank drv k) := ⟨_, rfl⟩
  rw [← hst₂] at hsplit
  have hvalues₂ : st₂.values j g = st₁.values j g := by
    rw [hst₂]
    by_cases hj : j = k
    · subst hj
      rw [values_setValues]
      funext loc
      rw [aggrValue, received_of_not_mem hg, Option.or_none]
    · simp [values, setValues, hj]
  have hrun : (st₂.runDriver d rank drv scomm k g').values j g = st₂.values j g := by
    change ((d.graphsOnRank rank).foldl (runGraph drv k) st₂).values j g = _
    refine List.foldlRecOn (motive := fun st : Connector V => st.values j g = st₂.values j g)
      (d.graphsOnRank rank) _ rfl fun st hst g'' hg'' => ?_
    have hne : g ≠ g'' := fun heq => hg (heq ▸ hg'')
    rw [← hst]
    exact (runGraph_frame st drv k g'').2.2.2.2.1 j g (Or.inr hne)
  have hst' : st'.values j g = (st₂.runDriver d rank drv scomm k g').values j g := by
    unfold values
    rw [hsplit]
  rw [hst', hrun, hvalues₂]
  unfold values
  rw [hvalues₁]

/-- After a run a rank has of other subgraphs what it was given. -/
theorem run_values_of_not_mem (hg : g ∉ d.graphsOnRank rank) {batch_size : ℕ}
    {graph_inputs : ℕ → String → IValueMap V} {history : ℕ → Option (String → IValueMap V)}
    (h : GraphLauncher.compute d is_bwd rank drv env batch_size graph_inputs history = some st) :
    ∀ k < actualPipelineNum d.pipeline_num batch_size, st.values k g = graph_inputs k g := by
  have hrun := foldlM_prefix (I := fun before (st : Connector V) => ∀ k < before.length,
    st.values k g = graph_inputs k g) ?_ ?_ h
  · rwa [List.length_range] at hrun
  · intro before k after st st' hrange hst hstep
    have hk : k = before.length := by
      have hget : (before ++ k :: after)[before.length]? = some k := by simp
      rw [← hrange] at hget
      obtain ⟨hlt, hget⟩ := List.getElem?_eq_some_iff.mp hget
      rw [← hget, List.getElem_range]
    intro j hj
    rw [List.length_append, List.length_singleton] at hj
    unfold Connector.compute at hstep
    have hkeep := foldlM_invariant (P := fun st' => st'.values j g = Connector.values j
      (⟨Function.update (if k = 0 then fun _ => none else st.split_values) k
        (some (graph_inputs k)), fun _ _ => [], [], st.log⟩ : Connector V) g)
      (fun st g' st' _ hst hturn => (computeGraph_values_of_not_mem hg hturn j).trans hst) rfl hstep
    rw [hkeep]
    unfold values
    dsimp only
    rcases Nat.lt_succ_iff_lt_or_eq.mp hj with hlt | rfl
    · have hne : j ≠ k := by omega
      rw [Function.update_of_ne hne, if_neg (by omega)]
      exact hst j hlt
    · rw [← hk, Function.update_self]
      rfl
  · exact fun k hk => absurd hk (Nat.not_lt_zero k)

end Others

section Calls

variable {d : Deployment} {is_bwd : Bool} {rank : ℕ} {drv : Driver V} {env : Call V → Option V}
  {scomm : SComm} {k : ℕ} {g : String} {st st' : Connector V} {r : RouteDP}

/-- The call, if it is for the route. -/
def callFor (r : RouteDP) (side : Side) : Event V → Option (Call V)
  | .distribute call => if call.side = side ∧ call.route = r then some call else none
  | .drive _ _ _ _ => none

/-- A rank hands over nothing when it receives. -/
def HandsNothing (st : Connector V) : Prop :=
  ∀ call, Event.distribute call ∈ st.log → call.side = .recv → call.value = none

theorem HandsNothing.append (h : HandsNothing st) {e : Event V}
    (he : ∀ call, e = .distribute call → call.side = .recv → call.value = none)
    (hlog : st'.log = st.log ++ [e]) : HandsNothing st' := by
  intro call hcall hside
  rw [hlog] at hcall
  cases List.mem_append.mp hcall with
  | inl hmem => exact h call hmem hside
  | inr hmem => exact he call (List.mem_singleton.mp hmem).symm hside

theorem distributeOutput_side {offset : ℕ} {call : Call V}
    (h : st.distributeOutput scomm k (d.graph_order is_bwd) offset r = some (some call)) :
    call.side = .send := by
  unfold distributeOutput at h
  dsimp only at h
  split_ifs at h
  · obtain ⟨values, -, hcall⟩ := Option.bind_eq_some_iff.mp h
    obtain rfl := Option.some.inj (Option.some.inj hcall)
    rfl
  · cases h

theorem HandsNothing.recvRoute (h : HandsNothing st)
    (hstep : st.recvRoute rank env scomm k r = some st') : HandsNothing st' := by
  unfold Connector.recvRoute at hstep
  split_ifs at hstep
  obtain rfl := Option.some.inj hstep
  refine h.append (e := .distribute (recvCall scomm k r)) ?_ (pushRecv_log _ _)
  rintro call ⟨⟩ -
  rfl

theorem HandsNothing.sendRoute (h : HandsNothing st)
    (hstep : st.sendRoute d is_bwd env scomm k r = some st') : HandsNothing st' := by
  obtain ⟨call, hcall, hsend⟩ := Option.bind_eq_some_iff.mp hstep
  cases call with
  | none => exact Option.some.inj hsend ▸ h
  | some call =>
    obtain rfl := Option.some.inj hsend
    refine h.append (e := .distribute call) ?_ (pushRecv_log _ _)
    rintro _ ⟨⟩ hside
    cases (distributeOutput_side hcall).symm.trans hside

theorem HandsNothing.flushRoute {i : ℕ} (h : HandsNothing st)
    (hstep : st.flushRoute d is_bwd env scomm k i r = some st') : HandsNothing st' := by
  unfold Connector.flushRoute at hstep
  split_ifs at hstep
  · obtain ⟨call, hcall, hflush⟩ := Option.bind_eq_some_iff.mp hstep
    cases call with
    | none => exact Option.some.inj hflush ▸ h
    | some call =>
      obtain rfl := Option.some.inj hflush
      refine h.append (e := .distribute call) ?_ rfl
      rintro _ ⟨⟩ hside
      cases (distributeOutput_side hcall).symm.trans hside
  · exact Option.some.inj hstep ▸ h

theorem HandsNothing.computeGraph (h : HandsNothing st)
    (hstep : st.computeGraph d is_bwd rank drv env scomm k g = some st') : HandsNothing st' := by
  obtain ⟨st₁, hrecv, hstep⟩ := Option.bind_eq_some_iff.mp hstep
  obtain ⟨st₂, haggr, hstep⟩ := Option.bind_eq_some_iff.mp hstep
  obtain ⟨st₃, hsend, hstep⟩ := Option.bind_eq_some_iff.mp hstep
  have h₁ : HandsNothing st₁ :=
    foldlM_invariant (fun st r st' _ hst hturn => hst.recvRoute hturn) h hrecv
  have h₂ : HandsNothing st₂ := by
    unfold Connector.aggr at haggr
    dsimp only at haggr
    split_ifs at haggr
    obtain rfl := Option.some.inj haggr
    exact h₁
  have hlog : ∀ (graphs : List String) (st : Connector V),
      (graphs.foldl (runGraph drv k) st).log = st.log := by
    intro graphs
    induction graphs with
    | nil => exact fun _ => rfl
    | cons g graphs ih => exact fun st => (ih _).trans (runGraph_frame st drv k g).1
  have hdrive : HandsNothing (st₂.runDriver d rank drv scomm k g) :=
    h₂.append (e := .drive scomm g k ((d.graphsOnRank rank).foldl (runGraph drv k) st₂).graphs_done)
      (fun _ he => by cases he) (congrArg (· ++ _) (hlog _ st₂))
  have h₃ : HandsNothing st₃ :=
    foldlM_invariant (fun st r st' _ hst hturn => hst.sendRoute hturn) hdrive hsend
  split_ifs at hstep
  · refine foldlM_invariant (P := HandsNothing) (fun st i st' _ hst hturn => ?_) h₃ hstep
    exact foldlM_invariant (fun st r st' _ hst hflush => hst.flushRoute hflush) hst hturn
  · exact Option.some.inj hstep ▸ h₃

theorem handsNothing_run {batch_size : ℕ} {graph_inputs : ℕ → String → IValueMap V}
    {history : ℕ → Option (String → IValueMap V)}
    (h : GraphLauncher.compute d is_bwd rank drv env batch_size graph_inputs history = some st) :
    HandsNothing st := by
  refine foldlM_invariant (P := HandsNothing) (fun st k st' _ hst hstep => ?_)
    (fun call hcall => absurd hcall List.not_mem_nil) h
  unfold Connector.compute at hstep
  refine foldlM_invariant (P := HandsNothing)
    (fun st g st' _ hst hturn => hst.computeGraph hturn) ?_ hstep
  exact hst

theorem filterMap_callOf (side : Side) (log : List (Event V)) :
    log.filterMap (callOf r side) = (log.filterMap (callFor r side)).map
      fun c => (c.split, c.batch_size, c.dist_split) := by
  rw [List.map_filterMap]
  refine List.filterMap_congr fun e _ => ?_
  cases e with
  | drive _ _ _ _ => rfl
  | distribute call =>
    unfold callOf callFor
    dsimp only
    split_ifs <;> rfl

theorem mem_of_callFor {side : Side} {call : Call V} {log : List (Event V)}
    (h : call ∈ log.filterMap (callFor r side)) :
    Event.distribute call ∈ log ∧ call.side = side ∧ call.route = r := by
  obtain ⟨e, he, hcall⟩ := List.mem_filterMap.mp h
  cases e with
  | drive _ _ _ _ => cases hcall
  | distribute c =>
    unfold callFor at hcall
    dsimp only at hcall
    split_ifs at hcall with hfor
    obtain rfl := Option.some.inj hcall
    exact ⟨he, hfor⟩

theorem callFor_getElem {side : Side} {call : Call V} {i : ℕ} {log : List (Event V)}
    {shown : List (ℕ × ℕ × ℤ)} (hlog : log.filterMap (callOf r side) = shown)
    (hshown : shown[i]? = some (call.split, call.batch_size, call.dist_split))
    (hside : call.side = side) (hroute : call.route = r)
    (hvalue : ∀ c, Event.distribute c ∈ log → c.side = side → c.route = r →
      c.split = call.split → c.value = call.value) :
    (log.filterMap (callFor r side))[i]? = some call := by
  rw [← hlog, filterMap_callOf, List.getElem?_map] at hshown
  obtain ⟨c, hc, hsame⟩ := Option.map_eq_some_iff.mp hshown
  obtain ⟨hmem, hcside, hcroute⟩ := mem_of_callFor (List.mem_of_getElem? hc)
  obtain ⟨hsplit, hsize, hdist⟩ : c.split = call.split ∧ c.batch_size = call.batch_size ∧
      c.dist_split = call.dist_split := by
    simpa only [Prod.mk.injEq] using hsame
  have hcvalue := hvalue c hmem hcside hcroute hsplit
  rw [hc, Option.some.injEq]
  cases c
  cases call
  simp_all

end Calls

section Sequential

variable (d : Deployment) (is_bwd : Bool) (drv : ℕ → Driver V) (transmit : Transmit V)

section Split

variable (scomm : SComm) (split_index : ℕ) (inputs : ℕ → String → IValueMap V)

/-- What the sources of a route hand over in the split that is run. -/
def handedOver (vals : String → ℕ → IValueMap V) (r : RouteDP) : List (Option (Call V)) :=
  r.sources.map fun p => some ⟨.send, r, split_index, vals r.source_graph p r.location,
    scomm.batch_size, scomm.split_index⟩

/-- A subgraph is run on all of its ranks. -/
def sequentialTurn (vals : String → ℕ → IValueMap V) (sg_name : String) (rank : ℕ) : IValueMap V :=
  if rank ∈ d.allocation sg_name then
    turnValues (drv rank) split_index sg_name <|
      slotValues (drv rank) (sortRecvRoutes (d.graph_order is_bwd) (d.routes is_bwd) sg_name)
        (fun r => transmit r (handedOver scomm split_index vals r) scomm rank)
        (inputs rank sg_name)
  else fun _ => none

/-- The subgraphs are run one after another, with one split. -/
def sequentialValues : String → ℕ → IValueMap V :=
  inTurn (sequentialTurn d is_bwd drv transmit scomm split_index inputs) (d.graphs is_bwd)
    fun _ _ _ => none

end Split

/-- The ranks run, and what one gets with a call is made of what the sources of the route hand over
with their calls at the same position. -/
structure Pipelined (batch_size : ℕ) (graph_inputs : ℕ → ℕ → String → IValueMap V)
    (history : ℕ → ℕ → Option (String → IValueMap V)) (env : ℕ → Call V → Option V)
    (runs : ℕ → Connector V) : Prop where
  run : ∀ rank, GraphLauncher.compute d is_bwd rank (drv rank) (env rank) batch_size
    (graph_inputs rank) (history rank) = some (runs rank)
  pairs : ∀ r ∈ d.routes is_bwd, ∀ q ∈ r.dests, ∀ (i : ℕ) (call : Call V),
    ((runs q).log.filterMap (callFor r .recv))[i]? = some call →
    env q call = transmit r
      (r.sources.map fun p => ((runs p).log.filterMap (callFor r .send))[i]?)
      ⟨call.batch_size, call.dist_split⟩ q

variable {d is_bwd drv transmit} {scomm : SComm} {k : ℕ} {inputs : ℕ → String → IValueMap V}
  {r : RouteDP} {g : String} {rank batch_size : ℕ}

theorem mem_of_graph_order_lt {before after : List String}
    (hgraphs : d.graphs is_bwd = before ++ g :: after) {g' : String}
    (hlt : d.graph_order is_bwd g' < d.graph_order is_bwd g) : g' ∈ before := by
  by_contra hnot
  have hg : d.graph_order is_bwd g ≤ before.length := by
    rw [Deployment.graph_order, hgraphs, List.idxOf_append]
    split_ifs with hmem
    · exact (List.idxOf_lt_length_iff.mpr hmem).le
    · simp
  have hg' : before.length ≤ d.graph_order is_bwd g' := by
    rw [Deployment.graph_order, hgraphs, List.idxOf_append_of_notMem hnot]
    exact Nat.le_add_right _ _
  omega

theorem sequentialTurn_dependsOnEarlier (hd : d.Routed is_bwd) :
    DependsOnEarlier (sequentialTurn d is_bwd drv transmit scomm k inputs) (d.graphs is_bwd) := by
  intro before g after hgraphs v w hsame
  funext rank
  unfold sequentialTurn
  split_ifs
  · congr 1
    refine slotValues_congr (fun r hr => ?_) _
    obtain ⟨hroute, rfl⟩ := (mem_sortRecvRoutes _).1 hr
    unfold handedOver
    rw [hsame _ (mem_of_graph_order_lt hgraphs (hd.topological r hroute))]
  · rfl

theorem graphsOnRank_eq (hnodup : d.subgraphs.Nodup)
    (hdisjoint : ∀ g ∈ d.subgraphs, ∀ g' ∈ d.subgraphs, g ≠ g' →
      Disjoint (d.allocation g) (d.allocation g'))
    (hg : g ∈ d.subgraphs) (hrank : rank ∈ d.allocation g) : d.graphsOnRank rank = [g] := by
  refine List.perm_singleton.mp ((List.perm_ext_iff_of_nodup (hnodup.filter _)
    (List.nodup_singleton g)).2 fun g' => ?_)
  rw [List.mem_filter, decide_eq_true_eq, List.mem_singleton]
  constructor
  · rintro ⟨hg', hrank'⟩
    by_contra hne
    exact Finset.disjoint_left.mp (hdisjoint g' hg' g hg hne) hrank' hrank
  · rintro rfl
    exact ⟨hg, hrank⟩

theorem sortedGraphIds_eq (hd : d.Routed is_bwd) (hg : g ∈ d.graphs is_bwd)
    (hrank : d.graphsOnRank rank = [g]) : sortedGraphIds d is_bwd rank = [g] := by
  refine List.perm_singleton.mp ((List.perm_ext_iff_of_nodup (hd.order_nodup.filter _)
    (List.nodup_singleton g)).2 fun g' => ?_)
  rw [List.mem_filter, decide_eq_true_eq, hrank, List.mem_singleton, and_iff_right_iff_imp]
  rintro rfl
  exact hg

section Calls

variable {st : Connector V}
  (hshape : st.shape = (List.range (actualPipelineNum d.pipeline_num batch_size)).flatMap
    (splitEvents d is_bwd rank batch_size))
  (hk : k < actualPipelineNum d.pipeline_num batch_size)

include hshape hk

theorem recv_getElem (hd : d.RoutedOnce is_bwd) (hr : r ∈ d.routes is_bwd)
    (hrank : rank ∈ r.dests) (hnothing : HandsNothing st) :
    (st.log.filterMap (callFor r .recv))[k]? =
      some (recvCall (startSplit d.pipeline_num batch_size k) k r) :=
  callFor_getElem (run_received hd hr hrank hshape)
    (by simp [List.getElem?_range hk, recvCall, startSplit]) rfl rfl
    fun c hc hside _ _ => hnothing c hc hside

theorem send_getElem (hd : d.RoutedOnce is_bwd) (hr : r ∈ d.routes is_bwd)
    (hdelay : getDelay (d.graph_order is_bwd) r = 0 ∨
      d.pipeline_num ≤ batch_size ∧ d.pipeline_num ∣ batch_size)
    (hrank : rank ∈ r.sources) {n : ℕ} (hbefore : Before n st) :
    (st.log.filterMap (callFor r .send))[k]? =
      some ⟨.send, r, k, st.values k r.source_graph r.location,
        (startSplit d.pipeline_num batch_size k).batch_size, k⟩ := by
  rw [getDelay_eq hd.toRouted hr, Nat.cast_eq_zero] at hdelay
  have hn := actualPipelineNum_eq d.pipeline_num batch_size
  have hlt : k < if d.pipeline_num ≤ batch_size then d.pipeline_num
      else batch_size - delay d is_bwd r := by
    split_ifs <;> omega
  have hsize : sentBatchSize d.pipeline_num batch_size (delay d is_bwd r) k =
      (startSplit d.pipeline_num batch_size k).batch_size := by
    refine (sentBatchSize_eq_iff (by omega)).mpr (hdelay.imp_right fun h => ?_) k hlt
    rw [hn, min_eq_left h.1]
    exact h.2
  refine callFor_getElem (run_sent hd hr hrank hshape) ?_ rfl rfl fun c hc hside hroute hsplit => ?_
  · rw [List.getElem?_map, List.getElem?_range hlt, Option.map_some, sentCall, hsize]
  · obtain ⟨hvalue, -⟩ := hbefore.sent c hc hside
    dsimp only at hsplit ⊢
    rw [hvalue, hroute, hsplit]

end Calls

theorem run_spec (hd : d.Routed is_bwd) {drv : Driver V} {env : Call V → Option V}
    {graph_inputs : ℕ → String → IValueMap V} {history : ℕ → Option (String → IValueMap V)}
    {st : Connector V}
    (h : GraphLauncher.compute d is_bwd rank drv env batch_size graph_inputs history = some st) :
    Before (actualPipelineNum d.pipeline_num batch_size) st ∧
      st.shape = (List.range (actualPipelineNum d.pipeline_num batch_size)).flatMap
        (splitEvents d is_bwd rank batch_size) := by
  obtain ⟨st', hst', hspec⟩ := exists_compute rank hd drv env batch_size graph_inputs history
  obtain rfl := Option.some.inj (h.symm.trans hst')
  exact hspec

variable (drv transmit inputs) in
theorem splitValues_eq_sequentialTurn (vals : String → ℕ → IValueMap V) {env : Call V → Option V}
    (hrank : rank ∈ d.allocation g)
    (henv : ∀ r ∈ d.routes is_bwd, r.dest_graph = g →
      env (recvCall scomm k r) = transmit r (handedOver scomm k vals r) scomm rank) :
    splitValues d is_bwd (drv rank) env scomm k (inputs rank) g =
      sequentialTurn d is_bwd drv transmit scomm k inputs vals g rank := by
  unfold splitValues sequentialTurn
  rw [if_pos hrank, slotValues_congr fun r hr => ?_]
  obtain ⟨hroute, hdest⟩ := (mem_sortRecvRoutes _).1 hr
  exact henv r hroute hdest

section Pipeline

variable (hd : d.RoutedOnce is_bwd) (hnodup : d.subgraphs.Nodup)
  (hdisjoint : ∀ g ∈ d.subgraphs, ∀ g' ∈ d.subgraphs, g ≠ g' →
    Disjoint (d.allocation g) (d.allocation g'))
  (hdelay : ∀ r ∈ d.routes is_bwd, getDelay (d.graph_order is_bwd) r = 0 ∨
    d.pipeline_num ≤ batch_size ∧ d.pipeline_num ∣ batch_size)
  {graph_inputs : ℕ → ℕ → String → IValueMap V}
  {history : ℕ → ℕ → Option (String → IValueMap V)}

include hd hnodup hdisjoint hdelay

/-- What the ranks of a pipeline hold solves the equations of the run without a pipeline. -/
theorem Pipelined.values_eq {env : ℕ → Call V → Option V} {runs : ℕ → Connector V}
    (h : Pipelined d is_bwd drv transmit batch_size graph_inputs history env runs)
    (hk : k < actualPipelineNum d.pipeline_num batch_size) (hg : g ∈ d.graphs is_bwd)
    (hmem : rank ∈ d.allocation g) :
    (runs rank).values k g = sequentialValues d is_bwd drv transmit
      (startSplit d.pipeline_num batch_size k) k (fun rank => graph_inputs rank k) g rank := by
  obtain ⟨hruns, hpairs⟩ := h
  have hspec := fun rank => run_spec hd.toRouted (hruns rank)
  let vals : String → ℕ → IValueMap V := fun g rank =>
    if rank ∈ d.allocation g then (runs rank).values k g else fun _ => none
  have hturn : ∀ g ∈ d.graphs is_bwd, vals g = sequentialTurn d is_bwd drv transmit
      (startSplit d.pipeline_num batch_size k) k (fun rank => graph_inputs rank k) vals g := by
    intro g hg
    funext rank
    by_cases hmem : rank ∈ d.allocation g
    · have hrank := graphsOnRank_eq hnodup hdisjoint (hd.order_subset g hg) hmem
      refine (if_pos hmem).trans ?_
      rw [run_splitValues (sortedGraphIds_eq hd.toRouted hg hrank) hrank (hruns rank) k hk]
      apply splitValues_eq_sequentialTurn drv transmit (fun rank => graph_inputs rank k) vals hmem
      intro r hr hdest
      have hrecv : rank ∈ r.dests := (hd.mem_dests r hr rank).2 (hdest ▸ hmem)
      rw [hpairs r hr rank hrecv k _ (recv_getElem (hspec rank).2 hk hd hr hrecv
        (handsNothing_run (hruns rank)))]
      refine congrArg (transmit r · _ rank) (List.map_congr_left fun p hp => ?_)
      rw [send_getElem (hspec p).2 hk hd hr (hdelay r hr) hp (hspec p).1]
      have hsource : vals r.source_graph p = (runs p).values k r.source_graph :=
        if_pos ((hd.mem_sources r hr p).1 hp)
      rw [hsource]
      rfl
    · exact (if_neg hmem).trans (if_neg hmem).symm
  have hsolution := eq_inTurn hd.order_nodup (sequentialTurn_dependsOnEarlier hd.toRouted) hturn
    (fun _ _ _ => none) g hg
  exact (if_pos hmem).symm.trans (congrFun hsolution rank)

/-- The calls can pair up. -/
theorem exists_pipelined (drv : ℕ → Driver V) (transmit : Transmit V)
    (graph_inputs : ℕ → ℕ → String → IValueMap V)
    (history : ℕ → ℕ → Option (String → IValueMap V)) :
    ∃ env runs, Pipelined d is_bwd drv transmit batch_size graph_inputs history env runs := by
  have hrank : ∀ g ∈ d.graphs is_bwd, ∀ rank ∈ d.allocation g, d.graphsOnRank rank = [g] :=
    fun g hg rank hmem => graphsOnRank_eq hnodup hdisjoint (hd.order_subset g hg) hmem
  let vals : ℕ → String → ℕ → IValueMap V := fun k => sequentialValues d is_bwd drv transmit
    (startSplit d.pipeline_num batch_size k) k fun rank => graph_inputs rank k
  let env : ℕ → Call V → Option V := fun rank call => transmit call.route
    (handedOver (startSplit d.pipeline_num batch_size call.split) call.split (vals call.split)
      call.route) ⟨call.batch_size, call.dist_split⟩ rank
  choose runs hruns hbefore hshape using fun rank => exists_compute rank hd.toRouted (drv rank)
    (env rank) batch_size (graph_inputs rank) (history rank)
  have hvalues : ∀ k < actualPipelineNum d.pipeline_num batch_size, ∀ g ∈ d.graphs is_bwd,
      ∀ rank ∈ d.allocation g, (runs rank).values k g = vals k g rank := by
    intro k hk g hg rank hmem
    rw [run_splitValues (sortedGraphIds_eq hd.toRouted hg (hrank g hg rank hmem))
      (hrank g hg rank hmem) (hruns rank) k hk]
    rw [splitValues_eq_sequentialTurn drv transmit (fun rank => graph_inputs rank k) (vals k) hmem
      fun r _ _ => rfl]
    exact (congrFun (inTurn_eq hd.order_nodup (sequentialTurn_dependsOnEarlier hd.toRouted) _ g hg)
      rank).symm
  refine ⟨env, runs, ⟨hruns, fun r hr q hq i call hcall => ?_⟩⟩
  have hi : i < actualPipelineNum d.pipeline_num batch_size := by
    have hlen := congrArg List.length (run_received hd hr hq (hshape q))
    rw [filterMap_callOf, List.length_map, List.length_map, List.length_range] at hlen
    exact hlen ▸ (List.getElem?_eq_some_iff.mp hcall).1
  rw [recv_getElem (hshape q) hi hd hr hq (handsNothing_run (hruns q)), Option.some.injEq]
    at hcall
  subst hcall
  refine congrArg (transmit r · _ q) (List.map_congr_left fun p hp => ?_)
  rw [send_getElem (hshape p) hi hd hr (hdelay r hr) hp (hbefore p),
    hvalues i hi _ (hd.source_mem r hr) p ((hd.mem_sources r hr p).1 hp)]
  rfl

end Pipeline

/-- Every rank of a pipeline ends up with the values of a run without a pipeline, whatever its calls
return, as long as they pair up; and there are such runs. The delayed routes have to carry all
splits, cut alike. -/
theorem pipelined_eq_sequential (hd : d.RoutedOnce is_bwd) (hnodup : d.subgraphs.Nodup)
    (hdisjoint : ∀ g ∈ d.subgraphs, ∀ g' ∈ d.subgraphs, g ≠ g' →
      Disjoint (d.allocation g) (d.allocation g'))
    (hdelay : ∀ r ∈ d.routes is_bwd, getDelay (d.graph_order is_bwd) r = 0 ∨
      d.pipeline_num ≤ batch_size ∧ d.pipeline_num ∣ batch_size)
    (drv : ℕ → Driver V) (transmit : Transmit V) (graph_inputs : ℕ → ℕ → String → IValueMap V)
    (history : ℕ → ℕ → Option (String → IValueMap V)) :
    (∀ env runs, Pipelined d is_bwd drv transmit batch_size graph_inputs history env runs →
      ∀ k < actualPipelineNum d.pipeline_num batch_size, ∀ g ∈ d.graphs is_bwd,
        ∀ rank ∈ d.allocation g, (runs rank).values k g =
          sequentialValues d is_bwd drv transmit (startSplit d.pipeline_num batch_size k) k
            (fun rank => graph_inputs rank k) g rank) ∧
    ∃ env runs, Pipelined d is_bwd drv transmit batch_size graph_inputs history env runs := by
  refine ⟨fun env runs h k hk g hg rank hmem => ?_, ?_⟩
  · exact h.values_eq hd hnodup hdisjoint hdelay hk hg hmem
  · exact exists_pipelined hd hnodup hdisjoint hdelay drv transmit graph_inputs history

/-- Every subgraph passes the sum of its inputs on. -/
def addDriver : Driver ℕ where
  input_names g := if g = "a" then ["i"] else if g = "b" then ["y"] else ["z", "x"]
  func g graph_inputs _ :=
    let total := (graph_inputs.map Prod.snd).sum
    if g = "a" then [(⟨"y", []⟩, total), (⟨"x", []⟩, total)]
    else if g = "b" then [(⟨"z", []⟩, total + 1)]
    else [(⟨"o", []⟩, total)]
  skip _ _ := false
  combine := List.head?

/-- The destination gets what the first source has. -/
def handOn : Transmit ℕ := fun _ calls _ _ => (calls.head?.bind id).bind Call.value

/-- Split `k` starts with the number `k`. -/
def countInputs (_rank k : ℕ) (g : String) : IValueMap ℕ :=
  fun loc => if g = "a" ∧ loc = ⟨"i", []⟩ then some k else none

theorem pipelined_eq_sequential_skip :
    (∀ env runs, Pipelined (skipDeployment 3) false (fun _ => addDriver) handOn 6 countInputs
        (fun _ _ => none) env runs →
      ∀ k < actualPipelineNum 3 6, ∀ g ∈ ["a", "b", "c"],
        ∀ rank ∈ (skipDeployment 3).allocation g, (runs rank).values k g =
          sequentialValues (skipDeployment 3) false (fun _ => addDriver) handOn (startSplit 3 6 k) k
            (fun rank => countInputs rank k) g rank) ∧
    ∃ env runs, Pipelined (skipDeployment 3) false (fun _ => addDriver) handOn 6 countInputs
      (fun _ _ => none) env runs :=
  pipelined_eq_sequential (skipDeployment_routed 3) (by decide) (by decide)
    (fun _ _ => Or.inr ⟨by decide, by decide⟩) (fun _ => addDriver) handOn countInputs
    (fun _ _ => none)

/-- Two numbers of `a` reach `c`, one of them through `b`. -/
example : sequentialValues (skipDeployment 3) false (fun _ => addDriver) handOn (startSplit 3 6 2) 2
    (fun rank => countInputs rank 2) "c" 2 ⟨"o", []⟩ = some 5 := by
  decide

end Sequential

end Rannc
