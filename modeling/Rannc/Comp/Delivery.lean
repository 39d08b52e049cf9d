import Rannc.Comp.GraphLauncher

/-!
# Delivery along a route

Over a whole run the sources of a route are to transmit the value of every split once and in
order, and the destinations are to receive once before each of their splits; both ends of a
transmission are to cut the batch in the same way. What the sources hold back is flushed when the
split index reaches the length of the pipeline, so a batch with fewer samples than stages is never
flushed, and a value that is sent late is cut by the batch size of a later split.
-/
namespace Rannc

open Schedule Connector

variable {V : Type}

section Observations

variable (r : RouteDP)

/-- A call for a route: its split, and the batch size and split index it passes on. -/
def callOf (side : Side) : Event V → Option (ℕ × ℕ × ℤ)
  | .distribute call =>
    if call.side = side ∧ call.route = r then some (call.split, call.batch_size, call.dist_split)
    else none
  | .drive _ _ _ _ => none

/-- A value sent over a route, with its split. -/
def valueOf : Event V → Option (ℕ × Option V)
  | .distribute call =>
    if call.side = Side.send ∧ call.route = r then some (call.split, call.value) else none
  | .drive _ _ _ _ => none

/-- A turn of a subgraph: its split, and the batch size and split index `SComm` has meanwhile. -/
def turnOf (sg_name : String) : Event V → Option (ℕ × ℕ × ℤ)
  | .distribute _ => none
  | .drive scomm g split_index _ =>
    if g = sg_name then some (split_index, scomm.batch_size, scomm.split_index) else none

inductive Arrival
  | received (split : ℕ)
  | computed (split : ℕ)
  deriving DecidableEq, Repr

/-- What the destination of a route does: receive, and compute a split. -/
def arrivalOf : Event V → Option Arrival
  | .distribute call =>
    if call.side = Side.recv ∧ call.route = r then some (.received call.split) else none
  | .drive _ g split_index _ =>
    if g = r.dest_graph then some (.computed split_index) else none

variable {r}

theorem callOf_shape (side : Side) (e : Event V) :
    callOf r side (eventShape e) = callOf r side e := by
  cases e <;> rfl

theorem turnOf_shape (g : String) (e : Event V) : turnOf g (eventShape e) = turnOf g e := by
  cases e <;> rfl

theorem arrivalOf_shape (e : Event V) : arrivalOf r (eventShape e) = arrivalOf r e := by
  cases e <;> rfl

theorem filterMap_shape {β : Type} {obs : Event V → Option β} {obs' : Event Unit → Option β}
    (h : ∀ e, obs' (eventShape e) = obs e) (st : Connector V) :
    st.log.filterMap obs = st.shape.filterMap obs' := by
  rw [shape, List.filterMap_map]
  exact List.filterMap_congr fun e _ => (h e).symm

end Observations

section Turn

variable {d : Deployment} {is_bwd : Bool} {r r' : RouteDP} {g : String} {scomm : SComm} {k : ℕ}

theorem sendEvent_filterMap {β : Type} {obs : Event Unit → Option β} (batch_size offset : ℕ)
    (h : ∀ call : Call Unit, call.side = Side.send → call.route = r' →
      obs (Event.distribute call) = none) :
    (sendEvent d is_bwd batch_size k offset r').filterMap obs = [] := by
  unfold sendEvent
  dsimp only
  split_ifs
  · rw [List.filterMap_cons_none (h _ rfl rfl), List.filterMap_nil]
  · rfl

theorem flushEvent_filterMap {β : Type} {obs : Event Unit → Option β} (batch_size i : ℕ)
    (h : ∀ call : Call Unit, call.side = Side.send → call.route = r' →
      obs (Event.distribute call) = none) :
    (flushEvent d is_bwd batch_size k i r').filterMap obs = [] := by
  unfold flushEvent
  split_ifs
  · exact sendEvent_filterMap batch_size i h
  · rfl

/-- Where calls for sending are overlooked, a turn shows its receives and its computation. -/
theorem turnEvents_filterMap {β : Type} {obs : Event Unit → Option β}
    (h : ∀ call : Call Unit, call.side = Side.send → call.route.source_graph = g →
      obs (Event.distribute call) = none) :
    (turnEvents d is_bwd scomm k g).filterMap obs =
      ((sortRecvRoutes (d.graph_order is_bwd) (d.routes is_bwd) g).flatMap fun r' =>
        [recvEvent scomm k r'].filterMap obs) ++ [Event.drive scomm g k []].filterMap obs := by
  have hsend : ∀ r' ∈ sortSendRoutes (d.graph_order is_bwd) (d.routes is_bwd) g,
      ∀ call : Call Unit, call.side = Side.send → call.route = r' →
        obs (Event.distribute call) = none := by
    rintro r' hr' call hside rfl
    exact h call hside ((mem_sortSendRoutes _).1 hr').2
  have hsends : ((sortSendRoutes (d.graph_order is_bwd) (d.routes is_bwd) g).flatMap
      (sendEvent d is_bwd scomm.batch_size k 0)).filterMap obs = [] := by
    rw [List.filterMap_flatMap]
    exact List.flatMap_eq_nil_iff.mpr fun r' hr' => sendEvent_filterMap _ _ (hsend r' hr')
  have hflush :
      ((List.range' 1 (getMaxDelay (d.graph_order is_bwd) (d.routes is_bwd)).toNat).flatMap
      fun i => (sortSendRoutes (d.graph_order is_bwd) (d.routes is_bwd) g).flatMap
        (flushEvent d is_bwd scomm.batch_size k i)).filterMap obs = [] := by
    rw [List.filterMap_flatMap]
    refine List.flatMap_eq_nil_iff.mpr fun i _ => ?_
    rw [List.filterMap_flatMap]
    exact List.flatMap_eq_nil_iff.mpr fun r' hr' => flushEvent_filterMap _ _ (hsend r' hr')
  unfold turnEvents
  rw [List.filterMap_append, List.filterMap_flatMap, ← List.singleton_append,
    List.filterMap_append, List.filterMap_append, hsends, apply_ite (List.filterMap obs), hflush]
  simp

/-- The delay of a route that leads forward. -/
def delay (d : Deployment) (is_bwd : Bool) (r : RouteDP) : ℕ :=
  d.graph_order is_bwd r.dest_graph - d.graph_order is_bwd r.source_graph - 1

theorem getDelay_eq (hd : d.Routed is_bwd) (hr : r ∈ d.routes is_bwd) :
    getDelay (d.graph_order is_bwd) r = delay d is_bwd r := by
  have := hd.topological r hr
  rw [getDelay, delay]
  omega

theorem sendEvent_callOf_self (hd : d.Routed is_bwd) (hr : r ∈ d.routes is_bwd)
    (batch_size offset : ℕ) :
    (sendEvent d is_bwd batch_size k offset r).filterMap (callOf r Side.send) =
      lagging (fun s => (s, batch_size, (s : ℤ))) (delay d is_bwd r) (k + offset) := by
  unfold sendEvent lagging
  simp only [getDelay_eq hd hr]
  by_cases h : delay d is_bwd r ≤ k + offset
  · have hcast : (k + offset : ℤ) - delay d is_bwd r =
        ((k + offset - delay d is_bwd r : ℕ) : ℤ) := by
      omega
    rw [if_pos (by omega), if_pos h, hcast]
    simp [callOf]
  · rw [if_neg (by omega), if_neg h]
    rfl

theorem flushEvent_callOf_self (hd : d.Routed is_bwd) (hr : r ∈ d.routes is_bwd)
    (batch_size i : ℕ) :
    (flushEvent d is_bwd batch_size k i r).filterMap (callOf r Side.send) =
      if i ≤ delay d is_bwd r then
        lagging (fun s => (s, batch_size, (s : ℤ))) (delay d is_bwd r) (k + i)
      else [] := by
  unfold flushEvent
  rw [getDelay_eq hd hr]
  by_cases h : i ≤ delay d is_bwd r
  · rw [if_pos (by exact_mod_cast h), if_pos h, sendEvent_callOf_self hd hr]
  · rw [if_neg (by exact_mod_cast h), if_neg h]
    rfl

/-- What the turn of the source sends over a route: what is due, and at the end of the pipeline
what is left. -/
theorem turnEvents_sent (hd : d.RoutedOnce is_bwd) (hr : r ∈ d.routes is_bwd) :
    (turnEvents d is_bwd scomm k r.source_graph).filterMap (callOf r Side.send) =
      lagging (fun s => (s, scomm.batch_size, (s : ℤ))) (delay d is_bwd r) k ++
        if k + 1 = d.pipeline_num then
          (List.range' 1 (delay d is_bwd r)).flatMap fun i =>
            lagging (fun s => (s, scomm.batch_size, (s : ℤ))) (delay d is_bwd r) (k + i)
        else [] := by
  have hnodup : (sortSendRoutes (d.graph_order is_bwd) (d.routes is_bwd) r.source_graph).Nodup :=
    nodup_sortRoutes _ (hd.routes_nodup.filter _)
  have hmem : r ∈ sortSendRoutes (d.graph_order is_bwd) (d.routes is_bwd) r.source_graph :=
    (mem_sortSendRoutes _).2 ⟨hr, rfl⟩
  have hmax : delay d is_bwd r ≤ (getMaxDelay (d.graph_order is_bwd) (d.routes is_bwd)).toNat := by
    have := le_getMaxDelay (d.graph_order is_bwd) hr
    rw [getDelay_eq hd.toRouted hr] at this
    omega
  have hother : ∀ r', r' ≠ r → ∀ call : Call Unit, call.side = Side.send → call.route = r' →
      callOf r Side.send (Event.distribute call) = none := by
    rintro r' hne call - rfl
    simp [callOf, hne]
  have hrecv : ((sortRecvRoutes (d.graph_order is_bwd) (d.routes is_bwd) r.source_graph).flatMap
      fun r => [recvEvent scomm k r]).filterMap (callOf r Side.send) = [] := by
    rw [List.filterMap_flatMap]
    exact List.flatMap_eq_nil_iff.mpr fun r' _ => by simp [recvEvent, callOf]
  unfold turnEvents
  rw [List.filterMap_append, hrecv, List.nil_append, List.filterMap_cons_none rfl,
    List.filterMap_append, List.filterMap_flatMap,
    flatMap_eq_single hnodup hmem fun r' _ hne => sendEvent_filterMap _ _ (hother r' hne),
    sendEvent_callOf_self hd.toRouted hr, Nat.add_zero]
  congr 1
  split_ifs
  · rw [List.filterMap_flatMap, ← flatMap_flush (delay d is_bwd r) hmax]
    refine List.flatMap_congr fun i _ => ?_
    rw [List.filterMap_flatMap, flatMap_eq_single hnodup hmem fun r' _ hne =>
      flushEvent_filterMap _ _ (hother r' hne), flushEvent_callOf_self hd.toRouted hr]
  · rfl

theorem turnEvents_not_sent (h : g ≠ r.source_graph) :
    (turnEvents d is_bwd scomm k g).filterMap (callOf r Side.send) = [] := by
  rw [turnEvents_filterMap]
  · simp [recvEvent, callOf]
  · rintro call - rfl
    have hne : call.route ≠ r := fun he => h (he ▸ rfl)
    simp [callOf, hne]

theorem recvEvents_filterMap {β : Type} {obs : Event Unit → Option β} (hd : d.RoutedOnce is_bwd)
    (hr : r ∈ d.routes is_bwd) (g : String)
    (h : ∀ r', r' ≠ r → obs (recvEvent scomm k r') = none) :
    ((sortRecvRoutes (d.graph_order is_bwd) (d.routes is_bwd) g).flatMap fun r' =>
        [recvEvent scomm k r'].filterMap obs) =
      if g = r.dest_graph then [recvEvent scomm k r].filterMap obs else [] := by
  split_ifs with hg
  · subst hg
    have hnodup : (sortRecvRoutes (d.graph_order is_bwd) (d.routes is_bwd) r.dest_graph).Nodup :=
      nodup_sortRoutes _ (hd.routes_nodup.filter _)
    refine flatMap_eq_single hnodup ((mem_sortRecvRoutes _).2 ⟨hr, rfl⟩) fun r' _ hne => ?_
    rw [List.filterMap_cons_none (h r' hne), List.filterMap_nil]
  · refine List.flatMap_eq_nil_iff.mpr fun r' hr' => ?_
    have hne : r' ≠ r := by
      rintro rfl
      exact hg ((mem_sortRecvRoutes _).1 hr').2.symm
    rw [List.filterMap_cons_none (h r' hne), List.filterMap_nil]

theorem turnEvents_arrival (hd : d.RoutedOnce is_bwd) (hr : r ∈ d.routes is_bwd) (g : String) :
    (turnEvents d is_bwd scomm k g).filterMap (arrivalOf r) =
      if g = r.dest_graph then [.received k, .computed k] else [] := by
  rw [turnEvents_filterMap fun call hside _ => by simp [arrivalOf, hside],
    recvEvents_filterMap hd hr g fun r' hne => by simp [recvEvent, arrivalOf, hne]]
  by_cases hg : g = r.dest_graph <;> simp [recvEvent, arrivalOf, hg]

theorem turnEvents_received (hd : d.RoutedOnce is_bwd) (hr : r ∈ d.routes is_bwd) (g : String) :
    (turnEvents d is_bwd scomm k g).filterMap (callOf r Side.recv) =
      if g = r.dest_graph then [(k, scomm.batch_size, scomm.split_index)] else [] := by
  rw [turnEvents_filterMap fun call hside _ => by simp [callOf, hside],
    recvEvents_filterMap hd hr g fun r' hne => by simp [recvEvent, callOf, hne]]
  by_cases hg : g = r.dest_graph <;> simp [recvEvent, callOf, hg]

theorem turnEvents_turn (g g' : String) :
    (turnEvents d is_bwd scomm k g).filterMap (turnOf g') =
      if g = g' then [(k, scomm.batch_size, scomm.split_index)] else [] := by
  rw [turnEvents_filterMap fun call _ _ => rfl]
  by_cases hg : g = g' <;> simp [recvEvent, turnOf, hg]

end Turn

section Run

open GraphLauncher

variable {d : Deployment} {is_bwd : Bool} {r : RouteDP} {rank batch_size : ℕ}

theorem mem_sortedGraphIds (hd : d.Routed is_bwd) {g : String} (hg : g ∈ d.graphs is_bwd)
    (hrank : rank ∈ d.allocation g) : g ∈ sortedGraphIds d is_bwd rank := by
  simp [sortedGraphIds, Deployment.graphsOnRank, hg, hrank, hd.order_subset g hg]

theorem run_filterMap {β : Type} {obs : Event Unit → Option β} (hd : d.Routed is_bwd) {g : String}
    (hg : g ∈ d.graphs is_bwd) (hrank : rank ∈ d.allocation g) {st : Connector V}
    (hst : st.shape = (List.range (actualPipelineNum d.pipeline_num batch_size)).flatMap
      (splitEvents d is_bwd rank batch_size))
    (hother : ∀ g' ∈ sortedGraphIds d is_bwd rank, g' ≠ g → ∀ scomm k,
      (turnEvents d is_bwd scomm k g').filterMap obs = []) :
    st.shape.filterMap obs =
      (List.range (actualPipelineNum d.pipeline_num batch_size)).flatMap fun k =>
        (turnEvents d is_bwd (startSplit d.pipeline_num batch_size k) k g).filterMap obs := by
  rw [hst, List.filterMap_flatMap]
  refine List.flatMap_congr fun k _ => ?_
  rw [splitEvents, List.filterMap_flatMap]
  exact flatMap_eq_single (hd.order_nodup.filter _) (mem_sortedGraphIds hd hg hrank)
    fun g' hg' hne => hother g' hg' hne _ k

/-- The batch size `SComm` has when the values of split `k` are sent with a delay. -/
def sentBatchSize (pipeline_num batch_size delay k : ℕ) : ℕ :=
  let n := actualPipelineNum pipeline_num batch_size
  (startSplit pipeline_num batch_size (min (k + delay) (n - 1))).batch_size

/-- A call for sending split `s`. -/
def sentCall (pipeline_num batch_size delay s : ℕ) : ℕ × ℕ × ℤ :=
  (s, sentBatchSize pipeline_num batch_size delay s, s)

theorem lagging_sentCall {P B delay n : ℕ} (hn : actualPipelineNum P B = n + 1) (i : ℕ) :
    lagging (fun s => (s, (startSplit P B n).batch_size, (s : ℤ))) delay (n + i) =
      lagging (sentCall P B delay) delay (n + i) := by
  unfold lagging sentCall sentBatchSize
  split_ifs with h
  · have hmin : min (n + i - delay + delay) (actualPipelineNum P B - 1) = n := by omega
    simp only [hmin]
  · rfl

theorem lagging_sentCall_of_lt {P B delay k : ℕ} (hk : k < actualPipelineNum P B) :
    lagging (fun s => (s, (startSplit P B k).batch_size, (s : ℤ))) delay k =
      lagging (sentCall P B delay) delay k := by
  unfold lagging sentCall sentBatchSize
  split_ifs with h
  · have hmin : min (k - delay + delay) (actualPipelineNum P B - 1) = k := by omega
    simp only [hmin]
  · rfl

/-- The calls by which a rank sends a route over a run: all splits when the run is as long as the
pipeline, and otherwise all but the last, by the delay of the route. -/
theorem run_sent (hd : d.RoutedOnce is_bwd) (hr : r ∈ d.routes is_bwd) (hrank : rank ∈ r.sources)
    {st : Connector V}
    (hst : st.shape = (List.range (actualPipelineNum d.pipeline_num batch_size)).flatMap
      (splitEvents d is_bwd rank batch_size)) :
    st.log.filterMap (callOf r Side.send) =
      (List.range (if d.pipeline_num ≤ batch_size then d.pipeline_num
        else batch_size - delay d is_bwd r)).map
          (sentCall d.pipeline_num batch_size (delay d is_bwd r)) := by
  rw [filterMap_shape (callOf_shape Side.send), run_filterMap hd.toRouted (hd.source_mem r hr)
    ((hd.mem_sources r hr rank).1 hrank) hst fun g' _ hne scomm k => turnEvents_not_sent hne]
  simp only [turnEvents_sent hd hr]
  split_ifs with hle
  · cases hP : d.pipeline_num with
    | zero => simp [actualPipelineNum]
    | succ m =>
      rw [hP] at hle
      have hn : actualPipelineNum (m + 1) batch_size = m + 1 := by
        rw [actualPipelineNum_eq, min_eq_left hle]
      have hflush : ((List.range' 1 (delay d is_bwd r)).flatMap fun i =>
          lagging (fun s => (s, (startSplit (m + 1) batch_size m).batch_size, (s : ℤ)))
            (delay d is_bwd r) (m + i)) =
          (List.range' (m + 1) (delay d is_bwd r)).flatMap
            (lagging (sentCall (m + 1) batch_size (delay d is_bwd r)) (delay d is_bwd r)) := by
        rw [← List.map_add_range' (a := m), List.flatMap_map]
        exact List.flatMap_congr fun i _ => lagging_sentCall hn i
      rw [← flatMap_lagging_flush _ (delay d is_bwd r), hn, List.range_succ, List.flatMap_append,
        List.flatMap_append, List.flatMap_singleton, List.flatMap_singleton, if_pos rfl, hflush,
        lagging_sentCall_of_lt (by omega), ← List.append_assoc]
      congr 2
      refine List.flatMap_congr fun k hk => ?_
      have hlt : k < m := List.mem_range.mp hk
      rw [if_neg (by omega), List.append_nil, lagging_sentCall_of_lt (by omega)]
  · have hn : actualPipelineNum d.pipeline_num batch_size = batch_size := by
      rw [actualPipelineNum_eq, min_eq_right (by omega)]
    rw [hn, ← flatMap_lagging]
    refine List.flatMap_congr fun k hk => ?_
    have hlt : k < batch_size := List.mem_range.mp hk
    rw [if_neg (by omega), List.append_nil, lagging_sentCall_of_lt (by omega)]

theorem run_arrivals (hd : d.RoutedOnce is_bwd) (hr : r ∈ d.routes is_bwd) (hrank : rank ∈ r.dests)
    {st : Connector V}
    (hst : st.shape = (List.range (actualPipelineNum d.pipeline_num batch_size)).flatMap
      (splitEvents d is_bwd rank batch_size)) :
    st.log.filterMap (arrivalOf r) =
      (List.range (actualPipelineNum d.pipeline_num batch_size)).flatMap fun k =>
        [.received k, .computed k] := by
  rw [filterMap_shape arrivalOf_shape, run_filterMap hd.toRouted (hd.dest_mem r hr)
    ((hd.mem_dests r hr rank).1 hrank) hst fun g' _ hne scomm k => by
      rw [turnEvents_arrival hd hr, if_neg hne]]
  simp only [turnEvents_arrival hd hr, if_true]

theorem run_received (hd : d.RoutedOnce is_bwd) (hr : r ∈ d.routes is_bwd) (hrank : rank ∈ r.dests)
    {st : Connector V}
    (hst : st.shape = (List.range (actualPipelineNum d.pipeline_num batch_size)).flatMap
      (splitEvents d is_bwd rank batch_size)) :
    st.log.filterMap (callOf r Side.recv) =
      (List.range (actualPipelineNum d.pipeline_num batch_size)).map fun k =>
        (k, (startSplit d.pipeline_num batch_size k).batch_size, (k : ℤ)) := by
  rw [filterMap_shape (callOf_shape Side.recv), run_filterMap hd.toRouted (hd.dest_mem r hr)
    ((hd.mem_dests r hr rank).1 hrank) hst fun g' _ hne scomm k => by
      rw [turnEvents_received hd hr, if_neg hne]]
  simp only [turnEvents_received hd hr, if_true, List.map_eq_flatMap]
  rfl

theorem run_turns (hd : d.Routed is_bwd) {g : String} (hg : g ∈ d.graphs is_bwd)
    (hrank : rank ∈ d.allocation g) {st : Connector V}
    (hst : st.shape = (List.range (actualPipelineNum d.pipeline_num batch_size)).flatMap
      (splitEvents d is_bwd rank batch_size)) :
    st.log.filterMap (turnOf g) =
      (List.range (actualPipelineNum d.pipeline_num batch_size)).map fun k =>
        (k, (startSplit d.pipeline_num batch_size k).batch_size, (k : ℤ)) := by
  rw [filterMap_shape (turnOf_shape g), run_filterMap hd hg hrank hst fun g' _ hne scomm k => by
    rw [turnEvents_turn, if_neg hne]]
  simp only [turnEvents_turn, if_true, List.map_eq_flatMap]
  rfl

theorem run_values {n : ℕ} {st : Connector V} (hst : Before n st) :
    st.log.filterMap (valueOf r) =
      (st.log.filterMap (callOf r Side.send)).map fun call =>
        (call.1, st.values call.1 r.source_graph r.location) := by
  rw [List.map_filterMap]
  refine List.filterMap_congr fun e he => ?_
  cases e with
  | drive _ _ _ _ => rfl
  | distribute call =>
    unfold valueOf callOf
    dsimp only
    split_ifs with hcall
    · obtain ⟨hside, rfl⟩ := hcall
      rw [(hst.sent call he hside).1]
      rfl
    · rfl

end Run

section Claims

open GraphLauncher

/-- The sources of a route transmit the values of the splits once each and in order, and the
destinations receive once before each of their splits. -/
def DeliversExactlyOnce (n : ℕ) (r : RouteDP) (runs : ℕ → Connector V) : Prop :=
  (∀ p ∈ r.sources, (runs p).log.filterMap (valueOf r) =
    (List.range n).map fun k => (k, (runs p).values k r.source_graph r.location)) ∧
  ∀ q ∈ r.dests, (runs q).log.filterMap (arrivalOf r) =
    (List.range n).flatMap fun k => [.received k, .computed k]

variable {d : Deployment} {is_bwd : Bool} {r : RouteDP}

/-- Every split of a route is delivered exactly once when the batch has at least as many samples
as the pipeline has stages, or the route is never delayed; and only then, because the flush waits
for the split that would be the last of a full pipeline. -/
theorem deliversExactlyOnce_iff (hd : d.RoutedOnce is_bwd) (hr : r ∈ d.routes is_bwd)
    (hsources : r.sources ≠ []) {batch_size : ℕ} (hB : 1 ≤ batch_size)
    (drv : ℕ → Driver V) (env : ℕ → Call V → Option V)
    (graph_inputs : ℕ → ℕ → String → IValueMap V)
    (history : ℕ → ℕ → Option (String → IValueMap V)) :
    ∃ runs : ℕ → Connector V,
      (∀ rank, GraphLauncher.compute d is_bwd rank (drv rank) (env rank) batch_size
        (graph_inputs rank) (history rank) = some (runs rank)) ∧
      (DeliversExactlyOnce (actualPipelineNum d.pipeline_num batch_size) r runs ↔
        d.pipeline_num ≤ batch_size ∨ getDelay (d.graph_order is_bwd) r = 0) := by
  choose runs hruns hbefore hshape using fun rank => exists_compute rank hd.toRouted (drv rank)
    (env rank) batch_size (graph_inputs rank) (history rank)
  refine ⟨runs, hruns, ?_⟩
  have hvalues : ∀ p ∈ r.sources, (runs p).log.filterMap (valueOf r) =
      (List.range (if d.pipeline_num ≤ batch_size then d.pipeline_num
        else batch_size - delay d is_bwd r)).map fun k =>
          (k, (runs p).values k r.source_graph r.location) := by
    intro p hp
    rw [run_values (hbefore p), run_sent hd hr hp (hshape p), List.map_map]
    rfl
  rw [getDelay_eq hd.toRouted hr, Nat.cast_eq_zero]
  constructor
  · rintro ⟨hsent, -⟩
    obtain ⟨p, hp⟩ := List.exists_mem_of_ne_nil _ hsources
    have hlen := congrArg List.length ((hvalues p hp).symm.trans (hsent p hp))
    simp only [List.length_map, List.length_range, actualPipelineNum_eq] at hlen
    split_ifs at hlen with hle
    · exact Or.inl hle
    · exact Or.inr (by omega)
  · intro h
    refine ⟨fun p hp => ?_, fun q hq => run_arrivals hd hr hq (hshape q)⟩
    rw [hvalues p hp, actualPipelineNum_eq]
    congr 2
    split_ifs <;> omega

/-- Three subgraphs in a row on one rank each, with a connection from the first to the last. -/
def skipRoute : RouteDP := ⟨⟨"x", []⟩, [0], "a", [2], "c"⟩

def skipDeployment (pipeline_num : ℕ) : Deployment where
  subgraphs := ["a", "b", "c"]
  allocation sg_name := if sg_name = "a" then {0} else if sg_name = "b" then {1} else {2}
  fwd_routes := [⟨⟨"y", []⟩, [0], "a", [1], "b"⟩, ⟨⟨"z", []⟩, [1], "b", [2], "c"⟩, skipRoute]
  fwd_graph_order := ["a", "b", "c"]
  bwd_routes := []
  bwd_graph_order := ["a", "b", "c"]
  pipeline_num := pipeline_num

theorem skipDeployment_routed (pipeline_num : ℕ) :
    (skipDeployment pipeline_num).RoutedOnce false := by
  have h : (skipDeployment 0).RoutedOnce false := by
    refine ⟨⟨by decide, by decide, by decide, by decide, by decide, ?_, ?_, by decide⟩, by decide⟩
    all_goals simp [skipDeployment, Deployment.routes, skipRoute]
  exact ⟨⟨h.order_nodup, h.order_subset, h.source_mem, h.dest_mem, h.topological, h.mem_sources,
    h.mem_dests, h.fwd_unique⟩, h.routes_nodup⟩

theorem deliversExactlyOnce_iff_skip : ∃ runs : ℕ → Connector ℕ,
    (∀ rank, GraphLauncher.compute (skipDeployment 3) false rank
      ⟨fun _ => [], fun _ _ _ => [], fun _ _ => false, List.head?⟩ (fun _ => none) 6
      (fun _ _ _ => none) (fun _ => none) = some (runs rank)) ∧
    (DeliversExactlyOnce (actualPipelineNum 3 6) skipRoute runs ↔
      3 ≤ 6 ∨ getDelay ((skipDeployment 3).graph_order false) skipRoute = 0) :=
  deliversExactlyOnce_iff (skipDeployment_routed 3) (by decide) (by decide) (by decide)
    (fun _ => ⟨fun _ => [], fun _ _ _ => [], fun _ _ => false, List.head?⟩) (fun _ _ => none)
    (fun _ _ _ _ => none) (fun _ _ => none)

/-- Three samples in a pipeline of length four: the value of the last split is never sent. -/
theorem not_deliversExactlyOnce : ¬ ∀ (d : Deployment) (is_bwd : Bool) (r : RouteDP)
    (batch_size : ℕ) (drv : ℕ → Driver ℕ) (env : ℕ → Call ℕ → Option ℕ)
    (graph_inputs : ℕ → ℕ → String → IValueMap ℕ) (runs : ℕ → Connector ℕ),
    d.RoutedOnce is_bwd → 1 ≤ d.pipeline_num → 1 ≤ batch_size → r ∈ d.routes is_bwd →
    (∀ rank, GraphLauncher.compute d is_bwd rank (drv rank) (env rank) batch_size
      (graph_inputs rank) (fun _ => none) = some (runs rank)) →
    DeliversExactlyOnce (actualPipelineNum d.pipeline_num batch_size) r runs := by
  intro h
  choose runs hruns hbefore hshape using fun rank => exists_compute rank
    (skipDeployment_routed 4).toRouted
    ⟨fun _ => [], fun _ _ _ => [], fun _ _ => false, List.head?⟩
    (fun _ : Call ℕ => none) 3 (fun _ _ _ => none) (fun _ => none)
  have hsent := (h (skipDeployment 4) false skipRoute 3 _ _ _ runs (skipDeployment_routed 4)
    (by decide) (by decide) (by decide) hruns).1 0 (by decide)
  have hlen := congrArg List.length hsent
  rw [run_values (hbefore 0), run_sent (skipDeployment_routed 4) (by decide) (by decide)
    (hshape 0)] at hlen
  revert hlen
  simp only [List.length_map, List.length_range]
  decide

/-- Both ends of a route cut the batch by the same batch size and split index, and so did the
source when it computed the split. -/
def SameParams (r : RouteDP) (runs : ℕ → Connector V) : Prop :=
  ∀ p ∈ r.sources, ∀ k params, (k, params) ∈ (runs p).log.filterMap (callOf r Side.send) →
    (∀ q ∈ r.dests, ∀ params', (k, params') ∈ (runs q).log.filterMap (callOf r Side.recv) →
      params = params') ∧
    ∀ params', (k, params') ∈ (runs p).log.filterMap (turnOf r.source_graph) → params = params'

/-- The batch size of a later split is that of the split whose values are sent, for all of them
that are sent, exactly when the route has no delay or all splits have the same size. -/
theorem sentBatchSize_eq_iff {P B delay : ℕ} (hP : 1 ≤ P) :
    (∀ k < (if P ≤ B then P else B - delay),
        sentBatchSize P B delay k = (startSplit P B k).batch_size) ↔
      delay = 0 ∨ actualPipelineNum P B ∣ B := by
  have hn := actualPipelineNum_eq P B
  have hsize : ∀ i < actualPipelineNum P B, (startSplit P B i).batch_size =
      B / actualPipelineNum P B + if i < B % actualPipelineNum P B then 1 else 0 :=
    fun i hi => splitBatchSizes_getD P B hi
  constructor
  · intro h
    by_contra hcon
    rw [not_or] at hcon
    have hPB : P ≤ B := by
      by_contra hlt
      refine hcon.2 ?_
      rw [hn, min_eq_right (by omega)]
    rw [min_eq_left hPB] at hn
    rw [hn] at hcon hsize
    have hpos : 0 < B % P := Nat.pos_of_ne_zero fun h0 => hcon.2 (Nat.dvd_of_mod_eq_zero h0)
    have hlt : B % P < P := Nat.mod_lt _ hP
    have hk := h (B % P - 1) (by rw [if_pos hPB]; omega)
    rw [sentBatchSize, hn, hsize _ (by omega), hsize _ (by omega), if_neg (by omega),
      if_pos (by omega)] at hk
    omega
  · intro h k hk
    have hk' : k < actualPipelineNum P B := by
      rw [hn]
      split_ifs at hk <;> omega
    rw [sentBatchSize, hsize _ (by omega), hsize _ hk']
    rcases h with rfl | hdvd
    · rw [Nat.add_zero, min_eq_left (by omega)]
    · rw [Nat.mod_eq_zero_of_dvd hdvd, if_neg (Nat.not_lt_zero _), if_neg (Nat.not_lt_zero _)]

/-- Both ends of a route use the same parameters exactly when the route is not delayed or the
splits all have the same size. -/
theorem sameParams_iff (hd : d.RoutedOnce is_bwd) (hr : r ∈ d.routes is_bwd)
    (hsources : r.sources ≠ []) (hP : 1 ≤ d.pipeline_num) (batch_size : ℕ)
    (drv : ℕ → Driver V) (env : ℕ → Call V → Option V)
    (graph_inputs : ℕ → ℕ → String → IValueMap V)
    (history : ℕ → ℕ → Option (String → IValueMap V)) :
    ∃ runs : ℕ → Connector V,
      (∀ rank, GraphLauncher.compute d is_bwd rank (drv rank) (env rank) batch_size
        (graph_inputs rank) (history rank) = some (runs rank)) ∧
      (SameParams r runs ↔ getDelay (d.graph_order is_bwd) r = 0 ∨
        actualPipelineNum d.pipeline_num batch_size ∣ batch_size) := by
  choose runs hruns hbefore hshape using fun rank => exists_compute rank hd.toRouted (drv rank)
    (env rank) batch_size (graph_inputs rank) (history rank)
  refine ⟨runs, hruns, ?_⟩
  rw [getDelay_eq hd.toRouted hr, Nat.cast_eq_zero, ← sentBatchSize_eq_iff hP]
  have hlt : ∀ k < (if d.pipeline_num ≤ batch_size then d.pipeline_num
      else batch_size - delay d is_bwd r), k < actualPipelineNum d.pipeline_num batch_size := by
    intro k hk
    rw [actualPipelineNum_eq]
    split_ifs at hk <;> omega
  constructor
  · intro h k hk
    obtain ⟨p, hp⟩ := List.exists_mem_of_ne_nil _ hsources
    have hsent : sentCall d.pipeline_num batch_size (delay d is_bwd r) k ∈
        (runs p).log.filterMap (callOf r Side.send) := by
      rw [run_sent hd hr hp (hshape p)]
      exact List.mem_map_of_mem (List.mem_range.mpr hk)
    have hturn : (k, (startSplit d.pipeline_num batch_size k).batch_size, (k : ℤ)) ∈
        (runs p).log.filterMap (turnOf r.source_graph) := by
      rw [run_turns hd.toRouted (hd.source_mem r hr) ((hd.mem_sources r hr p).1 hp) (hshape p)]
      exact List.mem_map.mpr ⟨k, List.mem_range.mpr (hlt k hk), rfl⟩
    exact congrArg Prod.fst ((h p hp k _ hsent).2 _ hturn)
  · intro h p hp k params hsent
    rw [run_sent hd hr hp (hshape p)] at hsent
    obtain ⟨s, hs, hcall⟩ := List.mem_map.mp hsent
    obtain ⟨rfl, rfl⟩ := Prod.mk.inj hcall
    rw [h s (List.mem_range.mp hs)]
    refine ⟨fun q hq params' hrecv => ?_, fun params' hturn => ?_⟩
    · rw [run_received hd hr hq (hshape q)] at hrecv
      obtain ⟨_, -, hrecv⟩ := List.mem_map.mp hrecv
      obtain ⟨rfl, rfl⟩ := Prod.mk.inj hrecv
      rfl
    · rw [run_turns hd.toRouted (hd.source_mem r hr) ((hd.mem_sources r hr p).1 hp) (hshape p)]
        at hturn
      obtain ⟨_, -, hturn⟩ := List.mem_map.mp hturn
      obtain ⟨rfl, rfl⟩ := Prod.mk.inj hturn
      rfl

theorem sameParams_iff_skip : ∃ runs : ℕ → Connector ℕ,
    (∀ rank, GraphLauncher.compute (skipDeployment 3) false rank
      ⟨fun _ => [], fun _ _ _ => [], fun _ _ => false, List.head?⟩ (fun _ => none) 6
      (fun _ _ _ => none) (fun _ => none) = some (runs rank)) ∧
    (SameParams skipRoute runs ↔
      getDelay ((skipDeployment 3).graph_order false) skipRoute = 0 ∨ actualPipelineNum 3 6 ∣ 6) :=
  sameParams_iff (skipDeployment_routed 3) (by decide) (by decide) (by decide) 6
    (fun _ => ⟨fun _ => [], fun _ _ _ => [], fun _ _ => false, List.head?⟩) (fun _ _ => none)
    (fun _ _ _ _ => none) (fun _ _ => none)

/-- Three samples in two splits: the value of the first split, computed for two samples, is sent
while `SComm` has the one sample of the second. -/
theorem not_sameParams : ¬ ∀ (d : Deployment) (is_bwd : Bool) (r : RouteDP) (batch_size : ℕ)
    (drv : ℕ → Driver ℕ) (env : ℕ → Call ℕ → Option ℕ)
    (graph_inputs : ℕ → ℕ → String → IValueMap ℕ) (runs : ℕ → Connector ℕ),
    d.RoutedOnce is_bwd → 1 ≤ d.pipeline_num → 1 ≤ batch_size → r ∈ d.routes is_bwd →
    (∀ rank, GraphLauncher.compute d is_bwd rank (drv rank) (env rank) batch_size
      (graph_inputs rank) (fun _ => none) = some (runs rank)) →
    SameParams r runs := by
  intro h
  choose runs hruns hbefore hshape using fun rank => exists_compute rank
    (skipDeployment_routed 2).toRouted
    ⟨fun _ => [], fun _ _ _ => [], fun _ _ => false, List.head?⟩
    (fun _ : Call ℕ => none) 3 (fun _ _ _ => none) (fun _ => none)
  have hsame := h (skipDeployment 2) false skipRoute 3 _ _ _ runs (skipDeployment_routed 2)
    (by decide) (by decide) (by decide) hruns
  have hsent : (0, 1, (0 : ℤ)) ∈ (runs 0).log.filterMap (callOf skipRoute Side.send) := by
    rw [run_sent (skipDeployment_routed 2) (by decide) (by decide) (hshape 0)]
    decide
  have hturn : (0, 2, (0 : ℤ)) ∈ (runs 0).log.filterMap (turnOf skipRoute.source_graph) := by
    rw [run_turns (skipDeployment_routed 2).toRouted (by decide) (by decide) (hshape 0)]
    decide
  exact absurd ((hsame 0 (by decide) 0 _ hsent).2 _ hturn) (by decide)

end Claims

end Rannc
