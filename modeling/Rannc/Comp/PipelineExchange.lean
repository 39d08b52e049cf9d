import Rannc.Comp.Delivery
import Rannc.Lib.Rendezvous

/-!
# The pipelined exchange

Every transmission over a route is a meeting of all its ranks. When the subgraphs sit on disjoint
sets of ranks and the routes lead forward in the order of the subgraphs, all ranks follow one plan:
what split `k` of a route delivers is exchanged in slot `k + order` of its destination, and within
a slot the later sources come first. Hence the ranks never wait for each other in a circle.
-/
namespace Rannc

open Schedule Connector GraphLauncher

variable {V : Type}

/-- The transmission an event takes part in, on either side. -/
def exchangeOf : Event V → Option (RouteDP × ℕ)
  | .distribute call => some (call.route, call.split)
  | .drive _ _ _ _ => none

/-- The ranks that meet for a route. -/
def routeRanks (r : RouteDP) : Finset ℕ := (r.sources ++ r.dests).toFinset

theorem exchangeOf_shape (e : Event V) : exchangeOf (eventShape e) = exchangeOf e := by
  cases e <;> rfl

section Plan

variable (d : Deployment) (is_bwd : Bool)

/-- What a slot exchanges over a route: the split whose turn at the destination falls on it. -/
def slotEvents (r : RouteDP) (slot : ℕ) : List (RouteDP × ℕ) :=
  let order := d.graph_order is_bwd r.dest_graph
  if order ≤ slot ∧ slot < order + d.pipeline_num then [(r, slot - order)] else []

/-- Within a slot the later sources come first, then the earlier destinations. -/
def slotKey (r : RouteDP) : ℤ ×ₗ ℕ ×ₗ String :=
  toLex (-(d.graph_order is_bwd r.source_graph : ℤ),
    toLex (d.graph_order is_bwd r.dest_graph, r.location.value_name))

def slotRoutes : List RouteDP :=
  (d.routes is_bwd).insertionSort fun r1 r2 => slotKey d is_bwd r1 ≤ slotKey d is_bwd r2

def slots : ℕ :=
  (d.graphs is_bwd).length + (d.pipeline_num +
    ((getMaxDelay (d.graph_order is_bwd) (d.routes is_bwd)).toNat + 1))

def plan : List (RouteDP × ℕ) :=
  (List.range (slots d is_bwd)).flatMap fun slot =>
    (slotRoutes d is_bwd).flatMap fun r => slotEvents d is_bwd r slot

variable {d is_bwd} {g : String} {rank : ℕ}

instance : IsTrans RouteDP fun r1 r2 => slotKey d is_bwd r1 ≤ slotKey d is_bwd r2 :=
  ⟨fun _ _ _ => le_trans⟩

instance : Std.Total fun r1 r2 : RouteDP => slotKey d is_bwd r1 ≤ slotKey d is_bwd r2 :=
  ⟨fun _ _ => le_total _ _⟩

theorem filter_slotRoutes_source :
    (slotRoutes d is_bwd).filter (fun r => r.source_graph = g) =
      sortSendRoutes (d.graph_order is_bwd) (d.routes is_bwd) g := by
  rw [slotRoutes, filter_insertionSort, sortSendRoutes, sortRoutes]
  refine insertionSort_congr _ fun a ha b hb => ?_
  have ha' : a.source_graph = g := by simpa using (List.mem_filter.mp ha).2
  have hb' : b.source_graph = g := by simpa using (List.mem_filter.mp hb).2
  have hlt : getDelay (d.graph_order is_bwd) a < getDelay (d.graph_order is_bwd) b ↔
      d.graph_order is_bwd a.dest_graph < d.graph_order is_bwd b.dest_graph := by
    rw [getDelay, getDelay, ha', hb']
    omega
  have heq : getDelay (d.graph_order is_bwd) a = getDelay (d.graph_order is_bwd) b ↔
      d.graph_order is_bwd a.dest_graph = d.graph_order is_bwd b.dest_graph := by
    rw [getDelay, getDelay, ha', hb']
    omega
  rw [not_routeLess_iff]
  simp only [routeKey, slotKey, Prod.Lex.toLex_le_toLex, hlt, heq, ha', hb', lt_irrefl, false_or,
    true_and]

theorem filter_slotRoutes_dest :
    (slotRoutes d is_bwd).filter (fun r => r.dest_graph = g) =
      sortRecvRoutes (d.graph_order is_bwd) (d.routes is_bwd) g := by
  rw [slotRoutes, filter_insertionSort, sortRecvRoutes, sortRoutes]
  refine insertionSort_congr _ fun a ha b hb => ?_
  have ha' : a.dest_graph = g := by simpa using (List.mem_filter.mp ha).2
  have hb' : b.dest_graph = g := by simpa using (List.mem_filter.mp hb).2
  have hlt : getDelay (d.graph_order is_bwd) a < getDelay (d.graph_order is_bwd) b ↔
      -(d.graph_order is_bwd a.source_graph : ℤ) < -(d.graph_order is_bwd b.source_graph : ℤ) := by
    rw [getDelay, getDelay, ha', hb']
    omega
  have heq : getDelay (d.graph_order is_bwd) a = getDelay (d.graph_order is_bwd) b ↔
      -(d.graph_order is_bwd a.source_graph : ℤ) = -(d.graph_order is_bwd b.source_graph : ℤ) := by
    rw [getDelay, getDelay, ha', hb']
    omega
  rw [not_routeLess_iff]
  simp only [routeKey, slotKey, Prod.Lex.toLex_le_toLex, hlt, heq, ha', hb', lt_irrefl, false_or,
    true_and]

/-- A rank of one subgraph only: the routes it takes part in are those of its subgraph, and in
every slot it sends before it receives. -/
theorem filter_slotRoutes_rank (hd : d.Routed is_bwd)
    (hrank : ∀ g' ∈ d.graphs is_bwd, rank ∈ d.allocation g' ↔ g' = g) :
    (slotRoutes d is_bwd).filter (fun r => rank ∈ routeRanks r) =
      sortSendRoutes (d.graph_order is_bwd) (d.routes is_bwd) g ++
        sortRecvRoutes (d.graph_order is_bwd) (d.routes is_bwd) g := by
  have hroute : ∀ r ∈ slotRoutes d is_bwd, r ∈ d.routes is_bwd :=
    fun r hr => (List.mem_insertionSort _).1 hr
  have hranks : ∀ r ∈ slotRoutes d is_bwd,
      rank ∈ routeRanks r ↔ r.source_graph = g ∨ r.dest_graph = g := by
    intro r hr
    have hr' := hroute r hr
    rw [routeRanks, List.mem_toFinset, List.mem_append, hd.mem_sources r hr' rank,
      hd.mem_dests r hr' rank, hrank _ (hd.source_mem r hr'), hrank _ (hd.dest_mem r hr')]
  have hsorted : (slotRoutes d is_bwd).Pairwise fun a b =>
      slotKey d is_bwd a ≤ slotKey d is_bwd b :=
    List.pairwise_insertionSort _ _
  have hsource : (slotRoutes d is_bwd).filter (fun r => r.source_graph = g) =
      ((slotRoutes d is_bwd).filter fun r => rank ∈ routeRanks r).filter
        (fun r => r.source_graph = g) := by
    rw [List.filter_filter]
    refine List.filter_congr fun r hr => ?_
    by_cases hg : r.source_graph = g <;> simp [hranks r hr, hg]
  have hdest : (slotRoutes d is_bwd).filter (fun r => r.dest_graph = g) =
      ((slotRoutes d is_bwd).filter fun r => rank ∈ routeRanks r).filter
        (fun r => r.dest_graph = g) := by
    rw [List.filter_filter]
    refine List.filter_congr fun r hr => ?_
    by_cases hg : r.dest_graph = g <;> simp [hranks r hr, hg]
  rw [← filter_slotRoutes_source, ← filter_slotRoutes_dest, hsource, hdest]
  refine eq_filter_append_filter (fun r hr => ?_) ?_
  · obtain ⟨hr, hmem⟩ := List.mem_filter.mp hr
    have hlt := hd.topological r (hroute r hr)
    have hor := (hranks r hr).1 (by simpa using hmem)
    by_cases hg : r.source_graph = g
    · have hne : r.dest_graph ≠ g := by
        rintro he
        rw [hg, he] at hlt
        exact lt_irrefl _ hlt
      simp [hg, hne]
    · simp [hg, hor.resolve_left hg]
  · refine (hsorted.filter _).imp_of_mem fun {a b} ha hb hle hag => ?_
    obtain ⟨ha, -⟩ := List.mem_filter.mp ha
    obtain ⟨hb, hmem⟩ := List.mem_filter.mp hb
    have hag : a.dest_graph = g := by simpa using hag
    have hlt := hd.topological a (hroute a ha)
    have hsrc : d.graph_order is_bwd b.source_graph ≤ d.graph_order is_bwd a.source_graph := by
      rcases (Prod.Lex.toLex_le_toLex.mp hle) with h | ⟨h, -⟩
      · dsimp only at h
        omega
      · dsimp only at h
        omega
    have hne : b.source_graph ≠ g := by
      intro he
      rw [hag] at hlt
      rw [he] at hsrc
      omega
    simpa using ((hranks b hb).1 (by simpa using hmem)).resolve_left hne

/-- What a subgraph sends in a slot, counted from its first. -/
def sendSlot (d : Deployment) (is_bwd : Bool) (g : String) (j : ℕ) : List (RouteDP × ℕ) :=
  (sortSendRoutes (d.graph_order is_bwd) (d.routes is_bwd) g).flatMap fun r =>
    slotEvents d is_bwd r (d.graph_order is_bwd g + j)

def recvSlot (d : Deployment) (is_bwd : Bool) (g : String) (j : ℕ) : List (RouteDP × ℕ) :=
  (sortRecvRoutes (d.graph_order is_bwd) (d.routes is_bwd) g).flatMap fun r =>
    slotEvents d is_bwd r (d.graph_order is_bwd g + j)

theorem sendSlot_zero (hd : d.Routed is_bwd) : sendSlot d is_bwd g 0 = [] := by
  refine List.flatMap_eq_nil_iff.mpr fun r hr => ?_
  obtain ⟨hroute, rfl⟩ := (mem_sortSendRoutes _).1 hr
  have := hd.topological r hroute
  rw [slotEvents]
  exact if_neg (by omega)

theorem recvSlot_eq_nil {j : ℕ} (hj : d.pipeline_num ≤ j) : recvSlot d is_bwd g j = [] := by
  refine List.flatMap_eq_nil_iff.mpr fun r hr => ?_
  obtain ⟨-, rfl⟩ := (mem_sortRecvRoutes _).1 hr
  rw [slotEvents]
  exact if_neg (by omega)

theorem sendSlot_eq_nil {j : ℕ} (hj : d.pipeline_num +
      ((getMaxDelay (d.graph_order is_bwd) (d.routes is_bwd)).toNat + 1) ≤ j) :
    sendSlot d is_bwd g j = [] := by
  refine List.flatMap_eq_nil_iff.mpr fun r hr => ?_
  obtain ⟨hroute, rfl⟩ := (mem_sortSendRoutes _).1 hr
  have hle := le_getMaxDelay (d.graph_order is_bwd) hroute
  rw [getDelay] at hle
  rw [slotEvents]
  exact if_neg (by omega)

theorem recvEvents_exchange {scomm : SComm} {k : ℕ} (hk : k < d.pipeline_num) :
    ((sortRecvRoutes (d.graph_order is_bwd) (d.routes is_bwd) g).flatMap fun r =>
      [recvEvent scomm k r]).filterMap exchangeOf = recvSlot d is_bwd g k := by
  rw [List.filterMap_flatMap, recvSlot]
  refine List.flatMap_congr fun r hr => ?_
  obtain ⟨-, rfl⟩ := (mem_sortRecvRoutes _).1 hr
  rw [slotEvents, if_pos (by omega), Nat.add_sub_cancel_left]
  rfl

theorem sendEvent_exchange (hd : d.Routed is_bwd) {r : RouteDP} (hr : r ∈ d.routes is_bwd)
    {batch_size k offset : ℕ} (hk : k < d.pipeline_num)
    (hoffset : offset ≤ getDelay (d.graph_order is_bwd) r) :
    (sendEvent d is_bwd batch_size k offset r).filterMap exchangeOf =
      slotEvents d is_bwd r (d.graph_order is_bwd r.source_graph + (k + offset + 1)) := by
  have hlt := hd.topological r hr
  rw [getDelay] at hoffset
  unfold sendEvent slotEvents
  dsimp only
  rw [getDelay]
  by_cases h : d.graph_order is_bwd r.dest_graph ≤
      d.graph_order is_bwd r.source_graph + (k + offset + 1)
  · have hsplit : (k + offset - ((d.graph_order is_bwd r.dest_graph : ℤ) -
        d.graph_order is_bwd r.source_graph - 1)).toNat =
        d.graph_order is_bwd r.source_graph + (k + offset + 1) -
          d.graph_order is_bwd r.dest_graph := by
      omega
    rw [if_pos (by omega), if_pos (by omega), hsplit]
    rfl
  · rw [if_neg (by omega), if_neg (by omega)]
    rfl

theorem flushEvent_exchange (hd : d.Routed is_bwd) {r : RouteDP} (hr : r ∈ d.routes is_bwd)
    {batch_size k : ℕ} (hk : k + 1 = d.pipeline_num) (i : ℕ) :
    (flushEvent d is_bwd batch_size k i r).filterMap exchangeOf =
      slotEvents d is_bwd r (d.graph_order is_bwd r.source_graph + (k + i + 1)) := by
  unfold flushEvent
  split_ifs with hi
  · exact sendEvent_exchange hd hr (by omega) hi
  · rw [getDelay] at hi
    rw [slotEvents]
    exact (if_neg (by omega)).symm

theorem turnEvents_exchange (hd : d.Routed is_bwd) (scomm : SComm) {k : ℕ}
    (hk : k < d.pipeline_num) :
    (turnEvents d is_bwd scomm k g).filterMap exchangeOf =
      recvSlot d is_bwd g k ++ (sendSlot d is_bwd g (k + 1) ++
        if k + 1 = d.pipeline_num then
          (List.range' 1 (getMaxDelay (d.graph_order is_bwd) (d.routes is_bwd)).toNat).flatMap
            fun i => sendSlot d is_bwd g (k + i + 1)
        else []) := by
  have hsend : ((sortSendRoutes (d.graph_order is_bwd) (d.routes is_bwd) g).flatMap
      (sendEvent d is_bwd scomm.batch_size k 0)).filterMap exchangeOf =
        sendSlot d is_bwd g (k + 1) := by
    rw [List.filterMap_flatMap, sendSlot]
    refine List.flatMap_congr fun r hr => ?_
    obtain ⟨hroute, rfl⟩ := (mem_sortSendRoutes _).1 hr
    have hlt := hd.topological r hroute
    exact sendEvent_exchange hd hroute hk (by rw [getDelay]; omega)
  unfold turnEvents
  rw [List.filterMap_append, recvEvents_exchange hk, List.filterMap_cons_none rfl,
    List.filterMap_append, hsend]
  congr 2
  split_ifs with hlast
  · rw [List.filterMap_flatMap]
    refine List.flatMap_congr fun i _ => ?_
    rw [List.filterMap_flatMap, sendSlot]
    refine List.flatMap_congr fun r hr => ?_
    obtain ⟨hroute, rfl⟩ := (mem_sortSendRoutes _).1 hr
    exact flushEvent_exchange hd hroute hlast i
  · rfl

/-- A rank of one subgraph works through the slots one after another. -/
theorem run_exchange (hd : d.Routed is_bwd) (hids : sortedGraphIds d is_bwd rank = [g])
    {batch_size : ℕ} (hB : d.pipeline_num ≤ batch_size) {st : Connector V}
    (hst : st.shape = (List.range (actualPipelineNum d.pipeline_num batch_size)).flatMap
      (splitEvents d is_bwd rank batch_size)) :
    st.log.filterMap exchangeOf =
      (List.range (d.pipeline_num +
        ((getMaxDelay (d.graph_order is_bwd) (d.routes is_bwd)).toNat + 1))).flatMap fun j =>
          sendSlot d is_bwd g j ++ recvSlot d is_bwd g j := by
  set M := (getMaxDelay (d.graph_order is_bwd) (d.routes is_bwd)).toNat with hM
  have hturns : st.log.filterMap exchangeOf =
      (List.range d.pipeline_num).flatMap fun k =>
        recvSlot d is_bwd g k ++ (sendSlot d is_bwd g (k + 1) ++
          if k + 1 = d.pipeline_num then
            (List.range' 1 M).flatMap fun i => sendSlot d is_bwd g (k + i + 1)
          else []) := by
    rw [filterMap_shape exchangeOf_shape, hst, actualPipelineNum_eq, min_eq_left hB,
      List.filterMap_flatMap]
    refine List.flatMap_congr fun k hk => ?_
    rw [splitEvents, hids, List.flatMap_singleton]
    exact turnEvents_exchange hd _ (List.mem_range.mp hk)
  -- the last turn ends with the flush
  have hflush : (List.range d.pipeline_num).flatMap (fun k =>
        recvSlot d is_bwd g k ++ (sendSlot d is_bwd g (k + 1) ++
          if k + 1 = d.pipeline_num then
            (List.range' 1 M).flatMap fun i => sendSlot d is_bwd g (k + i + 1)
          else [])) =
      ((List.range d.pipeline_num).flatMap fun k =>
        recvSlot d is_bwd g k ++ sendSlot d is_bwd g (k + 1)) ++
      (List.range' (d.pipeline_num + 1) M).flatMap fun j => sendSlot d is_bwd g j := by
    cases hP : d.pipeline_num with
    | zero =>
      have hnil : ∀ j, sendSlot d is_bwd g j = [] := by
        intro j
        refine List.flatMap_eq_nil_iff.mpr fun r _ => ?_
        rw [slotEvents]
        exact if_neg (by omega)
      simp [hnil]
    | succ m =>
      rw [List.range_succ, List.flatMap_append, List.flatMap_append, List.flatMap_singleton,
        List.flatMap_singleton, if_pos rfl, ← List.append_assoc, ← List.append_assoc,
        ← List.append_assoc]
      congr 1
      · congr 2
        refine List.flatMap_congr fun k hk => ?_
        have := List.mem_range.mp hk
        rw [if_neg (by omega), List.append_nil]
      · rw [← List.map_add_range' (a := m + 1), List.flatMap_map]
        refine List.flatMap_congr fun i _ => ?_
        congr 1
        omega
  have htail : (List.range' d.pipeline_num (M + 1)).flatMap (fun j =>
      sendSlot d is_bwd g j ++ recvSlot d is_bwd g j) =
      sendSlot d is_bwd g d.pipeline_num ++
        (List.range' (d.pipeline_num + 1) M).flatMap fun j => sendSlot d is_bwd g j := by
    rw [List.range'_succ, List.flatMap_cons, recvSlot_eq_nil le_rfl, List.append_nil]
    congr 1
    refine List.flatMap_congr fun j hj => ?_
    have := (List.mem_range'_1.mp hj).1
    rw [recvSlot_eq_nil (by omega), List.append_nil]
  have hslots : List.range (d.pipeline_num + (M + 1)) =
      List.range d.pipeline_num ++ List.range' d.pipeline_num (M + 1) := by
    rw [List.range_eq_range', List.range_eq_range', ← List.range'_append_1, Nat.zero_add]
  rw [hturns, hflush, hslots, List.flatMap_append, htail, flatMap_phases _ _ (sendSlot_zero hd),
    List.append_assoc]

/-- What concerns a rank of the plan: nothing before its subgraph's order, then the slots. -/
theorem filter_plan (hd : d.Routed is_bwd) (hg : g ∈ d.graphs is_bwd)
    (hrank : ∀ g' ∈ d.graphs is_bwd, rank ∈ d.allocation g' ↔ g' = g) :
    (plan d is_bwd).filter (fun e => rank ∈ routeRanks e.1) =
      (List.range (d.pipeline_num +
        ((getMaxDelay (d.graph_order is_bwd) (d.routes is_bwd)).toNat + 1))).flatMap fun j =>
          sendSlot d is_bwd g j ++ recvSlot d is_bwd g j := by
  have hlabel : ∀ slot, ∀ r, ∀ e ∈ slotEvents d is_bwd r slot, e.1 = r := by
    intro slot r e he
    unfold slotEvents at he
    dsimp only at he
    split_ifs at he
    · rw [List.mem_singleton.mp he]
    · exact absurd he List.not_mem_nil
  have hslot : ∀ slot, ((slotRoutes d is_bwd).flatMap fun r =>
        slotEvents d is_bwd r slot).filter (fun e => rank ∈ routeRanks e.1) =
      (sortSendRoutes (d.graph_order is_bwd) (d.routes is_bwd) g ++
        sortRecvRoutes (d.graph_order is_bwd) (d.routes is_bwd) g).flatMap fun r =>
          slotEvents d is_bwd r slot := by
    intro slot
    rw [← filter_slotRoutes_rank hd hrank]
    exact filter_flatMap_of_label (hlabel slot) (fun r => decide (rank ∈ routeRanks r)) _
  have hearly : ∀ slot < d.graph_order is_bwd g,
      ((sortSendRoutes (d.graph_order is_bwd) (d.routes is_bwd) g ++
        sortRecvRoutes (d.graph_order is_bwd) (d.routes is_bwd) g).flatMap fun r =>
          slotEvents d is_bwd r slot) = [] := by
    intro slot hslot
    refine List.flatMap_eq_nil_iff.mpr fun r hr => ?_
    have hle : d.graph_order is_bwd g ≤ d.graph_order is_bwd r.dest_graph := by
      rcases List.mem_append.mp hr with hr | hr
      · obtain ⟨hroute, rfl⟩ := (mem_sortSendRoutes _).1 hr
        exact (hd.topological r hroute).le
      · rw [((mem_sortRecvRoutes _).1 hr).2]
    rw [slotEvents]
    exact if_neg (by omega)
  have horder : d.graph_order is_bwd g < (d.graphs is_bwd).length := List.idxOf_lt_length_iff.mpr hg
  obtain ⟨extra, hextra⟩ := Nat.exists_eq_add_of_lt horder
  have hslots : slots d is_bwd = d.graph_order is_bwd g + (d.pipeline_num +
      ((getMaxDelay (d.graph_order is_bwd) (d.routes is_bwd)).toNat + 1) + (extra + 1)) := by
    rw [slots, hextra]
    omega
  have hlate : ((List.range (extra + 1)).map fun x => d.pipeline_num +
      ((getMaxDelay (d.graph_order is_bwd) (d.routes is_bwd)).toNat + 1) + x).flatMap
        (fun j => sendSlot d is_bwd g j ++ recvSlot d is_bwd g j) = [] := by
    refine List.flatMap_eq_nil_iff.mpr fun j hj => ?_
    obtain ⟨x, -, rfl⟩ := List.mem_map.mp hj
    rw [sendSlot_eq_nil (by omega), recvSlot_eq_nil (by omega), List.append_nil]
  have hown : (fun j => (sortSendRoutes (d.graph_order is_bwd) (d.routes is_bwd) g ++
        sortRecvRoutes (d.graph_order is_bwd) (d.routes is_bwd) g).flatMap fun r =>
          slotEvents d is_bwd r (d.graph_order is_bwd g + j)) =
      fun j => sendSlot d is_bwd g j ++ recvSlot d is_bwd g j :=
    funext fun j => List.flatMap_append
  rw [plan, List.filter_flatMap, List.flatMap_congr fun slot _ => hslot slot, hslots,
    List.range_add, List.flatMap_append, List.flatMap_eq_nil_iff.mpr fun slot hs =>
      hearly slot (List.mem_range.mp hs), List.nil_append, List.flatMap_map, hown, List.range_add,
    List.flatMap_append, hlate, List.append_nil]

theorem mem_routes_of_mem_plan {e : RouteDP × ℕ} (he : e ∈ plan d is_bwd) :
    e.1 ∈ d.routes is_bwd := by
  obtain ⟨slot, -, he⟩ := List.mem_flatMap.mp he
  obtain ⟨r, hr, he⟩ := List.mem_flatMap.mp he
  unfold slotEvents at he
  dsimp only at he
  split_ifs at he
  · rw [List.mem_singleton.mp he]
    exact (List.mem_insertionSort _).1 hr
  · exact absurd he List.not_mem_nil

/-- Every rank follows the plan, whether it has a subgraph or not. -/
theorem run_eq_filter_plan (hd : d.Routed is_bwd)
    (hdisjoint : ∀ g ∈ d.subgraphs, ∀ g' ∈ d.subgraphs, g ≠ g' →
      Disjoint (d.allocation g) (d.allocation g'))
    {batch_size : ℕ} (hB : d.pipeline_num ≤ batch_size) {st : Connector V}
    (hst : st.shape = (List.range (actualPipelineNum d.pipeline_num batch_size)).flatMap
      (splitEvents d is_bwd rank batch_size)) :
    st.log.filterMap exchangeOf = (plan d is_bwd).filter fun e => rank ∈ routeRanks e.1 := by
  by_cases hhost : ∃ g ∈ d.graphs is_bwd, rank ∈ d.allocation g
  · obtain ⟨g, hg, hrank⟩ := hhost
    have honly : ∀ g' ∈ d.graphs is_bwd, rank ∈ d.allocation g' ↔ g' = g := by
      intro g' hg'
      refine ⟨fun hrank' => ?_, fun he => he ▸ hrank⟩
      by_contra hne
      exact Finset.disjoint_left.mp
        (hdisjoint g' (hd.order_subset g' hg') g (hd.order_subset g hg) hne) hrank' hrank
    have hids : sortedGraphIds d is_bwd rank = [g] := by
      have hmem : ∀ g', g' ∈ sortedGraphIds d is_bwd rank ↔ g' = g := by
        intro g'
        constructor
        · intro h
          simp only [sortedGraphIds, Deployment.graphsOnRank, List.mem_filter,
            decide_eq_true_eq] at h
          exact (honly g' h.1).1 h.2.2
        · rintro rfl
          exact mem_sortedGraphIds hd hg hrank
      have hperm := (List.perm_ext_iff_of_nodup (hd.order_nodup.filter _)
        (List.nodup_singleton g)).2 fun g' => (hmem g').trans List.mem_singleton.symm
      exact List.perm_singleton.mp hperm
    rw [run_exchange hd hids hB hst, filter_plan hd hg honly]
  · have hids : sortedGraphIds d is_bwd rank = [] := by
      refine List.filter_eq_nil_iff.mpr fun g hg hmem => hhost ⟨g, hg, ?_⟩
      simpa [Deployment.graphsOnRank, hd.order_subset g hg] using hmem
    have hnone : (plan d is_bwd).filter (fun e => rank ∈ routeRanks e.1) = [] := by
      refine List.filter_eq_nil_iff.mpr fun e he hmem => hhost ?_
      have hroute := mem_routes_of_mem_plan he
      simp only [routeRanks, List.mem_toFinset, List.mem_append, decide_eq_true_eq] at hmem
      rcases hmem with hmem | hmem
      · exact ⟨_, hd.source_mem _ hroute, (hd.mem_sources _ hroute rank).1 hmem⟩
      · exact ⟨_, hd.dest_mem _ hroute, (hd.mem_dests _ hroute rank).1 hmem⟩
    rw [hnone, filterMap_shape exchangeOf_shape, hst]
    simp [splitEvents, hids]

/-- The pipelined exchange does not deadlock, forward or backward: after any meetings either every
rank has done all of its exchanges, or the ranks of some route wait for each other with the same
split of it. -/
theorem no_deadlock (hd : d.Routed is_bwd)
    (hdisjoint : ∀ g ∈ d.subgraphs, ∀ g' ∈ d.subgraphs, g ≠ g' →
      Disjoint (d.allocation g) (d.allocation g'))
    (hnonempty : ∀ g ∈ d.subgraphs, (d.allocation g).Nonempty)
    {batch_size : ℕ} (hB : d.pipeline_num ≤ batch_size)
    (drv : ℕ → Driver V) (env : ℕ → Call V → Option V)
    (graph_inputs : ℕ → ℕ → String → IValueMap V)
    (history : ℕ → ℕ → Option (String → IValueMap V)) :
    ∃ runs : ℕ → Connector V,
      (∀ rank, GraphLauncher.compute d is_bwd rank (drv rank) (env rank) batch_size
        (graph_inputs rank) (history rank) = some (runs rank)) ∧
      ∀ todo : ℕ → List (RouteDP × ℕ),
        Relation.ReflTransGen (Rendezvous.Step Prod.fst routeRanks)
          (fun rank => (runs rank).log.filterMap exchangeOf) todo →
        (∀ rank, todo rank = []) ∨
          ∃ e, (routeRanks e.1).Nonempty ∧ ∀ rank ∈ routeRanks e.1, (todo rank).head? = some e := by
  choose runs hruns hbefore hshape using fun rank => exists_compute rank hd (drv rank)
    (env rank) batch_size (graph_inputs rank) (history rank)
  refine ⟨runs, hruns, fun todo hreach => ?_⟩
  have hfollows : Rendezvous.Follows Prod.fst routeRanks (plan d is_bwd)
      fun rank => (runs rank).log.filterMap exchangeOf :=
    fun rank => run_eq_filter_plan hd hdisjoint hB (hshape rank)
  refine hfollows.exists_meeting (fun e he => ?_) hreach
  have hroute := mem_routes_of_mem_plan he
  obtain ⟨rank, hrank⟩ := hnonempty _ (hd.order_subset _ (hd.source_mem _ hroute))
  refine ⟨rank, ?_⟩
  simpa [routeRanks] using Or.inl ((hd.mem_sources _ hroute rank).2 hrank)

theorem no_deadlock_skip : ∃ runs : ℕ → Connector ℕ,
    (∀ rank, GraphLauncher.compute (skipDeployment 3) false rank
      ⟨fun _ => [], fun _ _ _ => [], fun _ _ => false, List.head?⟩ (fun _ => none) 6
      (fun _ _ _ => none) (fun _ => none) = some (runs rank)) ∧
    ∀ todo : ℕ → List (RouteDP × ℕ),
      Relation.ReflTransGen (Rendezvous.Step Prod.fst routeRanks)
        (fun rank => (runs rank).log.filterMap exchangeOf) todo →
      (∀ rank, todo rank = []) ∨
        ∃ e, (routeRanks e.1).Nonempty ∧ ∀ rank ∈ routeRanks e.1, (todo rank).head? = some e :=
  no_deadlock (skipDeployment_routed 3).toRouted (by decide) (by decide) (by decide)
    (fun _ => ⟨fun _ => [], fun _ _ _ => [], fun _ _ => false, List.head?⟩) (fun _ _ => none)
    (fun _ _ _ _ => none) (fun _ _ => none)

end Plan

end Rannc
