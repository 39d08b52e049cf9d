import Rannc.Graph.Closed
import Rannc.Graph.CreateDeployment

/-!
# Routes of the inputs and outputs of the model

The master sends an input of the model to the subgraphs of its ranks, and a subgraph on another
rank that reads it gets it from one of those. An output that no other rank reads goes to the master
once from each of its ranks. A copy of an output that was received is sent to the master as well.
-/
namespace Rannc

open Rannc.Digraph

/-- The ends of a connection or a route, with its value. -/
structure Link where
  value : String
  src : String
  dest : String
  deriving DecidableEq, Repr

def GraphConnection.link (con : GraphConnection) : Link := ⟨con.value, con.src, con.dest⟩

def RouteDP.link (r : RouteDP) : Link := ⟨r.location.value_name, r.source_graph, r.dest_graph⟩

/-- An input of the model that is not a parameter. -/
def VertexInfo.isModelInput (vi : VertexInfo) : Bool :=
  vi.type = .VALUE && vi.is_orig_input && !vi.is_param

def VertexInfo.isModelOutput (vi : VertexInfo) : Bool := vi.type = .VALUE && vi.is_orig_output

/-- Operators and values have different names. -/
def BGraph.NamesApart (g : BGraph) : Prop :=
  ∀ v w, (g.info v).type = .NODE → w < g.vertices.length → (g.info w).type = .VALUE →
    (g.info v).name ≠ (g.info w).name

/-- The links from the master, between subgraphs and to the master carry the inputs and outputs of
the model. -/
structure ModelRouted (g : BGraph) (ins inner outs : List Link) : Prop where
  input : ∀ u < g.vertices.length, (g.info u).isModelInput = true → ∀ r ∈ g.ranks u,
    ins.countP (fun l => l.value = (g.info u).name ∧ l.dest = createSubgraphId g.id r) = 1 ∧
      inner.countP (fun l => l.value = (g.info u).name ∧ l.dest = createSubgraphId g.id r) = 0
  forwarded : ∀ u v r, (g.info u).isModelInput = true → Crossing g u v r →
    ins.countP (fun l => l.value = (g.info u).name ∧ l.dest = createSubgraphId g.id r) = 0 ∧
      inner.countP (fun l => l.value = (g.info u).name ∧ l.dest = createSubgraphId g.id r) = 1 ∧
      ∃ r' ∈ g.ranks u,
        ⟨(g.info u).name, createSubgraphId g.id r', createSubgraphId g.id r⟩ ∈ inner
  no_other : ∀ l ∈ ins, ∃ u < g.vertices.length, (g.info u).isModelInput = true ∧
    l.value = (g.info u).name ∧ ∃ r ∈ g.ranks u, l.dest = createSubgraphId g.id r
  output : ∀ u < g.vertices.length, (g.info u).isModelOutput = true →
    (∀ v r, ¬ Crossing g u v r) → ∀ sg_id,
      outs.countP (fun l => l.value = (g.info u).name ∧ l.src = sg_id) =
        if ∃ r ∈ g.ranks u, sg_id = createSubgraphId g.id r then 1 else 0

theorem createSubgraphId_ne_master (orig_name : String) (i : ℕ) :
    createSubgraphId orig_name i ≠ MASTER_NAME := by
  intro h
  have hmem : '_' ∈ (createSubgraphId orig_name i).toList := by
    simp [createSubgraphId]
  rw [h] at hmem
  exact absurd hmem (by decide)

def fromMaster (connections : List GraphConnection) : List GraphConnection :=
  connections.filter GraphConnection.isGraphInput

def toMaster (connections : List GraphConnection) : List GraphConnection :=
  connections.filter fun con => !con.isGraphInput && con.isGraphOutput

def betweenGraphs (connections : List GraphConnection) : List GraphConnection :=
  connections.filter fun con => !con.isGraphInput && !con.isGraphOutput

/-- The connections after some vertices of subgraphs. -/
structure MasterOk (start : List GraphConnection) (done : List (String × VertexInfo))
    (connections : List GraphConnection) : Prop where
  between : betweenGraphs connections = start
  outs : toMaster connections = (done.filter fun q => q.2.isModelOutput).map fun q =>
    ⟨q.2.name, q.1, MASTER_NAME, q.2.id, "NA"⟩
  ins : ∀ name sg_id, (fromMaster connections).countP (fun c => c.value = name ∧ c.dest = sg_id) =
    if (∃ q ∈ done, q.2.isModelInput = true ∧ q.2.name = name ∧ q.1 = sg_id) ∧
      hasSameValueConnection start name sg_id = false then 1 else 0

section Master

variable {start connections : List GraphConnection} {done : List (String × VertexInfo)}

theorem hasSameValueConnection_iff {name sg_id : String} :
    hasSameValueConnection connections name sg_id = true ↔
      ∃ c ∈ connections, c.value = name ∧ c.dest = sg_id := by
  simp [hasSameValueConnection]

/-- A value comes to a subgraph from a subgraph or from the master. -/
theorem MasterOk.hasSame_iff (h : MasterOk start done connections) (name : String)
    {sg_id : String} (hid : sg_id ≠ MASTER_NAME) :
    hasSameValueConnection connections name sg_id = true ↔
      hasSameValueConnection start name sg_id = true ∨
      ∃ q ∈ done, q.2.isModelInput = true ∧ q.2.name = name ∧ q.1 = sg_id := by
  have hsplit : hasSameValueConnection connections name sg_id = true ↔
      hasSameValueConnection start name sg_id = true ∨
        0 < (fromMaster connections).countP fun c => c.value = name ∧ c.dest = sg_id := by
    rw [hasSameValueConnection_iff, hasSameValueConnection_iff, ← h.between, List.countP_pos_iff]
    constructor
    · rintro ⟨c, hc, hvalue, hdest⟩
      by_cases hin : c.isGraphInput = true
      · exact Or.inr ⟨c, List.mem_filter.mpr ⟨hc, hin⟩, by simp [hvalue, hdest]⟩
      · refine Or.inl ⟨c, List.mem_filter.mpr ⟨hc, ?_⟩, hvalue, hdest⟩
        simp [hin, GraphConnection.isGraphOutput, hdest, hid]
    · rintro (⟨c, hc, hsame⟩ | ⟨c, hc, hsame⟩)
      · exact ⟨c, List.mem_of_mem_filter hc, hsame⟩
      · exact ⟨c, List.mem_of_mem_filter hc, of_decide_eq_true hsame⟩
  rw [hsplit, h.ins]
  cases hstart : hasSameValueConnection start name sg_id with
  | true => simp
  | false =>
    by_cases hq : ∃ q ∈ done, q.2.isModelInput = true ∧ q.2.name = name ∧ q.1 = sg_id
    · rw [if_pos ⟨hq, rfl⟩]
      exact iff_of_true (Or.inr one_pos) (Or.inr hq)
    · rw [if_neg fun hc => hq hc.1]
      exact or_congr_right (iff_of_false (lt_irrefl 0) hq)

theorem addMasterConnection_eq (sg_id : String) (connections : List GraphConnection)
    (vi : VertexInfo) : addMasterConnection sg_id connections vi =
      (connections ++ if vi.isModelInput && !hasSameValueConnection connections vi.name sg_id then
        [⟨vi.name, MASTER_NAME, sg_id, "NA", vi.id⟩] else []) ++
      if vi.isModelOutput then [⟨vi.name, sg_id, MASTER_NAME, vi.id, "NA"⟩] else [] := by
  unfold addMasterConnection VertexInfo.isModelInput VertexInfo.isModelOutput
  by_cases htype : vi.type = .VALUE
  · simp only [htype, ne_eq, not_true_eq_false, if_false, decide_true, Bool.true_and]
    split_ifs <;> simp
  · simp [htype]

theorem filter_addMasterConnection {sg_id : String} (hid : sg_id ≠ MASTER_NAME)
    (connections : List GraphConnection) (vi : VertexInfo) :
    betweenGraphs (addMasterConnection sg_id connections vi) = betweenGraphs connections ∧
      toMaster (addMasterConnection sg_id connections vi) = toMaster connections ++
        (if vi.isModelOutput then [⟨vi.name, sg_id, MASTER_NAME, vi.id, "NA"⟩] else []) ∧
      fromMaster (addMasterConnection sg_id connections vi) = fromMaster connections ++
        if vi.isModelInput && !hasSameValueConnection connections vi.name sg_id then
          [⟨vi.name, MASTER_NAME, sg_id, "NA", vi.id⟩] else [] := by
  rw [addMasterConnection_eq]
  have hin : GraphConnection.isGraphInput ⟨vi.name, MASTER_NAME, sg_id, "NA", vi.id⟩ = true := rfl
  have hnotin : GraphConnection.isGraphInput ⟨vi.name, sg_id, MASTER_NAME, vi.id, "NA"⟩ = false :=
    decide_eq_false hid
  have hout : GraphConnection.isGraphOutput ⟨vi.name, sg_id, MASTER_NAME, vi.id, "NA"⟩ = true := rfl
  simp only [betweenGraphs, toMaster, fromMaster, List.filter_append]
  refine ⟨?_, ?_, ?_⟩
  · split_ifs <;> simp [hin, hnotin, hout]
  · split_ifs <;> simp [hin, hnotin, hout]
  · split_ifs <;> simp [hin, hnotin]

theorem MasterOk.step (h : MasterOk start done connections) {q : String × VertexInfo}
    (hid : q.1 ≠ MASTER_NAME) :
    MasterOk start (done ++ [q]) (addMasterConnection q.1 connections q.2) := by
  obtain ⟨sg_id, vi⟩ := q
  obtain ⟨hbetween, houts, hins⟩ := filter_addMasterConnection hid connections vi
  refine ⟨hbetween.trans h.between, ?_, fun name id => ?_⟩
  · rw [houts, h.outs, List.filter_append, List.map_append]
    by_cases ho : vi.isModelOutput = true <;> simp [ho]
  · have hexists : (∃ q ∈ done ++ [(sg_id, vi)], q.2.isModelInput = true ∧ q.2.name = name ∧
        q.1 = id) ↔ (∃ q ∈ done, q.2.isModelInput = true ∧ q.2.name = name ∧ q.1 = id) ∨
        vi.isModelInput = true ∧ vi.name = name ∧ sg_id = id := by
      simp only [List.mem_append, List.mem_singleton, or_and_right, exists_or, exists_eq_left]
    rw [hins, List.countP_append, h.ins, if_congr (and_congr_left' hexists) rfl rfl]
    by_cases hm : vi.isModelInput = true ∧ vi.name = name ∧ sg_id = id
    · obtain ⟨hmi, rfl, rfl⟩ := hm
      have hsame := h.hasSame_iff vi.name hid
      by_cases hdone : ∃ q ∈ done, q.2.isModelInput = true ∧ q.2.name = vi.name ∧ q.1 = sg_id
      · rw [hsame.mpr (Or.inr hdone), if_congr (and_congr_left' (iff_of_true hdone
          (Or.inl hdone : _ ∨ vi.isModelInput = true ∧ vi.name = vi.name ∧ sg_id = sg_id))) rfl rfl]
        simp
      · rw [if_neg fun hc => hdone hc.1]
        cases hstart : hasSameValueConnection start vi.name sg_id with
        | true =>
          rw [hsame.mpr (Or.inl hstart)]
          simp
        | false =>
          have hnone : hasSameValueConnection connections vi.name sg_id = false := by
            rw [← Bool.not_eq_true, hsame, hstart]
            exact fun hc => hc.elim nofun hdone
          rw [hnone, if_pos (c := _ ∧ _) ⟨Or.inr ⟨hmi, rfl, rfl⟩, rfl⟩]
          simp [hmi]
    · have hnew : (if vi.isModelInput && !hasSameValueConnection connections vi.name sg_id then
          [(⟨vi.name, MASTER_NAME, sg_id, "NA", vi.id⟩ : GraphConnection)] else []).countP
          (fun c => c.value = name ∧ c.dest = id) = 0 := by
        refine List.countP_eq_zero.mpr fun c hc hsame => hm ?_
        split_ifs at hc with hif
        · obtain rfl := List.mem_singleton.mp hc
          exact ⟨((Bool.and_eq_true _ _).mp hif).1, of_decide_eq_true hsame⟩
        · exact absurd hc List.not_mem_nil
      rw [hnew, Nat.add_zero]
      exact if_congr (and_congr_left' (or_iff_left hm).symm) rfl rfl

/-- The vertices of the subgraphs, with the ids of these. -/
def masterVertices (graphs : List (String × BGraph)) : List (String × VertexInfo) :=
  graphs.flatMap fun it => it.2.vertices.map (it.1, ·)

theorem masterConnections_ok {graphs : List (String × BGraph)}
    (hstart : ∀ c ∈ start, c.isGraphInput = false ∧ c.isGraphOutput = false)
    (hids : ∀ it ∈ graphs, it.1 ≠ MASTER_NAME) :
    MasterOk start (masterVertices graphs) (graphs.foldl (fun connections it =>
      it.2.vertices.foldl (addMasterConnection it.1) connections) start) := by
  have hrun : ∀ (qs : List (String × VertexInfo)) (done : List (String × VertexInfo))
      (connections : List GraphConnection), MasterOk start done connections →
      (∀ q ∈ qs, q.1 ≠ MASTER_NAME) → MasterOk start (done ++ qs)
        (qs.foldl (fun connections q => addMasterConnection q.1 connections q.2) connections) := by
    intro qs
    induction qs with
    | nil => exact fun done connections h _ => by simpa using h
    | cons q qs ih =>
      intro done connections h hqs
      have hrest := ih _ _ (h.step (hqs q List.mem_cons_self))
        fun q' hq' => hqs q' (List.mem_cons_of_mem _ hq')
      simpa using hrest
  have hbegin : MasterOk start [] start := by
    refine ⟨List.filter_eq_self.mpr fun c hc => ?_, List.filter_eq_nil_iff.mpr fun c hc => ?_,
      fun name sg_id => ?_⟩
    · simp [hstart c hc]
    · simp [hstart c hc]
    · have hnone : fromMaster start = [] :=
        List.filter_eq_nil_iff.mpr fun c hc => by simp [hstart c hc]
      simp [hnone]
  have hend := hrun (masterVertices graphs) [] start hbegin fun q hq => by
    obtain ⟨it, hit, hq⟩ := List.mem_flatMap.mp hq
    obtain ⟨vi, -, rfl⟩ := List.mem_map.mp hq
    exact hids it hit
  simpa [masterVertices, List.foldl_flatMap, List.foldl_map] using hend

end Master

section Count

variable {g : BGraph} {sort : TopologicalSort} {order : SetOrder} {d : BDecomposition}

theorem countP_createSubgraphByRank (sort : TopologicalSort) (hg : g.Flow) {u : ℕ}
    (hu : u < g.vertices.length)
    (hvalue : (g.info u).type = .VALUE) (r : ℕ) (p : VertexInfo → Bool)
    (hp : p (g.info u) = true) :
    (createSubgraphByRank sort g r).vertices.countP
      (fun vi => vi.type = .VALUE ∧ vi.name = (g.info u).name ∧ p vi) =
      if r ∈ g.ranks u then 1 else 0 := by
  have hnodup : (g.all_nodes.filter fun v => r ∈ g.ranks v).Nodup := List.nodup_range.filter _
  have hmem : u ∈ (g.all_nodes.filter fun v => r ∈ g.ranks v) ↔ r ∈ g.ranks u := by
    simp [BGraph.all_nodes, hu]
  rw [(createSubgraphByRank_perm hg r).countP_eq, List.countP_map, ← if_congr hmem rfl rfl,
    ← hnodup.count]
  refine List.countP_congr fun v hv => ?_
  have hv' : v < g.vertices.length := List.mem_range.mp (List.mem_of_mem_filter hv)
  simp only [Function.comp_apply, decide_eq_true_eq, beq_iff_eq]
  constructor
  · rintro ⟨htype, hname, -⟩
    exact hg.name_inj hv' hu htype hvalue hname
  · rintro rfl
    exact ⟨hvalue, rfl, hp⟩

theorem countP_le_one {α : Type} {p : α → Bool} {l : List α}
    (h : l.Pairwise fun a b => ¬(p a = true ∧ p b = true)) : l.countP p ≤ 1 := by
  induction l with
  | nil => simp
  | cons a l ih =>
    obtain ⟨hhead, htail⟩ := List.pairwise_cons.mp h
    by_cases ha : p a = true
    · have hnone : l.countP p = 0 := List.countP_eq_zero.mpr fun b hb hpb => hhead b hb ⟨ha, hpb⟩
      simp [ha, hnone]
    · simpa [ha] using ih htail

theorem sum_map_ite_eq_count (l : List ℕ) (a : ℕ) :
    (l.map fun b => if b = a then 1 else 0).sum = l.count a := by
  induction l with
  | nil => rfl
  | cons b l ih => simp [ih, List.count_cons, Nat.add_comm]

theorem BGraph.NamesApart.crossing_inj (hapart : g.NamesApart) (hg : g.Flow) {u u' v r : ℕ}
    (hu : u < g.vertices.length) (hvalue : (g.info u).type = .VALUE) (hc : Crossing g u' v r)
    (hname : (g.info u').name = (g.info u).name) : u' = u := by
  have hu' : u' < g.vertices.length := (hg.edge hc.edge).1.trans (hg.edge hc.edge).2.1
  cases htype : (g.info u').type with
  | NODE => exact absurd hname (hapart u' u htype hu hvalue)
  | VALUE => exact hg.name_inj hu' hu htype hvalue hname

section Start

variable {cons : ConnectionLists} {u : ℕ}

theorem hasSame_start_iff (hg : g.Flow) (hapart : g.NamesApart)
    (hok : ConnectionsOk order g (fun _ _ => True) cons) (hu : u < g.vertices.length)
    (hvalue : (g.info u).type = .VALUE) (hparam : (g.info u).is_param = false) (r : ℕ) :
    hasSameValueConnection cons.connections (g.info u).name (createSubgraphId g.id r) = true ↔
      ∃ v, Crossing g u v r := by
  rw [hasSameValueConnection_iff]
  constructor
  · rintro ⟨con, hcon, hname, hdest⟩
    obtain ⟨u', v, r', s, hc, -, -, rfl⟩ := hok.sound con hcon
    obtain rfl := hapart.crossing_inj hg hu hvalue hc hname
    obtain rfl : r' = r := createSubgraphId_inj.mp hdest
    exact ⟨v, hc⟩
  · rintro ⟨v, hc⟩
    obtain ⟨con, hcon, hname, hdest, -⟩ := hok.complete u v r trivial hc
    rw [if_neg (by simp [hparam])] at hcon
    exact ⟨con, hcon, hname, hdest⟩

theorem countP_start (hg : g.Flow) (hapart : g.NamesApart)
    (hok : ConnectionsOk order g (fun _ _ => True) cons) (hu : u < g.vertices.length)
    (hvalue : (g.info u).type = .VALUE) (r : ℕ) :
    cons.connections.countP
      (fun c => c.value = (g.info u).name ∧ c.dest = createSubgraphId g.id r) ≤ 1 := by
  have hsrc : ∀ c ∈ cons.connections, c.value = (g.info u).name →
      ∃ r', (order.order (g.ranks u)).head? = some r' ∧ c.src = createSubgraphId g.id r' := by
    intro c hc hname
    obtain ⟨u', v, r', s, hcross, hhead, -, rfl⟩ := hok.sound c hc
    obtain rfl := hapart.crossing_inj hg hu hvalue hcross hname
    exact ⟨s, hhead, rfl⟩
  refine countP_le_one (hok.once.imp_of_mem fun {c c'} hc hc' honce => ?_)
  simp only [decide_eq_true_eq]
  rintro ⟨⟨hname, hdest⟩, hname', hdest'⟩
  obtain ⟨s, hs, hcsrc⟩ := hsrc c hc hname
  obtain ⟨s', hs', hcsrc'⟩ := hsrc c' hc' hname'
  obtain rfl : s = s' := Option.some.inj (hs.symm.trans hs')
  exact honce ⟨hcsrc.trans hcsrc'.symm, hdest.trans hdest'.symm, hname.trans hname'.symm⟩

end Start

theorem exists_masterVertices {p : VertexInfo → Prop} (hp : ∀ vi, p vi.core ↔ p vi) :
    ∀ sg_id, (∃ q ∈ masterVertices d.graphs, p q.2 ∧ q.1 = sg_id) ↔
      ∃ it ∈ d.graphs, it.1 = sg_id ∧ ∃ x ∈ it.2.content, p x := by
  intro sg_id
  constructor
  · rintro ⟨q, hq, hpq, rfl⟩
    obtain ⟨it, hit, hq⟩ := List.mem_flatMap.mp hq
    obtain ⟨vi, hvi, rfl⟩ := List.mem_map.mp hq
    exact ⟨it, hit, rfl, vi.core, List.mem_map_of_mem hvi, (hp vi).mpr hpq⟩
  · rintro ⟨it, hit, rfl, x, hx, hpx⟩
    obtain ⟨vi, hvi, rfl⟩ := List.mem_map.mp hx
    exact ⟨(it.1, vi), List.mem_flatMap.mpr ⟨it, hit, List.mem_map_of_mem hvi⟩, (hp vi).mp hpx, rfl⟩

end Count

section ModelRouted

variable {g : BGraph} {sort : TopologicalSort} {order : SetOrder} {d : BDecomposition}
  {cons : ConnectionLists}

theorem isModelInput_iff {vi : VertexInfo} : vi.isModelInput = true ↔
    vi.type = .VALUE ∧ vi.is_orig_input = true ∧ vi.is_param = false := by
  simp [VertexInfo.isModelInput, and_assoc]

/-- The subgraphs, with the connections between them and those with the master. -/
structure MasterConnected (sort : TopologicalSort) (order : SetOrder) (g : BGraph)
    (cons : ConnectionLists) (d : BDecomposition) : Prop where
  ok : ConnectionsOk order g (fun _ _ => True) cons
  contents : contents d.graphs = (contents (createSubgraphsByRank sort order g)).map fun it =>
    (it.1, it.2 ++ receivedVertices g (cons.connections ++ cons.param_connections) it.1)
  master : MasterOk cons.connections (masterVertices d.graphs) d.connections

theorem createSubGraphs_masterConnected (hg : g.Flow) (h : createSubGraphs sort order g = some d) :
    ∃ cons, MasterConnected sort order g cons d := by
  obtain ⟨cons, hcons, hcontents, hconnections⟩ := createSubGraphs_spec h
  have hok := addConnections_ok hcons
  have hstart : ∀ c ∈ cons.connections, c.isGraphInput = false ∧ c.isGraphOutput = false := by
    intro c hc
    obtain ⟨u, v, r, r', -, -, -, rfl⟩ := hok.sound c hc
    simp [GraphConnection.isGraphInput, GraphConnection.isGraphOutput, crossingConnection,
      createSubgraphId_ne_master]
  have hids : ∀ it ∈ d.graphs, it.1 ≠ MASTER_NAME := by
    intro it hit
    obtain ⟨r, -, hid, -⟩ := createSubGraphs_mem hg hcontents hit
    rw [hid]
    exact createSubgraphId_ne_master g.id r
  have hmaster := masterConnections_ok hstart hids
  rw [← hconnections] at hmaster
  exact ⟨cons, hok, hcontents, hmaster⟩

theorem sum_map_ite_of_unique {l : List ℕ} (hnodup : l.Nodup) {P : ℕ → Prop} [DecidablePred P]
    {a : ℕ} (ha : a ∈ l) (hunique : ∀ b, P b ↔ b = a) :
    (l.map fun b => if P b then 1 else 0).sum = 1 := by
  have hcount := hnodup.count (a := a)
  rw [if_pos ha, ← sum_map_ite_eq_count] at hcount
  exact (congrArg List.sum (List.map_congr_left fun b _ => if_congr (hunique b) rfl rfl)).trans
    hcount

namespace MasterConnected

variable (h : MasterConnected sort order g cons d) (hg : g.Flow) (hapart : g.NamesApart)
include h

theorem countP_ins (name sg_id : String) :
    ((fromMaster d.connections).map GraphConnection.link).countP
      (fun l => l.value = name ∧ l.dest = sg_id) =
      if (∃ q ∈ masterVertices d.graphs, q.2.isModelInput = true ∧ q.2.name = name ∧ q.1 = sg_id) ∧
        hasSameValueConnection cons.connections name sg_id = false then 1 else 0 := by
  rw [List.countP_map, ← h.master.ins name sg_id]
  rfl

theorem countP_inner (name sg_id : String) :
    ((betweenGraphs d.connections).map GraphConnection.link).countP
      (fun l => l.value = name ∧ l.dest = sg_id) =
      cons.connections.countP fun c => c.value = name ∧ c.dest = sg_id := by
  rw [List.countP_map, h.master.between]
  rfl

include hg hapart

/-- The copies of an output in the subgraph of a rank, if none is received. -/
theorem countP_content {u : ℕ} (hu : u < g.vertices.length)
    (hout : (g.info u).isModelOutput = true) (hvalue : (g.info u).type = .VALUE)
    (hstay : ∀ v r, ¬ Crossing g u v r) (sg_id : String) (r : ℕ) :
    (((createSubgraphByRank sort g r).content ++
      receivedVertices g (cons.connections ++ cons.param_connections)
        (createSubgraphId g.id r)).map (createSubgraphId g.id r, ·)).countP
          (fun q => q.2.isModelOutput && (q.2.name = (g.info u).name && q.1 = sg_id)) =
      if sg_id = createSubgraphId g.id r ∧ r ∈ g.ranks u then 1 else 0 := by
  set p : String × VertexInfo → Bool := fun q => q.2.isModelOutput &&
    (q.2.name = (g.info u).name && q.1 = sg_id) with hp
  by_cases hid : sg_id = createSubgraphId g.id r
  · have hreceived : (receivedVertices g (cons.connections ++ cons.param_connections)
        (createSubgraphId g.id r)).countP (p ∘ (createSubgraphId g.id r, ·)) = 0 := by
      refine List.countP_eq_zero.mpr fun x hx hpx => ?_
      obtain ⟨u', v, hc, rfl⟩ := mem_receivedVertices hg h.ok hx
      simp only [hp, Function.comp_apply, Bool.and_eq_true, decide_eq_true_eq] at hpx
      obtain rfl := hapart.crossing_inj hg hu hvalue hc hpx.2.1
      exact hstay v r hc
    have hown := countP_createSubgraphByRank sort hg hu hvalue r
      VertexInfo.isModelOutput hout
    rw [List.map_append, List.countP_append, List.countP_map, List.countP_map, hreceived,
      Nat.add_zero, BGraph.content, List.countP_map, ← if_congr (and_iff_right hid).symm rfl rfl,
      ← hown]
    refine List.countP_congr fun vi _ => ?_
    simp only [hp, Function.comp_apply, hid, VertexInfo.isModelOutput, VertexInfo.core,
      Bool.and_eq_true, decide_eq_true_eq]
    tauto
  · rw [if_neg fun hc => hid hc.1]
    refine List.countP_eq_zero.mpr fun q hq hpq => hid ?_
    obtain ⟨x, -, rfl⟩ := List.mem_map.mp hq
    simp only [hp, Bool.and_eq_true, decide_eq_true_eq] at hpq
    exact hpq.2.2.symm

/-- The copies of an output on the ranks of a subgraph, if none is received. -/
theorem countP_outputs {u : ℕ} (hu : u < g.vertices.length)
    (hout : (g.info u).isModelOutput = true) (hstay : ∀ v r, ¬ Crossing g u v r)
    (sg_id : String) :
    (masterVertices d.graphs).countP (fun q => q.2.isModelOutput &&
      (q.2.name = (g.info u).name && q.1 = sg_id)) =
      if ∃ r ∈ g.ranks u, sg_id = createSubgraphId g.id r then 1 else 0 := by
  have hvalue : (g.info u).type = .VALUE := by
    simp only [VertexInfo.isModelOutput, Bool.and_eq_true, decide_eq_true_eq] at hout
    exact hout.1
  set p : String × VertexInfo → Bool := fun q => q.2.isModelOutput &&
    (q.2.name = (g.info u).name && q.1 = sg_id) with hp
  have hcore : (masterVertices d.graphs).countP p =
      ((Rannc.contents d.graphs).flatMap fun it => it.2.map (it.1, ·)).countP p := by
    simp only [masterVertices, Rannc.contents, BGraph.content, List.flatMap_map, List.map_map,
      List.countP_flatMap]
    refine congrArg List.sum (List.map_congr_left fun it _ => ?_)
    simp only [Function.comp_apply, List.countP_map]
    rfl
  have hsum : (masterVertices d.graphs).countP p = ((order.order (allRanks g)).map fun r =>
      if sg_id = createSubgraphId g.id r ∧ r ∈ g.ranks u then 1 else 0).sum := by
    rw [hcore, h.contents, Rannc.contents, createSubgraphsByRank, List.map_map, List.map_map,
      List.flatMap_map, List.countP_flatMap]
    exact congrArg List.sum (List.map_congr_left fun r _ =>
      h.countP_content hg hapart hu hout hvalue hstay sg_id r)
  rw [hsum]
  by_cases hex : ∃ r ∈ g.ranks u, sg_id = createSubgraphId g.id r
  · rw [if_pos hex]
    obtain ⟨r, hr, rfl⟩ := hex
    have hmem : r ∈ order.order (allRanks g) := order.mem.mpr (mem_allRanks.mpr ⟨u, hu, hr⟩)
    refine sum_map_ite_of_unique (order.nodup (allRanks g)) hmem fun r' => ?_
    rw [createSubgraphId_inj]
    exact ⟨fun h => h.1.symm, fun h => ⟨h.symm, h ▸ hr⟩⟩
  · rw [if_neg hex]
    refine List.sum_eq_zero fun n hn => ?_
    obtain ⟨r, -, rfl⟩ := List.mem_map.mp hn
    exact if_neg fun hc => hex ⟨r, hc.2, hc.1⟩

/-- An input of the model comes from the master to every rank that has it from the start. -/
theorem input {u : ℕ} (hu : u < g.vertices.length) (hinput : (g.info u).isModelInput = true)
    {r : ℕ} (hr : r ∈ g.ranks u) :
    ((fromMaster d.connections).map GraphConnection.link).countP
        (fun l => l.value = (g.info u).name ∧ l.dest = createSubgraphId g.id r) = 1 ∧
      ((betweenGraphs d.connections).map GraphConnection.link).countP
        (fun l => l.value = (g.info u).name ∧ l.dest = createSubgraphId g.id r) = 0 := by
  obtain ⟨hvalue, -, hparam⟩ := isModelInput_iff.mp hinput
  have hnone : hasSameValueConnection cons.connections (g.info u).name
      (createSubgraphId g.id r) = false := by
    rw [← Bool.not_eq_true, hasSame_start_iff hg hapart h.ok hu hvalue hparam]
    rintro ⟨v, hc⟩
    exact hc.source hr
  have hhave : ∃ q ∈ masterVertices d.graphs, q.2.isModelInput = true ∧
      q.2.name = (g.info u).name ∧ q.1 = createSubgraphId g.id r := by
    obtain ⟨sg, hsg⟩ := createSubGraphs_of_mem h.contents (mem_allRanks.mpr ⟨u, hu, hr⟩)
    obtain ⟨r', -, hid, hmem⟩ := createSubGraphs_mem hg h.contents hsg
    obtain rfl : r = r' := createSubgraphId_inj.mp hid
    have hx := (hmem (g.info u).core).mpr (Or.inl ⟨u, hu, hr, rfl⟩)
    obtain ⟨q, hq, ⟨hqin, hqname⟩, hqid⟩ := (exists_masterVertices (p := fun vi =>
      vi.isModelInput = true ∧ vi.name = (g.info u).name) (fun _ => Iff.rfl) _).mpr
      ⟨_, hsg, rfl, _, hx, hinput, rfl⟩
    exact ⟨q, hq, hqin, hqname, hqid⟩
  constructor
  · rw [h.countP_ins, if_pos ⟨hhave, hnone⟩]
  · rw [h.countP_inner]
    refine List.countP_eq_zero.mpr fun c hc hsame => ?_
    have htrue := hasSameValueConnection_iff.mpr ⟨c, hc, of_decide_eq_true hsame⟩
    rw [hnone] at htrue
    exact absurd htrue nofun

theorem forwarded {u v r : ℕ} (hinput : (g.info u).isModelInput = true) (hc : Crossing g u v r) :
    ((fromMaster d.connections).map GraphConnection.link).countP
        (fun l => l.value = (g.info u).name ∧ l.dest = createSubgraphId g.id r) = 0 ∧
      ((betweenGraphs d.connections).map GraphConnection.link).countP
        (fun l => l.value = (g.info u).name ∧ l.dest = createSubgraphId g.id r) = 1 ∧
      ∃ r' ∈ g.ranks u, ⟨(g.info u).name, createSubgraphId g.id r', createSubgraphId g.id r⟩ ∈
        (betweenGraphs d.connections).map GraphConnection.link := by
  obtain ⟨hvalue, -, hparam⟩ := isModelInput_iff.mp hinput
  have hu : u < g.vertices.length := (hg.edge hc.edge).1.trans (hg.edge hc.edge).2.1
  have hsame := (hasSame_start_iff hg hapart h.ok hu hvalue hparam r).mpr ⟨v, hc⟩
  obtain ⟨con, hcon, hname, hdest, r', hr', hsrc⟩ := h.ok.complete u v r trivial hc
  rw [if_neg (by simp [hparam])] at hcon
  refine ⟨?_, ?_, r', hr', ?_⟩
  · rw [h.countP_ins, if_neg]
    rintro ⟨-, hfalse⟩
    exact absurd (hsame.symm.trans hfalse) nofun
  · rw [h.countP_inner]
    refine le_antisymm (countP_start hg hapart h.ok hu hvalue r) ?_
    exact List.countP_pos_iff.mpr ⟨con, hcon, decide_eq_true ⟨hname, hdest⟩⟩
  · rw [h.master.between, ← hname, ← hdest, ← hsrc]
    exact List.mem_map_of_mem hcon

theorem no_other {l : Link} (hl : l ∈ (fromMaster d.connections).map GraphConnection.link) :
    ∃ u < g.vertices.length, (g.info u).isModelInput = true ∧
      l.value = (g.info u).name ∧ ∃ r ∈ g.ranks u, l.dest = createSubgraphId g.id r := by
  have hpos : 0 < ((fromMaster d.connections).map GraphConnection.link).countP
      (fun l' => l'.value = l.value ∧ l'.dest = l.dest) :=
    List.countP_pos_iff.mpr ⟨l, hl, by simp⟩
  rw [h.countP_ins] at hpos
  obtain ⟨⟨q, hq, hqin, hqname, hqid⟩, hnone⟩ := of_not_not fun hif =>
    absurd (if_neg hif ▸ hpos) (lt_irrefl 0)
  obtain ⟨it, hit, hid, x, hx, hxin, hxname⟩ := (exists_masterVertices (p := fun vi =>
    vi.isModelInput = true ∧ vi.name = l.value) (fun _ => Iff.rfl) l.dest).mp
    ⟨q, hq, ⟨hqin, hqname⟩, hqid⟩
  obtain ⟨r, -, hsg_id, hmem⟩ := createSubGraphs_mem hg h.contents hit
  rcases (hmem x).mp hx with ⟨u, hu, hr, rfl⟩ | hreceived
  · exact ⟨u, hu, hxin, hxname.symm, r, hr, hid.symm.trans hsg_id⟩
  · obtain ⟨u, v, hc, rfl⟩ := mem_receivedVertices hg h.ok hreceived
    have hu : u < g.vertices.length := (hg.edge hc.edge).1.trans (hg.edge hc.edge).2.1
    obtain ⟨hvalue, -, hparam⟩ := isModelInput_iff.mp hxin
    have hsame := (hasSame_start_iff hg hapart h.ok hu hvalue hparam r).mpr ⟨v, hc⟩
    have hxname' : (g.info u).name = l.value := hxname
    rw [hxname', ← hsg_id, hid, hnone] at hsame
    exact absurd hsame nofun

theorem output {u : ℕ} (hu : u < g.vertices.length) (hout : (g.info u).isModelOutput = true)
    (hstay : ∀ v r, ¬ Crossing g u v r) (sg_id : String) :
    ((toMaster d.connections).map GraphConnection.link).countP
      (fun l => l.value = (g.info u).name ∧ l.src = sg_id) =
        if ∃ r ∈ g.ranks u, sg_id = createSubgraphId g.id r then 1 else 0 := by
  rw [h.master.outs, List.map_map, List.countP_map, List.countP_filter,
    ← h.countP_outputs hg hapart hu hout hstay sg_id]
  refine List.countP_congr fun q _ => ?_
  simp only [Function.comp_apply, GraphConnection.link, Bool.and_eq_true, decide_eq_true_eq]
  exact ⟨fun h => ⟨h.2, of_decide_eq_true h.1⟩, fun h => ⟨decide_eq_true h.2, h.1⟩⟩

end MasterConnected

theorem createSubGraphs_routed (hg : g.Flow) (hapart : g.NamesApart)
    (h : createSubGraphs sort order g = some d) :
    ModelRouted g ((fromMaster d.connections).map GraphConnection.link)
      ((betweenGraphs d.connections).map GraphConnection.link)
      ((toMaster d.connections).map GraphConnection.link) := by
  obtain ⟨cons, hcons⟩ := createSubGraphs_masterConnected hg h
  constructor
  case input => exact fun u hu hinput r hr => hcons.input hg hapart hu hinput hr
  case forwarded => exact fun u v r hinput hc => hcons.forwarded hg hapart hinput hc
  case no_other => exact fun l hl => hcons.no_other hg hapart hl
  case output => exact fun u hu hout hstay sg_id => hcons.output hg hapart hu hout hstay sg_id

end ModelRouted

section Deployed

variable {sort : TopologicalSort} {order : SetOrder} {g : BGraph}

/-- Operators of a graph are not called like one of its values. -/
def IRGraph.NamesApart (ir_graph : IRGraph) : Prop :=
  ∀ n ∈ ir_graph.nodes, n.name ∉ ir_graph.definedNames

theorem IRGraph.NamesApart.toBGL {ir_graph : IRGraph} (hapart : ir_graph.NamesApart)
    (hwf : ir_graph.WellFormed) (htyped : ir_graph.Typed) (h : ir_graph.toBGL = some g) :
    g.NamesApart := by
  obtain ⟨values, hok⟩ := toBGL_ok hwf htyped h
  intro v w hnode hw hvalue hname
  obtain ⟨n, hn, hvname⟩ := hok.node_name (lt_of_type_node hnode) hnode
  refine hapart n hn ?_
  rw [← hvname, hname]
  exact hok.value_name hw hvalue

theorem BGraph.NamesApart.of_erase {g' : BGraph} (hapart : g.NamesApart)
    (h : g'.erase = g.erase) : g'.NamesApart := by
  have hname : ∀ v, (g'.info v).name = (g.info v).name := by
    intro v
    have hinfo := congrArg VertexInfo.name (BGraph.info_of_erase h v)
    exact hinfo
  intro v w hnode hw hvalue
  rw [hname, hname]
  rw [type_of_erase h] at hnode hvalue
  exact hapart v w hnode (BGraph.length_of_erase h ▸ hw) hvalue

theorem createPartition_connections {part : Partition}
    (h : createPartition sort order g = some part) :
    ∃ d, createSubGraphs sort order g = some d ∧ part.connections = d.connections := by
  obtain ⟨d, hd, h⟩ := Option.bind_eq_some_iff.mp h
  obtain ⟨comp_graphs, -, h⟩ := Option.bind_eq_some_iff.mp h
  obtain ⟨comp_connection, hcons, h⟩ := Option.bind_eq_some_iff.mp h
  obtain ⟨_, -, h⟩ := Option.bind_eq_some_iff.mp h
  obtain ⟨_, -, h⟩ := Option.bind_eq_some_iff.mp h
  obtain rfl := Option.some.inj h
  refine ⟨d, hd, ?_⟩
  have hend : ∀ {id name id'}, searchGraphWithValue comp_graphs id name = some id' → id' = id := by
    intro id name id' hid
    unfold searchGraphWithValue at hid
    split_ifs at hid
    · exact (Option.some.inj hid).symm
    · obtain ⟨sg, -, hid⟩ := Option.bind_eq_some_iff.mp hid
      split_ifs at hid
      exact (Option.some.inj hid).symm
  have hsame : ∀ (cons cons' : List GraphConnection), (cons.mapM fun con => do
      let comp_src ← searchGraphWithValue comp_graphs con.src con.value
      let comp_dest ← searchGraphWithValue comp_graphs con.dest con.value
      return { con with src := comp_src, dest := comp_dest }) = some cons' → cons' = cons := by
    intro cons
    induction cons with
    | nil =>
      intro cons' h
      simpa using h.symm
    | cons con cons ih =>
      intro cons' h
      rw [List.mapM_cons] at h
      obtain ⟨con', hcon', h⟩ := Option.bind_eq_some_iff.mp h
      obtain ⟨rest, hrest, h⟩ := Option.bind_eq_some_iff.mp h
      obtain rfl := Option.some.inj h
      obtain ⟨src, hsrc, hcon'⟩ := Option.bind_eq_some_iff.mp hcon'
      obtain ⟨dest, hdest, hcon'⟩ := Option.bind_eq_some_iff.mp hcon'
      obtain rfl := Option.some.inj hcon'
      rw [ih rest hrest, hend hsrc, hend hdest]
  exact hsame d.connections comp_connection hcons

/-- The routes of a direction follow the connections. -/
theorem addRoutes_links {size : ℕ} {subgraphs : List (String × IRGraph)}
    {allocation : List (String × Finset ℕ)} {connections : List GraphConnection}
    {lists lists' : RouteLists × RouteLists}
    (h : connections.foldlM (addRoutes order size subgraphs allocation) lists = some lists') :
    lists'.1.in_routes.map RouteDP.link =
        lists.1.in_routes.map RouteDP.link ++ (fromMaster connections).map GraphConnection.link ∧
      lists'.1.routes.map RouteDP.link =
        lists.1.routes.map RouteDP.link ++ (betweenGraphs connections).map GraphConnection.link ∧
      lists'.1.out_routes.map RouteDP.link =
        lists.1.out_routes.map RouteDP.link ++ (toMaster connections).map GraphConnection.link := by
  induction connections generalizing lists with
  | nil =>
    obtain rfl := Option.some.inj h
    simp [fromMaster, betweenGraphs, toMaster]
  | cons con connections ih =>
    rw [List.foldlM_cons] at h
    obtain ⟨lists₁, hstep, hrest⟩ := Option.bind_eq_some_iff.mp h
    obtain ⟨hin, hbetween, hout⟩ := ih hrest
    have hfwd : ∃ r : RouteDP, r.link = con.link ∧ lists₁.1 = addFwdRoute lists.1 con r := by
      obtain ⟨val, -, hstep⟩ := Option.bind_eq_some_iff.mp hstep
      obtain ⟨sources, -, hstep⟩ := Option.bind_eq_some_iff.mp hstep
      obtain ⟨dests, -, hstep⟩ := Option.bind_eq_some_iff.mp hstep
      obtain ⟨_, -, hstep⟩ := Option.bind_eq_some_iff.mp hstep
      refine ⟨⟨⟨con.value, []⟩, sources, con.src, dests, con.dest⟩, rfl, ?_⟩
      split_ifs at hstep
      · obtain ⟨_, -, hstep⟩ := Option.bind_eq_some_iff.mp hstep
        rw [← Option.some.inj hstep]
      · rw [← Option.some.inj hstep]
    obtain ⟨r, hr, heq⟩ := hfwd
    rw [heq] at hin hbetween hout
    unfold addFwdRoute at hin hbetween hout
    rw [hin, hbetween, hout]
    cases hi : con.isGraphInput <;> cases ho : con.isGraphOutput <;>
      simp [fromMaster, betweenGraphs, toMaster, hi, ho, hr]

end Deployed

/-- The connections of a graph with ranks, and the routes of a deployment built from it, carry the
inputs and outputs of the model. -/
theorem model_routed (sort : TopologicalSort) (order : SetOrder) {ir_graph : IRGraph}
    (hwf : ir_graph.WellFormed) (htyped : ir_graph.Typed) (hapart : ir_graph.NamesApart)
    {bg g : BGraph} (hbg : ir_graph.toBGL = some bg) (hranks : g.erase = bg.erase) :
    (∀ d, createSubGraphs sort order g = some d →
      ModelRouted g ((fromMaster d.connections).map GraphConnection.link)
        ((betweenGraphs d.connections).map GraphConnection.link)
        ((toMaster d.connections).map GraphConnection.link)) ∧
    ∀ part size pipeline_num subgraphs allocation d fwd bwd,
      createPartition sort order g = some part →
      createDeployment sort order size pipeline_num subgraphs part.connections allocation =
        some (d, fwd, bwd) →
      ModelRouted g (fwd.in_routes.map RouteDP.link) (fwd.routes.map RouteDP.link)
        (fwd.out_routes.map RouteDP.link) := by
  have hg : g.Flow := (toBGL_flow hwf htyped hbg).1.of_erase hranks
  have hgapart := (hapart.toBGL hwf htyped hbg).of_erase hranks
  refine ⟨fun d hd => createSubGraphs_routed hg hgapart hd, ?_⟩
  intro part size pipeline_num subgraphs allocation d fwd bwd hpart hdeploy
  obtain ⟨decomp, hdecomp, hcons⟩ := createPartition_connections hpart
  obtain ⟨⟨fwd', bwd'⟩, hroutes, hdeploy⟩ := Option.bind_eq_some_iff.mp hdeploy
  obtain ⟨_, -, hdeploy⟩ := Option.bind_eq_some_iff.mp hdeploy
  obtain ⟨_, -, hdeploy⟩ := Option.bind_eq_some_iff.mp hdeploy
  obtain ⟨-, hlists⟩ := Prod.mk.inj (Option.some.inj hdeploy)
  obtain ⟨rfl, rfl⟩ := Prod.mk.inj hlists
  obtain ⟨hin, hbetween, hout⟩ := addRoutes_links hroutes
  simp only [List.map_nil, List.nil_append] at hin hbetween hout
  rw [hin, hbetween, hout, hcons]
  exact createSubGraphs_routed hg hgapart hdecomp

/-- The deployment of the ranks of the partitioning, on one device for each subgraph. -/
def rankedDeployment (ir_graph : IRGraph) :
    Option (BGraph × Partition × Deployment × RouteLists × RouteLists) := do
  let bg ← ir_graph.toBGL
  let labelled ← labelRanks bg
  let part ← createPartition .sinksFirst .sorted (fixNonBatchRanks .sinksFirst labelled)
  let deployment ← createDeployment .sinksFirst .sorted part.order.length 1 part.subgraphs
    part.connections (part.order.mapIdx fun i id => (id, {i}))
  return (labelled, part, deployment)

theorem rankedDeployment_eq_some {ir_graph : IRGraph} {labelled : BGraph} {part : Partition}
    {d : Deployment} {fwd bwd : RouteLists}
    (h : rankedDeployment ir_graph = some (labelled, part, d, fwd, bwd)) :
    ∃ bg size allocation, ir_graph.toBGL = some bg ∧ labelRanks bg = some labelled ∧
      createPartition .sinksFirst .sorted (fixNonBatchRanks .sinksFirst labelled) = some part ∧
      createDeployment .sinksFirst .sorted size 1 part.subgraphs part.connections allocation =
        some (d, fwd, bwd) := by
  obtain ⟨bg, hbg, h⟩ := Option.bind_eq_some_iff.mp h
  obtain ⟨labelled', hlabelled, h⟩ := Option.bind_eq_some_iff.mp h
  obtain ⟨part', hpart, h⟩ := Option.bind_eq_some_iff.mp h
  obtain ⟨deployment, hdeploy, h⟩ := Option.bind_eq_some_iff.mp h
  obtain ⟨rfl, heq⟩ := Prod.mk.inj (Option.some.inj h)
  obtain ⟨rfl, rfl⟩ := Prod.mk.inj heq
  exact ⟨bg, _, _, hbg, hlabelled, hpart, hdeploy⟩

theorem unpackGraph_namesApart : unpackGraph.NamesApart := by
  unfold IRGraph.NamesApart
  decide +kernel

theorem unpackGraph_deployed : (rankedDeployment unpackGraph).isSome = true := by
  decide +kernel

theorem model_routed_unpack : ∃ labelled part d fwd bwd,
    rankedDeployment unpackGraph = some (labelled, part, d, fwd, bwd) ∧
      ModelRouted (fixNonBatchRanks .sinksFirst labelled) (fwd.in_routes.map RouteDP.link)
        (fwd.routes.map RouteDP.link) (fwd.out_routes.map RouteDP.link) := by
  obtain ⟨⟨labelled, part, d, fwd, bwd⟩, hrun⟩ := Option.isSome_iff_exists.mp unpackGraph_deployed
  refine ⟨labelled, part, d, fwd, bwd, hrun, ?_⟩
  obtain ⟨bg, size, allocation, hbg, hlabelled, hpart, hdeploy⟩ := rankedDeployment_eq_some hrun
  obtain ⟨hflow, hempty⟩ := toBGL_flow unpackGraph_wellFormed unpackGraph_typed hbg
  have herase := (labelRanks_ok hflow hempty hlabelled).1
  have hfixed := fixNonBatchRanks_fixed .sinksFirst (hflow.of_erase herase)
  exact (model_routed .sinksFirst .sorted unpackGraph_wellFormed unpackGraph_typed
    unpackGraph_namesApart hbg (hfixed.erase.trans herase)).2 _ _ _ _ _ _ _ _ hpart hdeploy

/-- Every output of the model goes to the master from one subgraph, and every input comes from it
once to each subgraph that reads it. -/
structure RoutedByMaster (g : BGraph) (d : BDecomposition) : Prop where
  output : ∀ u < g.vertices.length, (g.info u).isModelOutput = true →
    (toMaster d.connections).countP (fun c => c.value = (g.info u).name) = 1
  input : ∀ u < g.vertices.length, (g.info u).isModelInput = true → ∀ it ∈ d.graphs,
    (fromMaster d.connections).countP (fun c => c.value = (g.info u).name ∧ c.dest = it.1) =
      if ∃ vi ∈ it.2.vertices, vi.type = .NODE ∧ (g.info u).name ∈ vi.node.input_names then 1 else 0

theorem unpackGraph_forwarded : (rankedSubGraphs unpackGraph).any (fun res =>
    let g := fixNonBatchRanks .sinksFirst res.2.1
    g.all_nodes.any fun u => (g.info u).isModelInput && res.2.2.graphs.any fun it =>
      (it.2.vertices.any fun vi =>
        vi.type = .NODE ∧ (g.info u).name ∈ vi.node.input_names) &&
      (fromMaster res.2.2.connections).all fun c => c.dest ≠ it.1) = true := by
  decide +kernel

/-- A subgraph that reads an input need not get it from the master. -/
theorem not_createSubGraphs_routedByMaster : ¬ ∀ (sort : TopologicalSort) (order : SetOrder)
    (ir_graph : IRGraph) (bg g : BGraph) (d : BDecomposition), ir_graph.WellFormed →
    ir_graph.Typed → ir_graph.NamesApart → ir_graph.toBGL = some bg → g.erase = bg.erase →
    createSubGraphs sort order g = some d → RoutedByMaster g d := by
  intro h
  obtain ⟨⟨bg, labelled, d⟩, hrun, hmissing⟩ := (Option.any_eq_true _ _).mp unpackGraph_forwarded
  obtain ⟨hbg, hlabelled, hd⟩ := rankedSubGraphs_eq_some hrun
  obtain ⟨hflow, hempty⟩ := toBGL_flow unpackGraph_wellFormed unpackGraph_typed hbg
  have herase := (labelRanks_ok hflow hempty hlabelled).1
  have hfixed := fixNonBatchRanks_fixed .sinksFirst (hflow.of_erase herase)
  have hrouted := h _ _ _ _ _ _ unpackGraph_wellFormed unpackGraph_typed unpackGraph_namesApart hbg
    (hfixed.erase.trans herase) hd
  obtain ⟨u, hu, hmissing⟩ := List.any_eq_true.mp hmissing
  obtain ⟨hinput, hmissing⟩ := (Bool.and_eq_true _ _).mp hmissing
  obtain ⟨it, hit, hmissing⟩ := List.any_eq_true.mp hmissing
  obtain ⟨hread, hnone⟩ := (Bool.and_eq_true _ _).mp hmissing
  obtain ⟨vi, hvi, hread⟩ := List.any_eq_true.mp hread
  have hcount := hrouted.input u (List.mem_range.mp hu) hinput it hit
  rw [if_pos ⟨vi, hvi, of_decide_eq_true hread⟩] at hcount
  obtain ⟨c, hc, hsame⟩ := List.countP_pos_iff.mp (hcount ▸ one_pos)
  exact of_decide_eq_true (List.all_eq_true.mp hnone c hc) (of_decide_eq_true hsame).2

end Rannc
