import Rannc.Graph.Uncoarsening

/-!
# Towers of coarse graphs

A coarsened graph stands on the graphs of the passes before it. The adjustment changes only the
graph on top, and going down a level takes out the graph below it. So the loop that goes down ends
after as many turns as there are levels to leave.
-/
namespace Rannc

namespace MLPartitioner

variable {p : MLPartitioner}

/-- The merged nodes pass their check, and a node became one that has it. -/
structure NamesHold (st : MergeState) : Prop where
  verified : ∀ n ∈ st.merged_nodes, n.verify = true
  named : ∀ {x id}, st.name_map.lookup x = some id →
    ∃ n ∈ st.merged_nodes, n.id = id ∧ x ∈ n.sub_nodes.map MLNode.id

theorem mergeNode_namesHold {pass : Pass} {st st' : MergeState} {v : MLNode} (hst : NamesHold st)
    (h : mergeNode p pass st v = some st') : NamesHold st' := by
  unfold mergeNode at h
  split_ifs at h with hv
  · exact Option.some.inj h ▸ hst
  obtain ⟨best, hfind, h⟩ := Option.bind_eq_some_iff.mp h
  obtain rfl := Option.some.inj h
  obtain ⟨⟨halone, hmerged⟩, -⟩ := findBest_shape hfind
  have hbest : best.best_merged.verify = true ∧
      ∀ x ∈ v.id :: best.accepted.toList, x ∈ best.best_merged.sub_nodes.map MLNode.id := by
    rw [BestMerge.accepted]
    cases hadj : best.best_adj with
    | none =>
      obtain ⟨hsub, hedges⟩ := halone hadj
      simp [MLNode.verify, hsub, hedges]
    | some adj =>
      obtain ⟨a, ha, hsub, hedges⟩ := hmerged adj hadj
      have ha_id := (node?_id ha).1
      refine ⟨List.all_eq_true.mpr fun se hse => decide_eq_true ?_, fun x hx => ?_⟩
      · rw [hedges, firstEdge, Option.mem_toList] at hse
        obtain ⟨hsrc, htgt⟩ : se.src_id = v.id ∧ se.tgt_id = adj := by
          simpa using List.find?_some hse
        simp [hsub, hsrc, htgt, ha_id]
      · rw [hsub]
        split_ifs at hx <;> simp_all
  constructor
  case verified => exact List.forall_mem_append.mpr ⟨hst.verified, by simpa using hbest.1⟩
  case named =>
    intro x id hx
    rw [lookup_group] at hx
    split_ifs at hx with hgroup
    · refine ⟨best.best_merged, by simp, Option.some.inj hx, hbest.2 x hgroup⟩
    · obtain ⟨n, hn, hid⟩ := hst.named hx
      exact ⟨n, List.mem_append_left _ hn, hid⟩

theorem mergeAdjacents_verify {ml_graph g : MLGraph} {skip_profiling : Bool}
    {min_partition_num used used' : ℕ}
    (h : p.mergeAdjacents ml_graph skip_profiling min_partition_num used = some (g, used')) :
    g.verify = true := by
  obtain ⟨pass, st, -, hst, hedges, hnodes, -⟩ := mergeAdjacents_eq_some h
  have hnames := foldlM_invariant (P := NamesHold) (fun _ _ _ _ => mergeNode_namesHold)
    ⟨by simp, by simp⟩ hst
  have hsub_edges := mergeEdgesNoCopy_sub_edges hedges
  have hids : ∀ {x id}, st.name_map.lookup x = some id → x ∈ g.subnode_ids id := by
    intro x id hx
    obtain ⟨n, hn, hid, hx⟩ := hnames.named hx
    exact MLGraph.mem_subnode_ids.mpr ⟨n, hnodes ▸ hn, hid, hx⟩
  refine MLGraph.verify_iff.mpr ⟨fun n hn se hse => ?_, fun e he => ?_⟩
  · have hverify := hnames.verified n (hnodes ▸ hn)
    exact of_decide_eq_true (List.all_eq_true.mp hverify se hse)
  · obtain ⟨-, hfull, hends⟩ := hsub_edges e he
    obtain ⟨se, hse⟩ := List.exists_mem_of_ne_nil _ hfull
    exact ⟨List.ne_nil_of_mem (hids (hends se hse).1), List.ne_nil_of_mem (hids (hends se hse).2),
      fun se hse => (hends se hse).imp hids hids⟩

theorem mergeAdjacents_nonempty {ml_graph g : MLGraph} {skip_profiling : Bool}
    {min_partition_num used used' : ℕ}
    (h : p.mergeAdjacents ml_graph skip_profiling min_partition_num used = some (g, used')) :
    ml_graph.nodes ≠ [] := by
  obtain ⟨pass, hpass, -⟩ := Option.bind_eq_some_iff.mp h
  rintro hnil
  have hperm := (startPass_eq_some hpass).2.1
  rw [hnil] at hperm
  obtain ⟨bg, -, hstart⟩ := Option.bind_eq_some_iff.mp hpass
  obtain ⟨st, hst, hstart⟩ := Option.bind_eq_some_iff.mp hstart
  obtain rfl := Option.some.inj hstart
  obtain ⟨hne, -⟩ := of_guard_bind hst
  exact hne (by rw [List.length_map, hperm.length_eq, List.length_nil])

/-- A pass that takes no merge that it does not accept, and loses no edge inside a pair. -/
def PassOk (p : MLPartitioner) (ml_graph : MLGraph) (skip_profiling : Bool)
    (min_partition_num used : ℕ) : Prop :=
  p.passRefused ml_graph skip_profiling min_partition_num used = [] ∧
    JoinedOnce ml_graph.edges (p.passPairs ml_graph skip_profiling min_partition_num used)

/-- A graph on the graphs of the levels below it. -/
def Tower (g : MLGraph) : List MLGraph → Prop
  | [] => g.ids.Nodup ∧ ∀ n ∈ g.nodes, n.sub_nodes = []
  | lower :: lowers => Hierarchy lower g ∧ lower.nodes ≠ [] ∧ Tower lower lowers

/-- What is built by passes of coarsening that meet a condition, by adjustments and by going down.
The graphs below are those of the passes. -/
inductive Built (p : MLPartitioner) (Meets : MLGraph → Bool → ℕ → ℕ → Prop) :
    MLGraph → List MLGraph → Prop
  | base {g : MLGraph} (hids : g.ids.Nodup) (hatomic : ∀ n ∈ g.nodes, n.sub_nodes = []) :
      Built p Meets g []
  | merge {g g' : MLGraph} {lowers : List MLGraph} {skip_profiling : Bool}
      {min_partition_num used used' : ℕ} (hbuilt : Built p Meets g lowers)
      (hmeets : Meets g skip_profiling min_partition_num used)
      (hmerge : p.mergeAdjacents g skip_profiling min_partition_num used = some (g', used')) :
      Built p Meets g' (g :: lowers)
  | adjust {g g' lower : MLGraph} {lowers : List MLGraph} {orders : AdjustOrders}
      {used used' : ℕ} (hbuilt : Built p Meets g (lower :: lowers))
      (hadjust : p.adjustBoundaries orders g used = some (g', used')) :
      Built p Meets g' (lower :: lowers)
  | down {g lower next : MLGraph} {lowers : List MLGraph}
      (hbuilt : Built p Meets g (lower :: next :: lowers)) :
      Built p Meets (toLowerLevel g) (next :: lowers)

theorem Tower.ids {g : MLGraph} {lowers : List MLGraph} (h : Tower g lowers) : g.ids.Nodup := by
  cases lowers with
  | nil => exact h.1
  | cons lower lowers => exact h.1.ids

theorem Tower.down {g lower next : MLGraph} {lowers : List MLGraph}
    (h : Tower g (lower :: next :: lowers)) : Tower (toLowerLevel g) (next :: lowers) := by
  obtain ⟨hlower, -, hnext, hne, htower⟩ := h
  exact ⟨hnext.toLowerLevel hlower, hne, htower⟩

theorem Tower.adjust {g g' lower : MLGraph} {lowers : List MLGraph} {orders : AdjustOrders}
    {used used' : ℕ} (h : Tower g (lower :: lowers))
    (hadjust : p.adjustBoundaries orders g used = some (g', used')) :
    Tower g' (lower :: lowers) := by
  obtain ⟨hlower, hne, htower⟩ := h
  exact ⟨(adjustBoundaries_hierarchy hlower htower.ids hadjust).1, hne, htower⟩

theorem Built.tower {g : MLGraph} {lowers : List MLGraph} (h : Built p (PassOk p) g lowers) :
    Tower g lowers := by
  induction h with
  | base hids hatomic => exact ⟨hids, hatomic⟩
  | merge _ hmeets hmerge ih =>
    refine ⟨?_, mergeAdjacents_nonempty hmerge, ih⟩
    exact (mergeAdjacents_hierarchy_iff ih.ids hmerge (mergeAdjacents_verify hmerge)).mpr hmeets
  | adjust _ hadjust ih => exact ih.adjust hadjust
  | down _ ih => exact ih.down

theorem Tower.uniform {g : MLGraph} {lowers : List MLGraph} (h : Tower g lowers) :
    ∀ n ∈ g.nodes, n.Uniform lowers.length := by
  induction lowers generalizing g with
  | nil => exact h.2
  | cons lower lowers ih =>
    obtain ⟨hlower, -, htower⟩ := h
    intro n hn
    refine ⟨hlower.nonempty n hn, fun sn hsn => ih htower sn ?_⟩
    exact hlower.nodes.mem_iff.mp (List.mem_flatMap.mpr ⟨n, hn, hsn⟩)

theorem Tower.getLevel_eq {g lower : MLGraph} {lowers : List MLGraph}
    (h : Tower g (lower :: lowers)) : g.getLevel = lowers.length + 1 := by
  have huniform := h.uniform
  obtain ⟨hlower, hne, -⟩ := h
  have hnodes : g.nodes ≠ [] := by
    intro hnil
    have hperm := hlower.nodes
    rw [hnil] at hperm
    exact hne hperm.nil_eq.symm
  obtain ⟨n, nodes, hcons⟩ := List.exists_cons_of_ne_nil hnodes
  have hlevel := (huniform n (hcons ▸ List.mem_cons_self)).getLevel_eq
  rw [MLGraph.getLevel, hcons]
  simp [hlevel]

/-- Nothing is lost by going down a level to the graph `next`. -/
structure Lossless (g next : MLGraph) : Prop where
  verified : (toLowerLevel g).verify = true
  nodes : (toLowerLevel g).nodes.map (fun n => (n.id, n.graph)) =
    g.nodes.map fun n => (n.id, n.graph)
  atomic : (toLowerLevel g).nodes.map MLNode.atomicNodes = g.nodes.map MLNode.atomicNodes
  sizes : sumEdgeSizes (toLowerLevel g).edges = sumEdgeSizes g.edges
  edges : (toLowerLevel g).lowerEdges.Perm next.edges
  level : (toLowerLevel g).getLevel = g.getLevel - 1

theorem Tower.lossless {g lower next : MLGraph} {lowers : List MLGraph}
    (h : Tower g (lower :: next :: lowers)) : Lossless g next := by
  have huniform := h.uniform
  have hdown := h.down
  have hlevel := h.getLevel_eq
  obtain ⟨hlower, -, hnext, -, -⟩ := h
  constructor
  case verified => exact hdown.1.verified
  case nodes =>
    rw [toLowerLevel, List.map_map]
    rfl
  case atomic =>
    rw [toLowerLevel, List.map_map]
    exact List.map_congr_left fun n hn => (huniform n hn).atomicNodes_toLower
  case sizes => exact hnext.sumEdgeSizes_toLowerLevel hlower
  case edges => exact hdown.1.edges
  case level =>
    rw [hdown.getLevel_eq, hlevel, List.length_cons]
    push_cast
    omega

/-- The loop makes as many turns as there are levels to leave. -/
theorem Tower.uncoarsenLoop_eq {orders : AdjustOrders} {lowers : List MLGraph} {fuel : ℕ}
    {g lower : MLGraph} {used : ℕ} (h : Tower g (lower :: lowers)) (hfuel : lowers.length < fuel) :
    p.uncoarsenLoop orders fuel g used = p.uncoarsenTurns orders lowers.length g used := by
  induction lowers generalizing g lower fuel used with
  | nil =>
    obtain ⟨fuel, rfl⟩ := Nat.exists_eq_succ_of_ne_zero (by omega : fuel ≠ 0)
    rw [uncoarsenLoop, h.getLevel_eq, if_neg (by simp)]
    rfl
  | cons next lowers ih =>
    obtain ⟨fuel, rfl⟩ := Nat.exists_eq_succ_of_ne_zero (by omega : fuel ≠ 0)
    rw [uncoarsenLoop, h.getLevel_eq, if_pos (by push_cast [List.length_cons]; omega),
      List.length_cons, uncoarsenTurns]
    refine Option.bind_congr fun res hres => ?_
    exact ih (h.down.adjust hres) (by simpa using hfuel)

theorem Tower.uncoarsenTurns_level {orders : AdjustOrders} {lowers : List MLGraph}
    {g lower : MLGraph} {used : ℕ} (h : Tower g (lower :: lowers)) {turns used' : ℕ}
    {g' : MLGraph} (hturns : turns ≤ lowers.length)
    (hres : p.uncoarsenTurns orders turns g used = some (g', used')) :
    g'.getLevel = lowers.length + 1 - turns := by
  induction turns generalizing g lower lowers used with
  | zero =>
    obtain ⟨rfl, -⟩ := Prod.mk.inj (Option.some.inj hres)
    rw [h.getLevel_eq]
    simp
  | succ turns ih =>
    cases lowers with
    | nil => simp at hturns
    | cons next lowers =>
      obtain ⟨res, hadjust, hres⟩ := Option.bind_eq_some_iff.mp hres
      rw [ih (h.down.adjust hadjust) (by simpa using hturns) hres]
      push_cast [List.length_cons]
      omega

/-- Where the passes lose nothing, going down a level loses nothing either, whatever was adjusted in
between, and the loop that goes down ends when one level is left. -/
theorem toLowerLevel_lossless {g lower next : MLGraph} {lowers : List MLGraph}
    (hbuilt : Built p (PassOk p) g (lower :: next :: lowers)) :
    (∀ n ∈ g.nodes, n.getLevel = lowers.length + 2) ∧ Lossless g next ∧
      ∀ (orders : AdjustOrders) (used fuel : ℕ), lowers.length + 1 < fuel →
        p.uncoarsenLoop orders fuel g used =
          p.uncoarsenTurns orders (lowers.length + 1) g used ∧
        p.uncoarsen orders fuel g used = (p.adjustBoundaries orders g used).bind
          (fun res => p.uncoarsenTurns orders (lowers.length + 1) res.1 res.2) ∧
        ∀ (turns used' : ℕ) (g' : MLGraph), turns ≤ lowers.length + 1 →
          p.uncoarsenTurns orders turns g used = some (g', used') →
          g'.getLevel = lowers.length + 2 - turns := by
  have htower := hbuilt.tower
  refine ⟨fun n hn => (htower.uniform n hn).getLevel_eq, htower.lossless,
    fun orders used fuel hfuel => ⟨htower.uncoarsenLoop_eq hfuel, ?_, ?_⟩⟩
  · refine Option.bind_congr fun res hres => ?_
    exact (htower.adjust hres).uncoarsenLoop_eq hfuel
  · intro turns used' g' hturns hres
    rw [htower.uncoarsenTurns_level hturns hres, List.length_cons]
    push_cast
    ring

instance (edges : List MLEdge) (pairs : List (String × String)) :
    Decidable (JoinedOnce edges pairs) :=
  decidable_of_iff ((∀ e ∈ edges, e.src_id ≠ e.tgt_id) ∧
      (∀ q ∈ pairs, (edges.filter fun e => e.ends = q).length = 1) ∧
      ∀ q ∈ pairs, ∀ e ∈ edges, (e.tgt_id, e.src_id) ≠ q)
    ⟨fun ⟨hapart, honce, hforth⟩ => ⟨hapart, honce, hforth⟩,
      fun h => ⟨h.apart, h.once, h.forth⟩⟩

instance (ml_graph : MLGraph) (skip_profiling : Bool) (min_partition_num used : ℕ) :
    Decidable (PassOk p ml_graph skip_profiling min_partition_num used) :=
  inferInstanceAs (Decidable (_ ∧ _))

/-- Six operators one after the other. -/
def longChainGraph : MLGraph where
  nodes := [crossingNode "ML_a" "relu" ["x"] "p", crossingNode "ML_b" "tanh" ["p"] "q",
    crossingNode "ML_c" "exp" ["q"] "r", crossingNode "ML_d" "relu" ["r"] "s",
    crossingNode "ML_e" "tanh" ["s"] "t", crossingNode "ML_f" "exp" ["t"] "u"]
  edges := [crossingEdge "ML_a" "ML_b" "p", crossingEdge "ML_b" "ML_c" "q",
    crossingEdge "ML_c" "ML_d" "r", crossingEdge "ML_d" "ML_e" "s",
    crossingEdge "ML_e" "ML_f" "t"]

theorem longChain_passes : PassOk crossingPartitioner longChainGraph false 1 0 ∧
    ((crossingPartitioner.mergeAdjacents longChainGraph false 1 0).bind fun res =>
      if PassOk crossingPartitioner res.1 false 1 res.2 then
        crossingPartitioner.mergeAdjacents res.1 false 1 res.2
      else none).isSome := by
  decide +kernel

theorem toLowerLevel_lossless_longChain : ∃ g lower,
    Built crossingPartitioner (PassOk crossingPartitioner) g [lower, longChainGraph] ∧
      Lossless g longChainGraph := by
  obtain ⟨hfirst, hpasses⟩ := longChain_passes
  obtain ⟨⟨g, used₂⟩, hpasses⟩ := Option.isSome_iff_exists.mp hpasses
  obtain ⟨⟨lower, used₁⟩, hlower, hg⟩ := Option.bind_eq_some_iff.mp hpasses
  split_ifs at hg with hsecond
  have hbase : Built crossingPartitioner (PassOk crossingPartitioner) longChainGraph [] :=
    .base (by decide) (by decide)
  have hbuilt := (hbase.merge hfirst hlower).merge hsecond hg
  exact ⟨g, lower, hbuilt, (toLowerLevel_lossless hbuilt).2.1⟩

/-- Three operators one after the other, and four slow ones. -/
def doubledGraph : MLGraph where
  nodes := [crossingNode "ML_a" "relu" ["x"] "p", crossingNode "ML_b" "tanh" ["p"] "q",
    crossingNode "ML_c" "exp" ["q"] "r", crossingNode "ML_d" "relu" ["y"] "s",
    crossingNode "ML_e" "tanh" ["s"] "t", crossingNode "ML_f" "exp" ["t"] "u",
    crossingNode "ML_g" "relu" ["u"] "v"]
  edges := [crossingEdge "ML_a" "ML_b" "p", crossingEdge "ML_b" "ML_c" "q",
    crossingEdge "ML_d" "ML_e" "s", crossingEdge "ML_e" "ML_f" "t", crossingEdge "ML_f" "ML_g" "u"]

/-- A partitioner that finds the second and the third operator fast together, and all three slower
by one than the parts. -/
def doublingPartitioner : MLPartitioner :=
  { crossingPartitioner with
    profile := fun g =>
      if g.input_names = ["x"] then ⟨if g.nodes.length = 1 then 0 else
        if g.nodes.length = 2 then 50 else 2, 0, 0⟩
      else if g.input_names = ["p"] then ⟨if g.nodes.length = 1 then 0 else 1, 0, 0⟩
      else if g.input_names = ["q"] then ⟨1, 0, 0⟩
      else ⟨100, 0, 0⟩ }

theorem doubled_edges : ((doublingPartitioner.mergeAdjacents doubledGraph false 1 0).bind fun res =>
    (doublingPartitioner.mergeAdjacents res.1 false 1 res.2).map fun res =>
      (toLowerLevel res.1).lowerEdges.length) = some 7 := by
  decide +kernel

/-- Two of the edges are in two places. -/
theorem not_toLowerLevel_lossless : ¬ ∀ (p : MLPartitioner) (g lower next : MLGraph)
    (lowers : List MLGraph), Built p (fun _ _ _ _ => True) g (lower :: next :: lowers) →
    Lossless g next := by
  intro h
  obtain ⟨⟨lower, used₁⟩, hlower, hpass⟩ := Option.bind_eq_some_iff.mp doubled_edges
  obtain ⟨⟨g, used₂⟩, hg, hlength⟩ := Option.map_eq_some_iff.mp hpass
  have hbase : Built doublingPartitioner (fun _ _ _ _ => True) doubledGraph [] :=
    .base (by decide) (by decide)
  have hlossless := h _ _ _ _ _ ((hbase.merge trivial hlower).merge trivial hg)
  exact absurd (hlength.symm.trans hlossless.edges.length_eq) (by decide)

end MLPartitioner

end Rannc
