import Rannc.Graph.Coarsening
import Rannc.Graph.SmallMergeOrder
import Rannc.Lib.Grouping

/-!
# What a pass of coarsening loses

A pass puts the nodes into groups of one or two, and an edge inside a group goes to the merged node.
Two things go wrong. Only the first edge between two nodes is found when they are merged, and the
node of a merge that is worse by just one unit is taken although the merge is not accepted.
-/
namespace Rannc

open Rannc.Digraph

/-- The edge goes between nodes that are not merged into one. -/
def Outside (name_map : List (String × String)) (e : MLEdge) : Prop :=
  name_map.lookup e.src_id ≠ name_map.lookup e.tgt_id

instance (name_map : List (String × String)) : DecidablePred (Outside name_map) :=
  fun _ => inferInstanceAs (Decidable (_ ≠ _))

theorem addUnmerged_perm {name_map : List (String × String)} {map map' : MLEdgeVectorMap}
    {e : MLEdge} (hkeys : (map.map Prod.fst).Nodup) (h : addUnmerged name_map map e = some map') :
    (map'.map Prod.fst).Nodup ∧ (map'.flatMap Prod.snd).Perm
      (map.flatMap Prod.snd ++ [e].filter (Outside name_map)) := by
  simp only [addUnmerged, Option.bind_eq_bind, Option.bind_eq_some_iff, Option.pure_def] at h
  obtain ⟨new_src, hsrc, new_tgt, htgt, h⟩ := h
  have houtside : Outside name_map e ↔ new_src ≠ new_tgt := by
    rw [Outside, hsrc, htgt, Ne, Option.some.injEq]
  split_ifs at h with hself hmem
  · obtain rfl := Option.some.inj h
    rw [List.filter_singleton, decide_eq_false (by simp [houtside, hself])]
    simpa using hkeys
  · obtain rfl := Option.some.inj h
    rw [List.filter_singleton, decide_eq_true (houtside.mpr hself)]
    refine ⟨?_, flatMap_appendTo_perm hkeys hmem e⟩
    have hsame : (map.map fun it => if it.1 = (new_src, new_tgt) then (it.1, it.2 ++ [e])
        else it).map Prod.fst = map.map Prod.fst := by
      rw [List.map_map]
      refine List.map_congr_left fun it _ => ?_
      rw [Function.comp_apply]
      split_ifs <;> rfl
    rwa [hsame]
  · obtain rfl := Option.some.inj h
    rw [List.filter_singleton, decide_eq_true (houtside.mpr hself), List.map_append,
      List.flatMap_append]
    refine ⟨List.nodup_append.mpr ⟨hkeys, List.nodup_singleton _, ?_⟩, by simp⟩
    intro key hkey key' hkey' heq
    obtain rfl : key' = (new_src, new_tgt) := List.mem_singleton.mp hkey'
    exact hmem (heq ▸ hkey)

/-- The edges that are not inside a node are the sub edges of the new ones, which are between
different nodes each. -/
theorem mergeEdgesNoCopy_perm {order : MapOrder ((String × String) × List MLEdge)}
    {edges merged_edges : List MLEdge} {name_map : List (String × String)}
    (h : mergeEdgesNoCopy order edges name_map = some merged_edges) :
    (merged_edges.map MLEdge.ends).Nodup ∧
      (merged_edges.flatMap MLEdge.sub_edges).Perm (edges.filter (Outside name_map)) := by
  obtain ⟨unmerged_edges, hfold, hres⟩ := Option.bind_eq_some_iff.mp h
  obtain rfl := Option.some.inj hres
  have hrun := foldlM_prefix (I := fun before map => (map.map Prod.fst).Nodup ∧
    (map.flatMap Prod.snd).Perm (before.filter (Outside name_map))) (by
      rintro before e after map map' - ⟨hkeys, hperm⟩ hstep
      obtain ⟨hkeys', hperm'⟩ := addUnmerged_perm hkeys hstep
      rw [List.filter_append]
      exact ⟨hkeys', hperm'.trans (hperm.append_right _)⟩) (by simp) hfold
  rw [List.flatMap_map, List.map_map]
  refine ⟨?_, ((order.perm unmerged_edges).flatMap_right _).trans hrun.2⟩
  exact (((order.perm unmerged_edges).map Prod.fst).nodup_iff).mpr hrun.1

namespace MLPartitioner

variable {p : MLPartitioner} {pass : Pass}

/-- The neighbour of the best merge where it is not accepted. -/
def BestMerge.refused (best : BestMerge) : Option String :=
  if best.best_imprv ≥ 0 then none else best.best_adj

/-- The neighbour that is in the merged node of a node but is not taken. -/
def refusedBy (p : MLPartitioner) (pass : Pass) (st : MergeState) (v : MLNode) : Option String :=
  if v.id ∈ st.matched then none else (findBest p pass st v).bind BestMerge.refused

/-- The pairs that are merged but not accepted, in their order. -/
def refusedPairs (p : MLPartitioner) (pass : Pass) (st : MergeState) :
    List MLNode → List (String × String)
  | [] => []
  | v :: nodes =>
    (refusedBy p pass st v).toList.map (v.id, ·) ++
      match mergeNode p pass st v with
      | none => []
      | some st' => refusedPairs p pass st' nodes

/-- The first edge from one node to another. -/
def firstEdge (edges : List MLEdge) (q : String × String) : List MLEdge :=
  (edges.find? fun e => e.src_id = q.1 ∧ e.tgt_id = q.2).toList

/-- The best merge of a node: alone, or with a neighbour. -/
structure BestShape (pass : Pass) (v : MLNode) (best : BestMerge) : Prop where
  alone : best.best_adj = none →
    best.best_merged.sub_nodes = [v] ∧ best.best_merged.sub_edges = []
  merged : ∀ adj, best.best_adj = some adj → ∃ a, pass.bg.node? adj = some a ∧
    best.best_merged.sub_nodes = [v, a] ∧
    best.best_merged.sub_edges = firstEdge pass.ml_graph.edges (v.id, adj)

theorem node?_id {bg : MLBGraph} {v : String} {n : MLNode} (h : bg.node? v = some n) :
    n.id = v ∧ n ∈ bg.nodes := by
  refine ⟨?_, List.mem_of_find?_eq_some h⟩
  simpa using List.find?_some h

theorem merge_sub_edges {name : String} {n1 n2 n : MLNode} {all_nodes : List MLNode}
    {edges : List MLEdge} (h : merge name n1 n2 all_nodes edges = some n) :
    n.sub_edges = ml_edge n1 n2 edges := by
  simp only [merge, Option.bind_eq_bind, Option.bind_eq_some_iff, Option.pure_def,
    Option.some.injEq] at h
  obtain ⟨graph, -, graph', -, rfl⟩ := h
  rfl

theorem tryTarget_shape {matched : List String} {v : MLNode} {best best' : BestMerge}
    {b_adj : String} (hbest : BestShape pass v best)
    (h : tryTarget p pass matched v best b_adj = some best') : BestShape pass v best' := by
  unfold tryTarget at h
  split_ifs at h with hmatched hconvex
  · exact Option.some.inj h ▸ hbest
  · exact Option.some.inj h ▸ hbest
  · simp only [Option.bind_eq_bind, Option.bind_eq_some_iff] at h
    obtain ⟨adj, hadj, cut_values, -, cut_size, -, -, -, merged, hmerged, h⟩ := h
    cases heval : p.evalMerged pass.skip_profiling pass.eval_limit v adj merged with
    | none =>
      rw [heval] at h
      obtain rfl := Option.some.inj h
      exact ⟨hbest.alone, hbest.merged⟩
    | some eval_merged =>
      simp only [heval] at h
      split_ifs at h with himprv
      · obtain rfl := Option.some.inj h
        refine ⟨fun hnone => absurd hnone (by simp), fun adj' hadj' => ?_⟩
        obtain rfl := Option.some.inj hadj'
        refine ⟨adj, hadj, merge_sub_nodes hmerged, ?_⟩
        rw [merge_sub_edges hmerged, ml_edge, (node?_id hadj).1]
        rfl
      · obtain rfl := Option.some.inj h
        exact ⟨hbest.alone, hbest.merged⟩

theorem findBest_shape {st : MergeState} {v : MLNode} {best : BestMerge}
    (h : findBest p pass st v = some best) : BestShape pass v best ∧
      (best.best_adj ≠ none →
        pass.min_partition_num < pass.nodes_sort.length - st.matched.length +
          st.merged_nodes.length) := by
  unfold findBest at h
  have halone : BestShape pass v
      ⟨-1, none, liftUp (p.names.generateName st.used "ML_") v, st.used + 1⟩ :=
    ⟨fun _ => ⟨rfl, rfl⟩, nofun⟩
  refine ⟨foldlM_invariant (fun best b_adj best' _ hbest => tryTarget_shape hbest) halone h, ?_⟩
  intro hadj
  by_contra hfew
  rw [if_neg hfew] at h
  obtain rfl := Option.some.inj h
  exact hadj rfl

/-- After some nodes: the sub nodes of the merged ones are the matched ones, and the neighbours of
the merges that were refused. -/
structure RegroupOk (pass : Pass) (st : MergeState) (pairs refused : List (String × String)) :
    Prop where
  sub_nodes : ∀ n ∈ st.merged_nodes.flatMap MLNode.sub_nodes, n ∈ pass.bg.nodes
  ids : ((st.merged_nodes.flatMap MLNode.sub_nodes).map MLNode.id).Perm
    (st.matched ++ refused.map Prod.snd)
  edges : refused = [] → st.merged_nodes.flatMap MLNode.sub_edges =
    pairs.flatMap (firstEdge pass.ml_graph.edges)
  few : ∀ n ∈ st.merged_nodes, n.sub_nodes.length ≤ 2
  matched_nodup : st.matched.Nodup
  matched : ∀ x ∈ st.matched, x ∈ pass.bg.nodes.map MLNode.id
  count : min pass.min_partition_num pass.bg.nodes.length ≤
    st.merged_nodes.length + (pass.bg.nodes.length - st.matched.length)

theorem regroupOk_nil (pass : Pass) (used : ℕ) : RegroupOk pass ⟨[], [], [], used⟩ [] [] := by
  constructor <;> simp

theorem RegroupOk.group {st : MergeState} {pairs refused group_pairs group_refused :
      List (String × String)} {group : List String} {name_map : List (String × String)}
    {node : MLNode} {used : ℕ} (hst : RegroupOk pass st pairs refused)
    (hunmatched : ∀ x ∈ group, x ∉ st.matched) (hgroup : group.Nodup)
    (hmem : ∀ x ∈ group, x ∈ pass.bg.nodes.map MLNode.id)
    (hsub : ∀ n ∈ node.sub_nodes, n ∈ pass.bg.nodes)
    (hids : node.sub_nodes.map MLNode.id = group ++ group_refused.map Prod.snd)
    (hedges : group_refused = [] →
      node.sub_edges = group_pairs.flatMap (firstEdge pass.ml_graph.edges))
    (hfew : node.sub_nodes.length ≤ 2)
    (hcount : 1 < group.length → pass.min_partition_num <
      pass.bg.nodes.length - st.matched.length + st.merged_nodes.length) :
    RegroupOk pass ⟨group ++ st.matched, st.merged_nodes ++ [node], name_map, used⟩
      (pairs ++ group_pairs) (refused ++ group_refused) := by
  have hnodup : (group ++ st.matched).Nodup :=
    List.nodup_append.mpr ⟨hgroup, hst.matched_nodup, fun x hx y hy heq =>
      hunmatched x hx (heq ▸ hy)⟩
  have hmatched : ∀ x ∈ group ++ st.matched, x ∈ pass.bg.nodes.map MLNode.id :=
    List.forall_mem_append.mpr ⟨hmem, hst.matched⟩
  constructor
  case sub_nodes =>
    rw [List.flatMap_append]
    exact List.forall_mem_append.mpr ⟨hst.sub_nodes, by simpa using hsub⟩
  case ids =>
    rw [List.flatMap_append, List.map_append, List.map_append, List.flatMap_singleton, hids]
    refine (hst.ids.append_right _).trans (List.perm_iff_count.mpr fun x => ?_)
    simp only [List.count_append]
    omega
  case edges =>
    intro hnone
    obtain ⟨hrefused, hgroup_refused⟩ := List.append_eq_nil_iff.mp hnone
    rw [List.flatMap_append, List.flatMap_append, hst.edges hrefused, List.flatMap_singleton,
      hedges hgroup_refused]
  case few => exact List.forall_mem_append.mpr ⟨hst.few, by simpa using hfew⟩
  case matched_nodup => exact hnodup
  case matched => exact hmatched
  case count =>
    have hle : (group ++ st.matched).length ≤ pass.bg.nodes.length := by
      simpa using (List.subperm_of_subset hnodup hmatched).length_le
    have htwo : group.length ≤ 2 := by
      have hlen := congrArg List.length hids
      rw [List.length_map, List.length_append] at hlen
      omega
    have hold := hst.count
    rw [List.length_append] at hle
    simp only [List.length_append, List.length_singleton]
    by_cases hgroup : 1 < group.length
    · have hmany := hcount hgroup
      omega
    · omega

theorem mergeNode_regroup {st st' : MergeState} {pairs refused : List (String × String)}
    {v : MLNode} (hst : RegroupOk pass st pairs refused) (hv_mem : v ∈ pass.bg.nodes)
    (hlength : pass.nodes_sort.length = pass.bg.nodes.length)
    (h : mergeNode p pass st v = some st') :
    RegroupOk pass st' (pairs ++ (acceptedBy p pass st v).toList.map (v.id, ·))
      (refused ++ (refusedBy p pass st v).toList.map (v.id, ·)) := by
  unfold mergeNode at h
  split_ifs at h with hv
  · obtain rfl := Option.some.inj h
    simpa [acceptedBy, refusedBy, hv] using hst
  simp only [Option.bind_eq_bind, Option.bind_eq_some_iff, Option.pure_def] at h
  obtain ⟨best, hfind, h⟩ := h
  obtain rfl := Option.some.inj h
  obtain ⟨-, hchoice⟩ := findBest_ok hfind
  obtain ⟨⟨halone, hmerged⟩, hcount⟩ := findBest_shape hfind
  rw [hlength] at hcount
  have haccepted : acceptedBy p pass st v = best.accepted := by
    rw [acceptedBy, if_neg hv, hfind, Option.bind_some]
  have hrefused : refusedBy p pass st v = best.refused := by
    rw [refusedBy, if_neg hv, hfind, Option.bind_some]
  have hv_id : v.id ∈ pass.bg.nodes.map MLNode.id := List.mem_map_of_mem hv_mem
  rw [haccepted, hrefused]
  cases hadj : best.best_adj with
  | none =>
    obtain ⟨hsub, hedges⟩ := halone hadj
    have hnone : best.accepted = none ∧ best.refused = none := by
      simp [BestMerge.accepted, BestMerge.refused, hadj]
    rw [hnone.1, hnone.2]
    apply hst.group <;> simp [-List.mem_map, hsub, hedges, hv, hv_mem, hv_id]
  | some adj =>
    obtain ⟨a, ha, hsub, hedges⟩ := hmerged adj hadj
    obtain ⟨ha_id, ha_mem⟩ := node?_id ha
    obtain ⟨hmatched, -, hconvex⟩ := hchoice adj hadj
    have hne := isConvex_ne hconvex
    have hadj_id : adj ∈ pass.bg.nodes.map MLNode.id := ha_id ▸ List.mem_map_of_mem ha_mem
    have hcount := hcount (by simp [hadj])
    by_cases himprv : best.best_imprv ≥ 0
    · have hsome : best.accepted = some adj ∧ best.refused = none := by
        simp [BestMerge.accepted, BestMerge.refused, hadj, himprv]
      rw [hsome.1, hsome.2]
      apply hst.group <;>
        simp [-List.mem_map, hsub, hedges, hv, hv_mem, hv_id, hmatched, hne, hadj_id, ha_id, ha_mem,
          hcount]
    · have hnone : best.accepted = none ∧ best.refused = some adj := by
        simp [BestMerge.accepted, BestMerge.refused, hadj, himprv]
      rw [hnone.1, hnone.2]
      apply hst.group <;> simp [-List.mem_map, hsub, hv, hv_mem, hv_id, ha_id, ha_mem]

theorem mergeNodes_regroup {nodes : List MLNode} {st st' : MergeState}
    {pairs refused : List (String × String)} (hst : RegroupOk pass st pairs refused)
    (hnodes : ∀ v ∈ nodes, v ∈ pass.bg.nodes)
    (hlength : pass.nodes_sort.length = pass.bg.nodes.length)
    (h : nodes.foldlM (mergeNode p pass) st = some st') :
    RegroupOk pass st' (pairs ++ acceptedPairs p pass st nodes)
      (refused ++ refusedPairs p pass st nodes) := by
  induction nodes generalizing st pairs refused with
  | nil =>
    obtain rfl := Option.some.inj h
    simpa [acceptedPairs, refusedPairs] using hst
  | cons v nodes ih =>
    rw [List.foldlM_cons] at h
    obtain ⟨st₁, hstep, hrest⟩ := Option.bind_eq_some_iff.mp h
    have hst₁ := mergeNode_regroup hst (hnodes v List.mem_cons_self) hlength hstep
    have hst' := ih hst₁ (List.forall_mem_of_forall_mem_cons hnodes) hrest
    rw [acceptedPairs, refusedPairs, hstep]
    simpa using hst'

theorem RegroupOk.matched_perm {st : MergeState} {pairs refused : List (String × String)}
    (hst : RegroupOk pass st pairs refused) {ml_graph : MLGraph}
    (hbg_nodes : pass.bg.nodes = ml_graph.nodes) (hids : ml_graph.ids.Nodup)
    (hmatched : ∀ v ∈ ml_graph.nodes, v.id ∈ st.matched) : st.matched.Perm ml_graph.ids := by
  refine (List.perm_ext_iff_of_nodup hst.matched_nodup hids).mpr fun x => ⟨fun hx => ?_, ?_⟩
  · rw [MLGraph.ids, ← hbg_nodes]
    exact hst.matched x hx
  · intro hx
    obtain ⟨v, hv, rfl⟩ := List.mem_map.mp hx
    exact hmatched v hv

theorem mergeNodes_nonempty {nodes : List MLNode} {st st' : MergeState}
    (hst : ∀ n ∈ st.merged_nodes, n.sub_nodes ≠ [])
    (h : nodes.foldlM (mergeNode p pass) st = some st') :
    ∀ n ∈ st'.merged_nodes, n.sub_nodes ≠ [] := by
  refine foldlM_invariant (P := fun st : MergeState => ∀ n ∈ st.merged_nodes, n.sub_nodes ≠ [])
    ?_ hst h
  intro st v st' _ hst hstep
  unfold mergeNode at hstep
  split_ifs at hstep with hv
  · exact Option.some.inj hstep ▸ hst
  · obtain ⟨best, hfind, hstep⟩ := Option.bind_eq_some_iff.mp hstep
    obtain rfl := Option.some.inj hstep
    obtain ⟨⟨halone, hmerged⟩, -⟩ := findBest_shape hfind
    refine List.forall_mem_append.mpr ⟨hst, List.forall_mem_singleton.mpr ?_⟩
    cases hadj : best.best_adj with
    | none => simp [(halone hadj).1]
    | some adj =>
      obtain ⟨a, -, hsub, -⟩ := hmerged adj hadj
      simp [hsub]

/-- The merges of a pass whose node is taken although they are not accepted. -/
def passRefused (p : MLPartitioner) (ml_graph : MLGraph) (skip_profiling : Bool)
    (min_partition_num used : ℕ) : List (String × String) :=
  match p.startPass ml_graph skip_profiling min_partition_num with
  | none => []
  | some pass => refusedPairs p pass ⟨[], [], [], used⟩ pass.nodes_sort

/-- The nodes and the edges of a graph, one level up: each of them is in one place. -/
structure Regroups (ml_graph res : MLGraph) (min_partition_num : ℕ) : Prop where
  nodes : (res.nodes.flatMap MLNode.sub_nodes).Perm ml_graph.nodes
  few : ∀ n ∈ res.nodes, n.sub_nodes.length ≤ 2
  edges : (res.edges.flatMap MLEdge.sub_edges ++ res.nodes.flatMap MLNode.sub_edges).Perm
    ml_graph.edges
  ends : ∀ e ∈ res.edges, e.src_id ∈ res.ids ∧ e.tgt_id ∈ res.ids
  count : min min_partition_num ml_graph.nodes.length ≤ res.nodes.length

/-- No node has an edge to itself, and the two nodes of every pair have just one edge between
them. -/
structure JoinedOnce (edges : List MLEdge) (pairs : List (String × String)) : Prop where
  apart : ∀ e ∈ edges, e.src_id ≠ e.tgt_id
  once : ∀ q ∈ pairs, (edges.filter fun e => e.ends = q).length = 1
  forth : ∀ q ∈ pairs, ∀ e ∈ edges, (e.tgt_id, e.src_id) ≠ q

section Pairs

variable {pairs : List (String × String)}

theorem pair_ne (hnodup : (pairNodes pairs).Nodup) {a b : String} (hab : (a, b) ∈ pairs) :
    a ≠ b ∧ (b, a) ∉ pairs := by
  obtain ⟨heach, hpairwise⟩ := List.nodup_flatMap.mp hnodup
  have hne : a ≠ b := by simpa using heach (a, b) hab
  refine ⟨hne, fun hba => ?_⟩
  have hsymm : Std.Symm (Function.onFun List.Disjoint fun q : String × String => [q.1, q.2]) :=
    ⟨fun _ _ h => h.symm⟩
  have hdisjoint := hpairwise.forall hab hba fun heq => hne (Prod.mk.inj heq).1
  exact hdisjoint List.mem_cons_self (by simp)

theorem pairs_nodup (hnodup : (pairNodes pairs).Nodup) : pairs.Nodup := by
  refine (List.nodup_flatMap.mp hnodup).2.imp fun hdisjoint heq => ?_
  subst heq
  exact hdisjoint List.mem_cons_self List.mem_cons_self

/-- The edge is inside one of the pairs, or a node. -/
def Inside (pairs : List (String × String)) (e : MLEdge) : Prop :=
  e.src_id = e.tgt_id ∨ e.ends ∈ pairs ∨ (e.tgt_id, e.src_id) ∈ pairs

instance (pairs : List (String × String)) : DecidablePred (Inside pairs) :=
  fun _ => inferInstanceAs (Decidable (_ ∨ _ ∨ _))

theorem firstEdge_eq_filter {edges : List MLEdge} {q : String × String}
    (hone : (edges.filter fun e => e.ends = q).length = 1) :
    firstEdge edges q = edges.filter fun e => e.ends = q := by
  have hkey : (fun e : MLEdge => decide (e.src_id = q.1 ∧ e.tgt_id = q.2)) =
      fun e => decide (e.ends = q) := by
    funext e
    exact decide_eq_decide.mpr (by rw [MLEdge.ends, Prod.ext_iff])
  obtain ⟨e, he⟩ := List.length_eq_one_iff.mp hone
  rw [firstEdge, hkey, ← List.head?_filter, he]
  rfl

theorem filter_ends_perm (hnodup : (pairNodes pairs).Nodup) (edges : List MLEdge) :
    (edges.filter fun e => e.ends ∈ pairs).Perm
      (pairs.flatMap fun q => edges.filter fun e => e.ends = q) := by
  convert filter_perm_flatMap MLEdge.ends (pairs_nodup hnodup) edges

theorem JoinedOnce.firstEdges_perm {edges : List MLEdge} (h : JoinedOnce edges pairs)
    (hnodup : (pairNodes pairs).Nodup) :
    (pairs.flatMap (firstEdge edges)).Perm (edges.filter (Inside pairs)) := by
  have hinside : edges.filter (Inside pairs) = edges.filter fun e => e.ends ∈ pairs := by
    refine List.filter_congr fun e he => decide_eq_decide.mpr ?_
    constructor
    · rintro (heq | hforth | hback)
      · exact absurd heq (h.apart e he)
      · exact hforth
      · exact absurd rfl (h.forth _ hback e he)
    · exact fun hforth => Or.inr (Or.inl hforth)
  rw [hinside, List.flatMap_congr fun q hq => firstEdge_eq_filter (h.once q hq)]
  exact (filter_ends_perm hnodup edges).symm

theorem length_firstEdge {edges : List MLEdge} {q : String × String}
    (hedge : ∃ e ∈ edges, e.ends = q) : (firstEdge edges q).length = 1 := by
  obtain ⟨e, he, rfl⟩ := hedge
  rw [firstEdge]
  cases hfind : edges.find? fun e' => decide (e'.src_id = e.ends.1 ∧ e'.tgt_id = e.ends.2) with
  | none =>
    have hne := List.find?_eq_none.mp hfind e he
    simp [MLEdge.ends] at hne
  | some e' => rfl

/-- With as many edges inside as there are pairs, each pair has one and no other edge is inside. -/
theorem once_of_length {edges : List MLEdge} (hnodup : (pairNodes pairs).Nodup)
    (hedge : ∀ q ∈ pairs, ∃ e ∈ edges, e.ends = q)
    (hlength : (edges.filter (Inside pairs)).length = pairs.length) :
    (∀ q ∈ pairs, (edges.filter fun e => e.ends = q).length = 1) ∧
      ∀ e ∈ edges, Inside pairs e → e.ends ∈ pairs := by
  have hsub : (edges.filter fun e => e.ends ∈ pairs) =
      (edges.filter (Inside pairs)).filter fun e => e.ends ∈ pairs := by
    rw [List.filter_filter]
    refine List.filter_congr fun e _ => ?_
    by_cases he : e.ends ∈ pairs
    · simp [Inside, he]
    · simp [he]
  have hsum : ((pairs.map fun q => (edges.filter fun e => e.ends = q).length).sum) =
      (edges.filter fun e => e.ends ∈ pairs).length := by
    rw [(filter_ends_perm hnodup edges).length_eq, List.length_flatMap]
  have hle : (edges.filter fun e => e.ends ∈ pairs).length ≤ pairs.length := by
    rw [hsub, ← hlength]
    exact List.length_filter_le _ _
  have hone := eq_one_of_sum_eq_length (l := pairs.map fun q =>
    (edges.filter fun e => e.ends = q).length) (by
      intro n hn
      obtain ⟨q, hq, rfl⟩ := List.mem_map.mp hn
      obtain ⟨e, he, hends⟩ := hedge q hq
      exact List.length_pos_of_mem (List.mem_filter.mpr ⟨he, decide_eq_true hends⟩))
    (by rwa [hsum, List.length_map])
  have honce : ∀ q ∈ pairs, (edges.filter fun e => e.ends = q).length = 1 :=
    fun q hq => hone _ (List.mem_map_of_mem hq)
  have hall : ∀ e ∈ edges.filter (Inside pairs), decide (e.ends ∈ pairs) = true := by
    apply List.length_filter_eq_length_iff.mp
    rw [← hsub, ← hsum, List.map_congr_left honce, hlength]
    simp
  exact ⟨honce, fun e he hinside =>
    of_decide_eq_true (hall e (List.mem_filter.mpr ⟨he, decide_eq_true hinside⟩))⟩

theorem firstEdges_perm_iff {edges : List MLEdge} (hnodup : (pairNodes pairs).Nodup)
    (hedge : ∀ q ∈ pairs, ∃ e ∈ edges, e.ends = q) :
    (pairs.flatMap (firstEdge edges)).Perm (edges.filter (Inside pairs)) ↔
      JoinedOnce edges pairs := by
  refine ⟨fun h => ?_, fun h => h.firstEdges_perm hnodup⟩
  have hlength : (edges.filter (Inside pairs)).length = pairs.length := by
    rw [← h.length_eq, List.length_flatMap,
      List.map_congr_left fun q hq => length_firstEdge (hedge q hq)]
    simp
  obtain ⟨honce, hin⟩ := once_of_length hnodup hedge hlength
  constructor
  case apart =>
    intro e he heq
    exact (pair_ne hnodup (hin e he (Or.inl heq))).1 heq
  case once => exact honce
  case forth =>
    rintro q hq e he rfl
    exact (pair_ne hnodup (hin e he (Or.inr (Or.inr hq)))).2 hq

end Pairs

theorem startPass_settings {ml_graph : MLGraph} {skip_profiling : Bool} {min_partition_num : ℕ}
    (h : p.startPass ml_graph skip_profiling min_partition_num = some pass) :
    pass.ml_graph = ml_graph ∧ pass.min_partition_num = min_partition_num := by
  obtain ⟨bg, -, h⟩ := Option.bind_eq_some_iff.mp h
  obtain ⟨st, -, h⟩ := Option.bind_eq_some_iff.mp h
  obtain rfl := Option.some.inj h
  exact ⟨rfl, rfl⟩

/-- A pass that is through, with the pairs that it merged and those that it refused. -/
structure PassDone (p : MLPartitioner) (ml_graph res : MLGraph) (min_partition_num : ℕ)
    (pass : Pass) (st : MergeState) (pairs refused : List (String × String)) : Prop where
  nodes : res.nodes = st.merged_nodes
  edges : mergeEdgesNoCopy p.edge_order ml_graph.edges st.name_map = some res.edges
  start_graph : pass.ml_graph = ml_graph
  start_num : pass.min_partition_num = min_partition_num
  bg : pass.bg = ⟨ml_graph.nodes, ml_graph.ends⟩
  ends : ∀ e ∈ ml_graph.ends, e.1 ∈ ml_graph.ids ∧ e.2 ∈ ml_graph.ids
  ok : MergeOk p pass st pairs
  regroup : RegroupOk pass st pairs refused
  matched : st.matched.Perm ml_graph.ids

theorem exists_passDone {ml_graph res : MLGraph} {skip_profiling : Bool}
    {min_partition_num used used' : ℕ} (hids : ml_graph.ids.Nodup)
    (h : p.mergeAdjacents ml_graph skip_profiling min_partition_num used = some (res, used')) :
    ∃ pass st, PassDone p ml_graph res min_partition_num pass st
      (p.passPairs ml_graph skip_profiling min_partition_num used)
      (p.passRefused ml_graph skip_profiling min_partition_num used) := by
  obtain ⟨pass, st, hpass, hst, hedges, hnodes, -⟩ := mergeAdjacents_eq_some h
  obtain ⟨hends, hperm, hbg⟩ := startPass_eq_some hpass
  obtain ⟨hml_graph, hmin⟩ := startPass_settings hpass
  obtain ⟨hok, -, hmatched, -⟩ := mergeNodes_ok (mergeOk_nil p pass used) hst
  have hbg_nodes : pass.bg.nodes = ml_graph.nodes := by rw [hbg]
  have hregroup := mergeNodes_regroup (regroupOk_nil pass used)
    (fun v hv => hbg_nodes ▸ hperm.subset hv) (by rw [hbg_nodes, hperm.length_eq]) hst
  rw [List.nil_append] at hok
  rw [List.nil_append, List.nil_append] at hregroup
  refine ⟨pass, st, hnodes, hedges, hml_graph, hmin, hbg, fun e he => ?_, ?_, ?_,
    hregroup.matched_perm hbg_nodes hids fun v hv => hmatched v (hperm.mem_iff.mpr hv)⟩
  · rw [MLGraph.ids, ← (hperm.map MLNode.id).mem_iff, ← (hperm.map MLNode.id).mem_iff]
    exact hends e he
  · rw [passPairs, hpass]
    exact hok
  · rw [passPairs, passRefused, hpass]
    exact hregroup

theorem mergeAdjacents_shape {ml_graph res : MLGraph} {skip_profiling : Bool}
    {min_partition_num used used' : ℕ} (hids : ml_graph.ids.Nodup)
    (h : p.mergeAdjacents ml_graph skip_profiling min_partition_num used = some (res, used')) :
    (∀ n ∈ res.nodes, n.sub_nodes.length ≤ 2) ∧
      (∀ e ∈ res.edges, e.src_id ∈ res.ids ∧ e.tgt_id ∈ res.ids) ∧
      min min_partition_num ml_graph.nodes.length ≤ res.nodes.length := by
  obtain ⟨pass, st, hdone⟩ := exists_passDone hids h
  refine ⟨hdone.nodes ▸ hdone.regroup.few, fun e he => ?_, ?_⟩
  · obtain ⟨-, hmerged_ends⟩ := mergeEdgesNoCopy_ends hdone.edges
    obtain ⟨-, e₀, -, hsrc, htgt⟩ := (hmerged_ends _ _).mp (List.mem_map_of_mem he)
    rw [MLGraph.ids, hdone.nodes]
    exact ⟨hdone.ok.merged hsrc, hdone.ok.merged htgt⟩
  · have hcount := hdone.regroup.count
    rw [hdone.bg, hdone.matched.length_eq, MLGraph.ids, List.length_map, Nat.sub_self,
      hdone.start_num] at hcount
    rw [hdone.nodes]
    exact hcount

namespace PassDone

variable {ml_graph res : MLGraph} {min_partition_num : ℕ} {st : MergeState}
  {pairs refused : List (String × String)}
  (h : PassDone p ml_graph res min_partition_num pass st pairs refused)
include h

theorem filter_inside : (ml_graph.edges.filter fun e => !decide (Outside st.name_map e)) =
    ml_graph.edges.filter (Inside pairs) := by
  refine List.filter_congr fun e he => ?_
  obtain ⟨hsrc, htgt⟩ := h.ends e.ends (List.mem_map_of_mem he)
  have hsame := h.ok.same (h.matched.mem_iff.mpr hsrc) (h.matched.mem_iff.mpr htgt)
  rw [← decide_not]
  refine decide_eq_decide.mpr ?_
  rw [Outside, not_ne_iff]
  exact hsame

theorem exists_edge : ∀ q ∈ pairs, ∃ e ∈ ml_graph.edges, e.ends = q := by
  intro q hq
  have hmem := h.ok.pairs_edge q hq
  rw [h.bg] at hmem
  exact List.mem_map.mp hmem

theorem edges_perm_iff : (res.edges.flatMap MLEdge.sub_edges ++
      res.nodes.flatMap MLNode.sub_edges).Perm ml_graph.edges ↔
    (res.nodes.flatMap MLNode.sub_edges).Perm (ml_graph.edges.filter (Inside pairs)) := by
  have hsplit := List.filter_append_perm (fun e => decide (Outside st.name_map e)) ml_graph.edges
  have hkept := (mergeEdgesNoCopy_perm h.edges).2
  rw [h.filter_inside] at hsplit
  constructor
  · intro h
    exact (List.perm_append_left_iff _).mp
      (h.trans (hsplit.symm.trans (hkept.symm.append_right _)))
  · exact fun h => (hkept.append h).trans hsplit

theorem nodes_perm_iff (hids : ml_graph.ids.Nodup) :
    (res.nodes.flatMap MLNode.sub_nodes).Perm ml_graph.nodes ↔ refused = [] := by
  have hsub_ids := h.regroup.ids
  rw [← h.nodes] at hsub_ids
  constructor
  · intro hres_nodes
    have hlength := hsub_ids.length_eq
    rw [List.length_map, hres_nodes.length_eq, List.length_append, h.matched.length_eq,
      MLGraph.ids, List.length_map, List.length_map] at hlength
    exact List.length_eq_zero_iff.mp (by omega)
  · intro hnone
    rw [hnone, List.map_nil, List.append_nil] at hsub_ids
    refine perm_of_map_perm (fun n hn => ?_) hids (hsub_ids.trans h.matched)
    rw [h.nodes] at hn
    have hmem := h.regroup.sub_nodes n hn
    rwa [h.bg] at hmem

end PassDone

theorem mergeAdjacents_perm_iff {ml_graph res : MLGraph} {skip_profiling : Bool}
    {min_partition_num used used' : ℕ} (hids : ml_graph.ids.Nodup)
    (h : p.mergeAdjacents ml_graph skip_profiling min_partition_num used = some (res, used')) :
    ((res.nodes.flatMap MLNode.sub_nodes).Perm ml_graph.nodes ∧
      (res.edges.flatMap MLEdge.sub_edges ++ res.nodes.flatMap MLNode.sub_edges).Perm
        ml_graph.edges) ↔
      p.passRefused ml_graph skip_profiling min_partition_num used = [] ∧
        JoinedOnce ml_graph.edges (p.passPairs ml_graph skip_profiling min_partition_num used) := by
  obtain ⟨pass, st, hdone⟩ := exists_passDone hids h
  rw [hdone.nodes_perm_iff hids, hdone.edges_perm_iff]
  refine and_congr_right fun hnone => ?_
  have hfirst := hdone.regroup.edges hnone
  rw [hdone.start_graph, ← hdone.nodes] at hfirst
  rw [hfirst]
  exact firstEdges_perm_iff hdone.ok.pairs_nodup hdone.exists_edge

/-- A pass regroups the nodes and edges just where it takes no merge that it does not accept, and
loses no edge inside a pair. -/
theorem mergeAdjacents_regroups_iff {ml_graph res : MLGraph} {skip_profiling : Bool}
    {min_partition_num used used' : ℕ} (hids : ml_graph.ids.Nodup)
    (h : p.mergeAdjacents ml_graph skip_profiling min_partition_num used = some (res, used')) :
    Regroups ml_graph res min_partition_num ↔
      p.passRefused ml_graph skip_profiling min_partition_num used = [] ∧
        JoinedOnce ml_graph.edges (p.passPairs ml_graph skip_profiling min_partition_num used) := by
  rw [← mergeAdjacents_perm_iff hids h]
  obtain ⟨hfew, hends, hcount⟩ := mergeAdjacents_shape hids h
  exact ⟨fun hres => ⟨hres.nodes, hres.edges⟩,
    fun hperm => ⟨hperm.1, hfew, hperm.2, hends, hcount⟩⟩

/-- A graph of one operator with two outputs. -/
def splittingNode (id input output1 output2 : String) : MLNode where
  id := id
  graph :=
    { name := id
      nodes := [⟨"split", [input], [output1, output2], "split_node", false, true⟩]
      values := [input, output1, output2].map crossingValue
      input_names := [input]
      output_names := [output1, output2]
      is_replicable := true }
  sub_nodes := []
  sub_edges := []

/-- Two nodes with an edge for each of the two values that go from one to the other. -/
def parallelGraph : MLGraph where
  nodes := [splittingNode "ML_a" "x" "p" "q", crossingNode "ML_b" "add" ["p", "q"] "r"]
  edges := [crossingEdge "ML_a" "ML_b" "p", crossingEdge "ML_a" "ML_b" "q"]

theorem parallel_merged : (crossingPartitioner.mergeAdjacents parallelGraph false 1 0).map
    (fun res => (res.1.edges.flatMap MLEdge.sub_edges ++
      res.1.nodes.flatMap MLNode.sub_edges).length) = some 1 := by
  decide +kernel

theorem mergeAdjacents_regroups_iff_parallel :
    ∃ res used', crossingPartitioner.mergeAdjacents parallelGraph false 1 0 = some (res, used') ∧
      (Regroups parallelGraph res 1 ↔
        crossingPartitioner.passRefused parallelGraph false 1 0 = [] ∧
          JoinedOnce parallelGraph.edges
            (crossingPartitioner.passPairs parallelGraph false 1 0)) := by
  obtain ⟨⟨res, used'⟩, hres, -⟩ := Option.map_eq_some_iff.mp parallel_merged
  exact ⟨res, used', hres, mergeAdjacents_regroups_iff (by decide) hres⟩

/-- The second of the edges is lost. -/
theorem not_mergeAdjacents_regroups : ¬ ∀ (p : MLPartitioner) (ml_graph res : MLGraph)
    (skip_profiling : Bool) (min_partition_num used used' : ℕ), ml_graph.ids.Nodup →
    p.mergeAdjacents ml_graph skip_profiling min_partition_num used = some (res, used') →
    Regroups ml_graph res min_partition_num := by
  intro h
  obtain ⟨⟨res, used'⟩, hres, hlength⟩ := Option.map_eq_some_iff.mp parallel_merged
  have hedges := (h _ _ _ _ _ _ _ (by decide) hres).edges.length_eq
  rw [hlength] at hedges
  exact absurd hedges (by decide)

/-- A node that is slower by one when it is merged is taken twice. -/
example : ({ crossingPartitioner with
    profile := fun g => if g.nodes.length = 2 then ⟨3, 0, 0⟩
      else if g.input_names = ["y"] then ⟨100, 0, 0⟩ else ⟨1, 0, 0⟩ } : MLPartitioner).passRefused
    { nodes := [crossingNode "ML_a" "relu" ["x"] "p", crossingNode "ML_b" "tanh" ["p"] "q",
        crossingNode "ML_c" "exp" ["y"] "r"]
      edges := [crossingEdge "ML_a" "ML_b" "p"] } false 1 0 = [("ML_a", "ML_b")] := by
  decide +kernel

end MLPartitioner

end Rannc
