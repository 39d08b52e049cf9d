import Rannc.Graph.Coarsening
import Rannc.Graph.SmallMergeOrder

/-!
# Runs of merges

A node that is merged has the nodes it is merged from below it. Names are generated anew, so nodes
keep different ids, and no merge loses a node: whatever merges are made, each of the first nodes
stays in some node of the graph.
-/
namespace Rannc

open Rannc.Digraph

/-- A node contains itself and what the nodes it was merged from contain. -/
inductive MLNode.Contains : MLNode → MLNode → Prop
  | here {n : MLNode} : n.Contains n
  | sub {n m leaf : MLNode} (hm : m ∈ n.sub_nodes) (hleaf : m.Contains leaf) : n.Contains leaf

/-- All that is contained in the second node is contained in the first, but for nodes on the way. -/
def MLNode.Covers (n m : MLNode) : Prop :=
  ∀ leaf, leaf.sub_nodes = [] → m.Contains leaf → n.Contains leaf

section Contains

variable {n m : MLNode}

theorem contains_first {leaf : MLNode} (hn : n.sub_nodes = []) (h : n.Contains leaf) :
    leaf = n := by
  cases h with
  | here => rfl
  | sub hm _ => exact absurd (hn ▸ hm) List.not_mem_nil

theorem contains_merged {leaf : MLNode} (hleaf : leaf.sub_nodes = []) (hn : n.sub_nodes ≠ []) :
    n.Contains leaf ↔ ∃ m ∈ n.sub_nodes, m.Contains leaf := by
  constructor
  · intro h
    cases h with
    | here => exact absurd hleaf hn
    | sub hm hleaf => exact ⟨_, hm, hleaf⟩
  · rintro ⟨m, hm, hleaf⟩
    exact .sub hm hleaf

theorem MLNode.Covers.refl (n : MLNode) : n.Covers n := fun _ _ h => h

theorem MLNode.Covers.trans {l : MLNode} (hnm : n.Covers m) (hml : m.Covers l) : n.Covers l :=
  fun leaf hleaf h => hnm leaf hleaf (hml leaf hleaf h)

theorem covers_sub (hm : m ∈ n.sub_nodes) : n.Covers m := fun _ _ h => .sub hm h

theorem covers_of_sub_nodes (hn : n.sub_nodes ≠ []) (hsub : m.sub_nodes = n.sub_nodes) :
    m.Covers n := by
  intro leaf hleaf h
  obtain ⟨l, hl, hcontains⟩ := (contains_merged hleaf hn).mp h
  exact .sub (hsub ▸ hl) hcontains

theorem covers_liftUp (name : String) (n : MLNode) : (liftUp name n).Covers n :=
  covers_sub List.mem_cons_self

theorem covers_merge {name : String} {n1 n2 : MLNode} {all_nodes : List MLNode}
    {edges : List MLEdge} (h : merge name n1 n2 all_nodes edges = some n) :
    n.Covers n1 ∧ n.Covers n2 := by
  have hsub := merge_sub_nodes h
  exact ⟨covers_sub (by simp [hsub]), covers_sub (by simp [hsub])⟩

end Contains

namespace MLPartitioner

variable (p : MLPartitioner)

/-- The graphs that merging leads to from a first one, with the number of names generated. -/
inductive MergeRun (sort : TopologicalSort) (ml_graph : MLGraph) (used₀ : ℕ) : MLGraph → ℕ → Prop
  | start : MergeRun sort ml_graph used₀ ml_graph used₀
  | mergeAdjacents {graph graph' : MLGraph} {skip_profiling : Bool}
      {min_partition_num used used₁ used' : ℕ} (hrun : MergeRun sort ml_graph used₀ graph used)
      (hused : used ≤ used₁)
      (h : p.mergeAdjacents graph skip_profiling min_partition_num used₁ = some (graph', used')) :
      MergeRun sort ml_graph used₀ graph' used'
  | sortMLGraph {graph graph' : MLGraph} {used : ℕ} (hrun : MergeRun sort ml_graph used₀ graph used)
      (h : sortMLGraph sort graph = some graph') : MergeRun sort ml_graph used₀ graph' used
  | mergeSmall {graph graph' : MLGraph} {pair : PairMerge} {used used₁ used' : ℕ}
      (hrun : MergeRun sort ml_graph used₀ graph used) (hused : used ≤ used₁)
      (h : p.findSmallMerge graph used₁ = some (some pair, used'))
      (h' : p.mergePair graph pair = some graph') : MergeRun sort ml_graph used₀ graph' used'

variable {p}

/-- What a pass found for a node: the node alone, or its merge with a neighbour. -/
def BestFrom (pass : Pass) (v : MLNode) (best : BestMerge) : Prop :=
  best.best_adj = none ∧ (∃ name, best.best_merged = liftUp name v) ∨
    ∃ adj, pass.bg.node? adj.id = some adj ∧ best.best_adj = some adj.id ∧ ∃ name,
      merge name v adj pass.ml_graph.nodes pass.ml_graph.edges = some best.best_merged

theorem BestFrom.covers {pass : Pass} {v : MLNode} {best : BestMerge} (h : BestFrom pass v best) :
    best.best_merged.Covers v := by
  cases h with
  | inl halone =>
    obtain ⟨-, name, hlift⟩ := halone
    rw [hlift]
    exact covers_liftUp name v
  | inr hmerged =>
    obtain ⟨adj, -, -, name, hmerge⟩ := hmerged
    exact (covers_merge hmerge).1

theorem tryTarget_from {pass : Pass} {matched : List String} {v : MLNode} {best best' : BestMerge}
    {b_adj : String} (hbest : BestFrom pass v best)
    (h : tryTarget p pass matched v best b_adj = some best') : BestFrom pass v best' := by
  unfold tryTarget at h
  split_ifs at h with hmatched hconvex
  · exact Option.some.inj h ▸ hbest
  · exact Option.some.inj h ▸ hbest
  · simp only [Option.bind_eq_bind, Option.bind_eq_some_iff] at h
    obtain ⟨adj, hadj, cut_values, -, cut_size, -, -, -, merged, hmerged, h⟩ := h
    have hskip : BestFrom pass v { best with used := best.used + 1 } := hbest
    cases hevals : p.evalMerged pass.skip_profiling pass.eval_limit v adj merged with
    | none =>
      rw [hevals] at h
      exact Option.some.inj h ▸ hskip
    | some eval_merged =>
      simp only [hevals] at h
      split_ifs at h with himprv
      · obtain rfl := Option.some.inj h
        obtain rfl : adj.id = b_adj := by simpa using List.find?_some hadj
        exact Or.inr ⟨adj, hadj, rfl, _, hmerged⟩
      · exact Option.some.inj h ▸ hskip

theorem findBest_from {pass : Pass} {st : MergeState} {v : MLNode} {best : BestMerge}
    (h : findBest p pass st v = some best) : BestFrom pass v best := by
  unfold findBest at h
  apply foldlM_invariant (fun best b_adj best' _ hbest => tryTarget_from hbest) ?_ h
  exact Or.inl ⟨rfl, _, rfl⟩

/-- A matched node is in one of the merged nodes. -/
def MatchedCovered (nodes : List MLNode) (st : MergeState) : Prop :=
  ∀ v ∈ nodes, v.id ∈ st.matched → ∃ n ∈ st.merged_nodes, n.Covers v

theorem mergeNode_covered {nodes : List MLNode} {pass : Pass} {st st' : MergeState} {v : MLNode}
    (hnodup : (nodes.map MLNode.id).Nodup) (hbg : pass.bg.nodes = nodes) (hv : v ∈ nodes)
    (hst : MatchedCovered nodes st) (h : mergeNode p pass st v = some st') :
    MatchedCovered nodes st' := by
  unfold mergeNode at h
  split_ifs at h with hmatched
  · obtain rfl := Option.some.inj h
    exact hst
  obtain ⟨best, hfind, h⟩ := Option.bind_eq_some_iff.mp h
  obtain rfl := Option.some.inj h
  have hbest := findBest_from hfind
  intro u hu hmem
  rw [List.cons_append, List.mem_cons, List.mem_append, Option.mem_toList] at hmem
  rcases hmem with heq | haccepted | hold
  · obtain rfl := List.inj_on_of_nodup_map hnodup hu hv heq
    exact ⟨_, List.mem_append_right _ (List.mem_singleton_self _), hbest.covers⟩
  · -- the neighbour that was accepted is in the merged node too
    have hadj : best.best_adj = some u.id := by
      have haccepted : best.accepted = some u.id := haccepted
      unfold BestMerge.accepted at haccepted
      split_ifs at haccepted
      exact haccepted
    rcases hbest with ⟨hnone, -⟩ | ⟨adj, hnode, hsome, name, hmerge⟩
    · exact absurd (hnone.symm.trans hadj) nofun
    · have hid : adj.id = u.id := Option.some.inj (hsome.symm.trans hadj)
      have hadj_mem : adj ∈ nodes := hbg ▸ List.mem_of_find?_eq_some hnode
      obtain rfl := List.inj_on_of_nodup_map hnodup hadj_mem hu hid
      exact ⟨_, List.mem_append_right _ (List.mem_singleton_self _), (covers_merge hmerge).2⟩
  · obtain ⟨n, hn, hcovers⟩ := hst u hu hold
    exact ⟨n, List.mem_append_left _ hn, hcovers⟩

/-- The nodes have different ids, names are new, and no node of the first graph is lost. -/
structure Complete (p : MLPartitioner) (ml_graph graph : MLGraph) (used : ℕ) : Prop where
  nodup : graph.ids.Nodup
  fresh : ∀ i, used ≤ i → p.names.generateName i "ML_" ∉ graph.ids
  covers : ∀ v ∈ ml_graph.nodes, ∃ n ∈ graph.nodes, n.Covers v

variable {ml_graph graph graph' : MLGraph}

theorem Complete.mergeAdjacents {skip_profiling : Bool} {min_partition_num used used₁ used' : ℕ}
    (hgraph : Complete p ml_graph graph used)
    (h : p.mergeAdjacents graph skip_profiling min_partition_num used₁ = some (graph', used')) :
    Complete p ml_graph graph' used' := by
  obtain ⟨pass, st, hpass, hst, -, hnodes, rfl⟩ := mergeAdjacents_eq_some h
  obtain ⟨-, hperm, hbg⟩ := startPass_eq_some hpass
  obtain ⟨hok, -, hmatched, -⟩ := mergeNodes_ok (mergeOk_nil p pass used₁) hst
  have hcovered : MatchedCovered graph.nodes st := by
    refine foldlM_invariant (fun st v st' hv hst hstep => ?_) (by simp [MatchedCovered]) hst
    exact mergeNode_covered hgraph.nodup (by rw [hbg]) (hperm.mem_iff.mp hv) hst hstep
  have hids : graph'.ids = st.merged_nodes.map MLNode.id := by rw [MLGraph.ids, hnodes]
  constructor
  case nodup => exact hids ▸ hok.nodup
  case fresh =>
    intro i hi hmem
    obtain ⟨j, hj, heq⟩ := hok.fresh _ (hids ▸ hmem)
    have hij := p.names.generateName_injective "ML_" heq
    omega
  case covers =>
    intro v hv
    obtain ⟨n, hn, hcovers⟩ := hgraph.covers v hv
    obtain ⟨m, hm, hcovers'⟩ := hcovered n hn (hmatched n (hperm.mem_iff.mpr hn))
    exact ⟨m, hnodes ▸ hm, hcovers'.trans hcovers⟩

theorem filterMap_range {α : Type} (l : List α) :
    (List.range l.length).filterMap (fun i => l[i]?) = l := by
  have hmap : (List.range l.length).map (fun i => l[i]?) = l.map some := by
    refine List.ext_getElem (by simp) fun i hi _ => ?_
    rw [List.length_map, List.length_range] at hi
    simp [hi]
  simpa [List.filterMap_map] using congrArg (List.filterMap id) hmap

theorem sortMLGraph_perm {sort : TopologicalSort} (h : sortMLGraph sort graph = some graph') :
    graph'.nodes.Perm graph.nodes := by
  obtain ⟨bg, hbg, h⟩ := Option.bind_eq_some_iff.mp h
  unfold toBGL at hbg
  dsimp only at hbg
  split_ifs at hbg
  obtain rfl := Option.some.inj hbg
  obtain ⟨_, hguard, h⟩ := Option.bind_eq_some_iff.mp h
  obtain rfl := Option.some.inj h
  rw [guard] at hguard
  split_ifs at hguard with hsorted
  have hperm := hsorted.1
  refine (((List.reverse_perm _).trans ?_).filterMap _).trans (.of_eq (filterMap_range graph.nodes))
  simpa only [List.length_map] using hperm

theorem Complete.of_perm {used : ℕ} (hgraph : Complete p ml_graph graph used)
    (hperm : graph'.nodes.Perm graph.nodes) : Complete p ml_graph graph' used := by
  have hids : graph'.ids.Perm graph.ids := hperm.map _
  constructor
  case nodup => exact hids.nodup_iff.mpr hgraph.nodup
  case fresh => exact fun i hi hmem => hgraph.fresh i hi (hids.mem_iff.mp hmem)
  case covers =>
    intro v hv
    obtain ⟨n, hn, hcovers⟩ := hgraph.covers v hv
    exact ⟨n, hperm.mem_iff.mpr hn, hcovers⟩

theorem Complete.mergeSmall {pair : PairMerge} {used used₁ used' : ℕ}
    (hgraph : Complete p ml_graph graph used) (hused : used ≤ used₁)
    (h : p.findSmallMerge graph used₁ = some (some pair, used'))
    (h' : p.mergePair graph pair = some graph') : Complete p ml_graph graph' used' := by
  obtain ⟨hle, hpair⟩ := findSmallMerge_at h
  obtain ⟨before, after, hat⟩ := hpair pair rfl
  have hnodes := mergePair_nodes hat hgraph.nodup h'
  obtain ⟨name, hname, hlt, hmerge⟩ := hat.merged
  have hid : pair.merged.id = p.names.generateName name "ML_" := merge_id hmerge
  have hnew : pair.merged.id ∉ graph.ids := hid ▸ hgraph.fresh name (hused.trans hname)
  have hold : graph.ids = before.map MLNode.id ++ pair.n1.id :: pair.n2.id ::
      after.map MLNode.id := by
    simp [MLGraph.ids, hat.nodes]
  have hids : graph'.ids = before.map MLNode.id ++ pair.merged.id :: after.map MLNode.id := by
    simp [MLGraph.ids, hnodes]
  constructor
  case nodup =>
    rw [hids]
    exact nodup_replaced (hold ▸ hgraph.nodup) (hold ▸ hnew)
  case fresh =>
    intro i hi hmem
    rw [hids, List.mem_append, List.mem_cons] at hmem
    have hother : p.names.generateName i "ML_" ∉ graph.ids :=
      hgraph.fresh i (hused.trans (hle.trans hi))
    rw [hold, List.mem_append, List.mem_cons, List.mem_cons] at hother
    rcases hmem with hmem | heq | hmem
    · exact hother (Or.inl hmem)
    · have hij := p.names.generateName_injective "ML_" (heq.trans hid)
      omega
    · exact hother (Or.inr (Or.inr (Or.inr hmem)))
  case covers =>
    intro v hv
    obtain ⟨n, hn, hcovers⟩ := hgraph.covers v hv
    obtain ⟨hcovers1, hcovers2⟩ := covers_merge hmerge
    rw [hat.nodes, List.mem_append, List.mem_cons, List.mem_cons] at hn
    simp only [hnodes, List.mem_append, List.mem_cons]
    rcases hn with hn | rfl | rfl | hn
    · exact ⟨n, Or.inl hn, hcovers⟩
    · exact ⟨_, Or.inr (Or.inl rfl), hcovers1.trans hcovers⟩
    · exact ⟨_, Or.inr (Or.inl rfl), hcovers2.trans hcovers⟩
    · exact ⟨n, Or.inr (Or.inr hn), hcovers⟩

theorem MergeRun.complete {sort : TopologicalSort} {used₀ used : ℕ}
    (hnodup : ml_graph.ids.Nodup)
    (hfresh : ∀ i, used₀ ≤ i → p.names.generateName i "ML_" ∉ ml_graph.ids)
    (hrun : p.MergeRun sort ml_graph used₀ graph used) : Complete p ml_graph graph used := by
  induction hrun with
  | start => exact ⟨hnodup, hfresh, fun v hv => ⟨v, hv, .refl v⟩⟩
  | mergeAdjacents _ _ h ih => exact ih.mergeAdjacents h
  | sortMLGraph _ h ih => exact ih.of_perm (sortMLGraph_perm h)
  | mergeSmall _ hused h h' ih => exact ih.mergeSmall hused h h'

theorem mergeNode_used_le {pass : Pass} {st st' : MergeState} {v : MLNode}
    (h : mergeNode p pass st v = some st') : st.used ≤ st'.used := by
  unfold mergeNode at h
  split_ifs at h with hmatched
  · exact Option.some.inj h ▸ le_rfl
  · obtain ⟨best, hfind, h⟩ := Option.bind_eq_some_iff.mp h
    obtain rfl := Option.some.inj h
    obtain ⟨i, hi, hlt, -⟩ := (findBest_ok hfind).fresh
    exact hi.trans hlt.le

theorem mergeAdjacents_used_le {skip_profiling : Bool} {min_partition_num used used' : ℕ}
    (h : p.mergeAdjacents graph skip_profiling min_partition_num used = some (graph', used')) :
    used ≤ used' := by
  obtain ⟨pass, st, -, hst, -, -, rfl⟩ := mergeAdjacents_eq_some h
  exact foldlM_invariant (P := fun st : MergeState => used ≤ st.used)
    (fun st v st' _ hle hstep => hle.trans (mergeNode_used_le hstep)) le_rfl hst

/-- Coarsening is a run of merges. -/
theorem MergeRun.coarsenLoop {sort : TopologicalSort} {res : MLGraph}
    {min_partition_num used₀ used used' : ℕ} (hrun : p.MergeRun sort ml_graph used₀ graph used)
    (h : p.coarsenLoop min_partition_num graph used = some (res, used')) :
    ∃ used₁ ≤ used', p.MergeRun sort ml_graph used₀ res used₁ := by
  fun_induction MLPartitioner.coarsenLoop p min_partition_num graph used with
  | case1 c_graph used hsmall =>
    obtain ⟨rfl, rfl⟩ := Prod.mk.inj (Option.some.inj h)
    exact ⟨used, le_rfl, hrun⟩
  | case2 => cases h
  | case3 c_graph used hsmall _ merged used₁ hstep hmin =>
    obtain ⟨rfl, rfl⟩ := Prod.mk.inj (Option.some.inj h)
    exact ⟨used₁, le_rfl, hrun.mergeAdjacents le_rfl hstep⟩
  | case4 c_graph used hsmall _ merged used₁ hstep hmin hne ih =>
    exact ih (hrun.mergeAdjacents le_rfl hstep) h
  | case5 c_graph used hsmall _ merged used₁ hstep hmin hne =>
    obtain ⟨rfl, rfl⟩ := Prod.mk.inj (Option.some.inj h)
    exact ⟨used, mergeAdjacents_used_le hstep, hrun⟩

/-- So is the merging of small nodes. -/
theorem MergeRun.mergeSmallLoop {sort : TopologicalSort} {res : MLGraph}
    {min_partition_num fuel used₀ used used₁ used' : ℕ}
    (hrun : p.MergeRun sort ml_graph used₀ graph used) (hused : used ≤ used₁)
    (h : p.mergeSmallLoop min_partition_num fuel graph used₁ = some (res, used')) :
    ∃ used₂ ≤ used', p.MergeRun sort ml_graph used₀ res used₂ := by
  induction fuel generalizing graph used used₁ with
  | zero =>
    obtain ⟨rfl, rfl⟩ := Prod.mk.inj (Option.some.inj h)
    exact ⟨used, hused, hrun⟩
  | succ fuel ih =>
    rw [MLPartitioner.mergeSmallLoop] at h
    split_ifs at h with hsmall
    · obtain ⟨rfl, rfl⟩ := Prod.mk.inj (Option.some.inj h)
      exact ⟨used, hused, hrun⟩
    · obtain ⟨⟨pair, used₂⟩, hfind, h⟩ := Option.bind_eq_some_iff.mp h
      cases pair with
      | none =>
        obtain ⟨rfl, rfl⟩ := Prod.mk.inj (Option.some.inj h)
        exact ⟨used, hused.trans (findSmallMerge_at hfind).1, hrun⟩
      | some pair =>
        obtain ⟨graph', hmerge, hrest⟩ := Option.bind_eq_some_iff.mp h
        exact ih (hrun.mergeSmall hused hfind hmerge) le_rfl hrest

end MLPartitioner

end Rannc
