import Rannc.Graph.KnownInputs
import Rannc.Graph.MergeSmall

/-!
# The order after merging small nodes

Neighbours in a topological order are merged whether or not there is an edge between them. The node
that takes their place comes after what both come after, and what is left of the edges still goes
forward. A node of the result stands for a range of the nodes there were.
-/
namespace Rannc

/-- A node that was merged from others, taken in order. -/
inductive MergedFrom : MLNode → List MLNode → Prop
  | here (n : MLNode) : MergedFrom n [n]
  | merged {n n1 n2 : MLNode} {l1 l2 : List MLNode} (hsub : n.sub_nodes = [n1, n2])
      (h1 : MergedFrom n1 l1) (h2 : MergedFrom n2 l2) : MergedFrom n (l1 ++ l2)

/-- The ids of the nodes. -/
def MLGraph.ids (g : MLGraph) : List String := g.nodes.map MLNode.id

/-- Every edge goes from a node to a later one. -/
def MLGraph.Forward (g : MLGraph) : Prop := ∀ e ∈ g.edges, [e.src_id, e.tgt_id].Sublist g.ids

/-- The nodes are in a topological order of the edges. -/
structure MLGraph.TopoOrdered (g : MLGraph) : Prop where
  nodup : g.ids.Nodup
  forward : g.Forward

theorem MLGraph.Forward.ends {g : MLGraph} (hg : g.Forward) {e : MLEdge} (he : e ∈ g.edges) :
    e.src_id ∈ g.ids ∧ e.tgt_id ∈ g.ids := by
  have hsub := (hg e he).subset
  exact ⟨hsub (by simp), hsub (by simp)⟩

/-- The nodes stand for ranges of the others, one after the other. -/
structure Ranges (range : String → List MLNode) (orig nodes : List MLNode) : Prop where
  merged : ∀ n ∈ nodes, MergedFrom n (range n.id)
  flat : nodes.flatMap (fun n => range n.id) = orig

section Order

variable {α : Type}

theorem sublist_of_merged {a b m : α} {before after : List α} (hne : a ≠ b)
    (h : [a, b].Sublist (before ++ m :: m :: after)) : [a, b].Sublist (before ++ m :: after) := by
  induction before with
  | nil =>
    cases h with
    | cons _ h => exact h
    | cons_cons _ h =>
      have hb : b ∈ after := by
        have hmem := List.singleton_sublist.mp h
        simpa [hne.symm] using hmem
      exact (List.singleton_sublist.mpr hb).cons_cons a
  | cons x before ih =>
    cases h with
    | cons _ h => exact (ih h).cons x
    | cons_cons _ h =>
      have hb : b ∈ before ++ m :: after := by
        have hmem := List.singleton_sublist.mp h
        simpa using hmem
      exact (List.singleton_sublist.mpr hb).cons_cons a

theorem nodup_replaced {a b m : α} {before after : List α}
    (h : (before ++ a :: b :: after).Nodup) (hm : m ∉ before ++ a :: b :: after) :
    (before ++ m :: after).Nodup := by
  rw [List.nodup_middle, List.nodup_cons]
  have hrest : (before ++ after).Sublist (before ++ a :: b :: after) :=
    (List.Sublist.refl before).append ((List.sublist_cons_self b after).cons a)
  exact ⟨fun hmem => hm (hrest.subset hmem), h.sublist hrest⟩

end Order

theorem Ranges.merge {range : String → List MLNode} {orig before after : List MLNode}
    {n1 n2 merged : MLNode}
    (hranges : Ranges range orig (before ++ n1 :: n2 :: after))
    (hsub : merged.sub_nodes = [n1, n2])
    (hnew : ∀ n ∈ before ++ n1 :: n2 :: after, n.id ≠ merged.id) :
    Ranges (Function.update range merged.id (range n1.id ++ range n2.id)) orig
      (before ++ merged :: after) := by
  have hold : ∀ n ∈ before ++ n1 :: n2 :: after,
      Function.update range merged.id (range n1.id ++ range n2.id) n.id =
        range n.id := fun n hn => Function.update_of_ne (hnew n hn) _ _
  have hsame : ∀ nodes ⊆ before ++ n1 :: n2 :: after, (nodes.flatMap fun n =>
      Function.update range merged.id (range n1.id ++ range n2.id) n.id) =
        nodes.flatMap fun n => range n.id := by
    intro nodes hnodes
    exact List.flatMap_congr fun n hn => hold n (hnodes hn)
  constructor
  case merged =>
    intro n hn
    cases List.mem_append.mp hn with
    | inl hbefore =>
      have hmem : n ∈ before ++ n1 :: n2 :: after := List.mem_append_left _ hbefore
      rw [hold n hmem]
      exact hranges.merged n hmem
    | inr hn =>
      cases hn with
      | head =>
        rw [Function.update_self]
        exact .merged hsub (hranges.merged n1 (by simp)) (hranges.merged n2 (by simp))
      | tail _ hafter =>
        have hmem : n ∈ before ++ n1 :: n2 :: after :=
          List.mem_append_right _ (List.mem_cons_of_mem _ (List.mem_cons_of_mem _ hafter))
        rw [hold n hmem]
        exact hranges.merged n hmem
  case flat =>
    rw [← hranges.flat, List.flatMap_append, List.flatMap_cons, hsame before (by simp),
      hsame after (by intro n hn; simp [hn])]
    simp

theorem Ranges.existsUnique {range : String → List MLNode} {orig nodes : List MLNode}
    (hranges : Ranges range orig nodes) (horig : orig.Nodup) {n : MLNode} (hn : n ∈ orig) :
    ∃! m, m ∈ nodes ∧ n ∈ range m.id := by
  rw [← hranges.flat] at horig hn
  obtain ⟨m, hm, hrange⟩ := List.mem_flatMap.mp hn
  refine ⟨m, ⟨hm, hrange⟩, fun m' ⟨hm', hrange'⟩ => ?_⟩
  by_contra hne
  have hsymm : Std.Symm (Function.onFun List.Disjoint fun m : MLNode => range m.id) :=
    ⟨fun _ _ h => h.symm⟩
  have hdisjoint := (List.nodup_flatMap.mp horig).2.forall hm' hm hne
  exact hdisjoint hrange' hrange

theorem ranges_self {nodes : List MLNode} (hnodup : (nodes.map MLNode.id).Nodup) :
    Ranges (fun id => (nodes.find? fun n => n.id = id).toList) nodes nodes := by
  have hfind : ∀ n ∈ nodes, nodes.find? (fun m => m.id = n.id) = some n := by
    intro n hn
    cases hfind : nodes.find? fun m => decide (m.id = n.id) with
    | none =>
      have hne := List.find?_eq_none.mp hfind n hn
      simp at hne
    | some m =>
      have hid : m.id = n.id := by simpa using List.find?_some hfind
      rw [List.inj_on_of_nodup_map hnodup (List.mem_of_find?_eq_some hfind) hn hid]
  constructor
  case merged =>
    intro n hn
    rw [hfind n hn]
    exact .here n
  case flat =>
    rw [List.flatMap_congr fun n hn => congrArg Option.toList (hfind n hn)]
    simp

namespace MLPartitioner

variable {p : MLPartitioner} {graph : MLGraph}

/-- A pair of neighbours, with the number of the name that the merged node got. -/
structure PairAt (p : MLPartitioner) (graph : MLGraph) (used used' : ℕ) (pair : PairMerge)
    (before after : List MLNode) : Prop where
  nodes : graph.nodes = before ++ pair.n1 :: pair.n2 :: after
  merged : ∃ name, used ≤ name ∧ name < used' ∧
    merge (p.names.generateName name "ML_") pair.n1 pair.n2 graph.nodes graph.edges =
      some pair.merged
  eval : pair.eval = p.evalNode pair.merged
  eval_lt : pair.eval < LONG_MAX

theorem split_of_adjacent {nodes : List MLNode} {i : ℕ} {n1 n2 : MLNode}
    (h1 : nodes[i]? = some n1) (h2 : nodes[i + 1]? = some n2) :
    nodes = nodes.take i ++ n1 :: n2 :: nodes.drop (i + 2) := by
  obtain ⟨hi, rfl⟩ := List.getElem?_eq_some_iff.mp h1
  obtain ⟨hi', rfl⟩ := List.getElem?_eq_some_iff.mp h2
  rw [← List.drop_eq_getElem_cons hi', ← List.drop_eq_getElem_cons hi, List.take_append_drop]

theorem PairAt.mono {used used₁ used₂ : ℕ} {pair : PairMerge} {before after : List MLNode}
    (hat : p.PairAt graph used used₁ pair before after) (hle : used₁ ≤ used₂) :
    p.PairAt graph used used₂ pair before after := by
  obtain ⟨name, hname, hlt, hmerge⟩ := hat.merged
  exact { hat with merged := ⟨name, hname, hlt.trans_le hle, hmerge⟩ }

theorem bestMerge_at {pairs : List (MLNode × MLNode)} {best res : Option PairMerge}
    {start used used' : ℕ} (hstart : start ≤ used)
    (hpairs : ∀ q ∈ pairs, ∃ i, graph.nodes[i]? = some q.1 ∧ graph.nodes[i + 1]? = some q.2)
    (hbest : ∀ pair ∈ best, ∃ before after, p.PairAt graph start used pair before after)
    (h : p.bestMerge graph pairs best used = some (res, used')) : used ≤ used' ∧
      ∀ pair ∈ res, ∃ before after, p.PairAt graph start used' pair before after := by
  induction pairs generalizing best used with
  | nil =>
    obtain ⟨rfl, rfl⟩ := Prod.mk.inj (Option.some.inj h)
    exact ⟨le_rfl, hbest⟩
  | cons q pairs ih =>
    rw [bestMerge] at h
    obtain ⟨merged, hmerged, h⟩ := Option.bind_eq_some_iff.mp h
    dsimp only at h
    have hrest := fun q' hq' => hpairs q' (List.mem_cons_of_mem q hq')
    have hold : ∀ pair ∈ best,
        ∃ before after, p.PairAt graph start (used + 1) pair before after := by
      intro pair hpair
      obtain ⟨before, after, hat⟩ := hbest pair hpair
      exact ⟨before, after, hat.mono (Nat.le_succ used)⟩
    split_ifs at h with hfit hless
    · obtain ⟨rfl, rfl⟩ := Prod.mk.inj (Option.some.inj h)
      simp
    · have hlt : p.evalNode merged < LONG_MAX := by
        cases best with
        | none => exact hless
        | some pair =>
          obtain ⟨before, after, hat⟩ := hbest pair rfl
          exact hless.trans hat.eval_lt
      have hnew : ∀ pair ∈ some (PairMerge.mk q.1 q.2 merged (p.evalNode merged)),
          ∃ before after, p.PairAt graph start (used + 1) pair before after := by
        intro pair hpair
        obtain rfl := Option.some.inj hpair
        obtain ⟨i, h1, h2⟩ := hpairs q List.mem_cons_self
        exact ⟨_, _, split_of_adjacent h1 h2, ⟨used, hstart, by omega, hmerged⟩, rfl, hlt⟩
      have hres := ih (by omega) hrest hnew h
      exact ⟨by omega, hres.2⟩
    · have hres := ih (by omega) hrest hold h
      exact ⟨by omega, hres.2⟩

theorem findSmallMerge_at {res : Option PairMerge} {used used' : ℕ}
    (h : p.findSmallMerge graph used = some (res, used')) : used ≤ used' ∧
      ∀ pair ∈ res, ∃ before after, p.PairAt graph used used' pair before after := by
  obtain ⟨idx, -, h⟩ := Option.bind_eq_some_iff.mp h
  exact bestMerge_at le_rfl (fun q hq => mem_neighbours hq) (by simp) h

/-- What every iteration keeps: later names are new, and the order stays. -/
structure SmallMergeOk (p : MLPartitioner) (orig : List MLNode) (graph : MLGraph) (used : ℕ) :
    Prop where
  topo : graph.TopoOrdered
  fresh : ∀ i, used ≤ i → p.names.generateName i "ML_" ∉ graph.ids
  ranges : ∃ range, Ranges range orig graph.nodes

section Iteration

variable {used used' : ℕ} {pair : PairMerge} {before after : List MLNode}

/-- The new name of a node. -/
def renamed (pair : PairMerge) (id : String) : String :=
  if id = pair.n1.id ∨ id = pair.n2.id then pair.merged.id else id

theorem lookup_renamed (nodes : List MLNode) {id : String} (hid : id ∈ nodes.map MLNode.id) :
    (nodes.map fun n => (n.id, if n.id = pair.n1.id ∨ n.id = pair.n2.id then pair.merged.id
      else n.id)).lookup id = some (renamed pair id) := by
  induction nodes with
  | nil => exact absurd hid List.not_mem_nil
  | cons n nodes ih =>
    rw [List.map_cons, List.lookup_cons]
    by_cases hn : id = n.id
    · subst hn
      simp [renamed]
    · have hrest : id ∈ nodes.map MLNode.id := by simpa [hn] using hid
      simpa [beq_eq_false_iff_ne.mpr hn] using ih hrest

theorem replacePair_of_forall {merged_added : Bool} {nodes : List MLNode}
    (h : ∀ n ∈ nodes, ¬(n.id = pair.n1.id ∨ n.id = pair.n2.id)) :
    replacePair pair merged_added nodes = nodes := by
  induction nodes with
  | nil => rfl
  | cons n nodes ih =>
    rw [replacePair, if_neg (h n List.mem_cons_self), ih (List.forall_mem_of_forall_mem_cons h)]

theorem replacePair_append {nodes : List MLNode}
    (h : ∀ n ∈ before, ¬(n.id = pair.n1.id ∨ n.id = pair.n2.id)) :
    replacePair pair false (before ++ nodes) = before ++ replacePair pair false nodes := by
  induction before with
  | nil => rfl
  | cons n before ih =>
    rw [List.cons_append, replacePair, if_neg (h n List.mem_cons_self),
      ih (List.forall_mem_of_forall_mem_cons h), List.cons_append]

/-- The other nodes have other ids. -/
theorem PairAt.other (hat : p.PairAt graph used used' pair before after)
    (hnodup : graph.ids.Nodup) :
    (∀ n ∈ before, ¬(n.id = pair.n1.id ∨ n.id = pair.n2.id)) ∧
      (∀ n ∈ after, ¬(n.id = pair.n1.id ∨ n.id = pair.n2.id)) := by
  rw [MLGraph.ids, hat.nodes, List.map_append, List.map_cons, List.map_cons,
    List.nodup_append] at hnodup
  obtain ⟨-, hpair, hbefore⟩ := hnodup
  constructor
  · intro n hn heq
    have hid : n.id ∈ before.map MLNode.id := List.mem_map_of_mem hn
    cases heq with
    | inl heq => exact hbefore _ hid _ List.mem_cons_self heq
    | inr heq => exact hbefore _ hid _ (List.mem_cons_of_mem _ List.mem_cons_self) heq
  · intro n hn heq
    have hid : n.id ∈ after.map MLNode.id := List.mem_map_of_mem hn
    obtain ⟨hn1, hrest⟩ := List.nodup_cons.mp hpair
    cases heq with
    | inl heq => exact hn1 (heq ▸ List.mem_cons_of_mem _ hid)
    | inr heq => exact (List.nodup_cons.mp hrest).1 (heq ▸ hid)

theorem replacePair_eq (hat : p.PairAt graph used used' pair before after)
    (hnodup : graph.ids.Nodup) :
    replacePair pair false graph.nodes = before ++ pair.merged :: after := by
  obtain ⟨hbefore, hafter⟩ := hat.other hnodup
  rw [hat.nodes, replacePair_append hbefore]
  simp [replacePair, replacePair_of_forall hafter]

theorem mergePair_nodes {merged_graph : MLGraph}
    (hat : p.PairAt graph used used' pair before after) (hnodup : graph.ids.Nodup)
    (h : p.mergePair graph pair = some merged_graph) :
    merged_graph.nodes = before ++ pair.merged :: after := by
  obtain ⟨merged_edges, -, hres⟩ := Option.bind_eq_some_iff.mp h
  obtain rfl := Option.some.inj hres
  exact replacePair_eq hat hnodup

theorem map_renamed (hat : p.PairAt graph used used' pair before after)
    (hnodup : graph.ids.Nodup) : graph.ids.map (renamed pair) =
      before.map MLNode.id ++ pair.merged.id :: pair.merged.id :: after.map MLNode.id := by
  obtain ⟨hbefore, hafter⟩ := hat.other hnodup
  have hsame : ∀ nodes : List MLNode, (∀ n ∈ nodes, ¬(n.id = pair.n1.id ∨ n.id = pair.n2.id)) →
      (nodes.map MLNode.id).map (renamed pair) = nodes.map MLNode.id := by
    intro nodes hnodes
    rw [List.map_map]
    exact List.map_congr_left fun n hn => if_neg (hnodes n hn)
  rw [MLGraph.ids, hat.nodes, List.map_append, List.map_append, hsame before hbefore, List.map_cons,
    List.map_cons, List.map_cons, List.map_cons, hsame after hafter]
  simp [renamed]

theorem mergePair_ok {orig : List MLNode} {merged_graph : MLGraph}
    (hok : SmallMergeOk p orig graph used) (hat : p.PairAt graph used used' pair before after)
    (hle : used ≤ used') (h : p.mergePair graph pair = some merged_graph) :
    SmallMergeOk p orig merged_graph used' := by
  have hmerged_nodes := mergePair_nodes hat hok.topo.nodup h
  obtain ⟨merged_edges, hedges, hres⟩ := Option.bind_eq_some_iff.mp h
  obtain rfl := Option.some.inj hres
  obtain ⟨name, hname, hlt, hmerge⟩ := hat.merged
  have hid : pair.merged.id = p.names.generateName name "ML_" := merge_id hmerge
  have hnew : pair.merged.id ∉ graph.ids := hid ▸ hok.fresh name hname
  have hids : (MLGraph.mk (replacePair pair false graph.nodes) merged_edges).ids =
      before.map MLNode.id ++ pair.merged.id :: after.map MLNode.id := by
    simpa [MLGraph.ids] using congrArg (List.map MLNode.id) hmerged_nodes
  have hnodes : graph.ids = before.map MLNode.id ++ pair.n1.id :: pair.n2.id ::
      after.map MLNode.id := by
    simp [MLGraph.ids, hat.nodes]
  have hnodup := hok.topo.nodup
  rw [hnodes] at hnodup hnew
  constructor
  case topo =>
    refine ⟨hids ▸ nodup_replaced hnodup hnew, fun e he => ?_⟩
    obtain ⟨-, hends⟩ := mergeEdgesNoCopy_ends hedges
    obtain ⟨hne, e₀, he₀, hsrc, htgt⟩ := (hends _ _).mp (List.mem_map_of_mem he)
    have hforward := hok.topo.forward e₀ he₀
    rw [lookup_renamed _ (hforward.subset (by simp)), Option.some.injEq] at hsrc
    rw [lookup_renamed _ (hforward.subset (by simp)), Option.some.injEq] at htgt
    have hrenamed := hforward.map (renamed pair)
    rw [map_renamed hat hok.topo.nodup, List.map_cons, List.map_singleton, hsrc, htgt] at hrenamed
    rw [hids]
    exact sublist_of_merged hne hrenamed
  case fresh =>
    intro i hi hmem
    have hi_fresh := hok.fresh i (hle.trans hi)
    rw [hnodes] at hi_fresh
    have hi_ne : p.names.generateName i "ML_" ≠ pair.merged.id := by
      intro heq
      have hi_name := p.names.generateName_injective "ML_" (heq.trans hid)
      omega
    rw [hids] at hmem
    simp only [List.mem_append, List.mem_cons] at hmem hi_fresh
    tauto
  case ranges =>
    obtain ⟨range, hranges⟩ := hok.ranges
    rw [hat.nodes] at hranges
    have hne : ∀ n ∈ before ++ pair.n1 :: pair.n2 :: after, n.id ≠ pair.merged.id := by
      intro n hn heq
      apply hnew
      rw [← heq]
      simpa using List.mem_map_of_mem (f := MLNode.id) hn
    rw [hmerged_nodes]
    exact ⟨_, hranges.merge (merge_sub_nodes hmerge) hne⟩

end Iteration

theorem mergeSmallLoop_ok {orig : List MLNode} {min_partition_num fuel used used' : ℕ}
    {merged_graph res : MLGraph} (hok : SmallMergeOk p orig merged_graph used)
    (h : p.mergeSmallLoop min_partition_num fuel merged_graph used = some (res, used')) :
    SmallMergeOk p orig res used' := by
  induction fuel generalizing merged_graph used with
  | zero =>
    obtain ⟨rfl, rfl⟩ := Prod.mk.inj (Option.some.inj h)
    exact hok
  | succ fuel ih =>
    rw [mergeSmallLoop] at h
    split_ifs at h with hsmall
    · obtain ⟨rfl, rfl⟩ := Prod.mk.inj (Option.some.inj h)
      exact hok
    · obtain ⟨⟨pair, used₁⟩, hfind, h⟩ := Option.bind_eq_some_iff.mp h
      obtain ⟨hle, hat⟩ := findSmallMerge_at hfind
      cases pair with
      | none =>
        obtain ⟨rfl, rfl⟩ := Prod.mk.inj (Option.some.inj h)
        exact { hok with fresh := fun i hi => hok.fresh i (hle.trans hi) }
      | some pair =>
        obtain ⟨before, after, hat⟩ := hat pair rfl
        obtain ⟨merged_graph', hmerge, hrest⟩ := Option.bind_eq_some_iff.mp h
        exact ih (mergePair_ok hok hat hle hmerge) hrest

theorem minNode_isSome_iff {nodes : List MLNode} :
    (p.minNode nodes).isSome ↔ ∃ n ∈ nodes, p.evalNode n < LONG_MAX := by
  have hfold : ∀ f : ℤ × Option ℕ → MLNode × ℕ → ℤ × Option ℕ, (∀ best it, f best it =
        if p.evalNode it.1 < best.1 then (p.evalNode it.1, some it.2) else best) →
      ∀ (l : List (MLNode × ℕ)) (best : ℤ × Option ℕ), ((l.foldl f best).2.isSome ↔
        best.2.isSome ∨ ∃ it ∈ l, p.evalNode it.1 < best.1) := by
    intro f hf l
    induction l with
    | nil => simp
    | cons it l ih =>
      intro best
      rw [List.foldl_cons, hf, List.exists_mem_cons_iff]
      by_cases hlt : p.evalNode it.1 < best.1
      · simp [hlt, ih]
      · simp [hlt, ih]
  rw [minNode, hfold _ fun _ _ => rfl]
  simp only [Option.isSome_none, Bool.false_eq_true, false_or]
  constructor
  · rintro ⟨it, hit, hlt⟩
    exact ⟨it.1, List.fst_mem_of_mem_zipIdx hit, hlt⟩
  · rintro ⟨n, hn, hlt⟩
    obtain ⟨i, hi⟩ := List.mem_iff_getElem?.mp hn
    exact ⟨(n, i), List.mk_mem_zipIdx_iff_getElem?.mpr hi, hlt⟩

theorem bestMerge_isSome (graph : MLGraph) {pairs : List (MLNode × MLNode)}
    (best : Option PairMerge) (used : ℕ)
    (hpairs : ∀ q ∈ pairs, q.1.graph.InputsKnown ∧ q.2.graph.InputsKnown) :
    (p.bestMerge graph pairs best used).isSome := by
  induction pairs generalizing best used with
  | nil => rfl
  | cons q pairs ih =>
    obtain ⟨h1, h2⟩ := hpairs q List.mem_cons_self
    obtain ⟨merged, hmerged, -⟩ := h1.merge h2 (p.names.generateName used "ML_") graph.nodes
      graph.edges
    rw [bestMerge, hmerged]
    dsimp only [Option.bind_eq_bind, Option.bind_some]
    split_ifs
    · rfl
    · exact ih _ _ (List.forall_mem_of_forall_mem_cons hpairs)
    · exact ih _ _ (List.forall_mem_of_forall_mem_cons hpairs)

theorem addUnmerged_isSome {name_map : List (String × String)} {unmerged_edges : MLEdgeVectorMap}
    {e : MLEdge} (hsrc : (name_map.lookup e.src_id).isSome)
    (htgt : (name_map.lookup e.tgt_id).isSome) :
    (addUnmerged name_map unmerged_edges e).isSome := by
  obtain ⟨new_src, hsrc⟩ := Option.isSome_iff_exists.mp hsrc
  obtain ⟨new_tgt, htgt⟩ := Option.isSome_iff_exists.mp htgt
  simp only [addUnmerged, hsrc, htgt, Option.bind_eq_bind, Option.bind_some]
  split_ifs <;> rfl

theorem mergeEdgesNoCopy_isSome (order : MapOrder ((String × String) × List MLEdge))
    {edges : List MLEdge} {name_map : List (String × String)}
    (hends : ∀ e ∈ edges, (name_map.lookup e.src_id).isSome ∧ (name_map.lookup e.tgt_id).isSome) :
    (mergeEdgesNoCopy order edges name_map).isSome := by
  have hfold : (edges.foldlM (addUnmerged name_map) []).isSome :=
    foldlM_isSome (fun _ e he => addUnmerged_isSome (hends e he).1 (hends e he).2) []
  obtain ⟨unmerged_edges, hunmerged⟩ := Option.isSome_iff_exists.mp hfold
  simp [mergeEdgesNoCopy, hunmerged]

theorem mergePair_isSome {orig : List MLNode} {used : ℕ}
    (hok : SmallMergeOk p orig graph used) (pair : PairMerge) :
    (p.mergePair graph pair).isSome := by
  have hedges : (mergeEdgesNoCopy p.edge_order graph.edges (graph.nodes.map fun n =>
      (n.id, if n.id = pair.n1.id ∨ n.id = pair.n2.id then pair.merged.id else n.id))).isSome := by
    apply mergeEdgesNoCopy_isSome
    intro e he
    obtain ⟨hsrc, htgt⟩ := hok.topo.forward.ends he
    rw [lookup_renamed _ hsrc, lookup_renamed _ htgt]
    exact ⟨rfl, rfl⟩
  obtain ⟨merged_edges, hmerged⟩ := Option.isSome_iff_exists.mp hedges
  simp [mergePair, hmerged]

/-- There is a smallest node as soon as there are too many. -/
def HasMin (p : MLPartitioner) (min_partition_num : ℕ) (graph : MLGraph) : Prop :=
  graph.nodes.length ≤ min_partition_num ∨ ∃ n ∈ graph.nodes, p.evalNode n < LONG_MAX

theorem mem_neighbours_mem {nodes : List MLNode} {idx : ℕ} {q : MLNode × MLNode}
    (hq : q ∈ neighbours nodes idx) : q.1 ∈ nodes ∧ q.2 ∈ nodes := by
  obtain ⟨i, h1, h2⟩ := mem_neighbours hq
  exact ⟨List.mem_of_getElem? h1, List.mem_of_getElem? h2⟩

/-- A merged node is again below the largest time. -/
theorem mergeSmallLoop_isSome {orig : List MLNode} {min_partition_num fuel used : ℕ}
    {merged_graph : MLGraph} (hok : SmallMergeOk p orig merged_graph used)
    (hknown : ∀ n ∈ merged_graph.nodes, n.graph.InputsKnown)
    (hmin : p.HasMin min_partition_num merged_graph) :
    (p.mergeSmallLoop min_partition_num fuel merged_graph used).isSome := by
  induction fuel generalizing merged_graph used with
  | zero => rfl
  | succ fuel ih =>
    rw [mergeSmallLoop]
    split_ifs with hsmall
    · rfl
    obtain ⟨idx, hidx⟩ := Option.isSome_iff_exists.mp
      (minNode_isSome_iff.mpr (hmin.resolve_left hsmall))
    have hpairs : ∀ q ∈ neighbours merged_graph.nodes idx,
        q.1.graph.InputsKnown ∧ q.2.graph.InputsKnown := by
      intro q hq
      obtain ⟨h1, h2⟩ := mem_neighbours_mem hq
      exact ⟨hknown q.1 h1, hknown q.2 h2⟩
    obtain ⟨⟨pair, used₁⟩, hbest⟩ := Option.isSome_iff_exists.mp
      (bestMerge_isSome merged_graph none used hpairs)
    have hfind : p.findSmallMerge merged_graph used = some (pair, used₁) :=
      Option.bind_eq_some_iff.mpr ⟨idx, hidx, hbest⟩
    rw [hfind]
    dsimp only [Option.bind_eq_bind, Option.bind_some]
    cases pair with
    | none => rfl
    | some pair =>
      obtain ⟨hle, hat⟩ := findSmallMerge_at hfind
      obtain ⟨before, after, hat⟩ := hat pair rfl
      obtain ⟨merged_graph', hmerge⟩ := Option.isSome_iff_exists.mp
        (mergePair_isSome hok pair)
      have hnodes := mergePair_nodes hat hok.topo.nodup hmerge
      have hold : ∀ n ∈ before ++ pair.n1 :: pair.n2 :: after, n.graph.InputsKnown :=
        hat.nodes ▸ hknown
      have hmerged : pair.merged.graph.InputsKnown := by
        obtain ⟨name, -, -, hname⟩ := hat.merged
        obtain ⟨merged, hmerged, hgraph⟩ := (hold pair.n1 (by simp)).merge
          (hold pair.n2 (by simp)) (p.names.generateName name "ML_") merged_graph.nodes
          merged_graph.edges
        exact Option.some.inj (hmerged.symm.trans hname) ▸ hgraph
      dsimp only
      rw [hmerge]
      refine ih (mergePair_ok hok hat hle hmerge) ?_ (Or.inr ⟨pair.merged, ?_, ?_⟩)
      · intro n hn
        rw [hnodes, List.mem_append, List.mem_cons] at hn
        rcases hn with hn | rfl | hn
        · exact hold n (List.mem_append_left _ hn)
        · exact hmerged
        · exact hold n (by simp [hn])
      · simp [hnodes]
      · exact hat.eval ▸ hat.eval_lt

/-- The nodes are merged in ranges, and the order of what comes out is topological again. -/
theorem mergeSmall_topoOrdered {ml_graph : MLGraph} {min_partition_num used : ℕ}
    (htopo : ml_graph.TopoOrdered) (hknown : ∀ n ∈ ml_graph.nodes, n.graph.InputsKnown)
    (hfresh : ∀ i, used ≤ i → p.names.generateName i "ML_" ∉ ml_graph.ids) :
    ((p.mergeSmall ml_graph min_partition_num used).isSome ↔
        p.HasMin min_partition_num ml_graph) ∧
      ∀ res used', p.mergeSmall ml_graph min_partition_num used = some (res, used') →
        res.TopoOrdered ∧ (∀ e ∈ res.edges, e.src_id ∈ res.ids ∧ e.tgt_id ∈ res.ids) ∧
        (∃ range, Ranges range ml_graph.nodes res.nodes ∧
          ∀ n ∈ ml_graph.nodes, ∃! m, m ∈ res.nodes ∧ n ∈ range m.id) ∧
        (res.nodes.length ≤ min_partition_num ∨
          ∃ used₁, p.findSmallMerge res used₁ = some (none, used')) := by
  have hok : SmallMergeOk p ml_graph.nodes ml_graph used :=
    ⟨htopo, hfresh, _, ranges_self htopo.nodup⟩
  constructor
  · refine ⟨fun h => ?_, mergeSmallLoop_isSome hok hknown⟩
    by_cases hsmall : ml_graph.nodes.length ≤ min_partition_num
    · exact Or.inl hsmall
    · obtain ⟨fuel, hfuel⟩ : ∃ fuel, ml_graph.nodes.length = fuel + 1 :=
        Nat.exists_eq_succ_of_ne_zero (by omega)
      rw [mergeSmall, hfuel, mergeSmallLoop, if_neg hsmall] at h
      obtain ⟨res, hres⟩ := Option.isSome_iff_exists.mp h
      obtain ⟨pair, hfind, -⟩ := Option.bind_eq_some_iff.mp hres
      obtain ⟨idx, hidx, -⟩ := Option.bind_eq_some_iff.mp hfind
      exact Or.inr (minNode_isSome_iff.mp (hidx ▸ rfl))
  · intro res used' h
    have hres := mergeSmallLoop_ok hok h
    obtain ⟨range, hranges⟩ := hres.ranges
    exact ⟨hres.topo, fun e he => hres.topo.forward.ends he,
      ⟨range, hranges, fun n hn => hranges.existsUnique htopo.nodup.of_map hn⟩,
      mergeSmallLoop_done le_rfl h⟩

theorem crossingGraph_topoOrdered : crossingGraph.TopoOrdered := by
  refine ⟨by decide, ?_⟩
  unfold MLGraph.Forward
  decide

theorem crossingNames_fresh {ids : List String}
    (hids : ∀ id ∈ ids, ∃ c ∈ id.toList, c ∉ ['M', 'L', '_', 'x']) (i : ℕ) :
    crossingPartitioner.names.generateName i "ML_" ∉ ids := by
  intro hmem
  have hchars : ∀ c ∈ (crossingPartitioner.names.generateName i "ML_").toList,
      c ∈ ['M', 'L', '_', 'x'] := by
    intro c hc
    simp only [NameSupply.generateName, crossingPartitioner, crossingNames, String.toList_append,
      String.toList_ofList, List.mem_append, List.mem_replicate] at hc
    cases hc with
    | inl hc =>
      have hsub : "ML_".toList ⊆ ['M', 'L', '_', 'x'] := by decide
      exact hsub hc
    | inr hc => simp [hc.2]
  obtain ⟨c, hc, hne⟩ := hids _ hmem
  exact hne (hchars c hc)

/-- The graph of two merges that cross, down to two nodes. -/
theorem mergeSmall_topoOrdered_crossing :
    (crossingPartitioner.mergeSmall crossingGraph 2 0).isSome ∧
      ∀ res used', crossingPartitioner.mergeSmall crossingGraph 2 0 = some (res, used') →
        res.TopoOrdered ∧ ∃ range, Ranges range crossingGraph.nodes res.nodes := by
  have hknown : ∀ n ∈ crossingGraph.nodes, n.graph.InputsKnown := by
    unfold IRGraph.InputsKnown
    decide
  have hids : ∀ id ∈ crossingGraph.ids, ∃ c ∈ id.toList, c ∉ ['M', 'L', '_', 'x'] := by
    have hnames : crossingGraph.ids = ["ML_a", "ML_b", "ML_c", "ML_d"] := rfl
    rw [hnames]
    simp
  obtain ⟨hiff, hres⟩ := @mergeSmall_topoOrdered crossingPartitioner crossingGraph 2 0
    crossingGraph_topoOrdered hknown fun i _ => crossingNames_fresh hids i
  refine ⟨hiff.mpr ?_, fun res used' h => ?_⟩
  · right
    exact ⟨_, List.mem_cons_self, by decide⟩
  · obtain ⟨htopo, -, ⟨range, hranges, -⟩, -⟩ := hres res used' h
    exact ⟨htopo, range, hranges⟩

end MLPartitioner

end Rannc
