import Rannc.Graph.BoundaryPlaces

/-!
# Runs of the boundary adjustment

The moves are listed at the start, while the nodes and edges change with every move. A node is moved
once at most, and until then the other ends of its edges stay where they were or come to its side.
So the moves that are out of date are rejected by the guards before they look up an edge that is
gone.
-/
namespace Rannc

open Relocation

/-- The coarse node that has a lower node. -/
def homeOf (g : MLGraph) (id : String) : String :=
  ((g.nodes.find? fun n => id ∈ n.sub_nodes.map MLNode.id).map MLNode.id).getD ""

namespace MLGraph

/-- The nodes of the lower level. -/
abbrev lowerNodes (g : MLGraph) : List MLNode := g.nodes.flatMap MLNode.sub_nodes

abbrev lowerEdges (g : MLGraph) : List MLEdge :=
  g.edges.flatMap MLEdge.sub_edges ++ g.nodes.flatMap MLNode.sub_edges

variable {g : MLGraph}

theorem verify_iff : g.verify = true ↔
    (∀ n ∈ g.nodes, ∀ se ∈ n.sub_edges, se.src_id ∈ n.sub_nodes.map MLNode.id ∧
      se.tgt_id ∈ n.sub_nodes.map MLNode.id) ∧
    ∀ e ∈ g.edges, g.subnode_ids e.src_id ≠ [] ∧ g.subnode_ids e.tgt_id ≠ [] ∧
      ∀ se ∈ e.sub_edges, se.src_id ∈ g.subnode_ids e.src_id ∧
        se.tgt_id ∈ g.subnode_ids e.tgt_id := by
  unfold verify MLNode.verify
  simp only [Bool.and_eq_true, List.all_eq_true, decide_eq_true_eq]

theorem exists_of_subnode_ids {id : String} (h : g.subnode_ids id ≠ []) :
    ∃ n ∈ g.nodes, n.id = id := by
  obtain ⟨x, hx⟩ := List.exists_mem_of_ne_nil _ h
  obtain ⟨n, hn, hid, -⟩ := mem_subnode_ids.mp hx
  exact ⟨n, hn, hid⟩

theorem subnode_ids_subset {id x : String} (h : x ∈ g.subnode_ids id) :
    x ∈ g.lowerNodes.map MLNode.id := by
  obtain ⟨n, hn, -, hx⟩ := mem_subnode_ids.mp h
  rw [List.map_flatMap]
  exact List.mem_flatMap.mpr ⟨n, hn, hx⟩

theorem verify_ends (h : g.verify = true) {e : MLEdge} (he : e ∈ g.lowerEdges) :
    e.src_id ∈ g.lowerNodes.map MLNode.id ∧ e.tgt_id ∈ g.lowerNodes.map MLNode.id := by
  obtain ⟨hnodes, hedges⟩ := verify_iff.mp h
  rcases List.mem_append.mp he with he | he
  · obtain ⟨e', he', he⟩ := List.mem_flatMap.mp he
    exact ((hedges e' he').2.2 e he).imp subnode_ids_subset subnode_ids_subset
  · obtain ⟨n, hn, he⟩ := List.mem_flatMap.mp he
    rw [List.map_flatMap]
    exact (hnodes n hn e he).imp (fun hx => List.mem_flatMap.mpr ⟨n, hn, hx⟩)
      fun hx => List.mem_flatMap.mpr ⟨n, hn, hx⟩

theorem homeOf_eq (hnodup : (g.lowerNodes.map MLNode.id).Nodup) {n : MLNode} (hn : n ∈ g.nodes)
    {x : String} (hx : x ∈ n.sub_nodes.map MLNode.id) : homeOf g x = n.id := by
  rw [lowerNodes, List.map_flatMap] at hnodup
  have hpairwise := (List.nodup_flatMap.mp hnodup).2
  have hsymm : Std.Symm (Function.onFun List.Disjoint fun n : MLNode =>
      n.sub_nodes.map MLNode.id) := ⟨fun _ _ h => h.symm⟩
  cases hfind : g.nodes.find? fun n => decide (x ∈ n.sub_nodes.map MLNode.id) with
  | none => exact absurd (decide_eq_true hx) (List.find?_eq_none.mp hfind n hn)
  | some n' =>
    have hn' := List.mem_of_find?_eq_some hfind
    have hx' : x ∈ n'.sub_nodes.map MLNode.id := by simpa using List.find?_some hfind
    rw [homeOf, hfind]
    by_contra hne
    have hdisjoint := hpairwise.forall hn' hn fun heq => hne (heq ▸ rfl)
    exact hdisjoint hx' hx

theorem homeOf_subnode_ids (hnodup : (g.lowerNodes.map MLNode.id).Nodup) {id x : String}
    (h : x ∈ g.subnode_ids id) : homeOf g x = id := by
  obtain ⟨n, hn, rfl, hx⟩ := mem_subnode_ids.mp h
  exact homeOf_eq hnodup hn hx

/-- The lower edges by the coarse nodes that they are at. -/
def edgeHolders (g : MLGraph) : List ((String × String) × List MLEdge) :=
  (g.edges.map fun e => (e.ends, e.sub_edges)) ++ g.nodes.map fun n => ((n.id, n.id), n.sub_edges)

theorem flatMap_edgeHolders : g.edgeHolders.flatMap Prod.snd = g.lowerEdges := by
  rw [edgeHolders, List.flatMap_append, List.flatMap_map, List.flatMap_map]

end MLGraph

theorem Listed.mem_lowerEdges {g : MLGraph} {move : NodeMove} (h : Listed g move) :
    move.sub_edge ∈ g.lowerEdges :=
  List.mem_append_left _ (List.mem_flatMap.mpr ⟨_, h.edge, h.sub_edge⟩)

namespace Hierarchy

variable {lower g : MLGraph}

theorem lowerNodes_nodup (h : Hierarchy lower g) (hids : lower.ids.Nodup) :
    (g.lowerNodes.map MLNode.id).Nodup :=
  (h.nodes.map MLNode.id).nodup_iff.mpr hids

theorem edgeHolders_nodup (h : Hierarchy lower g) : (g.edgeHolders.map Prod.fst).Nodup := by
  rw [MLGraph.edgeHolders, List.map_append, List.map_map, List.map_map]
  refine List.nodup_append.mpr ⟨h.ends, ?_, ?_⟩
  · have hkeys : (g.ids.map fun id => (id, id)).Nodup :=
      h.ids.map fun a b heq => (Prod.mk.inj heq).1
    rw [MLGraph.ids, List.map_map] at hkeys
    exact hkeys
  · intro key hkey key' hkey' heq
    obtain ⟨n, -, rfl⟩ := List.mem_map.mp hkey'
    exact h.apart key hkey (by rw [heq]; rfl)

theorem placed_holder (h : Hierarchy lower g) (hids : lower.ids.Nodup) :
    ∀ it ∈ g.edgeHolders, ∀ e ∈ it.2, placeOf (homeOf g) e = it.1 := by
  obtain ⟨hnodes, hedges⟩ := MLGraph.verify_iff.mp h.verified
  have hnodup := h.lowerNodes_nodup hids
  intro it hit e he
  rcases List.mem_append.mp hit with hit | hit
  · obtain ⟨e', he', rfl⟩ := List.mem_map.mp hit
    obtain ⟨hsrc, htgt⟩ := (hedges e' he').2.2 e he
    exact Prod.ext (MLGraph.homeOf_subnode_ids hnodup hsrc)
      (MLGraph.homeOf_subnode_ids hnodup htgt)
  · obtain ⟨n, hn, rfl⟩ := List.mem_map.mp hit
    obtain ⟨hsrc, htgt⟩ := hnodes n hn e he
    exact Prod.ext (MLGraph.homeOf_eq hnodup hn hsrc) (MLGraph.homeOf_eq hnodup hn htgt)

theorem placed (h : Hierarchy lower g) (hids : lower.ids.Nodup) {used : ℕ} {st₀ : Adjusting}
    {moves : List NodeMove} (hstart : startAdjusting g used = some (st₀, moves)) :
    Placed g g.lowerNodes g.lowerEdges (homeOf g) st₀ := by
  obtain ⟨rfl, -⟩ := startAdjusting_eq_some hstart
  have hnodup := h.lowerNodes_nodup hids
  have hholder := h.placed_holder hids
  have hheld : ∀ it ∈ g.edgeHolders, it.2.Perm
      (g.lowerEdges.filter fun e => placeOf (homeOf g) e = it.1) := by
    intro it hit
    rw [← MLGraph.flatMap_edgeHolders]
    exact .of_eq (filter_flatMap_key _ h.edgeHolders_nodup hholder hit).symm
  have hnode : ∀ {id n}, (Dict.ofList (g.nodes.map fun n => (n.id, n))).get id = some n →
      n ∈ g.nodes ∧ n.id = id := Dict.mem_of_get_ofList_map
  have hedge : ∀ {key e}, (Dict.ofList (g.edges.map fun e => (e.ends, e))).get key = some e →
      e ∈ g.edges ∧ e.ends = key := Dict.mem_of_get_ofList_map
  have hkeys : ∀ id, id ∈ (Dict.ofList (g.nodes.map fun n => (n.id, n))).keys ↔ id ∈ g.ids := by
    intro id
    rw [Dict.mem_keys_iff, Option.isSome_iff_exists, MLGraph.ids, List.mem_map]
    exact exists_congr fun n => Dict.get_ofList_map h.ids
  constructor
  case node_id => exact fun hget => (hnode hget).2
  case nonempty => exact fun hget => h.nonempty _ (hnode hget).1
  case sub_nodes =>
    intro id n hget
    obtain ⟨hn, rfl⟩ := hnode hget
    have hkeys : ((g.nodes.map fun n => (n.id, n.sub_nodes)).map Prod.fst).Nodup := by
      rw [List.map_map]
      exact h.ids
    have hfilter := filter_flatMap_key (fun sn : MLNode => homeOf g sn.id) hkeys (by
      intro it hit sn hsn
      obtain ⟨n, hn, rfl⟩ := List.mem_map.mp hit
      exact MLGraph.homeOf_eq hnodup hn (List.mem_map_of_mem hsn)) (List.mem_map_of_mem hn)
    rw [List.flatMap_map] at hfilter
    exact .of_eq hfilter.symm
  case sub_edges =>
    intro id n hget
    obtain ⟨hn, rfl⟩ := hnode hget
    exact hheld _ (List.mem_append_right _ (List.mem_map_of_mem hn))
  case keys => exact hkeys
  case located =>
    intro sn hsn
    obtain ⟨n, hn, hsn⟩ := List.mem_flatMap.mp hsn
    rw [hkeys, MLGraph.homeOf_eq hnodup hn (List.mem_map_of_mem hsn)]
    exact List.mem_map_of_mem hn
  case edge_ends => exact fun hget => (hedge hget).2
  case edge_sub_edges =>
    intro key e hget
    obtain ⟨he, rfl⟩ := hedge hget
    exact hheld _ (List.mem_append_left _ (List.mem_map_of_mem he))
  case edge_old =>
    intro key e hget
    obtain ⟨he, rfl⟩ := hedge hget
    exact List.mem_map_of_mem he
  case edge_ne =>
    intro key e hget
    obtain ⟨he, rfl⟩ := hedge hget
    exact h.apart _ (List.mem_map_of_mem he)
  case edge_full => exact fun hget => h.full _ (hedge hget).1
  case edge_nodes =>
    intro key e hget
    obtain ⟨he, rfl⟩ := hedge hget
    obtain ⟨hsrc, htgt, -⟩ := (MLGraph.verify_iff.mp h.verified).2 e he
    rw [hkeys, hkeys]
    exact ⟨List.mem_map.mpr (MLGraph.exists_of_subnode_ids hsrc),
      List.mem_map.mpr (MLGraph.exists_of_subnode_ids htgt)⟩
  case crossing =>
    intro e he hne
    rcases List.mem_append.mp he with he | he
    · obtain ⟨e', he', he⟩ := List.mem_flatMap.mp he
      have hplace := hholder _ (List.mem_append_left _ (List.mem_map_of_mem he')) e he
      rw [hplace, Dict.mem_keys_iff, Option.isSome_iff_exists]
      exact ⟨e', (Dict.get_ofList_map h.ends).mpr ⟨he', rfl⟩⟩
    · obtain ⟨n, hn, he⟩ := List.mem_flatMap.mp he
      have hplace := hholder _ (List.mem_append_right _ (List.mem_map_of_mem hn)) e he
      exact absurd ((Prod.mk.inj hplace).1.trans (Prod.mk.inj hplace).2.symm) hne
  case all_sub_edges =>
    have hkeys : ((g.edges.map fun e => (e.ends, e)).map Prod.fst).Nodup := by
      rw [List.map_map]
      exact h.ends
    have hvalues : (Dict.ofList (g.edges.map fun e => (e.ends, e))).values = g.edges := by
      rw [Dict.values, Dict.entries_ofList hkeys, List.map_map]
      exact List.map_id g.edges
    rw [hvalues]

end Hierarchy

namespace MLPartitioner

variable (p : MLPartitioner) (orders : AdjustOrders)

theorem moveCandIds_nodup (moves : List NodeMove) : (moveCandIds orders moves).Nodup :=
  (orders.move_choices.perm _).nodup_iff.mpr (List.nodup_dedup _)

/-- A move that its node is free for finds the edge that it goes along. -/
def FindsEdge (st : Adjusting) (move : NodeMove) : Prop :=
  ∃ src_node tgt_node, st.node_map.get move.src_id = some src_node ∧
    st.node_map.get move.tgt_id = some tgt_node ∧
    (move.blocked src_node tgt_node st.all_sub_edges = some false →
      (st.edge_map.get move.edge.ends).isSome)

/-- After every sequence of moves the graph is an acyclic coarse graph on the lower one, with the
same nodes, and the moves of the candidates that are left find their edges. -/
def KeepsHierarchy (lower g : MLGraph) (used : ℕ) : Prop :=
  ∃ st₀ moves, startAdjusting g used = some (st₀, moves) ∧
    ∀ before after st, moveCandIds orders moves = before ++ after →
      before.foldlM (p.adjustNode orders moves) st₀ = some st →
      Hierarchy lower (st.graph orders) ∧ (st.graph orders).Acyclic ∧
        (st.graph orders).ids.Perm g.ids ∧
        ∀ move ∈ moves, move.moved_node.id ∈ after → FindsEdge st move

variable {p orders} {lower g : MLGraph} {used : ℕ} {st₀ : Adjusting} {moves : List NodeMove}

/-- A graph that passes its check has the moves listed. -/
theorem startAdjusting_isSome (h : g.verify = true) (used : ℕ) :
    (startAdjusting g used).isSome := by
  obtain ⟨-, hedges⟩ := MLGraph.verify_iff.mp h
  have hget : ∀ {nodes : List MLNode} {id : String}, id ∈ nodes.map MLNode.id →
      ∃ n, (Dict.ofList (nodes.map fun n => (n.id, n))).get id = some n := by
    intro nodes id hid
    apply Option.isSome_iff_exists.mp
    rw [← Dict.mem_keys_iff, Dict.mem_keys_ofList, List.map_map]
    exact hid
  obtain ⟨lists, hlists⟩ := mapM_of_forall_some (f := edgeMoves
    (Dict.ofList (g.nodes.map fun n => (n.id, n)))
    (Dict.ofList (g.lowerNodes.map fun sn => (sn.id, sn)))) (l := g.edges) (by
      intro e he
      obtain ⟨hsrc, htgt, hsub⟩ := hedges e he
      obtain ⟨src_node, hsrc⟩ := hget (List.mem_map.mpr (MLGraph.exists_of_subnode_ids hsrc))
      obtain ⟨tgt_node, htgt⟩ := hget (List.mem_map.mpr (MLGraph.exists_of_subnode_ids htgt))
      obtain ⟨pairs, hpairs⟩ := mapM_of_forall_some (l := e.sub_edges) (f := fun se => do
        let moved_node_src ← (Dict.ofList (g.lowerNodes.map fun sn => (sn.id, sn))).get se.src_id
        let moved_node_tgt ← (Dict.ofList (g.lowerNodes.map fun sn => (sn.id, sn))).get se.tgt_id
        return [(⟨src_node.id, e, tgt_node.id, moved_node_src, se, true⟩ : NodeMove),
          ⟨src_node.id, e, tgt_node.id, moved_node_tgt, se, false⟩]) (by
          intro se hse
          obtain ⟨hsrc, htgt⟩ := hsub se hse
          obtain ⟨moved_src, hmoved_src⟩ := hget (MLGraph.subnode_ids_subset hsrc)
          obtain ⟨moved_tgt, hmoved_tgt⟩ := hget (MLGraph.subnode_ids_subset htgt)
          simp [hmoved_src, hmoved_tgt])
      unfold edgeMoves
      simp only [Option.bind_eq_bind, Option.pure_def] at hpairs ⊢
      rw [hsrc, htgt, Option.bind_some, Option.bind_some, hpairs]
      rfl)
  have hverify : g.nodes.all MLNode.verify = true := by
    rw [MLGraph.verify, Bool.and_eq_true] at h
    exact h.1
  unfold startAdjusting
  simp [hverify, hlists, guard]

/-- What holds of the state after some of the candidates. -/
theorem exists_placed (h : Hierarchy lower g) (hids : lower.ids.Nodup)
    (hstart : startAdjusting g used = some (st₀, moves)) {before : List String} {st : Adjusting}
    (hnodup : before.Nodup) (hrun : before.foldlM (p.adjustNode orders moves) st₀ = some st) :
    ∃ loc, Placed g g.lowerNodes g.lowerEdges loc st ∧
      Tracked MLEdge.src_id MLEdge.tgt_id g.lowerEdges (homeOf g) loc {id | id ∈ before} := by
  obtain ⟨-, hlisted⟩ := startAdjusting_eq_some hstart
  have hlower := h.lowerNodes_nodup hids
  refine foldlM_prefix (I := fun before st => ∃ loc, Placed g g.lowerNodes g.lowerEdges loc st ∧
    Tracked MLEdge.src_id MLEdge.tgt_id g.lowerEdges (homeOf g) loc {id | id ∈ before}) ?_ ?_ hrun
  · rintro done id rest st st' hsplit ⟨loc, hplaced, htracked⟩ hstep
    have hid : id ∉ done := by
      rw [hsplit] at hnodup
      exact fun hmem => (List.nodup_append.mp hnodup).2.2 id hmem id List.mem_cons_self rfl
    have hdone : {id' | id' ∈ done ++ [id]} = insert id {id' | id' ∈ done} := by
      ext id'
      simp [or_comm]
    rw [hdone]
    rcases adjustNode_eq_some hstep with hst | ⟨move, hmove, rfl, src_node, tgt_node, edge, moved,
      used, hallowed, happly, -, hst⟩
    · rw [hst]
      exact ⟨loc, { hplaced with }, htracked.skip id⟩
    · have hmem := hlisted move hmove
      obtain ⟨dest, hrelocate, hplaced'⟩ := hplaced.accept hlower hmem hmem.moved_node
        hmem.mem_lowerEdges hallowed happly orders st'.used
      rw [hst]
      exact ⟨_, hplaced', htracked.move hid hrelocate⟩
  · refine ⟨homeOf g, h.placed hids hstart, ?_⟩
    convert Tracked.refl g.lowerEdges (homeOf g)
    simp

/-- The moves keep an acyclic coarse graph on the lower one. -/
theorem keepsHierarchy (h : Hierarchy lower g) (hacyclic : g.Acyclic) (hids : lower.ids.Nodup)
    (p : MLPartitioner) (orders : AdjustOrders) (used : ℕ) :
    p.KeepsHierarchy orders lower g used := by
  obtain ⟨⟨st₀, moves⟩, hstart⟩ := Option.isSome_iff_exists.mp
    (startAdjusting_isSome h.verified used)
  refine ⟨st₀, moves, hstart, fun before after st hsplit hrun => ?_⟩
  have hnodup := moveCandIds_nodup orders moves
  rw [hsplit] at hnodup
  obtain ⟨hbefore, -, hdisjoint⟩ := List.nodup_append.mp hnodup
  obtain ⟨-, hlisted⟩ := startAdjusting_eq_some hstart
  obtain ⟨loc, hplaced, htracked⟩ := exists_placed h hids hstart hbefore hrun
  refine ⟨hplaced.hierarchy (fun e he => MLGraph.verify_ends h.verified he) h.nodes h.edges orders,
    hplaced.acyclic hacyclic orders, hplaced.ids_perm h.ids orders, fun move hmove hafter => ?_⟩
  have hmem := hlisted move hmove
  have hplace := h.placed_holder hids _
    (List.mem_append_left _ (List.mem_map_of_mem hmem.edge)) _ hmem.sub_edge
  have hne : move.src_id ≠ move.tgt_id := by
    have hne := h.apart _ (List.mem_map_of_mem hmem.edge)
    rwa [hmem.ends] at hne
  obtain ⟨hsrc, htgt, -⟩ := (MLGraph.verify_iff.mp h.verified).2 _ hmem.edge
  have hnode : ∀ {id}, g.subnode_ids id ≠ [] → ∃ n, st.node_map.get id = some n := by
    intro id hid
    have hkey := (hplaced.keys id).mpr (List.mem_map.mpr (MLGraph.exists_of_subnode_ids hid))
    exact Option.isSome_iff_exists.mp (Dict.mem_keys_iff.mp hkey)
  obtain ⟨src_node, hsrc⟩ := hnode hsrc
  obtain ⟨tgt_node, htgt⟩ := hnode htgt
  rw [(Prod.mk.inj hmem.ends).1] at hsrc
  rw [(Prod.mk.inj hmem.ends).2] at htgt
  exact ⟨src_node, tgt_node, hsrc, htgt, hplaced.edge_isSome htracked hmem hmem.mem_lowerEdges
    hplace hne (fun hdone => hdisjoint _ hdone _ hafter rfl) hsrc htgt⟩

theorem adjustBoundaries_hierarchy (h : Hierarchy lower g) (hids : lower.ids.Nodup) {res : MLGraph}
    {used' : ℕ} (hres : p.adjustBoundaries orders g used = some (res, used')) :
    Hierarchy lower res ∧ res.ids.Perm g.ids := by
  obtain ⟨⟨st₀, moves⟩, hstart, hres⟩ := Option.bind_eq_some_iff.mp hres
  obtain ⟨st, hrun, hres⟩ := Option.bind_eq_some_iff.mp hres
  obtain ⟨rfl, -⟩ := Prod.mk.inj (Option.some.inj hres)
  obtain ⟨loc, hplaced, -⟩ := exists_placed h hids hstart (moveCandIds_nodup orders moves) hrun
  exact ⟨hplaced.hierarchy (fun e he => MLGraph.verify_ends h.verified he) h.nodes h.edges orders,
    hplaced.ids_perm h.ids orders⟩

section Coarsened

variable {ml_graph : MLGraph} {skip_profiling : Bool} {min_partition_num used' : ℕ}

theorem mergeAdjacents_nodup
    (h : p.mergeAdjacents ml_graph skip_profiling min_partition_num used = some (g, used')) :
    g.ids.Nodup ∧ g.ends.Nodup := by
  obtain ⟨pass, st, -, hst, hedges, hnodes, -⟩ := mergeAdjacents_eq_some h
  obtain ⟨hok, -⟩ := mergeNodes_ok (mergeOk_nil p pass used) hst
  refine ⟨?_, (mergeEdgesNoCopy_perm hedges).1⟩
  rw [MLGraph.ids, hnodes]
  exact hok.nodup

/-- A merged edge has sub edges, and they are between the nodes that became its ends. -/
theorem mergeEdgesNoCopy_sub_edges {order : MapOrder ((String × String) × List MLEdge)}
    {edges merged_edges : List MLEdge} {name_map : List (String × String)}
    (h : mergeEdgesNoCopy order edges name_map = some merged_edges) :
    ∀ e ∈ merged_edges, e.src_id ≠ e.tgt_id ∧ e.sub_edges ≠ [] ∧ ∀ se ∈ e.sub_edges,
      name_map.lookup se.src_id = some e.src_id ∧ name_map.lookup se.tgt_id = some e.tgt_id := by
  obtain ⟨unmerged_edges, hfold, hres⟩ := Option.bind_eq_some_iff.mp h
  obtain rfl := Option.some.inj hres
  have hrun := foldlM_invariant (P := fun map : MLEdgeVectorMap => ∀ it ∈ map,
    it.1.1 ≠ it.1.2 ∧ it.2 ≠ [] ∧ ∀ se ∈ it.2, name_map.lookup se.src_id = some it.1.1 ∧
      name_map.lookup se.tgt_id = some it.1.2) (by
    intro map e map' _ hmap hstep
    simp only [addUnmerged, Option.bind_eq_bind, Option.bind_eq_some_iff, Option.pure_def] at hstep
    obtain ⟨new_src, hsrc, new_tgt, htgt, hstep⟩ := hstep
    split_ifs at hstep with hself hmem
    · exact Option.some.inj hstep ▸ hmap
    · obtain rfl := Option.some.inj hstep
      intro it hit
      obtain ⟨it', hit', rfl⟩ := List.mem_map.mp hit
      obtain ⟨hne, hfull, hends⟩ := hmap it' hit'
      split_ifs with hkey
      · refine ⟨hne, by simp, List.forall_mem_append.mpr ⟨hends, ?_⟩⟩
        simp [hsrc, htgt, hkey]
      · exact ⟨hne, hfull, hends⟩
    · obtain rfl := Option.some.inj hstep
      refine List.forall_mem_append.mpr ⟨hmap, List.forall_mem_singleton.mpr ?_⟩
      exact ⟨hself, by simp, by simp [hsrc, htgt]⟩) (by simp) hfold
  intro e he
  obtain ⟨it, hit, rfl⟩ := List.mem_map.mp he
  exact hrun it ((order.perm unmerged_edges).mem_iff.mp hit)

theorem mergeAdjacents_full
    (h : p.mergeAdjacents ml_graph skip_profiling min_partition_num used = some (g, used')) :
    (∀ n ∈ g.nodes, n.sub_nodes ≠ []) ∧ (∀ key ∈ g.ends, key.1 ≠ key.2) ∧
      ∀ e ∈ g.edges, e.sub_edges ≠ [] := by
  obtain ⟨pass, st, -, hst, hedges, hnodes, -⟩ := mergeAdjacents_eq_some h
  have hsub_edges := mergeEdgesNoCopy_sub_edges hedges
  refine ⟨hnodes ▸ mergeNodes_nonempty (by simp) hst, fun key hkey => ?_,
    fun e he => (hsub_edges e he).2.1⟩
  obtain ⟨e, he, rfl⟩ := List.mem_map.mp hkey
  exact (hsub_edges e he).1

theorem mergeAdjacents_hierarchy_iff (hids : ml_graph.ids.Nodup)
    (h : p.mergeAdjacents ml_graph skip_profiling min_partition_num used = some (g, used'))
    (hverify : g.verify = true) :
    Hierarchy ml_graph g ↔
      p.passRefused ml_graph skip_profiling min_partition_num used = [] ∧
        JoinedOnce ml_graph.edges (p.passPairs ml_graph skip_profiling min_partition_num used) := by
  obtain ⟨hg_ids, hg_ends⟩ := mergeAdjacents_nodup h
  obtain ⟨hnonempty, hapart, hfull⟩ := mergeAdjacents_full h
  rw [← mergeAdjacents_perm_iff hids h]
  exact ⟨fun hres => ⟨hres.nodes, hres.edges⟩,
    fun hperm => ⟨hverify, hg_ids, hg_ends, hapart, hfull, hnonempty, hperm.1, hperm.2⟩⟩

theorem startAdjusting_perm (hg_ids : g.ids.Nodup) (hg_ends : g.ends.Nodup)
    (hstart : startAdjusting g used = some (st₀, moves)) (orders : AdjustOrders) :
    (st₀.graph orders).nodes.Perm g.nodes ∧ (st₀.graph orders).edges.Perm g.edges := by
  obtain ⟨rfl, -⟩ := startAdjusting_eq_some hstart
  have hvalues : ∀ {K V : Type} [DecidableEq K] {l : List V} {key : V → K}, (l.map key).Nodup →
      (Dict.ofList (l.map fun a => (key a, a))).values = l := by
    intro K V _ l key hnodup
    have hkeys : ((l.map fun a => (key a, a)).map Prod.fst).Nodup := by
      rw [List.map_map]
      exact hnodup
    rw [Dict.values, Dict.entries_ofList hkeys, List.map_map]
    exact List.map_id l
  constructor
  · refine (orders.node_map.perm _).trans (.of_eq ?_)
    exact hvalues hg_ids
  · refine (orders.edge_map.perm _).trans (.of_eq ?_)
    exact hvalues hg_ends

/-- The moves keep the hierarchy of a pass of coarsening just where the pass takes no merge that it
does not accept, and loses no edge inside a pair. -/
theorem adjustBoundaries_keeps_iff (hids : ml_graph.ids.Nodup)
    (h : p.mergeAdjacents ml_graph skip_profiling min_partition_num used = some (g, used'))
    (hacyclic : g.Acyclic) (hverify : g.verify = true) (q : MLPartitioner)
    (orders : AdjustOrders) :
    q.KeepsHierarchy orders ml_graph g used' ↔
      p.passRefused ml_graph skip_profiling min_partition_num used = [] ∧
        JoinedOnce ml_graph.edges (p.passPairs ml_graph skip_profiling min_partition_num used) := by
  constructor
  · rintro ⟨st₀, moves, hstart, hkeeps⟩
    obtain ⟨hg_ids, hg_ends⟩ := mergeAdjacents_nodup h
    obtain ⟨hfirst, -⟩ := hkeeps [] _ st₀ rfl rfl
    obtain ⟨hnodes, hedges⟩ := startAdjusting_perm hg_ids hg_ends hstart orders
    rw [← mergeAdjacents_perm_iff hids h]
    exact ⟨(hnodes.flatMap_right _).symm.trans hfirst.nodes,
      ((hedges.flatMap_right _).append (hnodes.flatMap_right _)).symm.trans hfirst.edges⟩
  · intro hcond
    have hhierarchy := (mergeAdjacents_hierarchy_iff hids h hverify).mpr hcond
    exact keepsHierarchy hhierarchy hacyclic hids q orders used'

end Coarsened

/-- Three operators one after the other. -/
def chainGraph : MLGraph where
  nodes := [crossingNode "ML_a" "relu" ["x"] "p", crossingNode "ML_b" "tanh" ["p"] "q",
    crossingNode "ML_c" "exp" ["q"] "r"]
  edges := [crossingEdge "ML_a" "ML_b" "p", crossingEdge "ML_b" "ML_c" "q"]

def insertionOrders : AdjustOrders :=
  ⟨⟨id, fun l => .refl l⟩, ⟨id, fun l => .refl l⟩, ⟨id, fun l => .refl l⟩⟩

/-- A partitioner that finds the first two operators of the chain slow together. -/
def chainPartitioner : MLPartitioner :=
  { crossingPartitioner with
    profile := fun g =>
      if g.nodes.length = 2 ∧ "x" ∈ g.input_names then ⟨10, 1, 0⟩ else ⟨1, 1, 0⟩ }

theorem chain_merged : (crossingPartitioner.mergeAdjacents chainGraph false 1 0).map
    (fun res => (res.1.ends, res.1.verify)) = some ([("ML_x", "ML_xx")], true) := by
  decide +kernel

theorem adjustBoundaries_keeps_iff_chain : ∃ g used',
    crossingPartitioner.mergeAdjacents chainGraph false 1 0 = some (g, used') ∧
      chainPartitioner.KeepsHierarchy insertionOrders chainGraph g used' := by
  obtain ⟨⟨g, used'⟩, hres, hshape⟩ := Option.map_eq_some_iff.mp chain_merged
  obtain ⟨hends, hverify⟩ := Prod.mk.inj hshape
  have hacyclic : g.Acyclic := by
    rw [MLGraph.Acyclic, hends]
    exact Digraph.acyclic_of_rank String.length fun hab => by
      obtain ⟨rfl, rfl⟩ := Prod.mk.inj (List.mem_singleton.mp hab)
      decide
  have hpairs : crossingPartitioner.passPairs chainGraph false 1 0 = [("ML_a", "ML_b")] := by
    decide +kernel
  refine ⟨g, used', hres, (adjustBoundaries_keeps_iff (by decide) hres hacyclic hverify _ _).mpr
    ⟨by decide +kernel, ?_⟩⟩
  rw [hpairs]
  exact ⟨by decide, by decide, by decide⟩

/-- The second operator moves to the third. -/
example : ((crossingPartitioner.mergeAdjacents chainGraph false 1 0).bind fun res =>
    chainPartitioner.adjustBoundaries insertionOrders res.1 res.2).map
      (fun res => res.1.nodes.map fun n => n.sub_nodes.map MLNode.id) =
        some [["ML_a"], ["ML_b", "ML_c"]] := by
  decide +kernel

/-- A partitioner that finds merged nodes slower by one. -/
def slowMergePartitioner : MLPartitioner :=
  { crossingPartitioner with
    profile := fun g =>
      if g.nodes.length = 2 then ⟨3, 0, 0⟩
      else if g.input_names = ["y"] then ⟨100, 0, 0⟩ else ⟨1, 0, 0⟩ }

/-- Two operators one after the other, and a slow one. -/
def slowMergeGraph : MLGraph where
  nodes := [crossingNode "ML_a" "relu" ["x"] "p", crossingNode "ML_b" "tanh" ["p"] "q",
    crossingNode "ML_c" "exp" ["y"] "r"]
  edges := [crossingEdge "ML_a" "ML_b" "p"]

theorem slowMerge_merged : (slowMergePartitioner.mergeAdjacents slowMergeGraph false 1 0).map
    (fun res => (res.1.ends, res.1.verify)) = some ([("ML_x", "ML_xx")], true) := by
  decide +kernel

/-- The second operator is in two coarse nodes. -/
theorem not_adjustBoundaries_keeps : ¬ ∀ (p q : MLPartitioner) (orders : AdjustOrders)
    (ml_graph g : MLGraph) (skip_profiling : Bool) (min_partition_num used used' : ℕ),
    ml_graph.ids.Nodup →
    p.mergeAdjacents ml_graph skip_profiling min_partition_num used = some (g, used') →
    g.Acyclic → g.verify = true → q.KeepsHierarchy orders ml_graph g used' := by
  intro h
  obtain ⟨⟨g, used'⟩, hres, hshape⟩ := Option.map_eq_some_iff.mp slowMerge_merged
  obtain ⟨hends, hverify⟩ := Prod.mk.inj hshape
  have hacyclic : g.Acyclic := by
    rw [MLGraph.Acyclic, hends]
    exact Digraph.acyclic_of_rank String.length fun hab => by
      obtain ⟨rfl, rfl⟩ := Prod.mk.inj (List.mem_singleton.mp hab)
      decide
  obtain ⟨st₀, moves, hstart, hkeeps⟩ := h slowMergePartitioner slowMergePartitioner
    insertionOrders slowMergeGraph g false 1 0 used' (by decide) hres hacyclic hverify
  obtain ⟨hfirst, -⟩ := hkeeps [] _ st₀ rfl rfl
  obtain ⟨hg_ids, hg_ends⟩ := mergeAdjacents_nodup hres
  obtain ⟨hnodes, -⟩ := startAdjusting_perm hg_ids hg_ends hstart insertionOrders
  have hlength := ((hnodes.flatMap_right _).symm.trans hfirst.nodes).length_eq
  have hcount : (slowMergePartitioner.mergeAdjacents slowMergeGraph false 1 0).map
      (fun res => (res.1.nodes.flatMap MLNode.sub_nodes).length) = some 4 := by
    decide +kernel
  rw [hres] at hcount
  exact absurd ((Option.some.inj hcount).symm.trans hlength) (by decide)

end MLPartitioner

end Rannc
