import Rannc.Graph.BoundaryMoves
import Rannc.Graph.Regrouping

/-!
# What the moves over the boundaries keep

Every lower node is in one coarse node, and every lower edge is inside the coarse node of its ends
or a sub edge of the edge between their coarse nodes. A node that is free to move has just one edge
that leaves its coarse node, so a move is a relocation along this edge.
-/
namespace Rannc

open Relocation

/-- A coarse graph on a graph of the lower level. -/
structure Hierarchy (lower g : MLGraph) : Prop where
  verified : g.verify = true
  ids : g.ids.Nodup
  ends : g.ends.Nodup
  apart : ∀ key ∈ g.ends, key.1 ≠ key.2
  full : ∀ e ∈ g.edges, e.sub_edges ≠ []
  nonempty : ∀ n ∈ g.nodes, n.sub_nodes ≠ []
  nodes : (g.nodes.flatMap MLNode.sub_nodes).Perm lower.nodes
  edges : (g.edges.flatMap MLEdge.sub_edges ++ g.nodes.flatMap MLNode.sub_edges).Perm lower.edges

/-- The coarse nodes that a lower edge lies between. -/
abbrev placeOf (loc : String → String) (e : MLEdge) : String × String :=
  place MLEdge.src_id MLEdge.tgt_id loc e

/-- Every lower node is in the coarse node of its place, and every lower edge is where its ends
are. -/
structure Placed (g : MLGraph) (L : List MLNode) (E : List MLEdge) (loc : String → String)
    (st : Adjusting) : Prop where
  node_id : ∀ {id n}, st.node_map.get id = some n → n.id = id
  nonempty : ∀ {id n}, st.node_map.get id = some n → n.sub_nodes ≠ []
  sub_nodes : ∀ {id n}, st.node_map.get id = some n →
    n.sub_nodes.Perm (L.filter fun sn => loc sn.id = id)
  sub_edges : ∀ {id n}, st.node_map.get id = some n →
    n.sub_edges.Perm (E.filter fun e => placeOf loc e = (id, id))
  keys : ∀ id, id ∈ st.node_map.keys ↔ id ∈ g.ids
  located : ∀ sn ∈ L, loc sn.id ∈ st.node_map.keys
  edge_ends : ∀ {key e}, st.edge_map.get key = some e → e.ends = key
  edge_sub_edges : ∀ {key e}, st.edge_map.get key = some e →
    e.sub_edges.Perm (E.filter fun e => placeOf loc e = key)
  edge_old : ∀ {key e}, st.edge_map.get key = some e → key ∈ g.ends
  edge_ne : ∀ {key e}, st.edge_map.get key = some e → key.1 ≠ key.2
  edge_full : ∀ {key e}, st.edge_map.get key = some e → e.sub_edges ≠ []
  edge_nodes : ∀ {key e}, st.edge_map.get key = some e →
    key.1 ∈ st.node_map.keys ∧ key.2 ∈ st.node_map.keys
  crossing : ∀ e ∈ E, loc e.src_id ≠ loc e.tgt_id → placeOf loc e ∈ st.edge_map.keys
  all_sub_edges : st.all_sub_edges.Perm (st.edge_map.values.flatMap MLEdge.sub_edges)

namespace Placed

variable {g : MLGraph} {L : List MLNode} {E : List MLEdge} {loc : String → String} {st : Adjusting}
  {move : NodeMove} {src_node tgt_node : MLNode} {edge : MLEdge}

theorem mem_sub_edges (h : Placed g L E loc st) {id : String} {n : MLNode}
    (hn : st.node_map.get id = some n) {e : MLEdge} (he : e ∈ E)
    (hplace : placeOf loc e = (id, id)) : e ∈ n.sub_edges :=
  (h.sub_edges hn).mem_iff.mpr (List.mem_filter.mpr ⟨he, decide_eq_true hplace⟩)

/-- The sub edges between coarse nodes are the lower edges that go from one to another. -/
theorem all_sub_edges_perm (h : Placed g L E loc st) :
    st.all_sub_edges.Perm (E.filter fun e => loc e.src_id ≠ loc e.tgt_id) := by
  refine h.all_sub_edges.trans ?_
  have hperm := flatMap_perm_of_filter (placeOf loc)
    (st.edge_map.entries.map fun it => (it.1, it.2.sub_edges))
    (l := E.filter fun e => loc e.src_id ≠ loc e.tgt_id) ?_ ?_ ?_
  · rw [List.flatMap_map] at hperm
    rw [Dict.values, List.flatMap_map]
    exact hperm
  · rw [List.map_map]
    exact st.edge_map.nodup
  · intro it hit
    obtain ⟨⟨key, e⟩, he, rfl⟩ := List.mem_map.mp hit
    have hget := Dict.mem_entries_iff.mp he
    refine (h.edge_sub_edges hget).trans (.of_eq ?_)
    rw [List.filter_filter]
    refine List.filter_congr fun e' _ => ?_
    by_cases hplace : placeOf loc e' = key
    · have hne : loc e'.src_id ≠ loc e'.tgt_id := by
        have hne := h.edge_ne hget
        rwa [← hplace] at hne
      simp [hplace, hne]
    · simp [hplace]
  · intro e he
    obtain ⟨he, hne⟩ := List.mem_filter.mp he
    rw [List.map_map]
    exact h.crossing e he (of_decide_eq_true hne)

theorem mem_all_sub_edges (h : Placed g L E loc st) {e : MLEdge} (he : e ∈ E)
    (hne : loc e.src_id ≠ loc e.tgt_id) : e ∈ st.all_sub_edges :=
  h.all_sub_edges_perm.mem_iff.mpr (List.mem_filter.mpr ⟨he, decide_eq_true hne⟩)

theorem place_ends (direction : Bool) (e : MLEdge) {u v : String} :
    loc (nearEnd direction e) = u ∧ loc (farEnd direction e) = v ↔
      placeOf loc e = if direction then (u, v) else (v, u) := by
  cases direction with
  | true =>
    rw [if_pos rfl, placeOf, place, Prod.mk.injEq]
    exact Iff.rfl
  | false =>
    rw [if_neg Bool.false_ne_true, placeOf, place, Prod.mk.injEq]
    exact and_comm

/-- A free node can go to the other end of a lower edge between two coarse nodes. -/
theorem movable (h : Placed g L E loc st) {direction : Bool} {m origin : MLNode} {link : MLEdge}
    (hfree : FreeAt direction m origin st.all_sub_edges)
    (horigin : st.node_map.get (loc m.id) = some origin) (hlink : link ∈ E)
    (hnear : nearEnd direction link = m.id) (hne : loc m.id ≠ loc (farEnd direction link)) :
    Movable MLEdge.src_id MLEdge.tgt_id E loc m.id (loc (farEnd direction link)) link := by
  have hcross : ∀ e, loc (nearEnd direction e) ≠ loc (farEnd direction e) ↔
      loc e.src_id ≠ loc e.tgt_id := by
    intro e
    cases direction with
    | true => exact Iff.rfl
    | false => exact ne_comm
  have hmovable : Movable (nearEnd direction) (farEnd direction) E loc m.id
      (loc (farEnd direction link)) link := by
    apply Movable.of_leaf hlink hnear rfl hne
    · intro e he hm heq
      have hplace := (place_ends direction e).mp ⟨congrArg loc hm, heq⟩
      rw [ite_self] at hplace
      exact hfree.inside e (h.mem_sub_edges horigin he hplace) hm
    · have hfilter : (E.filter fun e => nearEnd direction e = m.id ∧
          loc (nearEnd direction e) ≠ loc (farEnd direction e)).Perm
          (st.all_sub_edges.filter fun e => nearEnd direction e = m.id) := by
        refine List.Perm.trans (.of_eq ?_) (h.all_sub_edges_perm.filter _).symm
        rw [List.filter_filter]
        refine List.filter_congr fun e _ => ?_
        rw [← Bool.decide_and]
        exact decide_eq_decide.mpr (and_congr_right' (hcross e))
      rw [hfilter.length_eq]
      exact hfree.out
    · intro e he hm
      by_contra hne
      have hmem := h.mem_all_sub_edges he ((hcross e).mp fun heq => hne (by rw [heq, hm]))
      exact hfree.into e hmem hm
  cases direction with
  | true => exact hmovable
  | false => exact hmovable.swap

end Placed

/-- The maps after a move is taken over. -/
structure Updated (st st' : Adjusting) (origin' dest' : MLNode) (edge' : MLEdge) : Prop where
  node : ∀ id, st'.node_map.get id =
    if id = dest'.id then some dest'
    else if id = origin'.id then some origin' else st.node_map.get id
  edge : ∀ key, st'.edge_map.get key =
    if key = edge'.ends then if edge'.sub_edges.isEmpty then none else some edge'
    else st.edge_map.get key
  all_sub_edges : st'.all_sub_edges.Perm (st'.edge_map.values.flatMap MLEdge.sub_edges)

section Updated

variable {st st' : Adjusting} {origin' dest' : MLNode} {edge' : MLEdge}
  (h : Updated st st' origin' dest' edge')
include h

theorem Updated.node_cases {id : String} {n : MLNode} (hget : st'.node_map.get id = some n) :
    id = dest'.id ∧ n = dest' ∨ id = origin'.id ∧ n = origin' ∨
      id ≠ dest'.id ∧ id ≠ origin'.id ∧ st.node_map.get id = some n := by
  rw [h.node] at hget
  split_ifs at hget with hid hid'
  · exact Or.inl ⟨hid, (Option.some.inj hget).symm⟩
  · exact Or.inr (Or.inl ⟨hid', (Option.some.inj hget).symm⟩)
  · exact Or.inr (Or.inr ⟨hid, hid', hget⟩)

theorem Updated.edge_cases {key : String × String} {e : MLEdge}
    (hget : st'.edge_map.get key = some e) :
    key = edge'.ends ∧ e = edge' ∧ e.sub_edges ≠ [] ∨
      key ≠ edge'.ends ∧ st.edge_map.get key = some e := by
  rw [h.edge] at hget
  split_ifs at hget with hkey hempty
  · obtain rfl := Option.some.inj hget
    exact Or.inl ⟨hkey, rfl, fun hnil => hempty (List.isEmpty_iff.mpr hnil)⟩
  · exact Or.inr ⟨hkey, hget⟩

theorem Updated.mem_keys (horigin : (st.node_map.get origin'.id).isSome)
    (hdest : (st.node_map.get dest'.id).isSome) (id : String) :
    id ∈ st'.node_map.keys ↔ id ∈ st.node_map.keys := by
  rw [Dict.mem_keys_iff, Dict.mem_keys_iff, h.node]
  split_ifs with hid hid'
  · exact iff_of_true rfl (hid ▸ hdest)
  · exact iff_of_true rfl (hid' ▸ horigin)
  · exact Iff.rfl

end Updated

theorem Adjusting.accept_updated (orders : AdjustOrders) (st : Adjusting) {moved : MoveResult}
    (used : ℕ) (direction : Bool) (hne : moved.src_node.id ≠ moved.tgt_node.id) :
    Updated st (st.accept orders moved used) (moved.origin direction) (moved.dest direction)
      moved.edge := by
  constructor
  case node =>
    intro id
    rw [accept, Dict.get_set, Dict.get_set, MoveResult.origin, MoveResult.dest]
    cases direction with
    | true => rfl
    | false =>
      rw [if_neg Bool.false_ne_true, if_neg Bool.false_ne_true]
      by_cases hid : id = moved.tgt_node.id
      · rw [if_pos hid, if_pos hid, if_neg fun heq => hne (heq.symm.trans hid)]
      · rw [if_neg hid, if_neg hid]
  case edge =>
    intro key
    rw [accept]
    dsimp only
    by_cases hempty : moved.edge.sub_edges.isEmpty
    · rw [if_pos hempty, if_pos hempty, Dict.get_erase]
    · rw [if_neg hempty, if_neg hempty, Dict.get_set]
  case all_sub_edges => exact (orders.edge_map.perm _).flatMap_right _

namespace Placed

variable {g : MLGraph} {L : List MLNode} {E : List MLEdge} {loc : String → String}
  {st st' : Adjusting} {m origin dest origin' dest' : MLNode} {edge edge' link : MLEdge}

theorem nonempty_origin (h : Placed g L E loc st) (hnodup : (L.map MLNode.id).Nodup)
    (horigin : st.node_map.get (loc m.id) = some origin) (hseveral : 2 ≤ origin.sub_nodes.length) :
    (origin.sub_nodes.filter fun sn => sn.id ≠ m.id) ≠ [] := by
  intro hnil
  have hall : ∀ sn ∈ origin.sub_nodes, sn.id = m.id := by
    intro sn hsn
    simpa using List.filter_eq_nil_iff.mp hnil sn hsn
  have hids : (origin.sub_nodes.map MLNode.id).Nodup := by
    rw [((h.sub_nodes horigin).map MLNode.id).nodup_iff]
    exact hnodup.sublist (List.filter_sublist.map MLNode.id)
  rw [List.map_congr_left hall, List.map_const', List.nodup_replicate] at hids
  omega

theorem sub_edges_relocated (h : Placed g L E loc st)
    (hmove : Movable MLEdge.src_id MLEdge.tgt_id E loc m.id dest.id link)
    (hshift : Shifts m link origin dest edge origin' dest' edge')
    (horigin : st.node_map.get (loc m.id) = some origin)
    (hedge : st.edge_map.get (placeOf loc link) = some edge) :
    edge'.sub_edges.Perm (E.filter fun e =>
      placeOf (Function.update loc m.id dest.id) e = placeOf loc link) := by
  rw [hshift.edges]
  refine List.Perm.trans ?_ hmove.filter_link.symm
  exact ((h.sub_edges horigin).filter _).append ((h.edge_sub_edges hedge).filter _)

theorem crossing_relocated (h : Placed g L E loc st)
    (hmove : Movable MLEdge.src_id MLEdge.tgt_id E loc m.id dest.id link)
    (hup : Updated st st' origin' dest' edge') (hends : edge'.ends = placeOf loc link)
    (hnew : edge'.sub_edges.Perm (E.filter fun e =>
      placeOf (Function.update loc m.id dest.id) e = placeOf loc link)) {e : MLEdge} (he : e ∈ E)
    (hne : Function.update loc m.id dest.id e.src_id ≠ Function.update loc m.id dest.id e.tgt_id) :
    placeOf (Function.update loc m.id dest.id) e ∈ st'.edge_map.keys := by
  rw [Dict.mem_keys_iff, hup.edge, hends]
  by_cases hkey : placeOf (Function.update loc m.id dest.id) e = placeOf loc link
  · have hmem : e ∈ edge'.sub_edges :=
      hnew.mem_iff.mpr (List.mem_filter.mpr ⟨he, decide_eq_true hkey⟩)
    rw [if_pos hkey, if_neg fun hempty =>
      List.not_mem_nil (List.isEmpty_iff.mp hempty ▸ hmem)]
    rfl
  · rw [if_neg hkey]
    rcases hmove.cases he with ⟨-, -, hplace⟩ | rfl | ⟨-, hplace⟩
    · exact absurd hplace hkey
    · have hplace := hmove.place_link
      exact absurd ((Prod.mk.inj hplace).1.trans (Prod.mk.inj hplace).2.symm) hne
    · have hsrc := (Prod.mk.inj hplace).1
      have htgt := (Prod.mk.inj hplace).2
      rw [hsrc, htgt] at hne
      rw [placeOf, hplace]
      exact Dict.mem_keys_iff.mp (h.crossing e he hne)

/-- A relocation keeps everything in its place. -/
theorem relocate (h : Placed g L E loc st) (hnodup : (L.map MLNode.id).Nodup) (hm : m ∈ L)
    (hmove : Movable MLEdge.src_id MLEdge.tgt_id E loc m.id dest.id link)
    (hshift : Shifts m link origin dest edge origin' dest' edge')
    (hup : Updated st st' origin' dest' edge')
    (horigin : st.node_map.get (loc m.id) = some origin)
    (hdest : st.node_map.get dest.id = some dest)
    (hedge : st.edge_map.get (placeOf loc link) = some edge)
    (hseveral : 2 ≤ origin.sub_nodes.length) :
    Placed g L E (Function.update loc m.id dest.id) st' := by
  have horigin_id : origin'.id = loc m.id := hshift.origin_id.trans (h.node_id horigin)
  have hdest_id := hshift.dest_id
  have hends : edge'.ends = placeOf loc link := hshift.ends.trans (h.edge_ends hedge)
  have hnode : ∀ {id n}, st'.node_map.get id = some n →
      id = dest.id ∧ n = dest' ∨ id = loc m.id ∧ n = origin' ∨
        id ≠ dest.id ∧ id ≠ loc m.id ∧ st.node_map.get id = some n := by
    intro id n hget
    rw [← hdest_id, ← horigin_id]
    exact hup.node_cases hget
  have hedge_cases : ∀ {key e}, st'.edge_map.get key = some e →
      key = placeOf loc link ∧ e = edge' ∧ e.sub_edges ≠ [] ∨
        key ≠ placeOf loc link ∧ st.edge_map.get key = some e := by
    intro key e hget
    rw [← hends]
    exact hup.edge_cases hget
  have hkeys := hup.mem_keys (by rw [horigin_id, horigin]; rfl) (by rw [hdest_id, hdest]; rfl)
  have hnew := h.sub_edges_relocated hmove hshift horigin hedge
  constructor
  case node_id =>
    intro id n hget
    rcases hnode hget with ⟨rfl, rfl⟩ | ⟨rfl, rfl⟩ | ⟨-, -, hget⟩
    · exact hdest_id
    · exact horigin_id
    · exact h.node_id hget
  case nonempty =>
    intro id n hget
    rcases hnode hget with ⟨rfl, rfl⟩ | ⟨rfl, rfl⟩ | ⟨-, -, hget⟩
    · intro hnil
      have hlength := hshift.dest_nodes.length_eq
      rw [hnil, List.length_append] at hlength
      simp at hlength
    · rw [hshift.origin_nodes]
      exact h.nonempty_origin hnodup horigin hseveral
    · exact h.nonempty hget
  case sub_nodes =>
    intro id n hget
    rcases hnode hget with ⟨rfl, rfl⟩ | ⟨rfl, rfl⟩ | ⟨hid, hid', hget⟩
    · refine (hshift.dest_nodes.trans ?_).trans (residents_dest hnodup hm hmove.ne).symm
      exact (h.sub_nodes hdest).append_right _
    · rw [hshift.origin_nodes, residents_origin hmove.ne]
      exact (h.sub_nodes horigin).filter _
    · rw [residents_other hid' hid]
      exact h.sub_nodes hget
  case sub_edges =>
    intro id n hget
    rcases hnode hget with ⟨rfl, rfl⟩ | ⟨rfl, rfl⟩ | ⟨hid, hid', hget⟩
    · rw [hshift.dest_edges]
      exact ((h.sub_edges hdest).append_right _).trans hmove.filter_dest.symm
    · rw [hshift.origin_edges, hmove.filter_origin]
      exact (h.sub_edges horigin).filter _
    · have hself : ∀ {u : String}, id ≠ u → (id, id) ≠ (u, u) :=
        fun hne heq => hne (Prod.mk.inj heq).1
      rw [hmove.filter_other (hself hid') (hself hid) (hmove.place_link_ne id).symm]
      exact h.sub_edges hget
  case keys => exact fun id => (hkeys id).trans (h.keys id)
  case located =>
    intro sn hsn
    rw [hkeys]
    by_cases hid : sn.id = m.id
    · rw [hid, Function.update_self]
      exact Dict.mem_keys_iff.mpr (Option.isSome_iff_exists.mpr ⟨dest, hdest⟩)
    · rw [Function.update_of_ne hid]
      exact h.located sn hsn
  case edge_ends =>
    intro key e hget
    rcases hedge_cases hget with ⟨rfl, rfl, -⟩ | ⟨-, hget⟩
    · exact hends
    · exact h.edge_ends hget
  case edge_sub_edges =>
    intro key e hget
    rcases hedge_cases hget with ⟨rfl, rfl, -⟩ | ⟨hkey, hget⟩
    · exact hnew
    · have hself : ∀ {u : String}, key ≠ (u, u) := by
        rintro u rfl
        exact h.edge_ne hget rfl
      rw [hmove.filter_other hself hself hkey]
      exact h.edge_sub_edges hget
  case edge_old =>
    intro key e hget
    rcases hedge_cases hget with ⟨rfl, rfl, -⟩ | ⟨-, hget⟩
    · exact h.edge_old hedge
    · exact h.edge_old hget
  case edge_ne =>
    intro key e hget
    rcases hedge_cases hget with ⟨rfl, rfl, -⟩ | ⟨-, hget⟩
    · exact h.edge_ne hedge
    · exact h.edge_ne hget
  case edge_full =>
    intro key e hget
    rcases hedge_cases hget with ⟨-, -, hfull⟩ | ⟨-, hget⟩
    · exact hfull
    · exact h.edge_full hget
  case edge_nodes =>
    intro key e hget
    rcases hedge_cases hget with ⟨rfl, rfl, -⟩ | ⟨-, hget⟩
    · exact (h.edge_nodes hedge).imp (hkeys _).mpr (hkeys _).mpr
    · exact (h.edge_nodes hget).imp (hkeys _).mpr (hkeys _).mpr
  case crossing => exact fun e he hne => h.crossing_relocated hmove hup hends hnew he hne
  case all_sub_edges => exact hup.all_sub_edges

variable {move : NodeMove} {src_node tgt_node : MLNode}

theorem place_sub_edge (h : Placed g L E loc st) (hlisted : Listed g move)
    (hallowed : Allowed st move src_node tgt_node edge) :
    placeOf loc move.sub_edge = (src_node.id, tgt_node.id) ∧
      placeOf loc move.sub_edge = move.edge.ends := by
  obtain ⟨se, hse, hends⟩ := List.mem_map.mp hallowed.sub_edge
  have hmem := (h.edge_sub_edges hallowed.between).mem_iff.mp hse
  have hplace : placeOf loc se = move.edge.ends := of_decide_eq_true (List.mem_filter.mp hmem).2
  have hsame : placeOf loc move.sub_edge = placeOf loc se := by
    rw [placeOf, placeOf, place, place, (Prod.mk.inj hends).1, (Prod.mk.inj hends).2]
  rw [hsame, hplace]
  refine ⟨?_, rfl⟩
  rw [hlisted.ends, h.node_id hallowed.src, h.node_id hallowed.tgt]

/-- An allowed move is a relocation of its node. -/
theorem accept (h : Placed g L E loc st) (hnodup : (L.map MLNode.id).Nodup)
    (hlisted : Listed g move) (hm : move.moved_node ∈ L) (hlink : move.sub_edge ∈ E)
    (hallowed : Allowed st move src_node tgt_node edge) {names : NameSupply} {used : ℕ}
    {moved : MoveResult}
    (happly : move.apply names used src_node edge tgt_node st.all_nodes = some moved)
    (orders : AdjustOrders) (used' : ℕ) :
    ∃ dest, Movable MLEdge.src_id MLEdge.tgt_id E loc move.moved_node.id dest move.sub_edge ∧
      Placed g L E (Function.update loc move.moved_node.id dest)
        (st.accept orders moved used') := by
  obtain ⟨hplace, hplace_ends⟩ := h.place_sub_edge hlisted hallowed
  have hne := h.edge_ne hallowed.between
  rw [← hplace_ends, hplace] at hne
  have hsrc : st.node_map.get src_node.id = some src_node := by
    rw [h.node_id hallowed.src]
    exact hallowed.src
  have htgt : st.node_map.get tgt_node.id = some tgt_node := by
    rw [h.node_id hallowed.tgt]
    exact hallowed.tgt
  have hsides : loc (nearEnd move.direction move.sub_edge) =
        (move.origin src_node tgt_node).id ∧
      loc (farEnd move.direction move.sub_edge) = (move.dest src_node tgt_node).id := by
    rw [place_ends, hplace, NodeMove.origin, NodeMove.dest]
    cases move.direction <;> rfl
  obtain ⟨hnear, hfar⟩ := hsides
  rw [← hlisted.moved_id] at hnear
  have horigin : st.node_map.get (loc move.moved_node.id) =
      some (move.origin src_node tgt_node) := by
    rw [hnear, NodeMove.origin]
    split_ifs
    · exact hsrc
    · exact htgt
  have hdest : st.node_map.get (move.dest src_node tgt_node).id =
      some (move.dest src_node tgt_node) := by
    rw [NodeMove.dest]
    split_ifs
    · exact htgt
    · exact hsrc
  have hapart : loc move.moved_node.id ≠ loc (farEnd move.direction move.sub_edge) := by
    rw [hnear, hfar, NodeMove.origin, NodeMove.dest]
    split_ifs
    · exact hne
    · exact hne.symm
  have hfree := NodeMove.free hallowed.free
  have hmove := h.movable hfree horigin hlink hlisted.moved_id.symm hapart
  rw [hfar] at hmove
  have hinto : ∀ e ∈ edge.sub_edges, farEnd move.direction e ≠ move.moved_node.id := by
    intro e he
    refine hfree.into e (h.all_sub_edges.mem_iff.mpr ?_)
    exact List.mem_flatMap.mpr ⟨edge, Dict.mem_values_iff.mpr ⟨_, hallowed.between⟩, he⟩
  have hshift := NodeMove.shifts hfree.inside hinto happly
  have hmoved_ne : moved.src_node.id ≠ moved.tgt_node.id := by
    have horigin_id := hshift.origin_id
    have hdest_id := hshift.dest_id
    unfold MoveResult.origin NodeMove.origin at horigin_id
    unfold MoveResult.dest NodeMove.dest at hdest_id
    split_ifs at horigin_id hdest_id
    · rwa [horigin_id, hdest_id]
    · rwa [horigin_id, hdest_id]
  refine ⟨_, hmove, h.relocate hnodup hm hmove hshift
    (st.accept_updated orders used' move.direction hmoved_ne) horigin hdest ?_ hfree.several⟩
  rw [hplace_ends]
  exact hallowed.between

/-- A move that is free finds the edge that it goes along, as long as its node was not moved. -/
theorem edge_isSome (h : Placed g L E loc st) {start : String → String} {done : Set String}
    (htracked : Tracked MLEdge.src_id MLEdge.tgt_id E start loc done) (hlisted : Listed g move)
    (hlink : move.sub_edge ∈ E) (hstart : placeOf start move.sub_edge = move.edge.ends)
    (hne : move.src_id ≠ move.tgt_id) (hmoved : move.moved_node.id ∉ done)
    (hsrc : st.node_map.get move.src_id = some src_node)
    (htgt : st.node_map.get move.tgt_id = some tgt_node)
    (hblocked : move.blocked src_node tgt_node st.all_sub_edges = some false) :
    (st.edge_map.get move.edge.ends).isSome := by
  have hfree := NodeMove.free hblocked
  have hstay := htracked.stay _ hmoved
  rw [hlisted.ends] at hstart ⊢
  obtain ⟨hstart_src, hstart_tgt⟩ := Prod.mk.inj hstart
  have hstart_ne : start move.sub_edge.src_id ≠ start move.sub_edge.tgt_id := by
    rwa [hstart_src, hstart_tgt]
  have hcrossing : placeOf loc move.sub_edge = (move.src_id, move.tgt_id) →
      (st.edge_map.get (move.src_id, move.tgt_id)).isSome := by
    intro hplace
    have hcross : loc move.sub_edge.src_id ≠ loc move.sub_edge.tgt_id := by
      rwa [(Prod.mk.inj hplace).1, (Prod.mk.inj hplace).2]
    have hkey := h.crossing _ hlink hcross
    rw [hplace] at hkey
    exact Dict.mem_keys_iff.mp hkey
  have hmoved_id := hlisted.moved_id
  have hinside := hfree.inside move.sub_edge
  unfold NodeMove.origin at hinside
  cases hdirection : move.direction with
  | true =>
    rw [hdirection] at hmoved_id hinside
    rw [if_pos rfl] at hinside
    have hsrc_id : move.moved_node.id = move.sub_edge.src_id := hmoved_id
    rw [hsrc_id] at hmoved hstay
    rcases htracked.ahead _ hlink hstart_ne hmoved with hback | hstill
    · have hplace : placeOf loc move.sub_edge = (move.src_id, move.src_id) :=
        Prod.ext (hstay.trans hstart_src) (hback.trans hstart_src)
      exact absurd hmoved_id.symm (hinside (h.mem_sub_edges hsrc hlink hplace))
    · exact hcrossing (Prod.ext (hstay.trans hstart_src) (hstill.trans hstart_tgt))
  | false =>
    rw [hdirection] at hmoved_id hinside
    rw [if_neg Bool.false_ne_true] at hinside
    have htgt_id : move.moved_node.id = move.sub_edge.tgt_id := hmoved_id
    rw [htgt_id] at hmoved hstay
    rcases htracked.behind _ hlink hstart_ne hmoved with hstill | hforth
    · exact hcrossing (Prod.ext (hstill.trans hstart_src) (hstay.trans hstart_tgt))
    · have hplace : placeOf loc move.sub_edge = (move.tgt_id, move.tgt_id) :=
        Prod.ext (hforth.trans hstart_tgt) (hstay.trans hstart_tgt)
      exact absurd hmoved_id.symm (hinside (h.mem_sub_edges htgt hlink hplace))

end Placed

theorem MLGraph.mem_subnode_ids {g : MLGraph} {id x : String} :
    x ∈ g.subnode_ids id ↔ ∃ n ∈ g.nodes, n.id = id ∧ x ∈ n.sub_nodes.map MLNode.id := by
  simp [subnode_ids, and_assoc]

theorem Digraph.Acyclic.of_subset {V : Type} {edges edges' : List (V × V)}
    (h : Digraph.Acyclic (Edge edges)) (hsub : ∀ e ∈ edges', e ∈ edges) :
    Digraph.Acyclic (Edge edges') :=
  fun a ha => h a (Relation.TransGen.mono (fun x y hxy => hsub (x, y) hxy) a a ha)

namespace Placed

variable {g lower : MLGraph} {L : List MLNode} {E : List MLEdge} {loc : String → String}
  {st : Adjusting}

theorem mem_sub_ids (h : Placed g L E loc st) {id x : String} {n : MLNode}
    (hn : st.node_map.get id = some n) (hx : x ∈ L.map MLNode.id) (hloc : loc x = id) :
    x ∈ n.sub_nodes.map MLNode.id := by
  obtain ⟨sn, hsn, rfl⟩ := List.mem_map.mp hx
  refine List.mem_map_of_mem ((h.sub_nodes hn).mem_iff.mpr ?_)
  exact List.mem_filter.mpr ⟨hsn, decide_eq_true hloc⟩

theorem values_id (h : Placed g L E loc st) :
    st.node_map.values.map MLNode.id = st.node_map.keys := by
  rw [Dict.values, Dict.keys, List.map_map]
  refine List.map_congr_left fun it hit => ?_
  exact h.node_id (Dict.mem_entries_iff.mp hit)

theorem values_ends (h : Placed g L E loc st) :
    st.edge_map.values.map MLEdge.ends = st.edge_map.keys := by
  rw [Dict.values, Dict.keys, List.map_map]
  refine List.map_congr_left fun it hit => ?_
  exact h.edge_ends (Dict.mem_entries_iff.mp hit)

theorem ids_perm (h : Placed g L E loc st) (hids : g.ids.Nodup) (orders : AdjustOrders) :
    (st.graph orders).ids.Perm g.ids := by
  refine ((orders.node_map.perm _).map MLNode.id).trans ?_
  rw [h.values_id]
  exact (List.perm_ext_iff_of_nodup st.node_map.nodup hids).mpr h.keys

theorem acyclic (h : Placed g L E loc st) (hacyclic : g.Acyclic) (orders : AdjustOrders) :
    (st.graph orders).Acyclic := by
  refine Digraph.Acyclic.of_subset hacyclic fun key hkey => ?_
  obtain ⟨e, he, rfl⟩ := List.mem_map.mp hkey
  obtain ⟨key, hget⟩ := Dict.mem_values_iff.mp ((orders.edge_map.perm _).mem_iff.mp he)
  rw [h.edge_ends hget]
  exact h.edge_old hget

section Graph

variable (h : Placed g L E loc st) {orders : AdjustOrders}
include h

theorem graph_node {n : MLNode} (hn : n ∈ (st.graph orders).nodes) :
    st.node_map.get n.id = some n := by
  obtain ⟨id, hget⟩ := Dict.mem_values_iff.mp ((orders.node_map.perm _).mem_iff.mp hn)
  rwa [h.node_id hget]

theorem graph_edge {e : MLEdge} (he : e ∈ (st.graph orders).edges) :
    st.edge_map.get e.ends = some e := by
  obtain ⟨key, hget⟩ := Dict.mem_values_iff.mp ((orders.edge_map.perm _).mem_iff.mp he)
  rwa [h.edge_ends hget]

theorem exists_graph_node {id : String} (hid : id ∈ st.node_map.keys) :
    ∃ n ∈ (st.graph orders).nodes, n.id = id := by
  obtain ⟨n, hget⟩ := Option.isSome_iff_exists.mp (Dict.mem_keys_iff.mp hid)
  have hvalue := Dict.mem_values_iff.mpr ⟨id, hget⟩
  exact ⟨n, (orders.node_map.perm _).mem_iff.mpr hvalue, h.node_id hget⟩

variable (hends : ∀ e ∈ E, e.src_id ∈ L.map MLNode.id ∧ e.tgt_id ∈ L.map MLNode.id)
include hends

theorem graph_node_verify {n : MLNode} (hn : n ∈ (st.graph orders).nodes) : n.verify = true := by
  refine List.all_eq_true.mpr fun se hse => decide_eq_true ?_
  have hmem := (h.sub_edges (h.graph_node hn)).mem_iff.mp hse
  obtain ⟨hmem, hplace⟩ := List.mem_filter.mp hmem
  obtain ⟨hsrc, htgt⟩ := Prod.mk.inj (of_decide_eq_true hplace)
  exact ⟨h.mem_sub_ids (h.graph_node hn) (hends se hmem).1 hsrc,
    h.mem_sub_ids (h.graph_node hn) (hends se hmem).2 htgt⟩

theorem graph_verify : (st.graph orders).verify = true := by
  rw [MLGraph.verify, Bool.and_eq_true, List.all_eq_true, List.all_eq_true]
  refine ⟨fun n hn => h.graph_node_verify hends hn, fun e he => ?_⟩
  obtain ⟨hsrc_key, htgt_key⟩ := h.edge_nodes (h.graph_edge he)
  obtain ⟨src_node, hsrc, hsrc_id⟩ := h.exists_graph_node hsrc_key
  obtain ⟨tgt_node, htgt, htgt_id⟩ := h.exists_graph_node htgt_key
  have hsome : ∀ {n}, n ∈ (st.graph orders).nodes → (st.graph orders).subnode_ids n.id ≠ [] := by
    intro n hn
    obtain ⟨sn, hsn⟩ := List.exists_mem_of_ne_nil _ (h.nonempty (h.graph_node hn))
    exact List.ne_nil_of_mem (MLGraph.mem_subnode_ids.mpr ⟨n, hn, rfl, List.mem_map_of_mem hsn⟩)
  have hsrc_some := hsome hsrc
  have htgt_some := hsome htgt
  rw [hsrc_id] at hsrc_some
  rw [htgt_id] at htgt_some
  refine decide_eq_true ⟨hsrc_some, htgt_some, fun se hse => ?_⟩
  have hmem := (h.edge_sub_edges (h.graph_edge he)).mem_iff.mp hse
  obtain ⟨hmem, hplace⟩ := List.mem_filter.mp hmem
  obtain ⟨hsrc_loc, htgt_loc⟩ := Prod.mk.inj (of_decide_eq_true hplace)
  constructor
  · refine MLGraph.mem_subnode_ids.mpr ⟨src_node, hsrc, hsrc_id, ?_⟩
    exact h.mem_sub_ids (h.graph_node hsrc) (hends se hmem).1 (hsrc_loc.trans hsrc_id.symm)
  · refine MLGraph.mem_subnode_ids.mpr ⟨tgt_node, htgt, htgt_id, ?_⟩
    exact h.mem_sub_ids (h.graph_node htgt) (hends se hmem).2 (htgt_loc.trans htgt_id.symm)

omit hends in
theorem sub_nodes_perm : (st.node_map.values.flatMap MLNode.sub_nodes).Perm L := by
  have hperm := flatMap_perm_of_filter (fun sn : MLNode => loc sn.id) (l := L)
    (st.node_map.entries.map fun it => (it.1, it.2.sub_nodes)) ?_ ?_ ?_
  · rw [List.flatMap_map] at hperm
    rw [Dict.values, List.flatMap_map]
    exact hperm
  · rw [List.map_map]
    exact st.node_map.nodup
  · intro it hit
    obtain ⟨⟨id, n⟩, hn, rfl⟩ := List.mem_map.mp hit
    exact h.sub_nodes (Dict.mem_entries_iff.mp hn)
  · intro sn hsn
    rw [List.map_map]
    exact h.located sn hsn

/-- The sub edges of all coarse edges and nodes are the lower edges. -/
theorem sub_edges_perm : (st.edge_map.values.flatMap MLEdge.sub_edges ++
    st.node_map.values.flatMap MLNode.sub_edges).Perm E := by
  have hperm := flatMap_perm_of_filter (placeOf loc) (l := E)
    ((st.edge_map.entries.map fun it => (it.1, it.2.sub_edges)) ++
      st.node_map.entries.map fun it => ((it.1, it.1), it.2.sub_edges)) ?_ ?_ ?_
  · rw [List.flatMap_append, List.flatMap_map, List.flatMap_map] at hperm
    rw [Dict.values, List.flatMap_map, Dict.values, List.flatMap_map]
    exact hperm
  · rw [List.map_append, List.map_map, List.map_map]
    refine List.nodup_append.mpr ⟨st.edge_map.nodup, ?_, ?_⟩
    · have hkeys : (st.node_map.keys.map fun id => (id, id)).Nodup :=
        st.node_map.nodup.map fun a b heq => (Prod.mk.inj heq).1
      rw [Dict.keys, List.map_map] at hkeys
      exact hkeys
    · intro key hkey key' hkey' heq
      obtain ⟨it, hit, rfl⟩ := List.mem_map.mp hkey
      obtain ⟨it', -, rfl⟩ := List.mem_map.mp hkey'
      refine h.edge_ne (Dict.mem_entries_iff.mp hit) ?_
      rw [show it.1 = (it'.1, it'.1) from heq]
  · intro it hit
    rcases List.mem_append.mp hit with hit | hit
    · obtain ⟨⟨key, e⟩, he, rfl⟩ := List.mem_map.mp hit
      exact h.edge_sub_edges (Dict.mem_entries_iff.mp he)
    · obtain ⟨⟨id, n⟩, hn, rfl⟩ := List.mem_map.mp hit
      exact h.sub_edges (Dict.mem_entries_iff.mp hn)
  · intro e he
    rw [List.map_append, List.mem_append, List.map_map, List.map_map]
    by_cases hne : loc e.src_id = loc e.tgt_id
    · obtain ⟨sn, hsn, hid⟩ := List.mem_map.mp (hends e he).1
      have hkey := h.located sn hsn
      rw [hid] at hkey
      obtain ⟨it, hit, hit_key⟩ := List.mem_map.mp hkey
      refine Or.inr (List.mem_map.mpr ⟨it, hit, ?_⟩)
      exact Prod.ext hit_key (hit_key.trans hne)
    · exact Or.inl (h.crossing e he hne)

end Graph

/-- What is in its place makes a coarse graph on the lower one. -/
theorem hierarchy (h : Placed g L E loc st)
    (hends : ∀ e ∈ E, e.src_id ∈ L.map MLNode.id ∧ e.tgt_id ∈ L.map MLNode.id)
    (hL : L.Perm lower.nodes) (hE : E.Perm lower.edges) (orders : AdjustOrders) :
    Hierarchy lower (st.graph orders) := by
  have hnodes := orders.node_map.perm st.node_map.values
  have hedges := orders.edge_map.perm st.edge_map.values
  constructor
  case verified => exact h.graph_verify hends
  case apart =>
    intro key hkey
    obtain ⟨e, he, rfl⟩ := List.mem_map.mp hkey
    exact h.edge_ne (h.graph_edge he)
  case full => exact fun e he => h.edge_full (h.graph_edge he)
  case ids =>
    refine ((hnodes.map MLNode.id).trans (.of_eq h.values_id)).nodup_iff.mpr ?_
    exact st.node_map.nodup
  case ends =>
    refine ((hedges.map MLEdge.ends).trans (.of_eq h.values_ends)).nodup_iff.mpr ?_
    exact st.edge_map.nodup
  case nonempty => exact fun n hn => h.nonempty (h.graph_node hn)
  case nodes => exact (hnodes.flatMap_right _).trans (h.sub_nodes_perm.trans hL)
  case edges =>
    refine ((hedges.flatMap_right _).append (hnodes.flatMap_right _)).trans ?_
    exact (h.sub_edges_perm hends).trans hE

end Placed

end Rannc
