import Rannc.Graph.Boundaries
import Rannc.Lib.Relocation

/-!
# The moves over the boundaries

Which moves are listed and which are made, what the guards say of a node that is moved, and what
changes hands: the node, the edge that it goes along, and its edges inside the node it leaves.
-/
namespace Rannc

open Relocation

/-- The edge starts or ends at the node. -/
abbrev AtNode (m : MLNode) (e : MLEdge) : Prop := Incident MLEdge.src_id MLEdge.tgt_id m.id e

/-- The end of an edge at which a moved node is. -/
def nearEnd (direction : Bool) (e : MLEdge) : String := if direction then e.src_id else e.tgt_id

def farEnd (direction : Bool) (e : MLEdge) : String := if direction then e.tgt_id else e.src_id

/-- A listed move is along a lower edge between two coarse nodes. -/
structure Listed (g : MLGraph) (move : NodeMove) : Prop where
  edge : move.edge ∈ g.edges
  ends : move.edge.ends = (move.src_id, move.tgt_id)
  sub_edge : move.sub_edge ∈ move.edge.sub_edges
  moved_node : move.moved_node ∈ g.nodes.flatMap MLNode.sub_nodes
  moved_id : move.moved_node.id = nearEnd move.direction move.sub_edge

theorem startAdjusting_eq_some {g : MLGraph} {used : ℕ} {st : Adjusting} {moves : List NodeMove}
    (h : startAdjusting g used = some (st, moves)) :
    st = ⟨Dict.ofList (g.nodes.map fun n => (n.id, n)),
      Dict.ofList (g.edges.map fun e => (e.ends, e)), g.nodes,
      g.edges.flatMap MLEdge.sub_edges, used⟩ ∧ ∀ move ∈ moves, Listed g move := by
  simp only [startAdjusting, Option.bind_eq_bind, Option.pure_def] at h
  obtain ⟨-, h⟩ := of_guard_bind h
  obtain ⟨lists, hlists, h⟩ := Option.bind_eq_some_iff.mp h
  obtain ⟨rfl, rfl⟩ := Prod.mk.inj (Option.some.inj h)
  refine ⟨rfl, fun move hmove => ?_⟩
  obtain ⟨list, hlist, hmove⟩ := List.mem_flatten.mp hmove
  obtain ⟨e, he, hlist⟩ := exists_of_mem_mapM hlists hlist
  simp only [edgeMoves, Option.bind_eq_bind, Option.bind_eq_some_iff, Option.pure_def] at hlist
  obtain ⟨src_node, hsrc, tgt_node, htgt, pairs, hpairs, hlist⟩ := hlist
  obtain rfl := Option.some.inj hlist
  obtain ⟨pair, hpair, hmove⟩ := List.mem_flatten.mp hmove
  obtain ⟨se, hse, hpair⟩ := exists_of_mem_mapM hpairs hpair
  simp only [Option.bind_eq_some_iff] at hpair
  obtain ⟨moved_src, hmoved_src, moved_tgt, hmoved_tgt, hpair⟩ := hpair
  obtain rfl := Option.some.inj hpair
  obtain ⟨-, hsrc_id⟩ := Dict.mem_of_get_ofList_map hsrc
  obtain ⟨-, htgt_id⟩ := Dict.mem_of_get_ofList_map htgt
  obtain ⟨hsrc_mem, hsrc_eq⟩ := Dict.mem_of_get_ofList_map hmoved_src
  obtain ⟨htgt_mem, htgt_eq⟩ := Dict.mem_of_get_ofList_map hmoved_tgt
  have hends : e.ends = (src_node.id, tgt_node.id) := Prod.ext hsrc_id.symm htgt_id.symm
  simp only [List.mem_cons, List.not_mem_nil, or_false] at hmove
  rcases hmove with rfl | rfl
  · exact ⟨he, hends, hse, hsrc_mem, hsrc_eq⟩
  · exact ⟨he, hends, hse, htgt_mem, htgt_eq⟩

/-- What is looked up for a move that is tried. -/
structure Allowed (st : Adjusting) (move : NodeMove) (src_node tgt_node : MLNode)
    (edge : MLEdge) : Prop where
  src : st.node_map.get move.src_id = some src_node
  tgt : st.node_map.get move.tgt_id = some tgt_node
  free : move.blocked src_node tgt_node st.all_sub_edges = some false
  between : st.edge_map.get move.edge.ends = some edge
  sub_edge : move.sub_edge.ends ∈ edge.sub_edges.map MLEdge.ends

/-- The checks after a move. -/
structure MoveResult.Passes (moved : MoveResult) : Prop where
  src_inputs : moved.src_node.graph.verifyNodeInputs = true
  tgt_inputs : moved.tgt_node.graph.verifyNodeInputs = true
  verified : moved.verify = true

namespace MLPartitioner

variable {p : MLPartitioner} {orders : AdjustOrders}

/-- The result kept is the one before, or comes from a move that is allowed and passes the
checks. -/
theorem tryMove_eq_some {st : Adjusting} {best best' : BestMove} {move : NodeMove}
    (h : p.tryMove st best move = some best') :
    best'.best_moved_result = best.best_moved_result ∨
      ∃ src_node tgt_node edge moved, Allowed st move src_node tgt_node edge ∧
        move.apply p.names best.used src_node edge tgt_node st.all_nodes = some moved ∧
        moved.Passes ∧ best'.best_moved_result = some moved := by
  unfold tryMove at h
  obtain ⟨src_node, hsrc, h⟩ := Option.bind_eq_some_iff.mp h
  obtain ⟨tgt_node, htgt, h⟩ := Option.bind_eq_some_iff.mp h
  obtain ⟨blocked, hblocked, h⟩ := Option.bind_eq_some_iff.mp h
  rcases ite_eq_iff.mp h with ⟨-, hbest⟩ | ⟨hfree, h⟩
  · exact Or.inl (Option.some.inj hbest ▸ rfl)
  obtain ⟨edge, hedge, h⟩ := Option.bind_eq_some_iff.mp h
  rcases ite_eq_iff.mp h with ⟨-, hbest⟩ | ⟨hsub_edge, h⟩
  · exact Or.inl (Option.some.inj hbest ▸ rfl)
  rcases ite_eq_iff.mp h with ⟨-, hbest⟩ | ⟨-, h⟩
  · exact Or.inl (Option.some.inj hbest ▸ rfl)
  obtain ⟨moved, hmoved, h⟩ := Option.bind_eq_some_iff.mp h
  rcases ite_eq_iff.mp h with ⟨-, hbest⟩ | ⟨hinputs, h⟩
  · exact Or.inl (Option.some.inj hbest ▸ rfl)
  obtain ⟨hverified, h⟩ := of_guard_bind h
  obtain ⟨time, -, h⟩ := Option.bind_eq_some_iff.mp h
  rcases ite_eq_iff.mp h with ⟨-, hbest⟩ | ⟨-, h⟩
  · exact Or.inl (Option.some.inj hbest ▸ rfl)
  rcases ite_eq_iff.mp h with ⟨-, hbest⟩ | ⟨-, h⟩
  · exact Or.inl (Option.some.inj hbest ▸ rfl)
  obtain ⟨moved_time, -, h⟩ := Option.bind_eq_some_iff.mp h
  rcases ite_eq_iff.mp h with ⟨-, hbest⟩ | ⟨-, hbest⟩
  · obtain rfl := Option.some.inj hbest
    rw [Bool.or_eq_true, Bool.not_eq_true', Bool.not_eq_true', not_or, Bool.not_eq_false,
      Bool.not_eq_false] at hinputs
    refine Or.inr ⟨src_node, tgt_node, edge, moved, ⟨hsrc, htgt, ?_, hedge, ?_⟩, hmoved,
      ⟨hinputs.1, hinputs.2, hverified⟩, rfl⟩
    · rw [hblocked, eq_false_of_ne_true hfree]
    · simpa [containsSubedge] using hsub_edge
  · exact Or.inl (Option.some.inj hbest ▸ rfl)

/-- The state after a candidate is the same graph, or one with an allowed move made that passes the
checks. -/
theorem adjustNode_eq_some {st st' : Adjusting} {moves : List NodeMove} {move_node_id : String}
    (h : p.adjustNode orders moves st move_node_id = some st') :
    (st' = { st with used := st'.used }) ∨
      ∃ move ∈ moves, move.moved_node.id = move_node_id ∧
        ∃ src_node tgt_node edge moved used, Allowed st move src_node tgt_node edge ∧
          move.apply p.names used src_node edge tgt_node st.all_nodes = some moved ∧
          moved.Passes ∧ st' = st.accept orders moved st'.used := by
  simp only [adjustNode, Option.bind_eq_bind, Option.bind_eq_some_iff, Option.pure_def] at h
  obtain ⟨best, hbest, h⟩ := h
  have hmoved := foldlM_invariant (P := fun best : BestMove => ∀ moved,
    best.best_moved_result = some moved → ∃ move ∈ moves, move.moved_node.id = move_node_id ∧
      ∃ src_node tgt_node edge used, Allowed st move src_node tgt_node edge ∧
        move.apply p.names used src_node edge tgt_node st.all_nodes = some moved ∧
        moved.Passes) (by
    intro best move best' hmove hbest hstep moved hresult
    obtain ⟨hmove, hid⟩ := List.mem_filter.mp hmove
    rcases tryMove_eq_some hstep with hsame | ⟨src_node, tgt_node, edge, moved', hallowed, happly,
      hpasses, hnew⟩
    · exact hbest moved (hsame ▸ hresult)
    · obtain rfl := Option.some.inj (hnew.symm.trans hresult)
      exact ⟨move, hmove, of_decide_eq_true hid, src_node, tgt_node, edge, best.used, hallowed,
        happly, hpasses⟩) (by simp) hbest
  split_ifs at h with himprv
  · obtain ⟨moved, hresult, h⟩ := Option.bind_eq_some_iff.mp h
    obtain ⟨move, hmove, hid, src_node, tgt_node, edge, used, hallowed, happly, hpasses⟩ :=
      hmoved moved hresult
    obtain rfl := Option.some.inj h
    exact Or.inr ⟨move, hmove, hid, src_node, tgt_node, edge, moved, used, hallowed, happly,
      hpasses, rfl⟩
  · exact Or.inl (Option.some.inj h ▸ rfl)

end MLPartitioner

/-- The moved node goes from `origin` to `dest` along `sub_edge`, and its other edges come between
the two. -/
structure Shifts (m : MLNode) (sub_edge : MLEdge) (origin dest : MLNode) (edge : MLEdge)
    (origin' dest' : MLNode) (edge' : MLEdge) : Prop where
  origin_id : origin'.id = origin.id
  dest_id : dest'.id = dest.id
  ends : edge'.ends = edge.ends
  origin_nodes : origin'.sub_nodes = origin.sub_nodes.filter fun sn => sn.id ≠ m.id
  origin_edges : origin'.sub_edges = origin.sub_edges.filter fun se => ¬ AtNode m se
  dest_nodes : dest'.sub_nodes.Perm (dest.sub_nodes ++ [m])
  dest_edges : dest'.sub_edges = dest.sub_edges ++ [sub_edge]
  edges : edge'.sub_edges = (origin.sub_edges.filter fun se => AtNode m se) ++
    edge.sub_edges.filter fun se => ¬ AtNode m se

theorem length_adj_ml_nodes {graph : MLGraph} {ids : List String} {nodes : List MLNode}
    (h : adj_ml_nodes graph ids = some nodes) : nodes.length = ids.length := by
  have hlength := congrArg List.length (mapM_eq_some_iff.mp h)
  rw [List.length_map, List.length_map] at hlength
  exact hlength.symm

theorem countRefTgtInSubgraph_eq {node sub_node : MLNode} {refs : ℕ}
    (h : countRefTgtInSubgraph node sub_node = some refs) :
    refs = (node.sub_edges.filter fun e => e.src_id = sub_node.id).length := by
  obtain ⟨nodes, hnodes, h⟩ := Option.bind_eq_some_iff.mp h
  obtain rfl := Option.some.inj h
  rw [length_adj_ml_nodes hnodes, List.length_map]

theorem countRefSrcInSubgraph_eq {node sub_node : MLNode} {refs : ℕ}
    (h : countRefSrcInSubgraph node sub_node = some refs) :
    refs = (node.sub_edges.filter fun e => e.tgt_id = sub_node.id).length := by
  obtain ⟨nodes, hnodes, h⟩ := Option.bind_eq_some_iff.mp h
  obtain rfl := Option.some.inj h
  rw [length_adj_ml_nodes hnodes, List.length_map]

/-- What the guards say of the moved node. -/
structure FreeAt (direction : Bool) (m : MLNode) (origin : MLNode)
    (all_sub_edges : List MLEdge) : Prop where
  several : 2 ≤ origin.sub_nodes.length
  inside : ∀ e ∈ origin.sub_edges, nearEnd direction e ≠ m.id
  out : (all_sub_edges.filter fun e => nearEnd direction e = m.id).length ≤ 1
  into : ∀ e ∈ all_sub_edges, farEnd direction e ≠ m.id

theorem NodeMove.free {move : NodeMove} {src_node tgt_node : MLNode} {all_sub_edges : List MLEdge}
    (h : move.blocked src_node tgt_node all_sub_edges = some false) :
    FreeAt move.direction move.moved_node (move.origin src_node tgt_node) all_sub_edges := by
  have hcounts : ∀ {near far : MLEdge → String} {origin : MLNode} {refs : ℕ},
      refs = (origin.sub_edges.filter fun e => near e = move.moved_node.id).length →
      ¬ (refs ≠ 0 ∨ (all_sub_edges.countP fun e => near e = move.moved_node.id) > 1 ∨
        (all_sub_edges.countP fun e => far e = move.moved_node.id) ≠ 0) →
      (∀ e ∈ origin.sub_edges, near e ≠ move.moved_node.id) ∧
        (all_sub_edges.filter fun e => near e = move.moved_node.id).length ≤ 1 ∧
        ∀ e ∈ all_sub_edges, far e ≠ move.moved_node.id := by
    intro near far origin refs hrefs hcounts
    simp only [List.countP_eq_length_filter, not_or, not_not] at hcounts
    obtain ⟨hinside, hout, hinto⟩ := hcounts
    rw [hrefs, List.length_eq_zero_iff, List.filter_eq_nil_iff] at hinside
    rw [List.length_eq_zero_iff, List.filter_eq_nil_iff] at hinto
    exact ⟨fun e he heq => hinside e he (decide_eq_true heq), not_lt.mp hout,
      fun e he heq => hinto e he (decide_eq_true heq)⟩
  unfold blocked at h
  unfold origin
  cases hdirection : move.direction with
  | true =>
    simp only [hdirection, if_true] at h ⊢
    rcases ite_eq_iff.mp h with ⟨-, hfalse⟩ | ⟨hseveral, h⟩
    · exact absurd (Option.some.inj hfalse) nofun
    obtain ⟨refs, hrefs, h⟩ := Option.bind_eq_some_iff.mp h
    obtain ⟨hinside, hout, hinto⟩ := hcounts (countRefTgtInSubgraph_eq hrefs)
      (of_decide_eq_false (Option.some.inj h))
    exact ⟨not_lt.mp hseveral, hinside, hout, hinto⟩
  | false =>
    simp only [hdirection, Bool.false_eq_true, if_false] at h ⊢
    rcases ite_eq_iff.mp h with ⟨-, hfalse⟩ | ⟨hseveral, h⟩
    · exact absurd (Option.some.inj hfalse) nofun
    obtain ⟨refs, hrefs, h⟩ := Option.bind_eq_some_iff.mp h
    obtain ⟨hinside, hout, hinto⟩ := hcounts (countRefSrcInSubgraph_eq hrefs)
      (of_decide_eq_false (Option.some.inj h))
    exact ⟨not_lt.mp hseveral, hinside, hout, hinto⟩

theorem atNode_iff (direction : Bool) (m : MLNode) (e : MLEdge) :
    AtNode m e ↔ nearEnd direction e = m.id ∨ farEnd direction e = m.id := by
  cases direction with
  | true => exact Iff.rfl
  | false => exact or_comm

theorem filter_atNode {direction : Bool} {m : MLNode} {edges : List MLEdge}
    (hnear : ∀ e ∈ edges, nearEnd direction e ≠ m.id) :
    (edges.filter fun e => farEnd direction e = m.id) = edges.filter (fun e => AtNode m e) ∧
      (edges.filter fun e => farEnd direction e ≠ m.id) =
        edges.filter fun e => ¬ AtNode m e := by
  have hiff : ∀ e ∈ edges, farEnd direction e = m.id ↔ AtNode m e := by
    intro e he
    rw [atNode_iff direction]
    exact (or_iff_right (hnear e he)).symm
  exact ⟨List.filter_congr fun e he => decide_eq_decide.mpr (hiff e he),
    List.filter_congr fun e he => decide_eq_decide.mpr (not_congr (hiff e he))⟩

namespace MoveResult

variable (moved : MoveResult) (direction : Bool)

/-- The node that the moved one was taken from. -/
def origin : MLNode := if direction then moved.src_node else moved.tgt_node

def dest : MLNode := if direction then moved.tgt_node else moved.src_node

end MoveResult

/-- The node that the moved one goes to. -/
def NodeMove.dest (move : NodeMove) (src_node tgt_node : MLNode) : MLNode :=
  if move.direction then tgt_node else src_node

theorem NodeMove.shifts {move : NodeMove} {names : NameSupply} {used : ℕ}
    {src_node tgt_node : MLNode} {edge : MLEdge} {all_nodes : List MLNode} {moved : MoveResult}
    (hinside : ∀ e ∈ (move.origin src_node tgt_node).sub_edges,
      nearEnd move.direction e ≠ move.moved_node.id)
    (hinto : ∀ e ∈ edge.sub_edges, farEnd move.direction e ≠ move.moved_node.id)
    (h : move.apply names used src_node edge tgt_node all_nodes = some moved) :
    Shifts move.moved_node move.sub_edge (move.origin src_node tgt_node)
      (move.dest src_node tgt_node) edge (moved.origin move.direction) (moved.dest move.direction)
      moved.edge := by
  obtain ⟨hmoved, hstay⟩ := filter_atNode hinside
  have hinto : ∀ e ∈ edge.sub_edges, nearEnd (!move.direction) e ≠ move.moved_node.id := by
    unfold nearEnd
    unfold farEnd at hinto
    cases hdirection : move.direction <;> simpa [hdirection] using hinto
  obtain ⟨-, hkept⟩ := filter_atNode hinto
  unfold origin at hmoved hstay ⊢
  unfold NodeMove.apply at h
  unfold dest MoveResult.origin MoveResult.dest
  cases hdirection : move.direction with
  | true =>
    simp only [hdirection, farEnd, Bool.not_true, Bool.false_eq_true, if_true, if_false]
      at h hmoved hstay hkept ⊢
    simp only [move_to_tgt, Option.bind_eq_bind, Option.bind_eq_some_iff, Option.pure_def] at h
    obtain ⟨new_src_graph, -, new_tgt_graph, -, h⟩ := h
    obtain rfl := Option.some.inj h
    constructor
    case origin_id => rfl
    case dest_id => rfl
    case ends => rfl
    case origin_nodes => rfl
    case origin_edges => exact hstay
    case dest_nodes => exact (List.perm_append_singleton _ tgt_node.sub_nodes).symm
    case dest_edges => rfl
    case edges => exact congrArg₂ (· ++ ·) hmoved hkept
  | false =>
    simp only [hdirection, farEnd, Bool.not_false, Bool.false_eq_true, if_true, if_false]
      at h hmoved hstay hkept ⊢
    simp only [move_to_src, Option.bind_eq_bind, Option.bind_eq_some_iff, Option.pure_def] at h
    obtain ⟨new_src_graph, -, new_tgt_graph, -, h⟩ := h
    obtain rfl := Option.some.inj h
    constructor
    case origin_id => rfl
    case dest_id => rfl
    case ends => rfl
    case origin_nodes => rfl
    case origin_edges => exact hstay
    case dest_nodes => exact .refl _
    case dest_edges => rfl
    case edges => exact congrArg₂ (· ++ ·) hmoved hkept

end Rannc
