import Rannc.Graph.AdjustedHierarchy

/-!
# Sizes of merged edges

The size of an edge is that of the values on it, through as many levels as there are below it. A
merged edge has no values of its own, so its size is that of the edges it was merged from.
-/
namespace Rannc

theorem sumEdgeSizes_append (edges edges' : List MLEdge) :
    sumEdgeSizes (edges ++ edges') = do
      let size ← sumEdgeSizes edges
      let size' ← sumEdgeSizes edges'
      return size + size' := by
  induction edges with
  | nil => simp [sumEdgeSizes]
  | cons e edges ih =>
    simp only [List.cons_append, sumEdgeSizes, ih]
    cases calcEdgeSize e with
    | none => rfl
    | some size =>
      cases sumEdgeSizes edges with
      | none => rfl
      | some rest => cases sumEdgeSizes edges' <;> simp [add_assoc]

theorem sumEdgeSizes_perm {edges edges' : List MLEdge} (h : edges.Perm edges') :
    sumEdgeSizes edges = sumEdgeSizes edges' := by
  induction h with
  | nil => rfl
  | cons e _ ih => rw [sumEdgeSizes, sumEdgeSizes, ih]
  | swap e e' edges =>
    simp only [sumEdgeSizes]
    cases calcEdgeSize e with
    | none => cases calcEdgeSize e' <;> rfl
    | some size =>
      cases calcEdgeSize e' with
      | none => rfl
      | some size' => cases sumEdgeSizes edges <;> simp [add_left_comm]
  | trans _ _ ih ih' => exact ih.trans ih'

theorem calcEdgeSize_eq_sum {e : MLEdge} (hsub : e.sub_edges ≠ []) :
    calcEdgeSize e = sumEdgeSizes e.sub_edges := by
  obtain ⟨src_id, tgt_id, sub_edges, base_edges⟩ := e
  cases sub_edges with
  | nil => exact absurd rfl hsub
  | cons se sub_edges => rw [calcEdgeSize, sumEdgeSizes]

theorem sumEdgeSizes_flatMap {edges : List MLEdge} (hsub : ∀ e ∈ edges, e.sub_edges ≠ []) :
    sumEdgeSizes (edges.flatMap MLEdge.sub_edges) = sumEdgeSizes edges := by
  induction edges with
  | nil => rfl
  | cons e edges ih =>
    obtain ⟨he, hedges⟩ := List.forall_mem_cons.mp hsub
    rw [List.flatMap_cons, sumEdgeSizes_append, ih hedges, sumEdgeSizes, calcEdgeSize_eq_sum he]

theorem sumEdgeSizes_map {edges : List MLEdge} {f : MLEdge → MLEdge}
    (h : ∀ e ∈ edges, calcEdgeSize (f e) = calcEdgeSize e) :
    sumEdgeSizes (edges.map f) = sumEdgeSizes edges := by
  induction edges with
  | nil => rfl
  | cons e edges ih =>
    obtain ⟨he, hrest⟩ := List.forall_mem_cons.mp h
    rw [List.map_cons, sumEdgeSizes, sumEdgeSizes, he, ih hrest]

section Renaming

variable {order : MapOrder ((String × String) × List MLEdge)} {edges merged_edges : List MLEdge}
  {name_map : List (String × String)}

theorem mergeEdgesNoCopy_sumEdgeSizes
    (h : mergeEdgesNoCopy order edges name_map = some merged_edges) :
    sumEdgeSizes merged_edges = sumEdgeSizes (edges.filter (Outside name_map)) := by
  rw [← sumEdgeSizes_flatMap fun e he => (MLPartitioner.mergeEdgesNoCopy_sub_edges h e he).2.1]
  exact sumEdgeSizes_perm (mergeEdgesNoCopy_perm h).2

/-- The merged edges are between different nodes, one for each pair, and hold the edges that do not
become loops, with their sizes. -/
theorem mergeEdgesNoCopy_conserves (order : MapOrder ((String × String) × List MLEdge))
    (edges : List MLEdge) (name_map : List (String × String))
    (htotal : ∀ e ∈ edges,
      (name_map.lookup e.src_id).isSome ∧ (name_map.lookup e.tgt_id).isSome) :
    ∃ merged_edges, mergeEdgesNoCopy order edges name_map = some merged_edges ∧
      (merged_edges.map MLEdge.ends).Nodup ∧
      (∀ e ∈ merged_edges, e.src_id ≠ e.tgt_id) ∧
      (merged_edges.flatMap MLEdge.sub_edges).Perm (edges.filter (Outside name_map)) ∧
      sumEdgeSizes merged_edges = sumEdgeSizes (edges.filter (Outside name_map)) := by
  obtain ⟨merged_edges, h⟩ :=
    Option.isSome_iff_exists.mp (MLPartitioner.mergeEdgesNoCopy_isSome order htotal)
  obtain ⟨hnodup, hperm⟩ := mergeEdgesNoCopy_perm h
  refine ⟨merged_edges, h, hnodup, fun e he => ?_, hperm, mergeEdgesNoCopy_sumEdgeSizes h⟩
  exact (MLPartitioner.mergeEdgesNoCopy_sub_edges h e he).1

/-- Of a triangle whose first two nodes are joined, the two edges to the third node are left. -/
theorem mergeEdgesNoCopy_conserves_triangle :
    ∃ merged_edges, mergeEdgesNoCopy ⟨id, fun l => .refl l⟩
        [⟨"a", "b", [], []⟩, ⟨"a", "c", [], []⟩, ⟨"b", "c", [], []⟩]
        [("a", "ab"), ("b", "ab"), ("c", "c")] = some merged_edges ∧
      (merged_edges.map MLEdge.ends).Nodup ∧
      (∀ e ∈ merged_edges, e.src_id ≠ e.tgt_id) ∧
      (merged_edges.flatMap MLEdge.sub_edges).Perm
        ([⟨"a", "b", [], []⟩, ⟨"a", "c", [], []⟩, ⟨"b", "c", [], []⟩].filter
          (Outside [("a", "ab"), ("b", "ab"), ("c", "c")])) ∧
      sumEdgeSizes merged_edges = sumEdgeSizes
        ([⟨"a", "b", [], []⟩, ⟨"a", "c", [], []⟩, ⟨"b", "c", [], []⟩].filter
          (Outside [("a", "ab"), ("b", "ab"), ("c", "c")])) :=
  mergeEdgesNoCopy_conserves _ _ _ (by decide)

end Renaming

/-- The edges after some renamings, each of the nodes that the one before it gave. -/
def mergeLevels (order : MapOrder ((String × String) × List MLEdge)) (edges : List MLEdge)
    (name_maps : List (List (String × String))) : Option (List MLEdge) :=
  name_maps.foldlM (mergeEdgesNoCopy order) edges

/-- What becomes of a node in the end. -/
def renameAll (name_maps : List (List (String × String))) (id : String) : Option String :=
  name_maps.foldlM (fun id name_map => name_map.lookup id) id

/-- The ends of an edge never become the same node. -/
def Apart (name_maps : List (List (String × String))) (e : MLEdge) : Prop :=
  renameAll name_maps e.src_id ≠ renameAll name_maps e.tgt_id

instance (name_maps : List (List (String × String))) : DecidablePred (Apart name_maps) :=
  fun _ => inferInstanceAs (Decidable (_ ≠ _))

theorem flatMap_filter_parts {α β : Type} {l : List α} {parts : α → List β} {p : α → Bool}
    {q : β → Bool} (h : ∀ a ∈ l, ∀ b ∈ parts a, q b = p a) :
    (l.filter p).flatMap parts = (l.flatMap parts).filter q := by
  induction l with
  | nil => rfl
  | cons a l ih =>
    obtain ⟨ha, hl⟩ := List.forall_mem_cons.mp h
    rw [List.flatMap_cons, List.filter_append, ← ih hl, List.filter_cons]
    split_ifs with hp
    · have hall : (parts a).filter q = parts a :=
        List.filter_eq_self.mpr fun b hb => (ha b hb).trans hp
      rw [hall, List.flatMap_cons]
    · have hnone : (parts a).filter q = [] :=
        List.filter_eq_nil_iff.mpr fun b hb => by rwa [ha b hb]
      rw [hnone, List.nil_append]

/-- Through any number of levels, the sizes that are left are those of the edges between nodes that
are still apart. -/
theorem mergeLevels_sumEdgeSizes {order : MapOrder ((String × String) × List MLEdge)}
    {name_maps : List (List (String × String))} {edges merged_edges : List MLEdge}
    (hloop : ∀ e ∈ edges, e.src_id ≠ e.tgt_id)
    (h : mergeLevels order edges name_maps = some merged_edges) :
    sumEdgeSizes merged_edges = sumEdgeSizes (edges.filter (Apart name_maps)) := by
  induction name_maps generalizing edges with
  | nil =>
    obtain rfl := Option.some.inj h
    rw [List.filter_eq_self.mpr]
    intro e he
    simpa [Apart, renameAll] using hloop e he
  | cons name_map name_maps ih =>
    rw [mergeLevels, List.foldlM_cons] at h
    obtain ⟨level, hlevel, hrest⟩ := Option.bind_eq_some_iff.mp h
    have hsub := MLPartitioner.mergeEdgesNoCopy_sub_edges hlevel
    rw [ih (fun e he => (hsub e he).1) hrest]
    -- an edge of the level stays exactly when the edges in it do
    have hstay : (level.filter (Apart name_maps)).flatMap MLEdge.sub_edges =
        (level.flatMap MLEdge.sub_edges).filter (Apart (name_map :: name_maps)) := by
      refine flatMap_filter_parts fun e he se hse => ?_
      obtain ⟨hsrc, htgt⟩ := (hsub e he).2.2 se hse
      rw [decide_eq_decide, Apart, Apart, renameAll, renameAll, List.foldlM_cons, List.foldlM_cons,
        hsrc, htgt]
      rfl
    have hinside : (edges.filter (Outside name_map)).filter (Apart (name_map :: name_maps)) =
        edges.filter (Apart (name_map :: name_maps)) := by
      rw [List.filter_filter]
      refine List.filter_congr fun e _ => ?_
      rw [← Bool.decide_and, decide_eq_decide]
      refine ⟨And.left, fun hapart => ⟨hapart, fun heq => hapart ?_⟩⟩
      simp only [renameAll, List.foldlM_cons, heq]
    rw [← sumEdgeSizes_flatMap fun e he => (hsub e (List.mem_filter.mp he).1).2.1, hstay,
      sumEdgeSizes_perm ((mergeEdgesNoCopy_perm hlevel).2.filter _), hinside]

end Rannc
