import Rannc.Graph.IRGraph
import Rannc.Lib.OptionFold

/-!
# Graphs of graphs

A node of an ML graph is a graph of operators that was merged from the nodes one level below. The
names of merged graphs are drawn from a supply that does not give a name twice.
-/
namespace Rannc

structure MLBaseEdge where
  src_id : String
  tgt_id : String
  value : IRValue
  deriving Repr

structure MLEdge where
  src_id : String
  tgt_id : String
  sub_edges : List MLEdge
  base_edges : List MLBaseEdge
  deriving Repr

structure MLNode where
  id : String
  graph : IRGraph
  sub_nodes : List MLNode
  sub_edges : List MLEdge
  deriving Repr

structure MLGraph where
  nodes : List MLNode
  edges : List MLEdge
  deriving Repr

/-- The random part of the names that are generated. -/
structure NameSupply where
  random : ℕ → String
  injective : Function.Injective random

/-- The `i`-th name generated. -/
def NameSupply.generateName (names : NameSupply) (i : ℕ) (pref : String) : String :=
  pref ++ names.random i

theorem NameSupply.generateName_injective (names : NameSupply) (pref : String) :
    Function.Injective fun i => names.generateName i pref := by
  intro i j h
  exact names.injective (by simpa [NameSupply.generateName] using h)

def ml_edge (src tgt : MLNode) (edges : List MLEdge) : List MLEdge :=
  (edges.find? fun e => e.src_id = src.id ∧ e.tgt_id = tgt.id).toList

/-- What the other graphs read. -/
def getRequiredInputs (n1 n2 : MLNode) (all_nodes : List MLNode) : List String :=
  (all_nodes.filter fun n => n.graph.name ≠ n1.graph.name ∧ n.graph.name ≠ n2.graph.name).flatMap
    fun n => n.graph.input_names

def getCutValues (n1 n2 : MLNode) : Option (List IRValue) :=
  let cut_names :=
    n1.graph.output_names.filter (· ∈ n2.graph.input_names) ++
      n2.graph.output_names.filter (· ∈ n1.graph.input_names)
  cut_names.mapM n1.graph.getValue

def getSize (vals : List IRValue) : Option ℕ := do
  let sizes ← vals.mapM IRValue.getSizeInByte
  return sizes.sum

def outputAvailable (n : IRNode) (avail_vals : List String) : Bool :=
  n.output_names.any (· ∈ avail_vals)

/-- The nodes of a graph whose outputs are not there yet, and what is there then. -/
def addNodes (added : List IRNode × List String) (nodes : List IRNode) :
    List IRNode × List String :=
  nodes.foldl
    (fun (nodes, node_out_names) n =>
      if outputAvailable n node_out_names then (nodes, node_out_names)
      else (nodes ++ [n], n.output_names ++ node_out_names))
    added

/-- The graph that runs `g1` and then `g2`. -/
def mergeGraphs (name : String) (g1 g2 : IRGraph) (required_inputs : List String) :
    Option IRGraph := do
  let outputs :=
    (g1.output_names.filter fun o1 => o1 ∉ g2.input_names ∨ o1 ∈ required_inputs) ++
      g2.output_names
  let non_param_inputs1 ← g1.getNonParamInputNames
  let non_param_inputs2 ← g2.getNonParamInputNames
  let non_param_inputs := non_param_inputs2.foldl
    (fun non_param_inputs i2 =>
      if i2 ∉ g1.output_names ∧ i2 ∉ non_param_inputs then non_param_inputs ++ [i2]
      else non_param_inputs)
    non_param_inputs1
  let param_inputs1 ← g1.getParamInputNames
  let param_inputs2 ← g2.getParamInputNames
  let param_inputs := (param_inputs1 ++ param_inputs2).foldl
    (fun param_inputs i => if i ∉ param_inputs then param_inputs ++ [i] else param_inputs) []
  let all_inputs := non_param_inputs ++ param_inputs
  let (nodes, _) := addNodes (addNodes ([], non_param_inputs) g1.nodes) g2.nodes
  let merged_values := g1.values ++ g2.values.filter fun v => !g1.hasValue v.1
  IRGraph.create name nodes merged_values all_inputs outputs

/-- This assumes the direction `n1` to `n2`. -/
def merge (name : String) (n1 n2 : MLNode) (all_nodes : List MLNode) (edges : List MLEdge) :
    Option MLNode := do
  let graph ← mergeGraphs name n1.graph n2.graph (getRequiredInputs n1 n2 all_nodes)
  let graph ← graph.removeUnusedNodes
  return ⟨graph.name, graph, [n1, n2], ml_edge n1 n2 edges⟩

/-- Lift `n` up to the next level without merging. -/
def liftUp (name : String) (n : MLNode) : MLNode :=
  let graph := n.graph.rename name
  ⟨graph.name, graph, [n], []⟩

theorem mergeGraphs_name {name : String} {g1 g2 g : IRGraph} {required_inputs : List String}
    (h : mergeGraphs name g1 g2 required_inputs = some g) : g.name = name := by
  simp only [mergeGraphs, Option.bind_eq_bind, Option.bind_eq_some_iff] at h
  obtain ⟨_, _, _, _, _, _, _, _, hcreate⟩ := h
  obtain ⟨is_replicable, rfl⟩ := IRGraph.create_eq hcreate
  rfl

theorem merge_id {name : String} {n1 n2 n : MLNode} {all_nodes : List MLNode} {edges : List MLEdge}
    (h : merge name n1 n2 all_nodes edges = some n) : n.id = name := by
  simp only [merge, Option.bind_eq_bind, Option.bind_eq_some_iff, Option.pure_def,
    Option.some.injEq] at h
  obtain ⟨graph, hgraph, graph', hgraph', rfl⟩ := h
  exact (IRGraph.removeUnusedNodes_name hgraph').trans (mergeGraphs_name hgraph)

theorem mergeGraphs_output_names {name : String} {g1 g2 g : IRGraph} {required_inputs : List String}
    (h : mergeGraphs name g1 g2 required_inputs = some g) :
    g.output_names = (g1.output_names.filter fun o1 =>
      o1 ∉ g2.input_names ∨ o1 ∈ required_inputs) ++ g2.output_names := by
  simp only [mergeGraphs, Option.bind_eq_bind, Option.bind_eq_some_iff] at h
  obtain ⟨_, _, _, _, _, _, _, _, hcreate⟩ := h
  obtain ⟨is_replicable, rfl⟩ := IRGraph.create_eq hcreate
  rfl

theorem mem_merge_output_names {name : String} {n1 n2 n : MLNode} {all_nodes : List MLNode}
    {edges : List MLEdge} (h : merge name n1 n2 all_nodes edges = some n) {out : String} :
    out ∈ n.graph.output_names ↔
      out ∈ n1.graph.output_names ∧
          (out ∉ n2.graph.input_names ∨ out ∈ getRequiredInputs n1 n2 all_nodes) ∨
        out ∈ n2.graph.output_names := by
  simp only [merge, Option.bind_eq_bind, Option.bind_eq_some_iff, Option.pure_def,
    Option.some.injEq] at h
  obtain ⟨graph, hgraph, graph', hgraph', rfl⟩ := h
  rw [IRGraph.removeUnusedNodes_output_names hgraph', mergeGraphs_output_names hgraph,
    List.mem_append, List.mem_filter, decide_eq_true_eq]

theorem mem_addInput_names {p : List String → String → Prop} [∀ l a, Decidable (p l a)]
    {added names : List String} {a : String}
    (h : a ∈ names.foldl (fun l i => if p l i then l ++ [i] else l) added) :
    a ∈ added ∨ a ∈ names := by
  induction names generalizing added with
  | nil => exact Or.inl h
  | cons i names ih =>
    cases ih h with
    | inl hadded =>
      dsimp only at hadded
      split_ifs at hadded
      · cases List.mem_append.mp hadded with
        | inl hadded => exact Or.inl hadded
        | inr heq => exact Or.inr (List.mem_singleton.mp heq ▸ List.mem_cons_self)
      · exact Or.inl hadded
    | inr hnames => exact Or.inr (List.mem_cons_of_mem _ hnames)

theorem mem_mergeGraphs_input_names {name : String} {g1 g2 g : IRGraph}
    {required_inputs : List String} (h : mergeGraphs name g1 g2 required_inputs = some g)
    {input : String} (hinput : input ∈ g.input_names) :
    input ∈ g1.input_names ∨ input ∈ g2.input_names := by
  simp only [mergeGraphs, Option.bind_eq_bind, Option.bind_eq_some_iff] at h
  obtain ⟨non_param1, h1, non_param2, h2, param1, h3, param2, h4, hcreate⟩ := h
  obtain ⟨is_replicable, rfl⟩ := IRGraph.create_eq hcreate
  cases List.mem_append.mp hinput with
  | inl hinput =>
    cases mem_addInput_names hinput with
    | inl hmem => exact Or.inl (mem_of_filterM h1 hmem).1
    | inr hmem => exact Or.inr (mem_of_filterM h2 hmem).1
  | inr hinput =>
    cases List.mem_append.mp ((mem_addInput_names hinput).resolve_left List.not_mem_nil) with
    | inl hmem => exact Or.inl (mem_of_filterM h3 hmem).1
    | inr hmem => exact Or.inr (mem_of_filterM h4 hmem).1

theorem mem_merge_input_names {name : String} {n1 n2 n : MLNode} {all_nodes : List MLNode}
    {edges : List MLEdge} (h : merge name n1 n2 all_nodes edges = some n) {input : String}
    (hinput : input ∈ n.graph.input_names) :
    input ∈ n1.graph.input_names ∨ input ∈ n2.graph.input_names := by
  simp only [merge, Option.bind_eq_bind, Option.bind_eq_some_iff, Option.pure_def,
    Option.some.injEq] at h
  obtain ⟨graph, hgraph, graph', hgraph', rfl⟩ := h
  exact mem_mergeGraphs_input_names hgraph (IRGraph.removeUnusedNodes_input_names hgraph' hinput)

theorem merge_sub_nodes {name : String} {n1 n2 n : MLNode} {all_nodes : List MLNode}
    {edges : List MLEdge} (h : merge name n1 n2 all_nodes edges = some n) :
    n.sub_nodes = [n1, n2] := by
  simp only [merge, Option.bind_eq_bind, Option.bind_eq_some_iff, Option.pure_def,
    Option.some.injEq] at h
  obtain ⟨graph, hgraph, graph', hgraph', rfl⟩ := h
  rfl

@[simp] theorem liftUp_id (name : String) (n : MLNode) : (liftUp name n).id = name := rfl

/-- The order in which an unordered map is traversed. -/
structure MapOrder (α : Type) where
  order : List α → List α
  perm : ∀ l, (order l).Perm l

/-- The order in which the entries were made. -/
def MapOrder.inserted {α : Type} : MapOrder α := ⟨id, fun l => .refl l⟩

/-- The edges by the nodes they go between after the renaming. -/
abbrev MLEdgeVectorMap := List ((String × String) × List MLEdge)

/-- An edge goes to those of its new nodes, unless it is inside a node. -/
def addUnmerged (name_map : List (String × String)) (unmerged_edges : MLEdgeVectorMap)
    (e : MLEdge) : Option MLEdgeVectorMap := do
  let new_src ← name_map.lookup e.src_id
  let new_tgt ← name_map.lookup e.tgt_id
  if new_src = new_tgt then return unmerged_edges
  else if (new_src, new_tgt) ∈ unmerged_edges.map Prod.fst then
    return unmerged_edges.map fun it =>
      if it.1 = (new_src, new_tgt) then (it.1, it.2 ++ [e]) else it
  else return unmerged_edges ++ [((new_src, new_tgt), [e])]

def mergeEdgesNoCopy (order : MapOrder ((String × String) × List MLEdge)) (edges : List MLEdge)
    (name_map : List (String × String)) : Option (List MLEdge) := do
  let unmerged_edges ← edges.foldlM (addUnmerged name_map) []
  return (order.order unmerged_edges).map fun it => ⟨it.1.1, it.1.2, it.2, []⟩

/-- The ids of the ends of an edge. -/
def MLEdge.ends (e : MLEdge) : String × String := (e.src_id, e.tgt_id)

section Edges

variable {name_map : List (String × String)} {edges : List MLEdge}

theorem addUnmerged_keys {unmerged_edges unmerged_edges' : MLEdgeVectorMap} {e : MLEdge}
    (h : addUnmerged name_map unmerged_edges e = some unmerged_edges') :
    ∃ new_src new_tgt, name_map.lookup e.src_id = some new_src ∧
      name_map.lookup e.tgt_id = some new_tgt ∧
      ∀ key, key ∈ unmerged_edges'.map Prod.fst ↔
        key ∈ unmerged_edges.map Prod.fst ∨ new_src ≠ new_tgt ∧ key = (new_src, new_tgt) := by
  simp only [addUnmerged, Option.bind_eq_bind, Option.bind_eq_some_iff, Option.pure_def] at h
  obtain ⟨new_src, hsrc, new_tgt, htgt, h⟩ := h
  refine ⟨new_src, new_tgt, hsrc, htgt, fun key => ?_⟩
  split_ifs at h with hself hmem
  · obtain rfl := Option.some.inj h
    simp [hself]
  · obtain rfl := Option.some.inj h
    have hkeys : (unmerged_edges.map fun it =>
        if it.1 = (new_src, new_tgt) then (it.1, it.2 ++ [e]) else it).map Prod.fst =
        unmerged_edges.map Prod.fst := by
      rw [List.map_map]
      refine List.map_congr_left fun it _ => ?_
      rw [Function.comp_apply]
      split_ifs <;> rfl
    rw [hkeys]
    constructor
    · exact Or.inl
    · rintro (hkey | ⟨-, rfl⟩)
      · exact hkey
      · exact hmem
  · obtain rfl := Option.some.inj h
    simp [hself]

theorem unmerged_keys {unmerged_edges unmerged_edges' : MLEdgeVectorMap}
    (h : edges.foldlM (addUnmerged name_map) unmerged_edges = some unmerged_edges') :
    (∀ e ∈ edges, (name_map.lookup e.src_id).isSome ∧ (name_map.lookup e.tgt_id).isSome) ∧
      ∀ key, key ∈ unmerged_edges'.map Prod.fst ↔ key ∈ unmerged_edges.map Prod.fst ∨
        key.1 ≠ key.2 ∧ ∃ e ∈ edges, name_map.lookup e.src_id = some key.1 ∧
          name_map.lookup e.tgt_id = some key.2 := by
  induction edges generalizing unmerged_edges with
  | nil =>
    obtain rfl := Option.some.inj h
    simp
  | cons e edges ih =>
    rw [List.foldlM_cons] at h
    obtain ⟨unmerged_edges₁, hstep, hrest⟩ := Option.bind_eq_some_iff.mp h
    obtain ⟨new_src, new_tgt, hsrc, htgt, hkeys⟩ := addUnmerged_keys hstep
    obtain ⟨hsome, hrest⟩ := ih hrest
    refine ⟨List.forall_mem_cons.mpr ⟨by simp [hsrc, htgt], hsome⟩, fun key => ?_⟩
    rw [hrest, hkeys, or_assoc]
    refine or_congr_right ?_
    simp only [List.exists_mem_cons_iff, hsrc, htgt, Option.some.injEq]
    obtain ⟨x, y⟩ := key
    grind

theorem mergeEdgesNoCopy_ends {order : MapOrder ((String × String) × List MLEdge)}
    {merged_edges : List MLEdge} (h : mergeEdgesNoCopy order edges name_map = some merged_edges) :
    (∀ e ∈ edges, (name_map.lookup e.src_id).isSome ∧ (name_map.lookup e.tgt_id).isSome) ∧
      ∀ x y, (x, y) ∈ merged_edges.map MLEdge.ends ↔
        x ≠ y ∧ ∃ e ∈ edges, name_map.lookup e.src_id = some x ∧
          name_map.lookup e.tgt_id = some y := by
  obtain ⟨unmerged_edges, hfold, hres⟩ := Option.bind_eq_some_iff.mp h
  obtain rfl := Option.some.inj hres
  obtain ⟨hsome, hkeys⟩ := unmerged_keys hfold
  refine ⟨hsome, fun x y => ?_⟩
  have hends : ((order.order unmerged_edges).map fun it : (String × String) × List MLEdge =>
        (⟨it.1.1, it.1.2, it.2, []⟩ : MLEdge)).map MLEdge.ends =
      (order.order unmerged_edges).map Prod.fst := by
    rw [List.map_map]
    rfl
  rw [hends, ((order.perm unmerged_edges).map Prod.fst).mem_iff, hkeys]
  simp

end Edges

end Rannc
