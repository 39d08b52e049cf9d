import Rannc.Graph.Partitioner

/-!
# Repeated coarsening

Passes are repeated until one does not make the graph smaller, or the graph is small enough.
-/
namespace Rannc

namespace MLPartitioner

variable (p : MLPartitioner) (min_partition_num : ℕ)

/-- The iteration after `c_graph`, which is the graph of the last one. -/
def coarsenLoop (c_graph : MLGraph) (used : ℕ) : Option (MLGraph × ℕ) :=
  if c_graph.nodes.length ≤ 3 then some (c_graph, used)
  else
    let skip_profiling := c_graph.nodes.length > 200
    match _h : p.mergeAdjacents c_graph skip_profiling min_partition_num used with
    | none => none
    | some (merged, used') =>
      if merged.nodes.length ≤ min_partition_num then some (merged, used')
      else if _hne : c_graph.nodes.length ≠ merged.nodes.length then coarsenLoop merged used'
      else some (c_graph, used')
termination_by c_graph.nodes.length
decreasing_by exact lt_of_le_of_ne (mergeAdjacents_length_le _h) _hne.symm

def coarsen (ml_graph : MLGraph) (used : ℕ) : Option (MLGraph × ℕ) :=
  if ml_graph.nodes.length = 0 then some (⟨[], []⟩, used)
  else p.coarsenLoop min_partition_num ml_graph used

/-- One iteration of the loop. -/
def Iterates (c_graph : MLGraph) (used : ℕ) (c_graph' : MLGraph) (used' : ℕ) : Prop :=
  3 < c_graph.nodes.length ∧
    p.mergeAdjacents c_graph (c_graph.nodes.length > 200) min_partition_num used =
      some (c_graph', used')

/-- The graphs from which the loop goes on. -/
inductive Coarsens (ml_graph : MLGraph) (used : ℕ) : MLGraph → ℕ → Prop
  | start : Coarsens ml_graph used ml_graph used
  | next {c_graph c_graph' : MLGraph} {used₁ used₂ : ℕ}
      (hrun : Coarsens ml_graph used c_graph used₁)
      (hstep : p.Iterates min_partition_num c_graph used₁ c_graph' used₂)
      (hmin : min_partition_num < c_graph'.nodes.length)
      (hne : c_graph.nodes.length ≠ c_graph'.nodes.length) :
      Coarsens ml_graph used c_graph' used₂

/-- What holds of the graph after every iteration. -/
def AfterIterations (ml_graph : MLGraph) (used : ℕ) (P : MLGraph → Prop) : Prop :=
  ∀ c_graph used₁ c_graph' used₂, p.Coarsens min_partition_num ml_graph used c_graph used₁ →
    p.Iterates min_partition_num c_graph used₁ c_graph' used₂ → P c_graph'

/-- The merges of every iteration are convex one after the other. -/
def IterationsConvex (ml_graph : MLGraph) (used : ℕ) : Prop :=
  ∀ c_graph used₁ c_graph' used₂, p.Coarsens min_partition_num ml_graph used c_graph used₁ →
    p.Iterates min_partition_num c_graph used₁ c_graph' used₂ →
    p.MergesConvex c_graph (c_graph.nodes.length > 200) min_partition_num used₁

variable {p min_partition_num} {ml_graph : MLGraph} {used : ℕ}

theorem Coarsens.acyclic {c_graph : MLGraph} {used₁ : ℕ} (hacyclic : ml_graph.Acyclic)
    (hafter : p.AfterIterations min_partition_num ml_graph used MLGraph.Acyclic)
    (hrun : p.Coarsens min_partition_num ml_graph used c_graph used₁) : c_graph.Acyclic := by
  cases hrun with
  | start => exact hacyclic
  | next hrun hstep _ _ => exact hafter _ _ _ _ hrun hstep

theorem Coarsens.acyclic_of_convex {c_graph : MLGraph} {used₁ : ℕ} (hacyclic : ml_graph.Acyclic)
    (hconvex : p.IterationsConvex min_partition_num ml_graph used)
    (hrun : p.Coarsens min_partition_num ml_graph used c_graph used₁) : c_graph.Acyclic := by
  induction hrun with
  | start => exact hacyclic
  | next hrun hstep _ _ ih =>
    exact (mergeAdjacents_acyclic_iff ih hstep.2).mpr (hconvex _ _ _ _ hrun hstep)

theorem afterIterations_acyclic_iff (hacyclic : ml_graph.Acyclic) :
    p.AfterIterations min_partition_num ml_graph used MLGraph.Acyclic ↔
      p.IterationsConvex min_partition_num ml_graph used := by
  constructor
  · intro hafter c_graph used₁ c_graph' used₂ hrun hstep
    have hc := hrun.acyclic hacyclic hafter
    exact (mergeAdjacents_acyclic_iff hc hstep.2).mp (hafter _ _ _ _ hrun hstep)
  · intro hconvex c_graph used₁ c_graph' used₂ hrun hstep
    have hc := hrun.acyclic_of_convex hacyclic hconvex
    exact (mergeAdjacents_acyclic_iff hc hstep.2).mpr (hconvex _ _ _ _ hrun hstep)

theorem coarsenLoop_eq_some {c_graph res : MLGraph} {used₁ used' : ℕ}
    (hrun : p.Coarsens min_partition_num ml_graph used c_graph used₁)
    (h : p.coarsenLoop min_partition_num c_graph used₁ = some (res, used')) :
    ∃ c used₁ used₂, p.Coarsens min_partition_num ml_graph used c used₁ ∧
      (res = c ∨ p.Iterates min_partition_num c used₁ res used₂) := by
  fun_induction coarsenLoop p min_partition_num c_graph used₁ with
  | case1 c_graph used₁ hsmall =>
    obtain ⟨rfl, -⟩ := Prod.mk.inj (Option.some.inj h)
    exact ⟨c_graph, used₁, used₁, hrun, Or.inl rfl⟩
  | case2 => exact absurd h nofun
  | case3 c_graph used₁ hsmall _ merged used₂ hstep hmin =>
    obtain ⟨rfl, -⟩ := Prod.mk.inj (Option.some.inj h)
    exact ⟨c_graph, used₁, used₂, hrun, Or.inr ⟨not_le.mp hsmall, hstep⟩⟩
  | case4 c_graph used₁ hsmall _ merged used₂ hstep hmin hne ih =>
    exact ih (hrun.next ⟨not_le.mp hsmall, hstep⟩ (not_le.mp hmin) hne) h
  | case5 c_graph used₁ hsmall _ merged used₂ hstep hmin hne =>
    obtain ⟨rfl, -⟩ := Prod.mk.inj (Option.some.inj h)
    exact ⟨c_graph, used₁, used₁, hrun, Or.inl rfl⟩

theorem coarsen_of_once {merged : MLGraph} {used' : ℕ} (hlength : 3 < ml_graph.nodes.length)
    (h : p.mergeAdjacents ml_graph (ml_graph.nodes.length > 200) min_partition_num used =
      some (merged, used'))
    (hmerged : merged.nodes.length ≤ 3) :
    p.coarsen min_partition_num ml_graph used = some (merged, used') := by
  rw [coarsen, if_neg (by omega), coarsenLoop, if_neg (by omega)]
  dsimp only
  split
  case h_1 hnone => exact absurd (hnone.symm.trans h) nofun
  case h_2 hsome =>
    obtain ⟨rfl, rfl⟩ := Prod.mk.inj (Option.some.inj (hsome.symm.trans h))
    split_ifs
    · rfl
    · rw [coarsenLoop, if_pos hmerged]
    · omega

/-- Every pass and the whole coarsening keep a graph acyclic just where the merges of every pass are
convex one after the other. -/
theorem coarsening_acyclic_iff (p : MLPartitioner) (hacyclic : ml_graph.Acyclic) :
    (∀ skip_profiling min_partition_num used g' used',
      p.mergeAdjacents ml_graph skip_profiling min_partition_num used = some (g', used') →
      (g'.Acyclic ↔ p.MergesConvex ml_graph skip_profiling min_partition_num used)) ∧
    (∀ min_partition_num used,
      p.AfterIterations min_partition_num ml_graph used MLGraph.Acyclic ↔
        p.IterationsConvex min_partition_num ml_graph used) ∧
    ∀ min_partition_num used g' used', p.IterationsConvex min_partition_num ml_graph used →
      p.coarsen min_partition_num ml_graph used = some (g', used') → g'.Acyclic := by
  refine ⟨fun _ _ _ _ _ h => mergeAdjacents_acyclic_iff hacyclic h,
    fun _ _ => afterIterations_acyclic_iff hacyclic, ?_⟩
  intro min_partition_num used g' used' hconvex h
  unfold coarsen at h
  split_ifs at h with hempty
  · obtain ⟨rfl, -⟩ := Prod.mk.inj (Option.some.inj h)
    intro x hx
    obtain ⟨_, hstep, -⟩ := Relation.TransGen.head'_iff.mp hx
    exact absurd hstep List.not_mem_nil
  · obtain ⟨c, used₁, used₂, hrun, rfl | hstep⟩ := coarsenLoop_eq_some .start h
    · exact hrun.acyclic_of_convex hacyclic hconvex
    · exact (afterIterations_acyclic_iff hacyclic).mpr hconvex _ _ _ _ hrun hstep

def crossingValue (name : String) : String × IRValue :=
  (name, { name := name, type := .tensor .FLOAT [2] true, is_batch := true })

/-- A graph of one operator. -/
def crossingNode (id op : String) (input_names : List String) (output : String) : MLNode where
  id := id
  graph :=
    { name := id
      nodes := [⟨op, input_names, [output], op ++ "_node", false, true⟩]
      values := (input_names ++ [output]).map crossingValue
      input_names := input_names
      output_names := [output]
      is_replicable := true }
  sub_nodes := []
  sub_edges := []

def crossingEdge (src_id tgt_id name : String) : MLEdge :=
  ⟨src_id, tgt_id, [], [⟨src_id, tgt_id, (crossingValue name).2⟩]⟩

/-- Two operators that both read the results of two others. -/
def crossingGraph : MLGraph where
  nodes := [crossingNode "ML_a" "relu" ["x"] "p", crossingNode "ML_b" "tanh" ["x"] "q",
    crossingNode "ML_c" "add" ["p", "q"] "r", crossingNode "ML_d" "mul" ["p", "q"] "s"]
  edges := [crossingEdge "ML_a" "ML_c" "p", crossingEdge "ML_a" "ML_d" "p",
    crossingEdge "ML_b" "ML_c" "q", crossingEdge "ML_b" "ML_d" "q"]

def crossingNames : NameSupply where
  random n := String.ofList (List.replicate n 'x')
  injective := by
    intro m n h
    simpa using congrArg List.length (String.ofList_injective h)

/-- A partitioner that finds all operators equally fast. -/
def crossingPartitioner : MLPartitioner where
  profile _ := ⟨1, 1, 0⟩
  fitToMem _ _ := true
  calcCommTime cut_size := cut_size * 10 ^ 6 / (20 * 1024 ^ 3)
  dev_num := 1
  max_pipeline_num := 1
  coarsen_by_time := true
  names := crossingNames
  edge_order := ⟨id, fun l => .refl l⟩

theorem crossing_ends : (crossingPartitioner.mergeAdjacents crossingGraph false 1 0).map
    (fun res => res.1.ends) = some [("ML_xx", "ML_xxxx"), ("ML_xxxx", "ML_xx")] := by
  decide +kernel

def crossingRank (id : String) : ℕ := if id = "ML_a" ∨ id = "ML_b" then 0 else 1

theorem crossingGraph_acyclic : crossingGraph.Acyclic := by
  have hrank : ∀ e ∈ crossingGraph.ends, crossingRank e.1 < crossingRank e.2 := by decide
  exact Digraph.acyclic_of_rank crossingRank fun hab => hrank _ hab

theorem coarsening_acyclic_iff_crossing :
    crossingPartitioner.AfterIterations 1 crossingGraph 0 MLGraph.Acyclic ↔
      crossingPartitioner.IterationsConvex 1 crossingGraph 0 :=
  (coarsening_acyclic_iff crossingPartitioner crossingGraph_acyclic).2.1 1 0

/-- The graph after a pass can have a cycle. -/
theorem not_mergeAdjacents_acyclic : ¬ ∀ (p : MLPartitioner) (ml_graph : MLGraph)
    (skip_profiling : Bool) (min_partition_num used : ℕ) (g' : MLGraph) (used' : ℕ),
    ml_graph.Acyclic →
    p.mergeAdjacents ml_graph skip_profiling min_partition_num used = some (g', used') →
    g'.Acyclic := by
  intro h
  obtain ⟨⟨g', used'⟩, hmerge, hends⟩ := Option.map_eq_some_iff.mp crossing_ends
  have hacyclic := h _ _ _ _ _ _ _ crossingGraph_acyclic hmerge
  refine hacyclic "ML_xx" (.tail (.single (b := "ML_xxxx") ?_) ?_) <;>
  · rw [Digraph.Edge, hends]
    decide

end MLPartitioner

end Rannc
