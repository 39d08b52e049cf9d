import Rannc.Graph.DPStaging

/-!
# The loops of the search for stages

The loops are the same whatever is done in the innermost one. What one turn of it keeps holds of
the table in the end.
-/
namespace Rannc

namespace StageLoops

section Loops

variable (tryPrev : ℕ → ℕ → ℕ → ℕ → Search → ℕ → Option (Search × Bool))
  (layer_num stage_num dev_num_per_group : ℕ)

def tryBoundary (s b d : ℕ) (search : Search) (b_prev : ℕ) : Option Search :=
  let d_prev_limit := if s = 1 then 1 else d
  foldUntilM (tryPrev s b d b_prev) search (List.range' (s - 1) (d_prev_limit - (s - 1)))

def tryDevNum (s b : ℕ) (search : Search) (d : ℕ) : Option (Search × Bool) := do
  let b_prev_limit := if s = 1 then 1 else b
  let search ← (List.range' (s - 1) (b_prev_limit - (s - 1))).foldlM (tryBoundary tryPrev s b d)
    { search with found_d_sol := false, skip_small_bs := false }
  if !search.found_d_sol && !search.skip_small_bs then
    return ({ search with min_d := d + 1 }, true)
  else return (search, false)

def searchBoundary (s : ℕ) (search : Search) (b : ℕ) : Option (Search × Bool) := do
  let first := max search.min_d s
  let search ← foldUntilM (tryDevNum tryPrev s b) { search with found_b_sol := false }
    (List.range' first (dev_num_per_group + 1 - first)).reverse
  return (search, !search.found_b_sol)

def searchStage (search : Search) (s : ℕ) : Option Search :=
  let b_start := if s = stage_num then layer_num else s
  let b_last := toSize (layer_num - stage_num + s)
  foldUntilM (searchBoundary tryPrev dev_num_per_group s) { search with min_d := 1 }
    (List.range' b_start (b_last + 1 - b_start))

def fillTable : Option DPTable := do
  let search ← (List.range' 1 stage_num).foldlM
    (searchStage tryPrev layer_num stage_num dev_num_per_group)
    ⟨DPTable.init, 1, false, false, false⟩
  return search.table

end Loops

theorem fillTable_tryPrev (dp : DPStaging) (helper : GraphMergeHelper)
    (stage_num dev_num_per_group replica_num pipeline_num : ℕ) (checkpointing : Bool) :
    fillTable (dp.tryPrev helper replica_num pipeline_num checkpointing) helper.graph.nodes.length
        stage_num dev_num_per_group =
      dp.fillTable helper stage_num dev_num_per_group replica_num pipeline_num checkpointing :=
  rfl

section Keeps

variable {tryPrev : ℕ → ℕ → ℕ → ℕ → Search → ℕ → Option (Search × Bool)} {P : DPTable → Prop}
  (htry : ∀ s b d b_prev search d_prev search' stop, d_prev < d →
    (s = 0 → b_prev = 0 ∧ d_prev = 0) → P search.table →
    tryPrev (s + 1) b d b_prev search d_prev = some (search', stop) → P search'.table)
include htry

theorem tryBoundary_keeps {s b d b_prev : ℕ} {search search' : Search} (hsearch : P search.table)
    (hd : 0 < d) (hstart : s = 0 → b_prev = 0)
    (h : tryBoundary tryPrev (s + 1) b d search b_prev = some search') : P search'.table := by
  apply foldUntilM_invariant (P := fun search => P search.table) _ hsearch h
  intro search d_prev search' stop hmem hsearch hturn
  rw [List.mem_range'_1] at hmem
  apply htry s b d b_prev search d_prev search' stop _ _ hsearch hturn
  · split_ifs at hmem <;> omega
  · intro hs
    refine ⟨hstart hs, ?_⟩
    rw [if_pos (by omega)] at hmem
    omega

theorem tryDevNum_keeps {s b d : ℕ} {search search' : Search} {stop : Bool}
    (hsearch : P search.table) (hd : 0 < d)
    (h : tryDevNum tryPrev (s + 1) b search d = some (search', stop)) : P search'.table := by
  obtain ⟨search₁, hloop, hend⟩ := Option.bind_eq_some_iff.mp h
  have hkept : P search₁.table := by
    apply foldlM_invariant (P := fun search => P search.table) _ _ hloop
    · intro search b_prev search' hmem hsearch hturn
      rw [List.mem_range'_1] at hmem
      apply tryBoundary_keeps htry hsearch hd _ hturn
      intro hs
      rw [if_pos (by omega)] at hmem
      omega
    · exact hsearch
  split_ifs at hend
  · obtain ⟨rfl, _⟩ := Prod.mk.inj (Option.some.inj hend)
    exact hkept
  · obtain ⟨rfl, _⟩ := Prod.mk.inj (Option.some.inj hend)
    exact hkept

theorem searchBoundary_keeps {dev_num_per_group s b : ℕ} {search search' : Search} {stop : Bool}
    (hsearch : P search.table)
    (h : searchBoundary tryPrev dev_num_per_group (s + 1) search b = some (search', stop)) :
    P search'.table := by
  obtain ⟨search₁, hloop, hend⟩ := Option.bind_eq_some_iff.mp h
  obtain ⟨rfl, _⟩ := Prod.mk.inj (Option.some.inj hend)
  apply foldUntilM_invariant (P := fun search => P search.table) _ _ hloop
  · intro search d search' stop hmem hsearch hturn
    rw [List.mem_reverse, List.mem_range'_1] at hmem
    exact tryDevNum_keeps htry hsearch (by omega) hturn
  · exact hsearch

/-- What every trial keeps holds of the table in the end. The first stage is tried from the first
node with no device used, and every stage with a device. -/
theorem fillTable_keeps {layer_num stage_num dev_num_per_group : ℕ} {table : DPTable}
    (hinit : P DPTable.init)
    (h : fillTable tryPrev layer_num stage_num dev_num_per_group = some table) : P table := by
  obtain ⟨search, hloop, hend⟩ := Option.bind_eq_some_iff.mp h
  obtain rfl := Option.some.inj hend
  apply foldlM_invariant (P := fun search => P search.table) _ hinit hloop
  intro search s search' hmem hsearch hstage
  rw [List.mem_range'_1] at hmem
  obtain ⟨s, rfl⟩ : ∃ k, s = k + 1 := ⟨s - 1, by omega⟩
  apply foldUntilM_invariant (P := fun search => P search.table) _ _ hstage
  · intro search b search' stop _ hsearch hturn
    exact searchBoundary_keeps htry hsearch hturn
  · exact hsearch

end Keeps

end StageLoops

end Rannc
