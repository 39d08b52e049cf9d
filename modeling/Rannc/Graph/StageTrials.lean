import Rannc.Graph.StageAllocation

/-!
# The candidates of the stage search

A candidate is a stage after a cell of the stages before that passed the restrictions and the
memory test. The search is run again with a log of its candidates, each with the tables before and
after it. A cell should end with the least value of its candidates; the test that guards the
update of a cell compares the value of the new stage alone.
-/
namespace Rannc

/-- A stage from boundary `b_prev` to boundary `b` that was evaluated for a cell. -/
structure Trial where
  s : ℕ
  b : ℕ
  d : ℕ
  b_prev : ℕ
  d_prev : ℕ
  step : StepCost
  before : DPTable
  after : DPTable

namespace Trial

def For (t : Trial) (s b d : ℕ) : Prop := t.s = s ∧ t.b = b ∧ t.d = d

/-- The cell of the stages before the new one. -/
def pre (t : Trial) (table : DPTable) : DPState := table (t.s - 1) t.b_prev t.d_prev

def cell (t : Trial) (table : DPTable) : DPState := table t.s t.b t.d

/-- The value of the new stage and of the stages before it. -/
def value (t : Trial) (table : DPTable) : ℤ := max (t.step.val (t.pre table)) (t.pre table).eval

/-- The test that guards the update. -/
def Updates (t : Trial) : Prop := t.step.val (t.pre t.before) < (t.cell t.before).eval

/-- What an update writes. -/
def state (t : Trial) : DPState :=
  ⟨t.value t.before, max t.step.step_prof.fwd_time (t.pre t.before).max_fwd,
    max t.step.step_prof.bwd_time (t.pre t.before).max_bwd,
    max t.step.ar_comm (t.pre t.before).max_allreduce, t.b_prev, t.d_prev⟩

/-- The candidate comes from a feasible cell with the cost of its stage, and its cell is updated if
the test says so. -/
structure Ran (cost : ℕ → ℕ → ℕ → Option StepCost) (t : Trial) : Prop where
  cost : cost t.b_prev t.b (t.d - t.d_prev) = some t.step
  pre : (t.pre t.before).eval < ERROR_VAL
  updated : t.Updates → t.after = t.before.set t.s t.b t.d t.state
  kept : ¬t.Updates → t.after = t.before

end Trial

/-- Candidates one after another, stage by stage, from the first table. -/
inductive TrialRun (cost : ℕ → ℕ → ℕ → Option StepCost) : ℕ → DPTable → List Trial → Prop
  | init : TrialRun cost 0 DPTable.init []
  | stage {s : ℕ} {table : DPTable} {log : List Trial} (h : TrialRun cost s table log) :
      TrialRun cost (s + 1) table log
  | trial {s : ℕ} {t : Trial} {log : List Trial} (h : TrialRun cost (s + 1) t.before log)
      (hs : t.s = s + 1) (ht : t.Ran cost) : TrialRun cost (s + 1) t.after (log ++ [t])

abbrev LoggedSearch := Search × List Trial

namespace DPStaging

variable (dp : DPStaging) (helper : GraphMergeHelper)
  (stage_num dev_num_per_group replica_num pipeline_num : ℕ) (checkpointing : Bool)

/-- The cost of a stage after a cell, when it passes all tests. -/
def tested (s b d b_prev : ℕ) (table : DPTable) (d_prev : ℕ) : Option StepCost :=
  if dp.skipDevNum replica_num pipeline_num (d - d_prev) then none
  else if ERROR_VAL ≤ (table (s - 1) b_prev d_prev).eval then none
  else
    (dp.stepCost helper replica_num pipeline_num checkpointing b_prev b (d - d_prev)).filter
      fun step => toSize step.step_mem < dp.dev_mem

def tryPrevLog (s b d b_prev : ℕ) (st : LoggedSearch) (d_prev : ℕ) :
    Option (LoggedSearch × Bool) := do
  let (search, stop) ←
    dp.tryPrev helper replica_num pipeline_num checkpointing s b d b_prev st.1 d_prev
  let step := dp.tested helper replica_num pipeline_num checkpointing s b d b_prev st.1.table d_prev
  let trials := step.toList.map fun step =>
    ⟨s, b, d, b_prev, d_prev, step, st.1.table, search.table⟩
  return ((search, st.2 ++ trials), stop)

def tryBoundaryLog (s b d : ℕ) (st : LoggedSearch) (b_prev : ℕ) : Option LoggedSearch :=
  let d_prev_limit := if s = 1 then 1 else d
  foldUntilM (dp.tryPrevLog helper replica_num pipeline_num checkpointing s b d b_prev) st
    (List.range' (s - 1) (d_prev_limit - (s - 1)))

def tryDevNumLog (s b : ℕ) (st : LoggedSearch) (d : ℕ) : Option (LoggedSearch × Bool) := do
  let b_prev_limit := if s = 1 then 1 else b
  let (search, log) ← (List.range' (s - 1) (b_prev_limit - (s - 1))).foldlM
    (dp.tryBoundaryLog helper replica_num pipeline_num checkpointing s b d)
    ({ st.1 with found_d_sol := false, skip_small_bs := false }, st.2)
  if !search.found_d_sol && !search.skip_small_bs then
    return (({ search with min_d := d + 1 }, log), true)
  else return ((search, log), false)

def searchBoundaryLog (s : ℕ) (st : LoggedSearch) (b : ℕ) : Option (LoggedSearch × Bool) := do
  let first := max st.1.min_d s
  let (search, log) ←
    foldUntilM (dp.tryDevNumLog helper replica_num pipeline_num checkpointing s b)
      ({ st.1 with found_b_sol := false }, st.2)
      (List.range' first (dev_num_per_group + 1 - first)).reverse
  return ((search, log), !search.found_b_sol)

def searchStageLog (st : LoggedSearch) (s : ℕ) : Option LoggedSearch :=
  let layer_num := helper.graph.nodes.length
  let b_start := if s = stage_num then layer_num else s
  let b_last := toSize (layer_num - stage_num + s)
  foldUntilM
    (dp.searchBoundaryLog helper dev_num_per_group replica_num pipeline_num checkpointing s)
    ({ st.1 with min_d := 1 }, st.2) (List.range' b_start (b_last + 1 - b_start))

/-- The table at the end, and all candidates in the order of the search. -/
def fillTableLog : Option (DPTable × List Trial) := do
  let (search, log) ← (List.range' 1 stage_num).foldlM
    (dp.searchStageLog helper stage_num dev_num_per_group replica_num pipeline_num checkpointing)
    (⟨DPTable.init, 1, false, false, false⟩, [])
  return (search.table, log)

variable {dp helper stage_num dev_num_per_group replica_num pipeline_num checkpointing}

theorem tryPrevLog_search (s b d b_prev : ℕ) (st : LoggedSearch) (d_prev : ℕ) :
    (dp.tryPrevLog helper replica_num pipeline_num checkpointing s b d b_prev st d_prev).map
        (Prod.map Prod.fst id) =
      dp.tryPrev helper replica_num pipeline_num checkpointing s b d b_prev st.1 d_prev := by
  unfold tryPrevLog
  cases dp.tryPrev helper replica_num pipeline_num checkpointing s b d b_prev st.1 d_prev with
  | none => rfl
  | some turn => rfl

theorem tryBoundaryLog_search (s b d : ℕ) (st : LoggedSearch) (b_prev : ℕ) :
    (dp.tryBoundaryLog helper replica_num pipeline_num checkpointing s b d st b_prev).map
        Prod.fst =
      dp.tryBoundary helper replica_num pipeline_num checkpointing s b d st.1 b_prev :=
  foldUntilM_forget Prod.fst (tryPrevLog_search s b d b_prev) st _

theorem tryDevNumLog_search (s b : ℕ) (st : LoggedSearch) (d : ℕ) :
    (dp.tryDevNumLog helper replica_num pipeline_num checkpointing s b st d).map
        (Prod.map Prod.fst id) =
      dp.tryDevNum helper replica_num pipeline_num checkpointing s b st.1 d := by
  have hloop : ((List.range' (s - 1) ((if s = 1 then 1 else b) - (s - 1))).foldlM
        (dp.tryBoundaryLog helper replica_num pipeline_num checkpointing s b d)
        ({ st.1 with found_d_sol := false, skip_small_bs := false }, st.2)).map Prod.fst =
      (List.range' (s - 1) ((if s = 1 then 1 else b) - (s - 1))).foldlM
        (dp.tryBoundary helper replica_num pipeline_num checkpointing s b d)
        { st.1 with found_d_sol := false, skip_small_bs := false } :=
    foldlM_forget Prod.fst (tryBoundaryLog_search s b d) _ _
  simp only [tryDevNumLog, tryDevNum, Option.bind_eq_bind]
  rw [← hloop]
  cases (List.range' (s - 1) ((if s = 1 then 1 else b) - (s - 1))).foldlM
      (dp.tryBoundaryLog helper replica_num pipeline_num checkpointing s b d)
      ({ st.1 with found_d_sol := false, skip_small_bs := false }, st.2) with
  | none => rfl
  | some st' =>
    simp only [Option.bind_some, Option.map_some]
    split_ifs
    · rfl
    · rfl

theorem searchBoundaryLog_search (s : ℕ) (st : LoggedSearch) (b : ℕ) :
    (dp.searchBoundaryLog helper dev_num_per_group replica_num pipeline_num checkpointing s st
        b).map (Prod.map Prod.fst id) =
      dp.searchBoundary helper dev_num_per_group replica_num pipeline_num checkpointing s st.1
        b := by
  have hloop : (foldUntilM (dp.tryDevNumLog helper replica_num pipeline_num checkpointing s b)
        ({ st.1 with found_b_sol := false }, st.2)
        (List.range' (max st.1.min_d s) (dev_num_per_group + 1 - max st.1.min_d s)).reverse).map
        Prod.fst =
      foldUntilM (dp.tryDevNum helper replica_num pipeline_num checkpointing s b)
        { st.1 with found_b_sol := false }
        (List.range' (max st.1.min_d s) (dev_num_per_group + 1 - max st.1.min_d s)).reverse :=
    foldUntilM_forget Prod.fst (tryDevNumLog_search s b) _ _
  simp only [searchBoundaryLog, searchBoundary, Option.bind_eq_bind]
  rw [← hloop]
  cases foldUntilM (dp.tryDevNumLog helper replica_num pipeline_num checkpointing s b)
      ({ st.1 with found_b_sol := false }, st.2)
      (List.range' (max st.1.min_d s) (dev_num_per_group + 1 - max st.1.min_d s)).reverse with
  | none => rfl
  | some st' => rfl

theorem searchStageLog_search (st : LoggedSearch) (s : ℕ) :
    (dp.searchStageLog helper stage_num dev_num_per_group replica_num pipeline_num checkpointing st
        s).map Prod.fst =
      dp.searchStage helper stage_num dev_num_per_group replica_num pipeline_num checkpointing st.1
        s :=
  foldUntilM_forget Prod.fst (searchBoundaryLog_search s) _ _

theorem fillTableLog_table :
    (dp.fillTableLog helper stage_num dev_num_per_group replica_num pipeline_num
        checkpointing).map Prod.fst =
      dp.fillTable helper stage_num dev_num_per_group replica_num pipeline_num checkpointing := by
  have hloop : ((List.range' 1 stage_num).foldlM (dp.searchStageLog helper stage_num
        dev_num_per_group replica_num pipeline_num checkpointing)
        (⟨DPTable.init, 1, false, false, false⟩, [])).map Prod.fst =
      (List.range' 1 stage_num).foldlM (dp.searchStage helper stage_num dev_num_per_group
        replica_num pipeline_num checkpointing) ⟨DPTable.init, 1, false, false, false⟩ :=
    foldlM_forget Prod.fst searchStageLog_search _ _
  simp only [fillTableLog, fillTable, Option.bind_eq_bind]
  rw [← hloop]
  cases (List.range' 1 stage_num).foldlM
      (dp.searchStageLog helper stage_num dev_num_per_group replica_num pipeline_num checkpointing)
      (⟨DPTable.init, 1, false, false, false⟩, []) with
  | none => rfl
  | some st => rfl

/-- What one turn of the innermost loop logs. -/
theorem tryPrevLog_cases {s b d b_prev d_prev : ℕ} {st st' : LoggedSearch} {stop : Bool}
    (h : dp.tryPrevLog helper replica_num pipeline_num checkpointing s b d b_prev st d_prev =
      some (st', stop)) :
    (st'.1.table = st.1.table ∧ st'.2 = st.2) ∨ ∃ t : Trial, t.For s b d ∧
      t.Ran (dp.stepCost helper replica_num pipeline_num checkpointing) ∧
      t.before = st.1.table ∧ t.after = st'.1.table ∧ st'.2 = st.2 ++ [t] := by
  obtain ⟨⟨search, stop'⟩, hturn, hend⟩ := Option.bind_eq_some_iff.mp h
  obtain ⟨rfl, _⟩ := Prod.mk.inj (Option.some.inj hend)
  unfold tryPrev at hturn
  replace hturn := (of_guard_bind hturn).2
  dsimp only [tested] at hturn ⊢
  split_ifs at hturn with hskip hprev
  · obtain ⟨rfl, _⟩ := Prod.mk.inj (Option.some.inj hturn)
    left
    simp [hskip]
  · obtain ⟨rfl, _⟩ := Prod.mk.inj (Option.some.inj hturn)
    left
    simp [hprev]
  · obtain ⟨step, hstep, hturn⟩ := Option.bind_eq_some_iff.mp hturn
    rw [if_neg hskip, if_neg hprev, hstep, Option.filter_some]
    split_ifs at hturn with hmem heval
    · obtain ⟨rfl, _⟩ := Prod.mk.inj (Option.some.inj hturn)
      left
      simp [hmem]
    · obtain ⟨rfl, _⟩ := Prod.mk.inj (Option.some.inj hturn)
      right
      rw [if_pos (by simpa using hmem)]
      refine ⟨⟨s, b, d, b_prev, d_prev, step, st.1.table, _⟩, ⟨rfl, rfl, rfl⟩,
        ⟨hstep, not_le.mp hprev, ?_, ?_⟩, rfl, rfl, rfl⟩
      · intro _
        rfl
      · intro hno
        exact absurd heval hno
    · obtain ⟨rfl, _⟩ := Prod.mk.inj (Option.some.inj hturn)
      right
      rw [if_pos (by simpa using hmem)]
      refine ⟨⟨s, b, d, b_prev, d_prev, step, st.1.table, _⟩, ⟨rfl, rfl, rfl⟩,
        ⟨hstep, not_le.mp hprev, ?_, ?_⟩, rfl, rfl, rfl⟩
      · intro hyes
        exact absurd hyes heval
      · intro _
        rfl

section Run

variable (dp helper replica_num pipeline_num checkpointing) in
/-- The trials that a search made up to a stage. -/
def SearchRun (s : ℕ) (st : LoggedSearch) : Prop :=
  TrialRun (dp.stepCost helper replica_num pipeline_num checkpointing) s st.1.table st.2

variable {s : ℕ}

theorem tryPrevLog_run {b d b_prev d_prev : ℕ} {st st' : LoggedSearch} {stop : Bool}
    (hst : dp.SearchRun helper replica_num pipeline_num checkpointing (s + 1) st)
    (h : dp.tryPrevLog helper replica_num pipeline_num checkpointing (s + 1) b d b_prev st d_prev =
      some (st', stop)) :
    dp.SearchRun helper replica_num pipeline_num checkpointing (s + 1) st' := by
  unfold SearchRun at hst ⊢
  cases tryPrevLog_cases h with
  | inl hkept => rwa [hkept.1, hkept.2]
  | inr htrial =>
    obtain ⟨t, hfor, hran, hbefore, hafter, hlog⟩ := htrial
    rw [← hafter, hlog]
    exact TrialRun.trial (hbefore ▸ hst) hfor.1 hran

theorem tryBoundaryLog_run {b d b_prev : ℕ} {st st' : LoggedSearch}
    (hst : dp.SearchRun helper replica_num pipeline_num checkpointing (s + 1) st)
    (h : dp.tryBoundaryLog helper replica_num pipeline_num checkpointing (s + 1) b d st b_prev =
      some st') :
    dp.SearchRun helper replica_num pipeline_num checkpointing (s + 1) st' := by
  apply foldUntilM_invariant
    (P := dp.SearchRun helper replica_num pipeline_num checkpointing (s + 1)) _ hst h
  intro st d_prev st' stop _ hst hturn
  exact tryPrevLog_run hst hturn

theorem tryDevNumLog_run {b d : ℕ} {st st' : LoggedSearch} {stop : Bool}
    (hst : dp.SearchRun helper replica_num pipeline_num checkpointing (s + 1) st)
    (h : dp.tryDevNumLog helper replica_num pipeline_num checkpointing (s + 1) b st d =
      some (st', stop)) :
    dp.SearchRun helper replica_num pipeline_num checkpointing (s + 1) st' := by
  obtain ⟨st₁, hloop, hend⟩ := Option.bind_eq_some_iff.mp h
  have hrun : dp.SearchRun helper replica_num pipeline_num checkpointing (s + 1) st₁ := by
    apply foldlM_invariant
      (P := dp.SearchRun helper replica_num pipeline_num checkpointing (s + 1)) _ _ hloop
    · intro st b_prev st' _ hst hturn
      exact tryBoundaryLog_run hst hturn
    · exact hst
  dsimp only at hend
  split_ifs at hend
  · obtain ⟨rfl, _⟩ := Prod.mk.inj (Option.some.inj hend)
    exact hrun
  · obtain ⟨rfl, _⟩ := Prod.mk.inj (Option.some.inj hend)
    exact hrun

theorem searchBoundaryLog_run {b : ℕ} {st st' : LoggedSearch} {stop : Bool}
    (hst : dp.SearchRun helper replica_num pipeline_num checkpointing (s + 1) st)
    (h : dp.searchBoundaryLog helper dev_num_per_group replica_num pipeline_num checkpointing
      (s + 1) st b = some (st', stop)) :
    dp.SearchRun helper replica_num pipeline_num checkpointing (s + 1) st' := by
  obtain ⟨st₁, hloop, hend⟩ := Option.bind_eq_some_iff.mp h
  obtain ⟨rfl, _⟩ := Prod.mk.inj (Option.some.inj hend)
  apply foldUntilM_invariant
    (P := dp.SearchRun helper replica_num pipeline_num checkpointing (s + 1)) _ _ hloop
  · intro st d st' stop _ hst hturn
    exact tryDevNumLog_run hst hturn
  · exact hst

theorem searchStageLog_run {st st' : LoggedSearch}
    (hst : dp.SearchRun helper replica_num pipeline_num checkpointing s st)
    (h : dp.searchStageLog helper stage_num dev_num_per_group replica_num pipeline_num
      checkpointing st (s + 1) = some st') :
    dp.SearchRun helper replica_num pipeline_num checkpointing (s + 1) st' := by
  apply foldUntilM_invariant
    (P := dp.SearchRun helper replica_num pipeline_num checkpointing (s + 1)) _ _ h
  · intro st b st' stop _ hst hturn
    exact searchBoundaryLog_run hst hturn
  · exact TrialRun.stage hst

theorem fillTableLog_run {table : DPTable} {log : List Trial}
    (h : dp.fillTableLog helper stage_num dev_num_per_group replica_num pipeline_num
      checkpointing = some (table, log)) :
    TrialRun (dp.stepCost helper replica_num pipeline_num checkpointing) stage_num table log := by
  obtain ⟨st, hloop, hend⟩ := Option.bind_eq_some_iff.mp h
  obtain ⟨rfl, rfl⟩ := Prod.mk.inj (Option.some.inj hend)
  have hrun : dp.SearchRun helper replica_num pipeline_num checkpointing
      (List.range' 1 stage_num).length st := by
    have hinit : dp.SearchRun helper replica_num pipeline_num checkpointing 0
        (⟨DPTable.init, 1, false, false, false⟩, []) :=
      TrialRun.init
    apply foldlM_prefix (I := fun before st =>
      dp.SearchRun helper replica_num pipeline_num checkpointing before.length st) _ hinit hloop
    intro before s after st st' hl hst hturn
    have hs : s = before.length + 1 := by
      have hget : (List.range' 1 stage_num)[before.length]? = some s := by
        rw [hl, List.getElem?_append_right le_rfl]
        simp
      obtain ⟨_, rfl⟩ := List.getElem?_eq_some_iff.mp hget
      simp [Nat.add_comm]
    rw [hs] at hturn
    rw [List.length_append, List.length_singleton]
    exact searchStageLog_run hst hturn
  rwa [List.length_range'] at hrun

end Run

end DPStaging

end Rannc
