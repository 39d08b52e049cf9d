import Rannc.Graph.MergeStatistics
import Rannc.Graph.StageLeast

/-!
# Stages with layers that do not fit

Without coarsening the profiles of the layers of a stage are added, and a layer that does not fit
into memory has the numbers of the error profile. The sums are numbers of type `long`. When there
are enough such layers, the memory comes back to a small number, and the stage is accepted.
-/
namespace Rannc

/-- The memory of `k` layers that do not fit and of the rest is less than that of the device above
a multiple of the range. -/
def ComesBack (k : ℕ) (rest : ℤ) (dev_mem : ℕ) : Prop :=
  ∃ q : ℤ, q * 2 ^ 64 ≤ k * ERROR_VAL + rest ∧ k * ERROR_VAL + rest < q * 2 ^ 64 + dev_mem

theorem comesBack_iff {k dev_mem : ℕ} {rest : ℤ} (hk : k ≤ 2 ^ 52) (hnonneg : 0 ≤ rest)
    (hrest : rest ≤ 2 ^ 52) (hdev : dev_mem ≤ 2 ^ 52) :
    ComesBack k rest dev_mem ↔ 2048 ∣ k ∧ k ≤ rest ∧ rest < k + dev_mem := by
  have herror : ERROR_VAL = 2 ^ 53 - 1 := by decide
  rw [ComesBack, herror]
  constructor
  · rintro ⟨q, hle, hlt⟩
    have hwhole : (k : ℤ) = 2048 * q := by omega
    refine ⟨?_, ?_, ?_⟩
    · exact Int.natCast_dvd_natCast.mp ⟨q, by exact_mod_cast hwhole⟩
    · omega
    · omega
  · rintro ⟨⟨q, rfl⟩, hle, hlt⟩
    exact ⟨q, by push_cast; omega, by push_cast; omega⟩

theorem sum_map_eq_count_add {α : Type} [DecidableEq α] (f : α → ℤ) (a : α) (l : List α) :
    (l.map f).sum = l.count a * f a + ((l.filter (· ≠ a)).map f).sum := by
  induction l with
  | nil => simp
  | cons b l ih =>
    rw [List.map_cons, List.sum_cons, ih]
    by_cases hb : b = a
    · rw [hb, List.count_cons_self, List.filter_cons_of_neg (by simp)]
      push_cast
      ring
    · rw [List.count_cons_of_ne hb, List.filter_cons_of_pos (by simpa using hb), List.map_cons,
        List.sum_cons]
      ring

/-- `estimateEval` as it is computed. -/
def estimateEvalLong (step_prof : GraphProfile)
    (step_comm_in step_comm_out prev_fwd_max prev_bwd_max : ℤ) : ℤ :=
  let step_comm := toLong (step_comm_in + step_comm_out)
  toLong (max (toLong (step_prof.fwd_time + step_comm)) prev_fwd_max +
    max (toLong (step_prof.bwd_time + step_comm)) prev_bwd_max)

namespace DPStaging

variable (dp : DPStaging) (helper : GraphMergeHelper)
  (stage_num dev_num_per_group replica_num pipeline_num : ℕ) (checkpointing : Bool)

/-- `estimateProf` as it is computed. -/
def estimateProfLong (b_prev b dev_num : ℕ) : Option GraphProfile := do
  let profs ← (stageNodes helper b_prev b).mapM fun node =>
    dp.profile node.graph dp.batch_size dev_num checkpointing
  return ⟨sumLong (profs.map GraphProfile.fwd_time), sumLong (profs.map GraphProfile.bwd_time),
    sumLong (profs.map GraphProfile.max_allocated_mem)⟩

/-- With coarsening nothing is added up here. -/
def stepCostLong (b_prev b dev_num : ℕ) : Option StepCost := do
  if dp.do_coarsening then
    dp.stepCost helper replica_num pipeline_num checkpointing b_prev b dev_num
  else
    guard (b_prev < b ∧ b ≤ helper.graph.nodes.length)
    let repl := dev_num * replica_num * pipeline_num
    let step_prof ← dp.estimateProfLong helper checkpointing b_prev b repl
    let opt_mem ← (stageNodes helper b_prev b).mapM fun node =>
      getOptMemSize node.graph dp.opt_param_factor dp.use_amp_master_params dp.enable_zero dev_num
    return ⟨step_prof, 0, 0, 0,
      toLong (step_prof.max_allocated_mem + sumLong (opt_mem.map fun (size : ℕ) => (size : ℤ)))⟩

/-- The memory is compared as an unsigned number. -/
def tryPrevLong (s b d b_prev : ℕ) (search : Search) (d_prev : ℕ) : Option (Search × Bool) := do
  guard (replica_num * pipeline_num ≠ 0)
  if dp.skipDevNum replica_num pipeline_num (d - d_prev) then
    return ({ search with skip_small_bs := true }, false)
  let prev := search.table (s - 1) b_prev d_prev
  if ERROR_VAL ≤ prev.eval then return (search, false)
  let step ← dp.stepCostLong helper replica_num pipeline_num checkpointing b_prev b (d - d_prev)
  if dp.dev_mem ≤ toSize step.step_mem then return (search, true)
  let step_val := estimateEvalLong step.step_prof step.step_in_comm step.step_out_comm
    prev.max_fwd prev.max_bwd
  let search := { search with found_b_sol := true, found_d_sol := true }
  if step_val < (search.table s b d).eval then
    let state : DPState := ⟨max step_val prev.eval, max step.step_prof.fwd_time prev.max_fwd,
      max step.step_prof.bwd_time prev.max_bwd, max step.ar_comm prev.max_allreduce,
      b_prev, d_prev⟩
    return ({ search with table := search.table.set s b d state }, false)
  else return (search, false)

def fillTableLong : Option DPTable :=
  StageLoops.fillTable (dp.tryPrevLong helper replica_num pipeline_num checkpointing)
    helper.graph.nodes.length stage_num dev_num_per_group

def doRunDpCommLong : Option AllocSolution := do
  let table ← dp.fillTableLong helper stage_num dev_num_per_group replica_num pipeline_num
    checkpointing
  let layer_num := helper.graph.nodes.length
  let best_d :=
    if (table stage_num layer_num dev_num_per_group).eval < ERROR_VAL then dev_num_per_group else 0
  readBack helper replica_num table stage_num layer_num best_d ⟨[], [], pipeline_num, checkpointing⟩

/-- The profiles of the layers of a stage. -/
def stageProfiles (st : Stage) : List GraphProfile :=
  (stageNodes helper st.first st.boundary).filterMap fun node =>
    dp.profile node.graph dp.batch_size (st.dev_num * replica_num * pipeline_num) checkpointing

/-- There is a layer that does not fit. -/
def Infeasible (st : Stage) : Prop :=
  makeErrorProfile ∈ dp.stageProfiles helper replica_num pipeline_num checkpointing st

def infeasibleNum (st : Stage) : ℕ :=
  (dp.stageProfiles helper replica_num pipeline_num checkpointing st).count makeErrorProfile

/-- What the other layers need, and the optimizer for all of them. -/
def restMem (st : Stage) : ℤ :=
  (((dp.stageProfiles helper replica_num pipeline_num checkpointing st).filter
    (· ≠ makeErrorProfile)).map GraphProfile.max_allocated_mem).sum +
  ((stageNodes helper st.first st.boundary).filterMap fun node =>
    getOptMemSize node.graph dp.opt_param_factor dp.use_amp_master_params dp.enable_zero
      st.dev_num).sum

/-- The memory of the stage comes back to that of the device. -/
def MemComesBack (st : Stage) : Prop :=
  ComesBack (dp.infeasibleNum helper replica_num pipeline_num checkpointing st)
    (dp.restMem helper replica_num pipeline_num checkpointing st) dp.dev_mem

/-- The stage passes the memory test, as it is computed. -/
def FitsMemLong (st : Stage) : Prop :=
  ∃ step, dp.stepCostLong helper replica_num pipeline_num checkpointing st.first st.boundary
    st.dev_num = some step ∧ toSize step.step_mem < dp.dev_mem

variable {dp helper stage_num dev_num_per_group replica_num pipeline_num checkpointing}

theorem toSize_sumLong (mems : List ℤ) (opt_mem : List ℕ) :
    toSize (toLong (sumLong mems + sumLong (opt_mem.map fun (size : ℕ) => (size : ℤ)))) =
      toSize (mems.sum + opt_mem.sum) := by
  have hcast : (opt_mem.map fun (size : ℕ) => (size : ℤ)).sum = (opt_mem.sum : ℕ) := by
    rw [Nat.cast_list_sum]
  rw [sumLong_eq, sumLong_eq, toLong_add_toLong, add_comm, toLong_add_toLong, toSize_toLong, hcast,
    add_comm]

theorem stepCostLong_mem (b_prev b dev_num : ℕ) :
    (dp.stepCostLong helper replica_num pipeline_num checkpointing b_prev b dev_num).map
        (fun step => toSize step.step_mem) =
      (dp.stepCost helper replica_num pipeline_num checkpointing b_prev b dev_num).map
        (fun step => toSize step.step_mem) := by
  unfold stepCostLong
  split_ifs with hcoarsening
  · rfl
  simp only [stepCost, if_neg hcoarsening, estimateProfLong, estimateProf, Option.bind_eq_bind]
  cases (guard (b_prev < b ∧ b ≤ helper.graph.nodes.length) : Option Unit) with
  | none => rfl
  | some _ =>
    simp only [Option.bind_some]
    cases (stageNodes helper b_prev b).mapM fun node => dp.profile node.graph dp.batch_size
        (dev_num * replica_num * pipeline_num) checkpointing with
    | none => rfl
    | some profs =>
      simp only [Option.bind_some, Option.pure_def]
      cases (stageNodes helper b_prev b).mapM fun node => getOptMemSize node.graph
          dp.opt_param_factor dp.use_amp_master_params dp.enable_zero dev_num with
      | none => rfl
      | some opt_mem => exact congrArg some (toSize_sumLong _ _)

theorem fitsMemLong_iff {st : Stage} :
    dp.FitsMemLong helper replica_num pipeline_num checkpointing st ↔
      dp.FitsMem helper replica_num pipeline_num checkpointing st := by
  have hfits (cost : Option StepCost) :
      (∃ step, cost = some step ∧ toSize step.step_mem < dp.dev_mem) ↔
        ∃ mem, cost.map (fun step => toSize step.step_mem) = some mem ∧ mem < dp.dev_mem := by
    cases cost <;> simp
  rw [FitsMemLong, FitsMem, hfits, hfits, stepCostLong_mem]

theorem toSize_step_mem (hcoarsening : dp.do_coarsening = false) {st : Stage} {step : StepCost}
    (h : dp.stepCostLong helper replica_num pipeline_num checkpointing st.first st.boundary
      st.dev_num = some step) :
    toSize step.step_mem =
      toSize (dp.infeasibleNum helper replica_num pipeline_num checkpointing st * ERROR_VAL +
        dp.restMem helper replica_num pipeline_num checkpointing st) := by
  rw [stepCostLong, hcoarsening] at h
  obtain ⟨-, h⟩ := of_guard_bind h
  obtain ⟨step_prof, hprof, h⟩ := Option.bind_eq_some_iff.mp h
  obtain ⟨profs, hprofs, hprof⟩ := Option.bind_eq_some_iff.mp hprof
  obtain ⟨opt_mem, hopt, h⟩ := Option.bind_eq_some_iff.mp h
  obtain rfl := Option.some.inj hprof
  obtain rfl := Option.some.inj h
  have hstage : dp.stageProfiles helper replica_num pipeline_num checkpointing st = profs :=
    filterMap_of_mapM hprofs
  rw [infeasibleNum, restMem, hstage, filterMap_of_mapM hopt, toSize_sumLong,
    sum_map_eq_count_add GraphProfile.max_allocated_mem makeErrorProfile profs, add_assoc]
  rfl

theorem step_mem_lt_iff (hcoarsening : dp.do_coarsening = false) (st : Stage) {step : StepCost}
    (h : dp.stepCostLong helper replica_num pipeline_num checkpointing st.first st.boundary
      st.dev_num = some step) :
    toSize step.step_mem < dp.dev_mem ↔
      dp.MemComesBack helper replica_num pipeline_num checkpointing st := by
  rw [toSize_step_mem hcoarsening h]
  exact toSize_lt_iff _ _

theorem FitsMemLong.comesBack (hcoarsening : dp.do_coarsening = false) {st : Stage}
    (h : dp.FitsMemLong helper replica_num pipeline_num checkpointing st) :
    dp.MemComesBack helper replica_num pipeline_num checkpointing st := by
  obtain ⟨step, hcost, hfits⟩ := h
  exact (step_mem_lt_iff hcoarsening st hcost).mp hfits

theorem tryPrevLong_table {s b d b_prev d_prev : ℕ} {search search' : Search} {stop : Bool}
    (h : dp.tryPrevLong helper replica_num pipeline_num checkpointing s b d b_prev search d_prev =
      some (search', stop)) :
    search'.table = search.table ∨ ∃ state,
      dp.FitsMemLong helper replica_num pipeline_num checkpointing ⟨b_prev, b, d - d_prev⟩ ∧
        state.pre_boundary = b_prev ∧ state.pre_dev_num = d_prev ∧
        search'.table = search.table.set s b d state := by
  unfold tryPrevLong at h
  replace h := (of_guard_bind h).2
  dsimp only at h
  split_ifs at h with hskip hprev
  · left
    rw [← (Prod.mk.inj (Option.some.inj h)).1]
  · left
    rw [← (Prod.mk.inj (Option.some.inj h)).1]
  · obtain ⟨step, hstep, h⟩ := Option.bind_eq_some_iff.mp h
    split_ifs at h with hmem heval
    · left
      rw [← (Prod.mk.inj (Option.some.inj h)).1]
    · right
      obtain ⟨rfl, _⟩ := Prod.mk.inj (Option.some.inj h)
      exact ⟨_, ⟨step, hstep, not_le.mp hmem⟩, rfl, rfl, rfl⟩
    · left
      rw [← (Prod.mk.inj (Option.some.inj h)).1]

theorem tryPrevLong_stop_iff {s b d b_prev d_prev : ℕ} {search : Search} {step : StepCost}
    (hrepl : replica_num * pipeline_num ≠ 0)
    (hskip : dp.skipDevNum replica_num pipeline_num (d - d_prev) = false)
    (hprev : (search.table (s - 1) b_prev d_prev).eval < ERROR_VAL)
    (hstep : dp.stepCostLong helper replica_num pipeline_num checkpointing b_prev b (d - d_prev) =
      some step) :
    dp.tryPrevLong helper replica_num pipeline_num checkpointing s b d b_prev search d_prev =
      some (search, true) ↔ dp.dev_mem ≤ toSize step.step_mem := by
  unfold tryPrevLong
  rw [guard, if_pos hrepl, hskip, hstep]
  dsimp only [Option.bind_eq_bind, Option.pure_def, Option.bind_some]
  rw [if_neg Bool.false_ne_true, if_neg (not_le.mpr hprev)]
  split_ifs with hmem heval
  · exact iff_of_true rfl hmem
  · exact iff_of_false (by simp) hmem
  · exact iff_of_false (by simp) hmem

variable (dp helper replica_num pipeline_num checkpointing) in
/-- Every feasible cell comes by a stage that passed the memory test. -/
def AcceptedCells (table : DPTable) : Prop :=
  ∀ s b d, (table (s + 1) b d).eval < ERROR_VAL →
    dp.FitsMemLong helper replica_num pipeline_num checkpointing
      ⟨(table (s + 1) b d).pre_boundary, b, d - (table (s + 1) b d).pre_dev_num⟩

theorem AcceptedCells.init :
    dp.AcceptedCells helper replica_num pipeline_num checkpointing DPTable.init :=
  fun _ _ _ h => absurd h (lt_irrefl _)

theorem AcceptedCells.tryPrevLong {s b d b_prev d_prev : ℕ} {search search' : Search} {stop : Bool}
    (hsearch : dp.AcceptedCells helper replica_num pipeline_num checkpointing search.table)
    (h : dp.tryPrevLong helper replica_num pipeline_num checkpointing (s + 1) b d b_prev search
      d_prev = some (search', stop)) :
    dp.AcceptedCells helper replica_num pipeline_num checkpointing search'.table := by
  rcases tryPrevLong_table h with heq | ⟨state, hfits, rfl, rfl, heq⟩
  · rwa [heq]
  · rw [heq]
    intro s' b' d' heval
    rcases DPTable.set_cases search.table (s + 1) b d state (s' + 1) b' d' with
      ⟨-, rfl, rfl, hself⟩ | hother
    · rwa [hself]
    · rw [hother] at heval ⊢
      exact hsearch s' b' d' heval

theorem AcceptedCells.fillTableLong {table : DPTable}
    (h : dp.fillTableLong helper stage_num dev_num_per_group replica_num pipeline_num
      checkpointing = some table) :
    dp.AcceptedCells helper replica_num pipeline_num checkpointing table :=
  StageLoops.fillTable_keeps (fun _ _ _ _ _ _ _ _ _ _ hsearch => hsearch.tryPrevLong)
    AcceptedCells.init h

/-- What is read back are graphs of stages that passed the memory test. -/
theorem readBack_accepted {table : DPTable}
    (htable : dp.AcceptedCells helper replica_num pipeline_num checkpointing table) {s b d : ℕ}
    {sol sol' : AllocSolution} (h : readBack helper replica_num table s b d sol = some sol')
    (hne : sol'.graphs ≠ []) :
    ∃ (stages : List Stage) (graphs : List IRGraph),
      (∀ st ∈ stages, dp.FitsMemLong helper replica_num pipeline_num checkpointing st) ∧
        stages.map (fun st => helper.merge st.first (st.boundary - 1)) = graphs.map some ∧
        sol'.graphs = graphs ++ sol.graphs := by
  induction s generalizing b d sol with
  | zero =>
    obtain rfl := Option.some.inj h
    exact ⟨[], [], nofun, rfl, rfl⟩
  | succ s ih =>
    unfold readBack at h
    dsimp only at h
    split_ifs at h with heval
    · obtain rfl := Option.some.inj h
      exact absurd rfl hne
    · obtain ⟨step_graph, hgraph, hrest⟩ := Option.bind_eq_some_iff.mp h
      obtain ⟨stages, graphs, hstages, hgraphs, hsol⟩ := ih hrest
      let st : Stage :=
        ⟨(table (s + 1) b d).pre_boundary, b, d - (table (s + 1) b d).pre_dev_num⟩
      refine ⟨stages ++ [st], graphs ++ [step_graph], ?_, ?_, ?_⟩
      · intro st' hst'
        rcases List.mem_append.mp hst' with hst' | hst'
        · exact hstages st' hst'
        · rw [List.mem_singleton.mp hst']
          exact htable s b d (not_le.mp heval)
      · rw [List.map_append, List.map_append, hgraphs, List.map_singleton, List.map_singleton,
          hgraph]
      · rw [hsol, List.append_assoc, List.singleton_append]

/-- A stage with layers that do not fit is rejected if and only if its memory does not come back to
that of the device. Where everything else is small, it comes back for multiples of 2048 such layers,
if the rest makes up for what they lack. A stage of a solution that has such layers comes back. -/
theorem infeasible_rejected_iff (dp : DPStaging) (helper : GraphMergeHelper)
    (stage_num dev_num_per_group replica_num pipeline_num : ℕ) (checkpointing : Bool)
    (hcoarsening : dp.do_coarsening = false) :
    (∀ (s b d b_prev d_prev : ℕ) (search : Search) (step : StepCost),
      dp.stepCostLong helper replica_num pipeline_num checkpointing b_prev b (d - d_prev) =
        some step →
      dp.Infeasible helper replica_num pipeline_num checkpointing ⟨b_prev, b, d - d_prev⟩ →
      (dp.dev_mem ≤ toSize step.step_mem ↔
        ¬ dp.MemComesBack helper replica_num pipeline_num checkpointing ⟨b_prev, b, d - d_prev⟩) ∧
      (replica_num * pipeline_num ≠ 0 →
        dp.skipDevNum replica_num pipeline_num (d - d_prev) = false →
        (search.table (s - 1) b_prev d_prev).eval < ERROR_VAL →
        (dp.tryPrevLong helper replica_num pipeline_num checkpointing s b d b_prev search d_prev =
            some (search, true) ↔
          ¬ dp.MemComesBack helper replica_num pipeline_num checkpointing
            ⟨b_prev, b, d - d_prev⟩))) ∧
    (∀ st : Stage, dp.infeasibleNum helper replica_num pipeline_num checkpointing st ≤ 2 ^ 52 →
      0 ≤ dp.restMem helper replica_num pipeline_num checkpointing st →
      dp.restMem helper replica_num pipeline_num checkpointing st ≤ 2 ^ 52 → dp.dev_mem ≤ 2 ^ 52 →
      (dp.MemComesBack helper replica_num pipeline_num checkpointing st ↔
        2048 ∣ dp.infeasibleNum helper replica_num pipeline_num checkpointing st ∧
          dp.infeasibleNum helper replica_num pipeline_num checkpointing st ≤
            dp.restMem helper replica_num pipeline_num checkpointing st ∧
          dp.restMem helper replica_num pipeline_num checkpointing st <
            dp.infeasibleNum helper replica_num pipeline_num checkpointing st + dp.dev_mem)) ∧
    ∀ sol, dp.doRunDpCommLong helper stage_num dev_num_per_group replica_num pipeline_num
      checkpointing = some sol → sol.graphs = [] ∨ ∃ stages : List Stage,
        stages.map (fun st => helper.merge st.first (st.boundary - 1)) = sol.graphs.map some ∧
        ∀ st ∈ stages, dp.Infeasible helper replica_num pipeline_num checkpointing st →
          dp.MemComesBack helper replica_num pipeline_num checkpointing st := by
  refine ⟨fun s b d b_prev d_prev search step hstep _ => ?_,
    fun st hnum hnonneg hrest hdev => comesBack_iff hnum hnonneg hrest hdev, fun sol hsol => ?_⟩
  · have htest : dp.dev_mem ≤ toSize step.step_mem ↔
        ¬ dp.MemComesBack helper replica_num pipeline_num checkpointing
          ⟨b_prev, b, d - d_prev⟩ := by
      rw [← not_lt]
      exact not_congr (step_mem_lt_iff hcoarsening ⟨b_prev, b, d - d_prev⟩ hstep)
    exact ⟨htest, fun hrepl hskip hprev =>
      (tryPrevLong_stop_iff hrepl hskip hprev hstep).trans htest⟩
  · by_cases hne : sol.graphs = []
    · exact Or.inl hne
    obtain ⟨table, htable, hsol⟩ := Option.bind_eq_some_iff.mp hsol
    obtain ⟨stages, graphs, hstages, hgraphs, heq⟩ :=
      readBack_accepted (AcceptedCells.fillTableLong htable) hsol hne
    refine Or.inr ⟨stages, ?_, fun st hst _ => (hstages st hst).comesBack hcoarsening⟩
    rw [hgraphs, heq, List.append_nil]

/-- Only the last layer fits. -/
def layerwiseStaging : DPStaging where
  profile g _ _ _ :=
    some (if "last" ∈ g.input_names then ⟨1000, 1000, 2 ^ 30⟩ else makeErrorProfile)
  batch_size := 1
  dev_mem := 2 ^ 34
  use_amp_master_params := false
  enable_zero := false
  opt_param_factor := 2
  min_pipeline_bs := 1
  limit_dev_num_pot := true
  limit_dev_num_more_than_bs := true
  do_coarsening := false

def manyLayers (n : ℕ) : GraphMergeHelper :=
  layerHelper ((List.range n).map (fun i => ("layer_" ++ Nat.repr i, 1)) ++ [("last", 1)])

theorem layer_ne_last (name : String) : "last" ≠ "layer_" ++ name := by
  intro h
  have htake := congrArg (fun s => s.toList.take 3) h
  simp at htake

theorem stageNodes_manyLayers (n : ℕ) : stageNodes (manyLayers n) 0 (n + 1) =
    (List.range n).map (fun i => ⟨"layer_" ++ Nat.repr i, layerGraph ("layer_" ++ Nat.repr i) 1,
      [], []⟩) ++ [⟨"last", layerGraph "last" 1, [], []⟩] := by
  simp [stageNodes, manyLayers, layerHelper, List.take_of_length_le]

theorem manyLayers_profiles (n batch_size dev_num : ℕ) (checkpointing : Bool) :
    ((stageNodes (manyLayers n) 0 (n + 1)).mapM fun node =>
      layerwiseStaging.profile node.graph batch_size dev_num checkpointing) =
    some (List.replicate n makeErrorProfile ++ [⟨1000, 1000, 2 ^ 30⟩]) := by
  rw [mapM_eq_some_iff, stageNodes_manyLayers, List.map_append, List.map_append, List.map_map,
    List.map_replicate]
  congr 1
  rw [List.eq_replicate_iff]
  refine ⟨by simp, fun prof hprof => ?_⟩
  obtain ⟨i, -, rfl⟩ := List.mem_map.mp hprof
  have hname : "last" ∉ (layerGraph ("layer_" ++ Nat.repr i) 1).input_names :=
    fun h => layer_ne_last _ (List.mem_singleton.mp h)
  exact congrArg some (if_neg hname)

theorem manyLayers_infeasible {n : ℕ} (hn : n ≠ 0) :
    layerwiseStaging.Infeasible (manyLayers n) 1 1 false ⟨0, n + 1, 1⟩ := by
  have hprofs : layerwiseStaging.stageProfiles (manyLayers n) 1 1 false ⟨0, n + 1, 1⟩ =
      List.replicate n makeErrorProfile ++ [⟨1000, 1000, 2 ^ 30⟩] :=
    filterMap_of_mapM (manyLayers_profiles n 1 1 false)
  rw [Infeasible, hprofs]
  exact List.mem_append_left _ (List.mem_replicate.mpr ⟨hn, rfl⟩)

theorem manyLayers_stepCost (n : ℕ) :
    layerwiseStaging.stepCostLong (manyLayers n) 1 1 false 0 (n + 1) 1 =
      some ⟨⟨toLong (n * ERROR_VAL + 1000), toLong (n * ERROR_VAL + 1000),
        toLong (n * ERROR_VAL + 2 ^ 30)⟩, 0, 0, 0, toLong (n * ERROR_VAL + 2 ^ 30)⟩ := by
  have hlayers : 0 < n + 1 ∧ n + 1 ≤ (manyLayers n).graph.nodes.length := by
    simp [manyLayers, layerHelper]
  have hopt : ((stageNodes (manyLayers n) 0 (n + 1)).mapM fun node =>
      getOptMemSize node.graph layerwiseStaging.opt_param_factor
        layerwiseStaging.use_amp_master_params layerwiseStaging.enable_zero 1) =
      some (List.replicate (n + 1) 0) := by
    rw [mapM_eq_some_iff, stageNodes_manyLayers, List.map_replicate, List.eq_replicate_iff]
    refine ⟨by simp, fun size hsize => ?_⟩
    obtain ⟨node, hnode, rfl⟩ := List.mem_map.mp hsize
    rcases List.mem_append.mp hnode with hnode | hnode
    · obtain ⟨i, -, rfl⟩ := List.mem_map.mp hnode
      rfl
    · rw [List.mem_singleton.mp hnode]
      rfl
  have hsum (x y : ℤ) : sumLong (List.replicate n x ++ [y]) = toLong (n * x + y) := by
    rw [sumLong_eq, List.sum_append, List.sum_replicate, nsmul_eq_mul, List.sum_singleton]
  have hprof : layerwiseStaging.estimateProfLong (manyLayers n) false 0 (n + 1) 1 =
      some ⟨toLong (n * ERROR_VAL + 1000), toLong (n * ERROR_VAL + 1000),
        toLong (n * ERROR_VAL + 2 ^ 30)⟩ := by
    rw [estimateProfLong, manyLayers_profiles, Option.bind_eq_bind, Option.bind_some, ← hsum,
      ← hsum]
    simp [makeErrorProfile]
  have hzero : sumLong ((List.replicate (n + 1) 0).map fun (size : ℕ) => (size : ℤ)) = 0 := by
    rw [sumLong_eq, List.map_replicate, List.sum_replicate, Nat.cast_zero, smul_zero]
    rfl
  rw [stepCostLong, if_neg (by decide), guard, if_pos hlayers, hopt]
  dsimp only [Option.bind_eq_bind, Option.pure_def, Option.bind_some]
  rw [Nat.one_mul, hprof, Option.bind_some, hzero, add_zero, toLong_toLong]

/-- The last layer makes up for what 2048 layers lack. -/
theorem not_infeasible_rejected : ∃ step search,
    layerwiseStaging.stepCostLong (manyLayers 2048) 1 1 false 0 2049 1 = some step ∧
      layerwiseStaging.Infeasible (manyLayers 2048) 1 1 false ⟨0, 2049, 1⟩ ∧
      ¬ layerwiseStaging.dev_mem ≤ toSize step.step_mem ∧
      layerwiseStaging.tryPrevLong (manyLayers 2048) 1 1 false 1 2049 1 0
        ⟨DPTable.init, 1, false, false, false⟩ 0 = some (search, false) ∧
      search.table 1 2049 1 = ⟨0, 0, 0, 0, 0, 0⟩ := by
  have hcost : layerwiseStaging.stepCostLong (manyLayers 2048) 1 1 false 0 2049 (1 - 0) =
      some ⟨⟨-1048, -1048, 2 ^ 30 - 2048⟩, 0, 0, 0, 2 ^ 30 - 2048⟩ := manyLayers_stepCost 2048
  refine ⟨_, ⟨DPTable.init.set 1 2049 1 ⟨0, 0, 0, 0, 0, 0⟩, 1, true, true, false⟩, hcost,
    manyLayers_infeasible (by decide), by decide, ?_, ?_⟩
  · rw [tryPrevLong, guard, if_pos (by decide), hcost]
    rfl
  · dsimp only
    exact DPTable.set_self

theorem infeasible_rejected_iff_twoLayers :
    layerwiseStaging.tryPrevLong (manyLayers 1) 1 1 false 1 2 1 0
      ⟨DPTable.init, 1, false, false, false⟩ 0 =
        some (⟨DPTable.init, 1, false, false, false⟩, true) := by
  obtain ⟨htry, hsmall, -⟩ := infeasible_rejected_iff layerwiseStaging (manyLayers 1) 1 1 1 1 false
    rfl
  refine ((htry 1 2 1 0 0 _ _ (manyLayers_stepCost 1) (manyLayers_infeasible (by decide))).2
    (by decide) (by decide) (by decide)).mpr ?_
  rw [hsmall _ (by decide) (by decide) (by decide) (by decide)]
  decide

end DPStaging

end Rannc
