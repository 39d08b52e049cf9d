import Rannc.Lib.Faults
import Rannc.Graph.StageAllocation

/-!
# The search over nodes, stages and splits

The search for stages is run for growing numbers of nodes, stages and splits, and the fastest of
its solutions is taken. Here every division is checked, and so is the number of replicas that the
profiler is asked for. Exceptions and undefined arithmetic end a run as well.
-/
namespace Rannc

/-- Why a run ends without a result. -/
inductive Fault
  | zeroDivisor
  | replicaNum
  | thrown
  | overflow
  deriving DecidableEq, Repr

/-- The run neither divides by zero nor profiles for no replica. -/
def Fault.Benign (e : Fault) : Prop := e = thrown ∨ e = overflow

def divide (a b : ℕ) : Except Fault ℕ := if b = 0 then .error .zeroDivisor else .ok (a / b)

def remainder (a b : ℕ) : Except Fault ℕ := if b = 0 then .error .zeroDivisor else .ok (a % b)

/-- `ceil` of a quotient of floating-point numbers. -/
def ceilDivide (a b : ℕ) : Except Fault ℕ :=
  if b = 0 then .error .zeroDivisor else .ok (ceilDiv a b).toNat

/-- A product of numbers of type `int`. -/
def mulInt (a b : ℕ) : Except Fault ℕ := if a * b < 2 ^ 31 then .ok (a * b) else .error .overflow

structure SearchConfig where
  min_pipeline : ℤ
  max_pipeline : ℤ
  pipeline_num : ℤ
  partition_num : ℤ
  dp_search_all : Bool
  show_dp_summary : Bool
  cuda_device_count : ℕ

/-- The least and the greatest number of splits. A number that is set by force is both. -/
def SearchConfig.pipelineRange (cfg : SearchConfig) : ℤ × ℤ :=
  if cfg.pipeline_num ≠ 0 then (cfg.pipeline_num, cfg.pipeline_num)
  else (cfg.min_pipeline, cfg.max_pipeline)

/-- The solutions found so far. -/
structure Plans where
  sol_found : Bool
  pl_sols : List AllocSolution

/-- The first rank's share of a batch that is split over replicas for profiling. -/
def splitBatch (total_batch_size replica_num : ℕ) : Except Fault ℕ := do
  let share ← divide total_batch_size replica_num
  let rest ← remainder total_batch_size replica_num
  let rank_bs := share + if 0 < rest then 1 else 0
  divide (total_batch_size * rank_bs) total_batch_size

namespace Checked

variable (dp : DPStaging) (helper : GraphMergeHelper)

def profile (g : IRGraph) (replica_num : ℕ) (checkpointing : Bool) : Except Fault GraphProfile := do
  if replica_num = 0 then throw .replicaNum
  let _ ← ceilDivide dp.batch_size replica_num
  let _ ← splitBatch dp.batch_size replica_num
  orThrow .thrown (dp.profile g dp.batch_size replica_num checkpointing)

def calcInputCommTime (g : IRGraph) (repl : ℕ) : Except Fault ℕ := do
  return calcCommTime (← divide (← orThrow .thrown (calcInputSize g)) repl)

def calcOutputCommTime (g : IRGraph) (repl : ℕ) : Except Fault ℕ := do
  return calcCommTime (← divide (← orThrow .thrown (calcOutputSize g)) repl)

def calcGraphMem (g : IRGraph) (prof : GraphProfile) (replica_num pipeline_num : ℕ) :
    Except Fault ℕ := do
  let repl ← mulInt replica_num pipeline_num
  let _ ← ceilDivide dp.batch_size repl
  orThrow .thrown (calcGraphMemWithBuf g prof dp.opt_param_factor dp.batch_size replica_num
    pipeline_num dp.use_amp_master_params dp.enable_zero)

section Search

variable (stage_num dev_num_per_group replica_num pipeline_num : ℕ) (checkpointing : Bool)

def estimateProf (b_prev b dev_num : ℕ) : Except Fault GraphProfile := do
  let profs ← (DPStaging.stageNodes helper b_prev b).mapM fun node =>
    profile dp node.graph dev_num checkpointing
  return ⟨(profs.map GraphProfile.fwd_time).sum, (profs.map GraphProfile.bwd_time).sum,
    (profs.map GraphProfile.max_allocated_mem).sum⟩

def stepCost (b_prev b dev_num : ℕ) : Except Fault StepCost := do
  let _ ← orThrow .thrown (guard (b_prev < b ∧ b ≤ helper.graph.nodes.length))
  let repl := dev_num * replica_num * pipeline_num
  if dp.do_coarsening then
    let step_graph ← orThrow .thrown (helper.merge b_prev (b - 1))
    let step_in_comm ← calcInputCommTime step_graph repl
    let step_out_comm ← calcOutputCommTime step_graph repl
    let ar_comm := calcAllReduceTime (← orThrow .thrown step_graph.getParamSizeInByte)
    let step_prof ← profile dp step_graph repl checkpointing
    let step_mem ← calcGraphMem dp step_graph step_prof (dev_num * replica_num) pipeline_num
    return ⟨step_prof, step_in_comm, step_out_comm, ar_comm, step_mem⟩
  else
    let step_prof ← estimateProf dp helper checkpointing b_prev b repl
    let opt_mem ← (DPStaging.stageNodes helper b_prev b).mapM fun node =>
      orThrow .thrown (getOptMemSize node.graph dp.opt_param_factor dp.use_amp_master_params
        dp.enable_zero dev_num)
    return ⟨step_prof, 0, 0, 0, step_prof.max_allocated_mem + opt_mem.sum⟩

/-- The restrictions on the devices of a stage, one after another. -/
def skipDevNum (dev_num : ℕ) : Except Fault Bool := do
  let repl ← mulInt replica_num pipeline_num
  let max_d ← ceilDivide dp.batch_size repl
  if dp.limit_dev_num_more_than_bs && max_d < dev_num then return true
  else if dp.limit_dev_num_pot && !isPowerOfTwo dev_num then return true
  else
    let repl_bs ← ceilDivide dp.batch_size (repl * dev_num)
    return repl_bs < toSize dp.min_pipeline_bs

def tryPrev (s b d b_prev : ℕ) (search : Search) (d_prev : ℕ) : Except Fault (Search × Bool) := do
  if ← skipDevNum dp replica_num pipeline_num (d - d_prev) then
    return ({ search with skip_small_bs := true }, false)
  let prev := search.table (s - 1) b_prev d_prev
  if ERROR_VAL ≤ prev.eval then return (search, false)
  let step ← stepCost dp helper replica_num pipeline_num checkpointing b_prev b (d - d_prev)
  if dp.dev_mem ≤ toSize step.step_mem then return (search, true)
  let step_val := estimateEval step.step_prof step.step_in_comm step.step_out_comm
    prev.max_fwd prev.max_bwd
  let search := { search with found_b_sol := true, found_d_sol := true }
  if step_val < (search.table s b d).eval then
    let state : DPState := ⟨max step_val prev.eval, max step.step_prof.fwd_time prev.max_fwd,
      max step.step_prof.bwd_time prev.max_bwd, max step.ar_comm prev.max_allreduce,
      b_prev, d_prev⟩
    return ({ search with table := search.table.set s b d state }, false)
  else return (search, false)

def tryBoundary (s b d : ℕ) (search : Search) (b_prev : ℕ) : Except Fault Search :=
  let d_prev_limit := if s = 1 then 1 else d
  foldUntil (tryPrev dp helper replica_num pipeline_num checkpointing s b d b_prev) search
    (List.range' (s - 1) (d_prev_limit - (s - 1)))

def tryDevNum (s b : ℕ) (search : Search) (d : ℕ) : Except Fault (Search × Bool) := do
  let b_prev_limit := if s = 1 then 1 else b
  let search ← (List.range' (s - 1) (b_prev_limit - (s - 1))).foldlM
    (tryBoundary dp helper replica_num pipeline_num checkpointing s b d)
    { search with found_d_sol := false, skip_small_bs := false }
  if !search.found_d_sol && !search.skip_small_bs then
    return ({ search with min_d := d + 1 }, true)
  else return (search, false)

def searchBoundary (s : ℕ) (search : Search) (b : ℕ) : Except Fault (Search × Bool) := do
  let first := max search.min_d s
  let search ← foldUntil (tryDevNum dp helper replica_num pipeline_num checkpointing s b)
    { search with found_b_sol := false }
    (List.range' first (dev_num_per_group + 1 - first)).reverse
  return (search, !search.found_b_sol)

def searchStage (search : Search) (s : ℕ) : Except Fault Search :=
  let layer_num := helper.graph.nodes.length
  let b_start := if s = stage_num then layer_num else s
  let b_last := toSize (layer_num - stage_num + s)
  foldUntil
    (searchBoundary dp helper dev_num_per_group replica_num pipeline_num checkpointing s)
    { search with min_d := 1 } (List.range' b_start (b_last + 1 - b_start))

def fillTable : Except Fault DPTable := do
  let search ← (List.range' 1 stage_num).foldlM
    (searchStage dp helper stage_num dev_num_per_group replica_num pipeline_num checkpointing)
    ⟨DPTable.init, 1, false, false, false⟩
  return search.table

def doRunDpComm : Except Fault AllocSolution := do
  let table ← fillTable dp helper stage_num dev_num_per_group replica_num pipeline_num checkpointing
  let layer_num := helper.graph.nodes.length
  let best_d :=
    if (table stage_num layer_num dev_num_per_group).eval < ERROR_VAL then dev_num_per_group else 0
  orThrow .thrown (DPStaging.readBack helper replica_num table stage_num layer_num best_d
    ⟨[], [], pipeline_num, checkpointing⟩)

end Search

section Plans

variable (cfg : SearchConfig)

def doMakeNodeSummary (dev_num : ℕ) (pipeline_num : ℤ)
    (f : GraphProfile → IRGraph → ℕ → Except Fault ℤ) : Except Fault (List (List ℤ)) :=
  helper.graph.nodes.mapM fun node => (List.range' 1 dev_num).mapM fun d : ℕ => do
    let repl := toSize (toInt (d * pipeline_num))
    let prof ← profile dp node.graph repl false
    f prof node.graph repl

def makeNodeEvalSummary (dev_num : ℕ) (pipeline_num : ℤ) : Except Fault (List (List ℤ)) :=
  doMakeNodeSummary dp helper dev_num pipeline_num fun prof g repl => do
    let step_comm_in ← calcInputCommTime g repl
    let step_comm_out ← calcOutputCommTime g repl
    return estimateEval prof step_comm_in step_comm_out 0 0

def makeNodeMemSummary (dev_num : ℕ) (pipeline_num : ℤ) : Except Fault (List (List ℤ)) :=
  doMakeNodeSummary dp helper dev_num pipeline_num fun prof _ _ => return prof.max_allocated_mem

/-- The longest times of the stages that are busy in one step of the pipeline. -/
def stageTime (sol : AllocSolution) (times : ℤ × ℤ) (sg : IRGraph) : Except Fault (ℤ × ℤ) := do
  let repl ← orThrow .thrown (sol.repl_nums.lookup sg.name)
  let repl_num ← mulInt repl sol.pipeline_num
  let prof ← profile dp sg repl_num (1 < sol.pipeline_num)
  let comm_in ← calcInputCommTime sg repl_num
  let comm_out ← calcOutputCommTime sg repl_num
  let comm_time := comm_in + comm_out
  return (max times.1 (prof.fwd_time + comm_time), max times.2 (prof.bwd_time + comm_time))

def estimateTime (sol : AllocSolution) : Except Fault ℤ := do
  let comp_time ← (List.range (sol.pipeline_num + sol.graphs.length - 1)).foldlM
    (fun comp_time step => do
      let g_from := step + 1 - sol.pipeline_num
      let g_to_excl := min (step + 1) sol.graphs.length
      let times ← ((sol.graphs.take g_to_excl).drop g_from).foldlM (stageTime dp sol) (0, 0)
      return comp_time + (times.1 + times.2)) 0
  let ar_sizes ← sol.graphs.mapM fun sg => orThrow .thrown sg.getParamSizeInByte
  return comp_time + (ar_sizes.map calcAllReduceTime).foldl max 0

/-- The values of the loop over the number of splits, which doubles. -/
def pipelineNums : List ℕ :=
  let start := (max 1 cfg.pipelineRange.1).toNat
  let last := min (toInt dp.batch_size) cfg.pipelineRange.2
  ((List.range 31).map (start * 2 ^ ·)).takeWhile fun pipeline_num => (pipeline_num : ℤ) ≤ last

def searchPipeline (dev_per_node node_num_total node_num_used stage_num : ℕ) (plans : Plans)
    (pipeline_num : ℕ) : Except Fault Plans := do
  let replica_num ← divide node_num_total node_num_used
  let sol ← doRunDpComm dp helper stage_num (dev_per_node * node_num_used) replica_num pipeline_num
    (1 < pipeline_num)
  let _ ← mulInt pipeline_num 2
  return if sol.graphs.isEmpty then plans else ⟨true, plans.pl_sols ++ [sol]⟩

def searchStageNum (dev_per_node node_num_total node_num_used : ℕ) (plans : Plans)
    (stage_num : ℕ) : Except Fault (Plans × Bool) := do
  let plans ← (pipelineNums dp cfg).foldlM
    (searchPipeline dp helper dev_per_node node_num_total node_num_used stage_num) plans
  return (plans, !cfg.dp_search_all && plans.sol_found && 1 ≤ stage_num)

def searchNodeNum (dev_per_node node_num_total : ℕ) (plans : Plans) (node_num_used : ℕ) :
    Except Fault (Plans × Bool) := do
  let cfg_stage_num := toSize cfg.partition_num
  let stage_num_min := dev_per_node * (node_num_used - 1) + 1
  let stage_num_max := dev_per_node * node_num_used
  if cfg_stage_num ≠ 0 ∧ (cfg_stage_num < stage_num_min ∨ stage_num_max < stage_num_min) then
    return (plans, false)
  let forced (stage_num : ℕ) := if cfg_stage_num ≠ 0 then cfg_stage_num else stage_num
  let first := min (forced stage_num_min) helper.graph.nodes.length
  let last := min (forced stage_num_max) helper.graph.nodes.length
  let plans ← foldUntil (searchStageNum dp helper cfg dev_per_node node_num_total node_num_used)
    plans (List.range' first (last + 1 - first))
  return (plans, !cfg.dp_search_all && plans.sol_found)

/-- The fastest of the solutions. -/
def bestPlan (best : ℤ × AllocSolution) (sol : AllocSolution) :
    Except Fault (ℤ × AllocSolution) := do
  let est_time ← estimateTime dp sol
  return if est_time < best.1 then (est_time, sol) else best

/-- What is logged about a stage of the solution. -/
def showStage (sol : AllocSolution) (g : IRGraph) : Except Fault ℤ := do
  let repl_num ← orThrow .thrown (sol.repl_nums.lookup g.name)
  let repl ← mulInt repl_num sol.pipeline_num
  let prof ← profile dp g repl sol.checkpointing
  let opt_mem ← orThrow .thrown (getOptMemSize g dp.opt_param_factor dp.use_amp_master_params
    dp.enable_zero repl_num)
  return prof.max_allocated_mem + opt_mem

def runDpComm (dev_num : ℕ) : Except Fault AllocSolution := do
  let dev_per_node := min dev_num cfg.cuda_device_count
  let _ ← remainder dev_num dev_per_node
  let node_num_total ← divide dev_num dev_per_node
  if cfg.show_dp_summary then
    let _ ← makeNodeEvalSummary dp helper dev_num cfg.pipelineRange.1
    let _ ← makeNodeMemSummary dp helper dev_num cfg.pipelineRange.1
  let plans ← foldUntil (searchNodeNum dp helper cfg dev_per_node node_num_total) ⟨false, []⟩
    (List.range' 1 node_num_total)
  if plans.pl_sols.isEmpty then throw .thrown
  let best ← plans.pl_sols.foldlM (bestPlan dp) (LONG_MAX, ⟨[], [], 0, false⟩)
  let _ ← best.2.graphs.mapM (showStage dp best.2)
  return best.2

/-- The number of replicas for which the partitioner profiles. -/
def partitionReplicas (dev_num : ℕ) : Except Fault ℤ := do
  let min_pipeline_bs := toSize dp.min_pipeline_bs
  let repl_num := toInt (dev_num * toSize cfg.max_pipeline)
  if 0 < min_pipeline_bs then
    let samples ← divide dp.batch_size min_pipeline_bs
    return min (toInt samples) repl_num
  else return repl_num

/-- `MLPartitioner::profile`. -/
def profilePartition (dev_num : ℕ) (g : IRGraph) : Except Fault GraphProfile := do
  let repl_num ← partitionReplicas dp cfg dev_num
  profile dp g (toSize repl_num) false

end Plans

section Arithmetic

variable {a b : ℕ}

theorem meets_divide (hb : 0 < b) : Meets Fault.Benign (divide a b) (· = a / b) := by
  unfold divide
  rw [if_neg hb.ne']
  exact Meets.pure rfl

theorem meets_remainder (hb : 0 < b) : Meets Fault.Benign (remainder a b) (· = a % b) := by
  unfold remainder
  rw [if_neg hb.ne']
  exact Meets.pure rfl

theorem meets_ceilDivide (hb : 0 < b) :
    Meets Fault.Benign (ceilDivide a b) (· = (ceilDiv a b).toNat) := by
  unfold ceilDivide
  rw [if_neg hb.ne']
  exact Meets.pure rfl

theorem meets_mulInt : Meets Fault.Benign (mulInt a b) (· = a * b) := by
  unfold mulInt
  split_ifs
  · exact Meets.pure rfl
  · exact Or.inr rfl

theorem benign_thrown : Fault.Benign .thrown := Or.inl rfl

theorem meets_splitBatch (ha : 0 < a) (hb : 0 < b) :
    Meets Fault.Benign (splitBatch a b) fun _ => True := by
  unfold splitBatch
  apply (meets_divide hb).bind
  intro share _
  apply (meets_remainder hb).bind
  intro rest _
  exact (meets_divide ha).weaken fun _ _ => trivial

end Arithmetic

section Agreement

variable {dp helper} {stage_num dev_num_per_group replica_num pipeline_num : ℕ}
  {checkpointing : Bool}

theorem profile_agrees (hbatch : 0 < dp.batch_size) (g : IRGraph) {repl : ℕ} (hrepl : 0 < repl) :
    Agrees Fault.Benign (profile dp g repl checkpointing)
      (dp.profile g dp.batch_size repl checkpointing) := by
  unfold profile
  rw [if_neg hrepl.ne']
  apply Agrees.check (meets_ceilDivide hrepl)
  intro bs _
  apply Agrees.check (meets_splitBatch hbatch hrepl)
  intro dim _
  exact Agrees.orThrow benign_thrown _

theorem meets_profile (hbatch : 0 < dp.batch_size) (g : IRGraph) {repl : ℕ} (hrepl : 0 < repl) :
    Meets Fault.Benign (profile dp g repl checkpointing) fun _ => True :=
  (profile_agrees hbatch g hrepl).weaken fun _ _ => trivial

theorem calcInputCommTime_agrees (g : IRGraph) {repl : ℕ} (hrepl : 0 < repl) :
    Agrees Fault.Benign (calcInputCommTime g repl)
      ((calcInputSize g).map fun size => calcCommTime (size / repl)) := by
  unfold calcInputCommTime
  rw [Option.map_eq_bind]
  apply (Agrees.orThrow benign_thrown _).bind
  intro size
  apply Agrees.check (meets_divide hrepl)
  intro share hshare
  rw [hshare]
  exact Agrees.pure _

theorem calcOutputCommTime_agrees (g : IRGraph) {repl : ℕ} (hrepl : 0 < repl) :
    Agrees Fault.Benign (calcOutputCommTime g repl)
      ((calcOutputSize g).map fun size => calcCommTime (size / repl)) := by
  unfold calcOutputCommTime
  rw [Option.map_eq_bind]
  apply (Agrees.orThrow benign_thrown _).bind
  intro size
  apply Agrees.check (meets_divide hrepl)
  intro share hshare
  rw [hshare]
  exact Agrees.pure _

theorem calcGraphMem_agrees (g : IRGraph) (prof : GraphProfile) {repl pl : ℕ} (hrepl : 0 < repl)
    (hpl : 0 < pl) : Agrees Fault.Benign (calcGraphMem dp g prof repl pl)
      (calcGraphMemWithBuf g prof dp.opt_param_factor dp.batch_size repl pl
        dp.use_amp_master_params dp.enable_zero) := by
  unfold calcGraphMem
  apply Agrees.check meets_mulInt
  intro product hproduct
  apply Agrees.check (meets_ceilDivide (hproduct ▸ Nat.mul_pos hrepl hpl))
  intro bs _
  exact Agrees.orThrow benign_thrown _

theorem estimateProf_agrees (hbatch : 0 < dp.batch_size) (b_prev b : ℕ) {dev_num : ℕ}
    (hdev : 0 < dev_num) :
    Agrees Fault.Benign (estimateProf dp helper checkpointing b_prev b dev_num)
      (dp.estimateProf helper checkpointing b_prev b dev_num) := by
  unfold estimateProf DPStaging.estimateProf
  apply Agrees.bind
  · exact Agrees.mapM fun node _ => profile_agrees hbatch node.graph hdev
  · intro profs
    exact Agrees.pure _

section Stage

variable (hbatch : 0 < dp.batch_size) (hreplica : 0 < replica_num) (hpipeline : 0 < pipeline_num)

include hbatch hreplica hpipeline

theorem stepCost_agrees (b_prev b : ℕ) {dev_num : ℕ} (hdev : 0 < dev_num) :
    Agrees Fault.Benign
      (stepCost dp helper replica_num pipeline_num checkpointing b_prev b dev_num)
      (dp.stepCost helper replica_num pipeline_num checkpointing b_prev b dev_num) := by
  have hrepl : 0 < dev_num * replica_num * pipeline_num :=
    Nat.mul_pos (Nat.mul_pos hdev hreplica) hpipeline
  unfold stepCost DPStaging.stepCost
  apply (Agrees.orThrow benign_thrown _).bind
  intro _
  dsimp only
  split_ifs
  · apply (Agrees.orThrow benign_thrown _).bind
    intro step_graph
    apply (calcInputCommTime_agrees step_graph hrepl).bind_map
    intro input_size
    apply (calcOutputCommTime_agrees step_graph hrepl).bind_map
    intro output_size
    apply (Agrees.orThrow benign_thrown _).bind
    intro param_size
    apply (profile_agrees hbatch step_graph hrepl).bind
    intro step_prof
    apply (calcGraphMem_agrees step_graph step_prof (Nat.mul_pos hdev hreplica) hpipeline).bind
    intro step_mem
    exact Agrees.pure _
  · apply (estimateProf_agrees hbatch b_prev b hrepl).bind
    intro step_prof
    apply Agrees.bind
    · exact Agrees.mapM fun node _ => Agrees.orThrow benign_thrown _
    · intro opt_mem
      exact Agrees.pure _

omit hbatch in
theorem meets_skipDevNum {dev_num : ℕ} (hdev : 0 < dev_num) :
    Meets Fault.Benign (skipDevNum dp replica_num pipeline_num dev_num)
      (· = dp.skipDevNum replica_num pipeline_num dev_num) := by
  have hrepl := Nat.mul_pos hreplica hpipeline
  unfold skipDevNum DPStaging.skipDevNum
  apply meets_mulInt.bind
  intro repl hrepl_eq
  subst hrepl_eq
  apply (meets_ceilDivide hrepl).bind
  intro max_d hmax_d
  subst hmax_d
  dsimp only
  push_cast
  split_ifs with hmore hpot
  · exact Meets.pure (by simp [hmore])
  · exact Meets.pure (by simp [hpot])
  · apply (meets_ceilDivide (Nat.mul_pos hrepl hdev)).bind
    intro repl_bs hrepl_bs
    subst hrepl_bs
    apply Meets.pure
    rw [Bool.eq_false_of_not_eq_true hmore, Bool.eq_false_of_not_eq_true hpot]
    push_cast
    simp

theorem tryPrev_agrees {s b d b_prev d_prev : ℕ} (search : Search) (hd : d_prev < d) :
    Agrees Fault.Benign
      (tryPrev dp helper replica_num pipeline_num checkpointing s b d b_prev search d_prev)
      (dp.tryPrev helper replica_num pipeline_num checkpointing s b d b_prev search d_prev) := by
  have hdev : 0 < d - d_prev := Nat.sub_pos_of_lt hd
  have hguard : (guard (replica_num * pipeline_num ≠ 0) : Option Unit) = some () :=
    if_pos (Nat.mul_pos hreplica hpipeline).ne'
  unfold tryPrev DPStaging.tryPrev
  rw [hguard]
  apply Agrees.check (meets_skipDevNum hreplica hpipeline hdev)
  intro skip hskip
  subst hskip
  dsimp only [Option.bind_eq_bind, Option.bind_some]
  split_ifs with hskip hprev
  · exact Agrees.pure _
  · exact Agrees.pure _
  · apply (stepCost_agrees hbatch hreplica hpipeline b_prev b hdev).bind
    intro step
    split_ifs
    · exact Agrees.pure _
    · exact Agrees.pure _
    · exact Agrees.pure _

theorem tryBoundary_agrees {s b d b_prev : ℕ} (search : Search) (hd : 0 < d) :
    Agrees Fault.Benign
      (tryBoundary dp helper replica_num pipeline_num checkpointing s b d search b_prev)
      (dp.tryBoundary helper replica_num pipeline_num checkpointing s b d search b_prev) := by
  unfold tryBoundary DPStaging.tryBoundary
  apply Agrees.foldUntil
  intro search d_prev hd_prev
  apply tryPrev_agrees hbatch hreplica hpipeline
  have hrange := List.mem_range'_1.mp hd_prev
  split_ifs at hrange <;> omega

theorem tryDevNum_agrees {s b d : ℕ} (search : Search) (hd : 0 < d) :
    Agrees Fault.Benign
      (tryDevNum dp helper replica_num pipeline_num checkpointing s b search d)
      (dp.tryDevNum helper replica_num pipeline_num checkpointing s b search d) := by
  unfold tryDevNum DPStaging.tryDevNum
  apply Agrees.bind
  · apply Agrees.foldlM
    intro search b_prev _
    exact tryBoundary_agrees hbatch hreplica hpipeline search hd
  · intro search
    split_ifs
    · exact Agrees.pure _
    · exact Agrees.pure _

theorem searchBoundary_agrees {s b : ℕ} (search : Search) (hs : 0 < s) :
    Agrees Fault.Benign
      (searchBoundary dp helper dev_num_per_group replica_num pipeline_num checkpointing s search b)
      (dp.searchBoundary helper dev_num_per_group replica_num pipeline_num checkpointing s search
        b) := by
  unfold searchBoundary DPStaging.searchBoundary
  apply Agrees.bind
  · apply Agrees.foldUntil
    intro search' d hd
    apply tryDevNum_agrees hbatch hreplica hpipeline
    have hrange := List.mem_range'_1.mp (List.mem_reverse.mp hd)
    have hfirst := le_max_right search.min_d s
    omega
  · intro search'
    exact Agrees.pure _

theorem fillTable_agrees :
    Agrees Fault.Benign
      (fillTable dp helper stage_num dev_num_per_group replica_num pipeline_num checkpointing)
      (dp.fillTable helper stage_num dev_num_per_group replica_num pipeline_num
        checkpointing) := by
  unfold fillTable DPStaging.fillTable
  apply Agrees.bind
  · apply Agrees.foldlM
    intro search s hs
    apply Agrees.foldUntil
    intro search' b _
    have hrange := List.mem_range'_1.mp hs
    exact searchBoundary_agrees hbatch hreplica hpipeline search' (by omega)
  · intro search
    exact Agrees.pure _

theorem doRunDpComm_agrees :
    Agrees Fault.Benign
      (doRunDpComm dp helper stage_num dev_num_per_group replica_num pipeline_num checkpointing)
      (dp.doRunDpComm helper stage_num dev_num_per_group replica_num pipeline_num
        checkpointing) := by
  unfold doRunDpComm DPStaging.doRunDpComm
  apply (fillTable_agrees hbatch hreplica hpipeline).bind
  intro table
  exact Agrees.orThrow benign_thrown _

end Stage

end Agreement

end Checked

end Rannc
