import Rannc.Graph.GraphMem
import Rannc.Graph.GraphMergeHelper

/-!
# The search for stages

The sorted nodes are cut into stages, and devices are given to each. A table keeps the best way to
serve the first nodes with some stages and devices; the solution is read back from its last cell.
-/
namespace Rannc

def ERROR_VAL : ℤ := (2 ^ 63 - 1) / 1024

/-- Halve while the number is even. -/
def isPowerOfTwo (x : ℕ) : Bool :=
  let rec halve : ℕ → ℕ → ℕ
    | 0, x => x
    | fuel + 1, x => if x % 2 = 0 ∧ 1 < x then halve fuel (x / 2) else x
  halve x x = 1

/-- The time in microseconds at 20 GiB in a second. -/
def calcCommTime (cut_size : ℕ) : ℕ := cut_size * 10 ^ 6 / (20 * 1024 ^ 3)

def calcAllReduceTime (size : ℕ) : ℕ := size * 10 ^ 6 / (10 * 1024 ^ 3)

structure DPState where
  eval : ℤ
  max_fwd : ℤ
  max_bwd : ℤ
  max_allreduce : ℤ
  pre_boundary : ℕ
  pre_dev_num : ℕ
  deriving DecidableEq, Repr

def DPState.error : DPState := ⟨ERROR_VAL, ERROR_VAL, ERROR_VAL, ERROR_VAL, 0, 0⟩

/-- A cell for each number of stages, boundary and number of devices. -/
abbrev DPTable := ℕ → ℕ → ℕ → DPState

namespace DPTable

def init : DPTable := fun s _ _ => if s = 0 then ⟨0, 0, 0, 0, 0, 0⟩ else DPState.error

def set (table : DPTable) (s b d : ℕ) (state : DPState) : DPTable :=
  fun s' b' d' => if s' = s ∧ b' = b ∧ d' = d then state else table s' b' d'

end DPTable

structure AllocSolution where
  graphs : List IRGraph
  repl_nums : List (String × ℕ)
  pipeline_num : ℕ
  checkpointing : Bool

/-- The profiler and the settings of the search. -/
structure DPStaging where
  profile : IRGraph → ℕ → ℕ → Bool → Option GraphProfile
  batch_size : ℕ
  dev_mem : ℕ
  use_amp_master_params : Bool
  enable_zero : Bool
  opt_param_factor : ℕ
  min_pipeline_bs : ℤ
  limit_dev_num_pot : Bool
  limit_dev_num_more_than_bs : Bool
  do_coarsening : Bool

/-- What is found out about a stage before it is put in the table. -/
structure StepCost where
  step_prof : GraphProfile
  step_in_comm : ℕ
  step_out_comm : ℕ
  ar_comm : ℕ
  step_mem : ℤ

/-- The table, and the variables of the loops that fill it. -/
structure Search where
  table : DPTable
  min_d : ℕ
  found_b_sol : Bool
  found_d_sol : Bool
  skip_small_bs : Bool

def estimateEval (step_prof : GraphProfile)
    (step_comm_in step_comm_out prev_fwd_max prev_bwd_max : ℤ) : ℤ :=
  let step_comm := step_comm_in + step_comm_out
  max (step_prof.fwd_time + step_comm) prev_fwd_max +
    max (step_prof.bwd_time + step_comm) prev_bwd_max

namespace DPStaging

variable (dp : DPStaging) (helper : GraphMergeHelper)
  (stage_num dev_num_per_group replica_num pipeline_num : ℕ) (checkpointing : Bool)

/-- The restrictions on the devices of a stage. The smallest batch is compared as unsigned. -/
def skipDevNum (dev_num : ℕ) : Bool :=
  let max_d := (ceilDiv dp.batch_size (replica_num * pipeline_num)).toNat
  let repl_bs := (ceilDiv dp.batch_size (replica_num * pipeline_num * dev_num)).toNat
  (dp.limit_dev_num_more_than_bs && max_d < dev_num) ||
    (dp.limit_dev_num_pot && !isPowerOfTwo dev_num) || repl_bs < toSize dp.min_pipeline_bs

/-- The nodes of a stage that ends before `b`. -/
def stageNodes (b_prev b : ℕ) : List MLNode := (helper.graph.nodes.drop b_prev).take (b - b_prev)

def estimateProf (b_prev b dev_num : ℕ) : Option GraphProfile := do
  let profs ← (stageNodes helper b_prev b).mapM fun node =>
    dp.profile node.graph dp.batch_size dev_num checkpointing
  return ⟨(profs.map GraphProfile.fwd_time).sum, (profs.map GraphProfile.bwd_time).sum,
    (profs.map GraphProfile.max_allocated_mem).sum⟩

/-- The cost of a stage that ends before `b`. With coarsening its graph is merged and profiled,
without coarsening the profiles of its nodes are added. -/
def stepCost (b_prev b dev_num : ℕ) : Option StepCost := do
  guard (b_prev < b ∧ b ≤ helper.graph.nodes.length)
  let repl := dev_num * replica_num * pipeline_num
  if dp.do_coarsening then
    let step_graph ← helper.merge b_prev (b - 1)
    let step_in_comm := calcCommTime ((← calcInputSize step_graph) / repl)
    let step_out_comm := calcCommTime ((← calcOutputSize step_graph) / repl)
    let ar_comm := calcAllReduceTime (← step_graph.getParamSizeInByte)
    let step_prof ← dp.profile step_graph dp.batch_size repl checkpointing
    let step_mem ← calcGraphMemWithBuf step_graph step_prof dp.opt_param_factor dp.batch_size
      (dev_num * replica_num) pipeline_num dp.use_amp_master_params dp.enable_zero
    return ⟨step_prof, step_in_comm, step_out_comm, ar_comm, step_mem⟩
  else
    let step_prof ← dp.estimateProf helper checkpointing b_prev b repl
    let opt_mem ← (stageNodes helper b_prev b).mapM fun node =>
      getOptMemSize node.graph dp.opt_param_factor dp.use_amp_master_params dp.enable_zero dev_num
    return ⟨step_prof, 0, 0, 0, step_prof.max_allocated_mem + opt_mem.sum⟩

/-- Try a cell of the stages before. The loop ends when the memory is too small, as fewer devices
would be left for the stage. -/
def tryPrev (s b d b_prev : ℕ) (search : Search) (d_prev : ℕ) : Option (Search × Bool) := do
  guard (replica_num * pipeline_num ≠ 0)
  if dp.skipDevNum replica_num pipeline_num (d - d_prev) then
    return ({ search with skip_small_bs := true }, false)
  let prev := search.table (s - 1) b_prev d_prev
  if ERROR_VAL ≤ prev.eval then return (search, false)
  let step ← dp.stepCost helper replica_num pipeline_num checkpointing b_prev b (d - d_prev)
  if dp.dev_mem ≤ toSize step.step_mem then return (search, true)
  let step_val := estimateEval step.step_prof step.step_in_comm step.step_out_comm
    prev.max_fwd prev.max_bwd
  let search := { search with found_b_sol := true, found_d_sol := true }
  if step_val < (search.table s b d).eval then
    let state : DPState := ⟨max step_val prev.eval, max step.step_prof.fwd_time prev.max_fwd,
      max step.step_prof.bwd_time prev.max_bwd, max step.ar_comm prev.max_allreduce,
      b_prev, d_prev⟩
    return ({ search with table := search.table.set s b d state }, false)
  else return (search, false)

/-- The first stage starts at the first node with no device used. -/
def tryBoundary (s b d : ℕ) (search : Search) (b_prev : ℕ) : Option Search :=
  let d_prev_limit := if s = 1 then 1 else d
  foldUntilM (dp.tryPrev helper replica_num pipeline_num checkpointing s b d b_prev) search
    (List.range' (s - 1) (d_prev_limit - (s - 1)))

def tryDevNum (s b : ℕ) (search : Search) (d : ℕ) : Option (Search × Bool) := do
  let b_prev_limit := if s = 1 then 1 else b
  let search ← (List.range' (s - 1) (b_prev_limit - (s - 1))).foldlM
    (dp.tryBoundary helper replica_num pipeline_num checkpointing s b d)
    { search with found_d_sol := false, skip_small_bs := false }
  if !search.found_d_sol && !search.skip_small_bs then
    return ({ search with min_d := d + 1 }, true)
  else return (search, false)

/-- Devices are taken away until there are too few. -/
def searchBoundary (s : ℕ) (search : Search) (b : ℕ) : Option (Search × Bool) := do
  let first := max search.min_d s
  let search ← foldUntilM (dp.tryDevNum helper replica_num pipeline_num checkpointing s b)
    { search with found_b_sol := false }
    (List.range' first (dev_num_per_group + 1 - first)).reverse
  return (search, !search.found_b_sol)

def searchStage (search : Search) (s : ℕ) : Option Search :=
  let layer_num := helper.graph.nodes.length
  let b_start := if s = stage_num then layer_num else s
  let b_last := toSize (layer_num - stage_num + s)
  foldUntilM (dp.searchBoundary helper dev_num_per_group replica_num pipeline_num checkpointing s)
    { search with min_d := 1 } (List.range' b_start (b_last + 1 - b_start))

def fillTable : Option DPTable := do
  let search ← (List.range' 1 stage_num).foldlM
    (dp.searchStage helper stage_num dev_num_per_group replica_num pipeline_num checkpointing)
    ⟨DPTable.init, 1, false, false, false⟩
  return search.table

/-- Read the stages back, the last first. -/
def readBack (table : DPTable) : ℕ → ℕ → ℕ → AllocSolution → Option AllocSolution
  | 0, _, _, sol => some sol
  | s + 1, b_sol, d_sol, sol => do
    let state := table (s + 1) b_sol d_sol
    if ERROR_VAL ≤ state.eval then return ⟨[], [], 0, false⟩
    let step_graph ← helper.merge state.pre_boundary (b_sol - 1)
    readBack table s state.pre_boundary state.pre_dev_num
      { sol with
        graphs := step_graph :: sol.graphs
        repl_nums := insertKey step_graph.name ((d_sol - state.pre_dev_num) * replica_num)
          sol.repl_nums }

def doRunDpComm : Option AllocSolution := do
  let table ← dp.fillTable helper stage_num dev_num_per_group replica_num pipeline_num checkpointing
  let layer_num := helper.graph.nodes.length
  let best_d :=
    if (table stage_num layer_num dev_num_per_group).eval < ERROR_VAL then dev_num_per_group else 0
  readBack helper replica_num table stage_num layer_num best_d ⟨[], [], pipeline_num, checkpointing⟩

end DPStaging

end Rannc
