import Rannc.Graph.StageAllocation

/-!
# Memory for the optimizer

The state of a parameter is divided by a number of devices although nothing is sharded. The memory
of a graph does not depend on this number just where no quotient does, and a stage that passes the
memory test has room for the whole state if it is for one device or if nothing has a state.
-/
namespace Rannc

section Sums

variable {α : Type} {l : List α} {f g : α → ℕ}

theorem sum_map_eq_iff (h : ∀ a ∈ l, f a ≤ g a) :
    (l.map f).sum = (l.map g).sum ↔ ∀ a ∈ l, f a = g a := by
  induction l with
  | nil => simp
  | cons a l ih =>
    have hl : ∀ a ∈ l, f a ≤ g a := fun b hb => h b (List.mem_cons_of_mem _ hb)
    have hle := List.sum_le_sum hl
    have ha := h a List.mem_cons_self
    rw [List.map_cons, List.map_cons, List.sum_cons, List.sum_cons, List.forall_mem_cons, ← ih hl]
    omega

end Sums

namespace IRGraph

def params (g : IRGraph) : List IRValue := (g.values.filter fun it => it.2.is_param).map Prod.snd

end IRGraph

section OptMem

variable (opt_param_factor : ℕ) (use_amp_master_param : Bool)

/-- The memory for a parameter that is not divided, and the state that is. -/
def optParts (val : IRValue) : Option (ℕ × ℕ) := do
  let size ← val.getSizeInByte
  if use_amp_master_param then
    match val.type.getTensorElemType with
    | .HALF => return (size * 2 * 2, size * 2 * opt_param_factor)
    | .FLOAT => return (size, size * opt_param_factor)
    | .BFLOAT16 => return (size, size * opt_param_factor)
    | _ => none
  else return (0, size * opt_param_factor)

theorem optMemOfParam_eq (zero_dist_num : ℕ) (val : IRValue) :
    optMemOfParam opt_param_factor use_amp_master_param zero_dist_num val =
      (optParts opt_param_factor use_amp_master_param val).map
        fun p => p.1 + p.2 / zero_dist_num := by
  unfold optMemOfParam optParts
  cases val.getSizeInByte with
  | none => rfl
  | some size =>
    cases use_amp_master_param with
    | false => simp
    | true =>
      cases val.type.getTensorElemType <;> simp [Nat.add_comm]

theorem getOptMemSize_eq (g : IRGraph) (enable_zero : Bool) (zero_dist_num : ℕ) :
    getOptMemSize g opt_param_factor use_amp_master_param enable_zero zero_dist_num =
      (g.params.mapM (optParts opt_param_factor use_amp_master_param)).map fun parts =>
        (parts.map fun p => p.1 + p.2 / max zero_dist_num 1).sum := by
  have hparams : g.params.mapM
      (optMemOfParam opt_param_factor use_amp_master_param (max zero_dist_num 1)) =
      (g.values.filter fun it => it.2.is_param).mapM fun it =>
        optMemOfParam opt_param_factor use_amp_master_param (max zero_dist_num 1) it.2 := by
    unfold IRGraph.params
    rw [List.mapM_map]
    rfl
  have hmax : (if zero_dist_num = 0 then 1 else zero_dist_num) = max zero_dist_num 1 := by
    split_ifs <;> omega
  unfold getOptMemSize
  dsimp only
  rw [hmax, ← hparams, funext (optMemOfParam_eq _ _ _), mapM_map]
  cases g.params.mapM (optParts opt_param_factor use_amp_master_param) <;> rfl

variable {opt_param_factor use_amp_master_param}

theorem getOptMemSize_of_params {g : IRGraph} {parts : List (ℕ × ℕ)}
    (hparts : g.params.mapM (optParts opt_param_factor use_amp_master_param) = some parts)
    (enable_zero : Bool) (zero_dist_num : ℕ) :
    getOptMemSize g opt_param_factor use_amp_master_param enable_zero zero_dist_num =
      some (parts.map fun p => p.1 + p.2 / max zero_dist_num 1).sum := by
  rw [getOptMemSize_eq, hparts]
  rfl

theorem sum_parts_eq_iff_of_le {parts : List (ℕ × ℕ)} {m n : ℕ} (hle : m ≤ n) :
    (parts.map fun p => p.1 + p.2 / max n 1).sum = (parts.map fun p => p.1 + p.2 / max m 1).sum ↔
      ∀ p ∈ parts, p.2 / max n 1 = p.2 / max m 1 := by
  rw [sum_map_eq_iff]
  · constructor
    · intro h p hp
      exact Nat.add_left_cancel (h p hp)
    · intro h p hp
      rw [h p hp]
  · intro p _
    have hquot : p.2 / max n 1 ≤ p.2 / max m 1 := Nat.div_le_div_left (by omega) (by omega)
    omega

theorem sum_parts_eq_iff (parts : List (ℕ × ℕ)) (m n : ℕ) :
    (parts.map fun p => p.1 + p.2 / max m 1).sum = (parts.map fun p => p.1 + p.2 / max n 1).sum ↔
      ∀ p ∈ parts, p.2 / max m 1 = p.2 / max n 1 := by
  cases Nat.le_total n m with
  | inl hle => exact sum_parts_eq_iff_of_le hle
  | inr hle =>
    rw [eq_comm, sum_parts_eq_iff_of_le hle]
    constructor
    · intro h p hp
      exact (h p hp).symm
    · intro h p hp
      exact (h p hp).symm

theorem getOptMemSize_eq_iff (g : IRGraph) (enable_zero : Bool) (m n : ℕ) :
    getOptMemSize g opt_param_factor use_amp_master_param enable_zero m =
        getOptMemSize g opt_param_factor use_amp_master_param enable_zero n ↔
      ∀ parts, g.params.mapM (optParts opt_param_factor use_amp_master_param) = some parts →
        ∀ p ∈ parts, p.2 / max m 1 = p.2 / max n 1 := by
  cases hparts : g.params.mapM (optParts opt_param_factor use_amp_master_param) with
  | none =>
    rw [getOptMemSize_eq, getOptMemSize_eq, hparts]
    constructor
    · intro _ parts h
      cases h
    · intro _
      rfl
  | some parts =>
    rw [getOptMemSize_of_params hparts, getOptMemSize_of_params hparts, Option.some.injEq,
      sum_parts_eq_iff]
    constructor
    · intro h parts' heq
      obtain rfl := Option.some.inj heq
      exact h
    · intro h
      exact h parts rfl

end OptMem

namespace DPStaging

variable (dp : DPStaging) (helper : GraphMergeHelper) (replica_num pipeline_num : ℕ)
  (checkpointing : Bool)

/-- The graphs whose memory is added up for a stage. -/
def memGraphs (st : Stage) : Option (List IRGraph) :=
  if dp.do_coarsening then do
    let step_graph ← helper.merge st.first (st.boundary - 1)
    return [step_graph]
  else some ((stageNodes helper st.first st.boundary).map MLNode.graph)

/-- The number the state of a stage is divided by. -/
def distNum (st : Stage) : ℕ :=
  if dp.do_coarsening then st.dev_num * replica_num else st.dev_num

/-- The profiled memory of a stage. -/
def profiledMem (st : Stage) : Option ℤ := do
  let graphs ← dp.memGraphs helper st
  let profs ← graphs.mapM fun g =>
    dp.profile g dp.batch_size (st.dev_num * replica_num * pipeline_num) checkpointing
  return (profs.map GraphProfile.max_allocated_mem).sum

/-- The memory for the optimizer if the state is divided by a number. -/
def stageOptMem (zero_dist_num : ℕ) (st : Stage) : Option ℕ := do
  let graphs ← dp.memGraphs helper st
  let mems ← graphs.mapM fun g => getOptMemSize g dp.opt_param_factor dp.use_amp_master_params
    dp.enable_zero zero_dist_num
  return mems.sum

def commBuf (st : Stage) : Option ℕ :=
  if dp.do_coarsening then do
    let step_graph ← helper.merge st.first (st.boundary - 1)
    let bs := (ceilDiv dp.batch_size (st.dev_num * replica_num * pipeline_num)).toNat
    calcCommBufSize (step_graph.setBatchSize bs) pipeline_num
  else some 0

/-- A stage whose whole state fits on the device. -/
def UndividedFits (st : Stage) : Prop :=
  ∃ mem opt_mem, dp.profiledMem helper replica_num pipeline_num checkpointing st = some mem ∧
    dp.stageOptMem helper 1 st = some opt_mem ∧ mem + opt_mem < dp.dev_mem

/-- A stage whose state is not divided, as it is for one device or no parameter has a state. -/
def Undivided (st : Stage) : Prop :=
  dp.distNum replica_num st ≤ 1 ∨
    ∀ graphs, dp.memGraphs helper st = some graphs → ∀ g ∈ graphs, ∀ parts,
      g.params.mapM (optParts dp.opt_param_factor dp.use_amp_master_params) = some parts →
        ∀ p ∈ parts, p.2 = 0

/-- The memory of a stage is a number of type `size_t`. -/
def NoWrap (st : Stage) : Prop :=
  ∀ mem opt_mem buf, dp.profiledMem helper replica_num pipeline_num checkpointing st = some mem →
    dp.stageOptMem helper 1 st = some opt_mem →
    dp.commBuf helper replica_num pipeline_num st = some buf →
    0 ≤ mem ∧ mem + opt_mem + buf < 2 ^ 64

variable {dp helper replica_num pipeline_num checkpointing}

/-- What the memory test compares is the sum of the three parts. -/
theorem stepCost_mem {st : Stage} {step : StepCost}
    (h : dp.stepCost helper replica_num pipeline_num checkpointing st.first st.boundary st.dev_num =
      some step) :
    ∃ mem opt_mem buf, dp.profiledMem helper replica_num pipeline_num checkpointing st = some mem ∧
      dp.stageOptMem helper (dp.distNum replica_num st) st = some opt_mem ∧
      dp.commBuf helper replica_num pipeline_num st = some buf ∧
      toSize step.step_mem = toSize (mem + opt_mem + buf) := by
  replace h := (of_guard_bind h).2
  dsimp only at h
  split_ifs at h with hcoarse
  · obtain ⟨step_graph, hgraph, h⟩ := Option.bind_eq_some_iff.mp h
    obtain ⟨in_size, _, h⟩ := Option.bind_eq_some_iff.mp h
    obtain ⟨out_size, _, h⟩ := Option.bind_eq_some_iff.mp h
    obtain ⟨param_size, _, h⟩ := Option.bind_eq_some_iff.mp h
    obtain ⟨prof, hprof, h⟩ := Option.bind_eq_some_iff.mp h
    obtain ⟨step_mem, hmem, h⟩ := Option.bind_eq_some_iff.mp h
    obtain rfl := Option.some.inj h
    obtain ⟨mem, hcalc, hmem⟩ := Option.bind_eq_some_iff.mp hmem
    obtain ⟨buf, hbuf, hmem⟩ := Option.bind_eq_some_iff.mp hmem
    obtain rfl := Option.some.inj hmem
    obtain ⟨opt_mem, hopt, hcalc⟩ := Option.bind_eq_some_iff.mp hcalc
    obtain rfl := Option.some.inj hcalc
    refine ⟨prof.max_allocated_mem, opt_mem, buf, ?_, ?_, ?_, ?_⟩
    · simp only [profiledMem, memGraphs, if_pos hcoarse, hgraph, hprof, Option.bind_eq_bind,
        Option.bind_some, Option.pure_def, List.mapM_cons, List.mapM_nil, List.map_cons,
        List.map_nil, List.sum_singleton]
    · simp only [stageOptMem, memGraphs, distNum, if_pos hcoarse, hgraph, hopt, Option.bind_eq_bind,
        Option.bind_some, Option.pure_def, List.mapM_cons, List.mapM_nil, List.sum_singleton]
    · simp only [commBuf, if_pos hcoarse, hgraph, Option.bind_eq_bind, Option.bind_some]
      exact_mod_cast hbuf
    · rw [toSize_toSize, toSize_add_toSize]
  · obtain ⟨prof, hprof, h⟩ := Option.bind_eq_some_iff.mp h
    obtain ⟨opt_mem, hopt, h⟩ := Option.bind_eq_some_iff.mp h
    obtain rfl := Option.some.inj h
    obtain ⟨profs, hprofs, hprof⟩ := Option.bind_eq_some_iff.mp hprof
    obtain rfl := Option.some.inj hprof
    refine ⟨(profs.map GraphProfile.max_allocated_mem).sum, opt_mem.sum, 0, ?_, ?_, ?_, ?_⟩
    · simp only [profiledMem, memGraphs, if_neg hcoarse, Option.bind_eq_bind, Option.bind_some,
        Option.pure_def, List.mapM_map]
      exact Option.bind_eq_some_iff.mpr ⟨profs, hprofs, rfl⟩
    · simp only [stageOptMem, memGraphs, distNum, if_neg hcoarse, Option.bind_eq_bind,
        Option.bind_some, Option.pure_def, List.mapM_map]
      exact Option.bind_eq_some_iff.mpr ⟨opt_mem, hopt, rfl⟩
    · simp only [commBuf, if_neg hcoarse]
    · rw [Nat.cast_zero, add_zero]

theorem stageOptMem_undivided {st : Stage} (hst : dp.Undivided helper replica_num st) :
    dp.stageOptMem helper (dp.distNum replica_num st) st = dp.stageOptMem helper 1 st := by
  unfold stageOptMem
  cases hgraphs : dp.memGraphs helper st with
  | none => rfl
  | some graphs =>
    have hmems : ∀ g ∈ graphs, getOptMemSize g dp.opt_param_factor dp.use_amp_master_params
        dp.enable_zero (dp.distNum replica_num st) =
          getOptMemSize g dp.opt_param_factor dp.use_amp_master_params dp.enable_zero 1 := by
      intro g hg
      rw [getOptMemSize_eq_iff]
      intro parts hparts p hp
      cases hst with
      | inl hdist => rw [max_eq_right hdist, max_self]
      | inr hzero => rw [hzero graphs hgraphs g hg parts hparts p hp, Nat.zero_div, Nat.zero_div]
    exact congrArg (Option.bind · fun mems => some mems.sum) (mapM_congr hmems)

theorem FitsMem.undivided {st : Stage}
    (h : dp.FitsMem helper replica_num pipeline_num checkpointing st)
    (hst : dp.Undivided helper replica_num st)
    (hwrap : dp.NoWrap helper replica_num pipeline_num checkpointing st) :
    dp.UndividedFits helper replica_num pipeline_num checkpointing st := by
  obtain ⟨step, hstep, hlt⟩ := h
  obtain ⟨mem, opt_mem, buf, hmem, hopt, hbuf, heq⟩ := stepCost_mem hstep
  rw [stageOptMem_undivided hst] at hopt
  have hfit := hwrap mem opt_mem buf hmem hopt hbuf
  have hsize := toSize_eq (a := mem + opt_mem + buf) (by omega) hfit.2
  rw [heq] at hlt
  exact ⟨mem, opt_mem, hmem, hopt, by omega⟩

/-- Without sharding the memory depends on the number of devices just where a quotient does, and
every stage of a solution has room for the whole state if it is not divided. -/
theorem zero_off_optMem (g : IRGraph) (opt_param_factor : ℕ) (use_amp_master_param : Bool)
    (m n : ℕ) (dp : DPStaging) (helper : GraphMergeHelper)
    (stage_num dev_num_per_group replica_num pipeline_num : ℕ) (checkpointing : Bool)
    (sol : AllocSolution) :
    (getOptMemSize g opt_param_factor use_amp_master_param false m =
        getOptMemSize g opt_param_factor use_amp_master_param false n ↔
      ∀ parts, g.params.mapM (optParts opt_param_factor use_amp_master_param) = some parts →
        ∀ p ∈ parts, p.2 / max m 1 = p.2 / max n 1) ∧
    (dp.enable_zero = false →
      dp.doRunDpComm helper stage_num dev_num_per_group replica_num pipeline_num checkpointing =
        some sol → sol.graphs ≠ [] →
      ∃ stages, dp.ValidAllocation helper stage_num dev_num_per_group replica_num pipeline_num
          checkpointing sol stages ∧
        ∀ st ∈ stages, dp.Undivided helper replica_num st →
          dp.NoWrap helper replica_num pipeline_num checkpointing st →
            dp.UndividedFits helper replica_num pipeline_num checkpointing st) := by
  constructor
  · exact getOptMemSize_eq_iff g false m n
  · intro _ h hne
    obtain ⟨stages, hvalid⟩ := doRunDpComm_valid h hne
    exact ⟨stages, hvalid, fun st hst => (hvalid.fits st hst).undivided⟩

theorem ValidAllocation.one_stage {dev_num_per_group : ℕ} {sol : AllocSolution}
    {stages : List Stage} (h : dp.ValidAllocation helper 1 dev_num_per_group replica_num
      pipeline_num checkpointing sol stages) :
    stages = [⟨0, helper.graph.nodes.length, dev_num_per_group⟩] := by
  obtain ⟨st, rfl⟩ := List.length_eq_one_iff.mp h.count
  have hlayers := h.layers
  have hne := h.nonempty st List.mem_cons_self
  have hdev := h.dev_sum
  rw [List.flatMap_singleton, List.range_eq_range'] at hlayers
  have hlen := congrArg List.length hlayers
  have hhead := congrArg List.head? hlayers
  rw [List.length_range', List.length_range'] at hlen
  rw [List.head?_range', List.head?_range', if_neg (by omega), if_neg (by omega)] at hhead
  rw [List.map_singleton, List.sum_singleton] at hdev
  obtain ⟨first, boundary, dev_num⟩ := st
  obtain rfl : first = 0 := Option.some.inj hhead
  obtain rfl : boundary = helper.graph.nodes.length := hlen
  obtain rfl : dev_num = dev_num_per_group := hdev
  rfl

theorem ValidAllocation.two_stages {sol : AllocSolution} {stages : List Stage}
    (h : dp.ValidAllocation helper 2 2 replica_num pipeline_num checkpointing sol stages)
    (hlength : helper.graph.nodes.length = 2) :
    stages = [⟨0, 1, 1⟩, ⟨1, 2, 1⟩] := by
  obtain ⟨⟨f1, b1, d1⟩, ⟨f2, b2, d2⟩, rfl⟩ := List.length_eq_two.mp h.count
  obtain ⟨hne1, hne2⟩ : f1 < b1 ∧ f2 < b2 := by simpa using h.nonempty
  obtain ⟨hdev1, hdev2⟩ : 0 < d1 ∧ 0 < d2 := by simpa using h.dev_pos
  have hdev : d1 + d2 = 2 := by simpa using h.dev_sum
  have hlayers : List.range' f1 (b1 - f1) ++ List.range' f2 (b2 - f2) = List.range 2 := by
    have hrange := h.layers
    rw [hlength] at hrange
    simpa using hrange
  have hlen := congrArg List.length hlayers
  simp only [List.length_append, List.length_range', List.length_range] at hlen
  obtain ⟨rfl, rfl⟩ : b1 = f1 + 1 ∧ b2 = f2 + 1 := by omega
  have hfirst : [f1, f2] = List.range 2 := by simpa using hlayers
  obtain ⟨rfl, hlast⟩ := List.cons.inj hfirst
  obtain ⟨rfl, -⟩ := List.cons.inj hlast
  obtain ⟨rfl, rfl⟩ : d1 = 1 ∧ d2 = 1 := by omega
  rfl

theorem weight_profiledMem (dev_mem d : ℕ) :
    (weightStaging dev_mem).profiledMem (weightHelper ["a"]) 1 1 false ⟨0, 1, d⟩ = some 0 :=
  rfl

theorem weight_stageOptMem (dev_mem d : ℕ) :
    (weightStaging dev_mem).stageOptMem (weightHelper ["a"]) 1 ⟨0, 1, d⟩ = some 8 := by
  have hstate : (weightStaging 0).stageOptMem (weightHelper ["a"]) 1 ⟨0, 1, 0⟩ = some 8 := by
    decide +kernel
  exact hstate

theorem weight_undividedFits_iff (dev_mem d : ℕ) :
    (weightStaging dev_mem).UndividedFits (weightHelper ["a"]) 1 1 false ⟨0, 1, d⟩ ↔
      8 < dev_mem := by
  constructor
  · rintro ⟨mem, opt_mem, hmem, hopt, hlt⟩
    obtain rfl := Option.some.inj ((weight_profiledMem dev_mem d).symm.trans hmem)
    obtain rfl := Option.some.inj ((weight_stageOptMem dev_mem d).symm.trans hopt)
    change (0 : ℤ) + (8 : ℕ) < dev_mem at hlt
    omega
  · intro hlt
    refine ⟨0, 8, weight_profiledMem dev_mem d, weight_stageOptMem dev_mem d, ?_⟩
    change (0 : ℤ) + (8 : ℕ) < dev_mem
    omega

/-- On one device the state of a stage needs nine bytes to be accepted, and nine are enough. -/
theorem zero_off_optMem_weights : ∃ (sol : AllocSolution) (stages : List Stage),
    (weightStaging 9).doRunDpComm (weightHelper ["a", "b"]) 2 2 1 1 false = some sol ∧
      sol.graphs ≠ [] ∧ stages.length = 2 ∧ ∀ st ∈ stages,
        (weightStaging 9).UndividedFits (weightHelper ["a", "b"]) 1 1 false st := by
  have h : ((weightStaging 9).doRunDpComm (weightHelper ["a", "b"]) 2 2 1 1 false).any
      (fun sol => !sol.graphs.isEmpty) = true := by
    decide +kernel
  obtain ⟨sol, hsol, hgraphs⟩ := (Option.any_eq_true _ _).mp h
  have hne : sol.graphs ≠ [] := by simpa using hgraphs
  obtain ⟨stages, hvalid, hfits⟩ := (zero_off_optMem (weightGraph "a") 2 false 1 1
    (weightStaging 9) (weightHelper ["a", "b"]) 2 2 1 1 false sol).2 rfl hsol hne
  obtain rfl : stages = [⟨0, 1, 1⟩, ⟨1, 2, 1⟩] := hvalid.two_stages rfl
  refine ⟨sol, [⟨0, 1, 1⟩, ⟨1, 2, 1⟩], hsol, hne, rfl, fun st hst => ?_⟩
  have hstage : (weightStaging 9).profiledMem (weightHelper ["a", "b"]) 1 1 false st = some 0 ∧
      (weightStaging 9).stageOptMem (weightHelper ["a", "b"]) 1 st = some 8 ∧
      (weightStaging 9).commBuf (weightHelper ["a", "b"]) 1 1 st = some 0 ∧
      (weightStaging 9).distNum 1 st ≤ 1 := by
    revert st
    simp only [List.forall_mem_cons]
    refine ⟨?_, ?_, by simp⟩ <;> decide +kernel
  obtain ⟨hmem, hopt, hbuf, hdist⟩ := hstage
  apply hfits st hst (Or.inl hdist)
  intro mem opt_mem buf hmem' hopt' hbuf'
  obtain rfl := Option.some.inj (hmem.symm.trans hmem')
  obtain rfl := Option.some.inj (hopt.symm.trans hopt')
  obtain rfl := Option.some.inj (hbuf.symm.trans hbuf')
  decide
/-- On two devices eight bytes are enough, but they are not more than the whole state. -/
theorem zero_off_optMem_halved :
    getOptMemSize (weightGraph "a") 2 false false 1 = some 8 ∧
      getOptMemSize (weightGraph "a") 2 false false 2 = some 4 ∧
      (weightStaging 8).enable_zero = false ∧
      ∃ sol, (weightStaging 8).doRunDpComm (weightHelper ["a"]) 1 2 1 1 false = some sol ∧
        sol.graphs ≠ [] ∧ ∀ stages,
          (weightStaging 8).ValidAllocation (weightHelper ["a"]) 1 2 1 1 false sol stages →
          ∃ st ∈ stages, ¬(weightStaging 8).UndividedFits (weightHelper ["a"]) 1 1 false st := by
  have h : ((weightStaging 8).doRunDpComm (weightHelper ["a"]) 1 2 1 1 false).any
      (fun sol => !sol.graphs.isEmpty) = true := by
    decide +kernel
  obtain ⟨sol, hsol, hgraphs⟩ := (Option.any_eq_true _ _).mp h
  refine ⟨by decide +kernel, by decide +kernel, rfl, sol, hsol, by simpa using hgraphs, ?_⟩
  intro stages hvalid
  obtain rfl : stages = [⟨0, 1, 2⟩] := hvalid.one_stage
  refine ⟨_, List.mem_cons_self, ?_⟩
  intro hfits
  exact absurd ((weight_undividedFits_iff 8 2).mp hfits) (lt_irrefl 8)

end DPStaging

end Rannc
