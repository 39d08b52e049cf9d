import Rannc.Graph.RunDpComm

/-!
# Divisors of the search

The divisors are numbers of devices, replicas and splits and products of them. The number of
devices in a node is the number of CUDA devices, which may be zero, and the partitioner profiles
for as many replicas as the batch has smallest parts, which may be none. In all other places the
loops keep the divisors positive.
-/
namespace Rannc

namespace Checked

theorem toSize_toInt_pos {value : ℤ} (h : toInt value ≠ 0) : 0 < toSize (toInt value) := by
  have hle : -2 ^ 31 ≤ toInt value := Int.le_bmod (by decide)
  have hlt : toInt value < 2 ^ 31 := Int.bmod_lt (by decide)
  unfold toSize
  omega

/-- A solution with splits, in which every stage has a replica. -/
structure PlanOk (sol : AllocSolution) : Prop where
  pipeline_num : 0 < sol.pipeline_num
  repl_nums : ∀ it ∈ sol.repl_nums, 0 < it.2

section Plans

variable {dp : DPStaging} {helper : GraphMergeHelper}
  {stage_num dev_num_per_group replica_num pipeline_num : ℕ}
  {checkpointing : Bool}

theorem mem_of_lookup {α : Type} {key : String} {value : α} {map : List (String × α)}
    (h : map.lookup key = some value) : (key, value) ∈ map := by
  obtain ⟨before, after, rfl, -⟩ := List.lookup_eq_some_iff.mp h
  exact List.mem_append_right _ List.mem_cons_self

theorem mem_of_mem_insertKey {α : Type} {key : String} {value : α} {map : List (String × α)}
    {it : String × α} (h : it ∈ insertKey key value map) : it = (key, value) ∨ it ∈ map := by
  unfold insertKey at h
  cases List.mem_cons.mp h with
  | inl heq => exact Or.inl heq
  | inr hmem => exact Or.inr (List.mem_of_mem_filter hmem)

theorem readBack_repl_nums {table : DPTable} (hreplica : 0 < replica_num)
    (htable : dp.TableOk helper replica_num pipeline_num checkpointing table) {s b d : ℕ}
    {start sol : AllocSolution} (hstart : ∀ it ∈ start.repl_nums, 0 < it.2)
    (h : DPStaging.readBack helper replica_num table s b d start = some sol) :
    ∀ it ∈ sol.repl_nums, 0 < it.2 := by
  induction s generalizing b d start with
  | zero =>
    obtain rfl := Option.some.inj h
    exact hstart
  | succ s ih =>
    unfold DPStaging.readBack at h
    dsimp only at h
    split_ifs at h with heval
    · obtain rfl := Option.some.inj h
      exact fun it hit => absurd hit List.not_mem_nil
    · obtain ⟨step_graph, -, hrest⟩ := Option.bind_eq_some_iff.mp h
      apply ih _ hrest
      intro it hit
      cases mem_of_mem_insertKey hit with
      | inl heq =>
        rw [heq]
        exact Nat.mul_pos (htable.cell s b d (not_le.mp heval)).stage.dev_pos hreplica
      | inr hmem => exact hstart it hmem

theorem doRunDpComm_repl_nums {sol : AllocSolution} (hreplica : 0 < replica_num)
    (h : dp.doRunDpComm helper stage_num dev_num_per_group replica_num pipeline_num
      checkpointing = some sol) : ∀ it ∈ sol.repl_nums, 0 < it.2 := by
  obtain ⟨table, hfill, hread⟩ := Option.bind_eq_some_iff.mp h
  exact readBack_repl_nums hreplica (DPStaging.TableOk.fillTable hfill)
    (fun it hit => absurd hit List.not_mem_nil) hread

theorem readBack_pipeline_num {table : DPTable} {s b d : ℕ} {start sol : AllocSolution}
    (h : DPStaging.readBack helper replica_num table s b d start = some sol) :
    sol.graphs = [] ∨ sol.pipeline_num = start.pipeline_num := by
  induction s generalizing b d start with
  | zero =>
    obtain rfl := Option.some.inj h
    exact Or.inr rfl
  | succ s ih =>
    unfold DPStaging.readBack at h
    dsimp only at h
    split_ifs at h with heval
    · obtain rfl := Option.some.inj h
      exact Or.inl rfl
    · obtain ⟨step_graph, -, hrest⟩ := Option.bind_eq_some_iff.mp h
      have hcases := ih hrest
      exact hcases

theorem doRunDpComm_planOk {sol : AllocSolution} (hreplica : 0 < replica_num)
    (hpipeline : 0 < pipeline_num)
    (h : dp.doRunDpComm helper stage_num dev_num_per_group replica_num pipeline_num
      checkpointing = some sol) (hne : sol.graphs ≠ []) : PlanOk sol := by
  refine ⟨?_, doRunDpComm_repl_nums hreplica h⟩
  obtain ⟨table, -, hread⟩ := Option.bind_eq_some_iff.mp h
  cases readBack_pipeline_num hread with
  | inl hnil => exact absurd hnil hne
  | inr heq =>
    rw [heq]
    exact hpipeline

section Compare

variable (hbatch : 0 < dp.batch_size)

include hbatch

theorem meets_stageTime {sol : AllocSolution} (hsol : PlanOk sol) (times : ℤ × ℤ) (sg : IRGraph) :
    Meets Fault.Benign (stageTime dp sol times sg) fun _ => True := by
  unfold stageTime
  apply (Meets.orThrow benign_thrown _).bind
  intro repl hlookup
  have hpos : 0 < repl * sol.pipeline_num :=
    Nat.mul_pos (hsol.repl_nums _ (mem_of_lookup hlookup)) hsol.pipeline_num
  apply meets_mulInt.bind
  intro repl_num hrepl_num
  subst hrepl_num
  apply (meets_profile hbatch sg hpos).bind
  intro prof _
  apply Meets.bind (calcInputCommTime_agrees sg hpos)
  intro comm_in _
  apply Meets.bind (calcOutputCommTime_agrees sg hpos)
  intro comm_out _
  exact Meets.pure trivial

theorem meets_estimateTime {sol : AllocSolution} (hsol : PlanOk sol) :
    Meets Fault.Benign (estimateTime dp sol) fun _ => True := by
  unfold estimateTime
  apply Meets.bind (Q := fun _ => True)
  · apply Meets.foldlM (I := fun _ => True)
    · intro comp_time step _ _
      apply Meets.bind (Q := fun _ => True)
      · apply Meets.foldlM (I := fun _ => True)
        · intro times sg _ _
          exact meets_stageTime hbatch hsol times sg
        · trivial
      · intro times _
        exact Meets.pure trivial
    · trivial
  · intro comp_time _
    apply Meets.bind
    · exact Meets.mapM fun sg _ => (Meets.orThrow benign_thrown _).weaken fun _ _ => trivial
    · intro ar_sizes _
      exact Meets.pure trivial

theorem meets_showStage {sol : AllocSolution} (hsol : PlanOk sol) (g : IRGraph) :
    Meets Fault.Benign (showStage dp sol g) fun _ => True := by
  unfold showStage
  apply (Meets.orThrow benign_thrown _).bind
  intro repl_num hlookup
  apply meets_mulInt.bind
  intro repl hrepl
  subst hrepl
  have hpos : 0 < repl_num * sol.pipeline_num :=
    Nat.mul_pos (hsol.repl_nums _ (mem_of_lookup hlookup)) hsol.pipeline_num
  apply (meets_profile hbatch g hpos).bind
  intro prof _
  apply (Meets.orThrow benign_thrown _).bind
  intro opt_mem _
  exact Meets.pure trivial

theorem meets_bestPlan {best : ℤ × AllocSolution} {sol : AllocSolution}
    (hbest : best.2.graphs = [] ∨ PlanOk best.2) (hsol : PlanOk sol) :
    Meets Fault.Benign (bestPlan dp best sol) fun best => best.2.graphs = [] ∨ PlanOk best.2 := by
  unfold bestPlan
  apply (meets_estimateTime hbatch hsol).bind
  intro est_time _
  apply Meets.pure
  split_ifs
  · exact Or.inr hsol
  · exact hbest

variable {cfg : SearchConfig}

theorem searchPipeline_ok {dev_per_node node_num_total node_num_used : ℕ}
    (hused : 0 < node_num_used) (hle : node_num_used ≤ node_num_total) {plans : Plans}
    (hplans : ∀ sol ∈ plans.pl_sols, PlanOk sol) (hpipeline : 0 < pipeline_num) :
    Meets Fault.Benign (searchPipeline dp helper dev_per_node node_num_total node_num_used
      stage_num plans pipeline_num) fun plans => ∀ sol ∈ plans.pl_sols, PlanOk sol := by
  unfold searchPipeline
  apply (meets_divide hused).bind
  intro replica_num hreplica_num
  have hreplica : 0 < replica_num := hreplica_num ▸ Nat.div_pos hle hused
  apply Meets.bind (doRunDpComm_agrees hbatch hreplica hpipeline)
  intro sol hsol
  apply meets_mulInt.bind
  intro next _
  apply Meets.pure
  split_ifs with hempty
  · exact hplans
  · have hne : sol.graphs ≠ [] := fun heq => hempty (by rw [heq]; rfl)
    intro sol' hsol'
    cases List.mem_append.mp hsol' with
    | inl hmem => exact hplans sol' hmem
    | inr hmem =>
      rw [List.mem_singleton.mp hmem]
      exact doRunDpComm_planOk hreplica hpipeline hsol hne

omit hbatch in
theorem pos_of_mem_pipelineNums (hmem : pipeline_num ∈ pipelineNums dp cfg) : 0 < pipeline_num := by
  have hmem' := (List.takeWhile_sublist _).subset hmem
  obtain ⟨k, -, rfl⟩ := List.mem_map.mp hmem'
  have hstart : 0 < (max 1 cfg.pipelineRange.1).toNat := by omega
  exact Nat.mul_pos hstart (Nat.two_pow_pos k)

theorem searchNodeNum_ok {dev_per_node node_num_total node_num_used : ℕ}
    (hused : 0 < node_num_used) (hle : node_num_used ≤ node_num_total) {plans : Plans}
    (hplans : ∀ sol ∈ plans.pl_sols, PlanOk sol) :
    Meets Fault.Benign (searchNodeNum dp helper cfg dev_per_node node_num_total plans
      node_num_used) fun turn => ∀ sol ∈ turn.1.pl_sols, PlanOk sol := by
  unfold searchNodeNum
  dsimp only
  split_ifs
  · exact Meets.pure hplans
  all_goals
    apply Meets.bind (Q := fun plans => ∀ sol ∈ plans.pl_sols, PlanOk sol)
    · apply Meets.foldUntil _ hplans
      intro plans stage_num _ hplans
      apply Meets.bind (Q := fun plans => ∀ sol ∈ plans.pl_sols, PlanOk sol)
      · apply Meets.foldlM _ hplans
        intro plans pipeline_num hmem hplans
        exact searchPipeline_ok hbatch hused hle hplans (pos_of_mem_pipelineNums hmem)
      · intro plans hplans
        exact Meets.pure hplans
    · intro plans hplans
      exact Meets.pure hplans

theorem meets_doMakeNodeSummary {dev_num : ℕ} {least : ℤ}
    {f : GraphProfile → IRGraph → ℕ → Except Fault ℤ}
    (hleast : ∀ d, 1 ≤ d → d ≤ dev_num → toInt (d * least) ≠ 0)
    (hf : ∀ prof g repl, 0 < repl → Meets Fault.Benign (f prof g repl) fun _ => True) :
    Meets Fault.Benign (doMakeNodeSummary dp helper dev_num least f) fun _ => True := by
  apply Meets.mapM
  intro node _
  apply Meets.mapM
  intro d hd
  have hrange := List.mem_range'_1.mp hd
  have hpos := toSize_toInt_pos (hleast d hrange.1 (by omega))
  apply (meets_profile hbatch node.graph hpos).bind
  intro prof _
  exact hf prof node.graph _ hpos

/-- The conditions on the configuration under which no divisor is zero. Numbers that become of type
`int` may become zero or negative. -/
structure NonzeroConfig (cfg : SearchConfig) (dev_num batch_size : ℕ) (min_pipeline_bs : ℤ) :
    Prop where
  cuda : 0 < cfg.cuda_device_count
  summary : cfg.show_dp_summary = true →
    ∀ d : ℕ, 1 ≤ d → d ≤ dev_num → toInt (d * cfg.pipelineRange.1) ≠ 0
  replicas : toSize min_pipeline_bs = 0 → toInt (dev_num * toSize cfg.max_pipeline) ≠ 0
  samples : 0 < toSize min_pipeline_bs →
    (toInt (dev_num * toSize cfg.max_pipeline) = 0 →
      toInt (batch_size / toSize min_pipeline_bs : ℕ) < 0) ∧
    (toInt (batch_size / toSize min_pipeline_bs : ℕ) = 0 →
      toInt (dev_num * toSize cfg.max_pipeline) < 0)

theorem meets_runDpComm {dev_num : ℕ} (hdev : 0 < dev_num)
    (hcfg : NonzeroConfig cfg dev_num dp.batch_size dp.min_pipeline_bs) :
    Meets Fault.Benign (runDpComm dp helper cfg dev_num) fun _ => True := by
  have hper : 0 < min dev_num cfg.cuda_device_count := lt_min hdev hcfg.cuda
  unfold runDpComm
  apply (meets_remainder hper).bind
  intro _ _
  apply (meets_divide hper).bind
  intro node_num_total _
  have hsearch : Meets Fault.Benign (foldUntil (searchNodeNum dp helper cfg
      (min dev_num cfg.cuda_device_count) node_num_total) ⟨false, []⟩
      (List.range' 1 node_num_total)) fun plans => ∀ sol ∈ plans.pl_sols, PlanOk sol := by
    apply Meets.foldUntil
    · intro plans node_num_used hused hplans
      have hrange := List.mem_range'_1.mp hused
      exact searchNodeNum_ok hbatch (by omega) (by omega) hplans
    · exact fun sol hsol => absurd hsol List.not_mem_nil
  have hrest : Meets Fault.Benign (do
      let plans ← foldUntil (searchNodeNum dp helper cfg (min dev_num cfg.cuda_device_count)
        node_num_total) ⟨false, []⟩ (List.range' 1 node_num_total)
      if plans.pl_sols.isEmpty then throw .thrown
      let best ← plans.pl_sols.foldlM (bestPlan dp) (LONG_MAX, ⟨[], [], 0, false⟩)
      let _ ← best.2.graphs.mapM (showStage dp best.2)
      return best.2) fun _ => True := by
    apply hsearch.bind
    intro plans hplans
    split_ifs
    · exact benign_thrown
    · apply Meets.bind (Q := fun best => best.2.graphs = [] ∨ PlanOk best.2)
      · apply Meets.foldlM
        · intro best sol hsol hbest
          exact meets_bestPlan hbatch hbest (hplans sol hsol)
        · exact Or.inl rfl
      · intro best hbest
        apply Meets.bind (Q := fun _ => True)
        · apply Meets.mapM
          intro g hg
          cases hbest with
          | inl hnil => exact absurd (hnil ▸ hg) List.not_mem_nil
          | inr hok => exact meets_showStage hbatch hok g
        · intro _ _
          exact Meets.pure trivial
  split_ifs with hshow
  · apply (meets_doMakeNodeSummary hbatch (hcfg.summary hshow) _).bind
    · intro _ _
      apply (meets_doMakeNodeSummary hbatch (hcfg.summary hshow) _).bind
      · intro _ _
        exact hrest
      · intro prof g repl _
        exact Meets.pure trivial
    · intro prof g repl hrepl
      apply Meets.bind (calcInputCommTime_agrees g hrepl)
      intro comm_in _
      apply Meets.bind (calcOutputCommTime_agrees g hrepl)
      intro comm_out _
      exact Meets.pure trivial
  · exact hrest

omit hbatch in
/-- The partitioner profiles for some replica. -/
theorem meets_partitionReplicas {dev_num : ℕ}
    (hcfg : NonzeroConfig cfg dev_num dp.batch_size dp.min_pipeline_bs) :
    Meets Fault.Benign (partitionReplicas dp cfg dev_num) fun repl_num =>
      0 < toSize repl_num := by
  unfold partitionReplicas
  dsimp only
  split_ifs with hmin
  · apply (meets_divide hmin).bind
    intro samples hsamples
    subst hsamples
    apply Meets.pure
    have hcond := hcfg.samples hmin
    cases le_total (toInt (dp.batch_size / toSize dp.min_pipeline_bs : ℕ))
        (toInt (dev_num * toSize cfg.max_pipeline)) with
    | inl hle =>
      rw [min_eq_left hle]
      apply toSize_toInt_pos
      intro hzero
      have := hcond.2 hzero
      omega
    | inr hle =>
      rw [min_eq_right hle]
      apply toSize_toInt_pos
      intro hzero
      have := hcond.1 hzero
      omega
  · exact Meets.pure (toSize_toInt_pos (hcfg.replicas (by omega)))

theorem meets_profilePartition {dev_num : ℕ}
    (hcfg : NonzeroConfig cfg dev_num dp.batch_size dp.min_pipeline_bs) (g : IRGraph) :
    Meets Fault.Benign (profilePartition dp cfg dev_num g) fun _ => True := by
  unfold profilePartition
  apply (meets_partitionReplicas hcfg).bind
  intro repl_num hpos
  exact meets_profile hbatch g hpos

end Compare

end Plans

/-- No search and no profile of the partitioner divides by zero or profiles for no replica, for
any graph, profiler and settings of the search. -/
def NoZeroDivisor (cfg : SearchConfig) (dev_num batch_size : ℕ) (min_pipeline_bs : ℤ) : Prop :=
  ∀ (dp : DPStaging) (helper : GraphMergeHelper) (g : IRGraph), dp.batch_size = batch_size →
    dp.min_pipeline_bs = min_pipeline_bs →
    (∀ e, runDpComm dp helper cfg dev_num = .error e → e.Benign) ∧
    ∀ e, profilePartition dp cfg dev_num g = .error e → e.Benign

theorem benign_of_meets {α : Type} {prog : Except Fault α} {Q : α → Prop}
    (h : Meets Fault.Benign prog Q) : ∀ e, prog = .error e → e.Benign := by
  intro e he
  rw [he] at h
  exact h

theorem not_benign_zeroDivisor : ¬Fault.Benign .zeroDivisor := by
  intro h
  cases h with
  | inl h => cases h
  | inr h => cases h

theorem not_benign_replicaNum : ¬Fault.Benign .replicaNum := by
  intro h
  cases h with
  | inl h => cases h
  | inr h => cases h

/-- A profiler that never throws. -/
def plainStaging (batch_size : ℕ) (min_pipeline_bs : ℤ) : DPStaging :=
  { DPStaging.weightStaging 0 with batch_size := batch_size, min_pipeline_bs := min_pipeline_bs }

section Failures

variable {cfg : SearchConfig} {dev_num batch_size : ℕ} {min_pipeline_bs : ℤ}

theorem runDpComm_of_no_cuda (dp : DPStaging) (helper : GraphMergeHelper)
    (hcuda : cfg.cuda_device_count = 0) (dev_num : ℕ) :
    runDpComm dp helper cfg dev_num = .error .zeroDivisor := by
  unfold runDpComm
  rw [hcuda, Nat.min_zero]
  rfl

theorem profile_zero (dp : DPStaging) (g : IRGraph) (checkpointing : Bool) :
    profile dp g 0 checkpointing = .error .replicaNum :=
  rfl

theorem profilePartition_of_zero {dp : DPStaging} (g : IRGraph)
    (h : partitionReplicas dp cfg dev_num = .ok 0) :
    profilePartition dp cfg dev_num g = .error .replicaNum := by
  unfold profilePartition
  rw [h]
  exact profile_zero dp g false

theorem profile_plain (hbatch : 0 < batch_size) (g : IRGraph) {repl : ℕ} (hrepl : 0 < repl) :
    profile (plainStaging batch_size min_pipeline_bs) g repl false = .ok ⟨1, 1, 0⟩ := by
  have hbatch' : batch_size ≠ 0 := hbatch.ne'
  have hrepl' : repl ≠ 0 := hrepl.ne'
  unfold profile ceilDivide splitBatch divide remainder plainStaging
  dsimp only
  simp only [if_neg hrepl', if_neg hbatch']
  rfl

theorem mapM_error {α β : Type} {f : α → Except Fault β} {l : List α} {e : Fault}
    (h : ∀ a ∈ l, (∃ b, f a = .ok b) ∨ f a = .error e) (hex : ∃ a ∈ l, f a = .error e) :
    l.mapM f = .error e := by
  induction l with
  | nil =>
    obtain ⟨a, ha, -⟩ := hex
    exact absurd ha List.not_mem_nil
  | cons a l ih =>
    rw [List.mapM_cons]
    cases h a List.mem_cons_self with
    | inr herror =>
      rw [herror]
      rfl
    | inl hok =>
      obtain ⟨b, hb⟩ := hok
      obtain ⟨a', ha', herror⟩ := hex
      cases List.mem_cons.mp ha' with
      | inl heq =>
        rw [← heq, herror] at hb
        cases hb
      | inr hmem =>
        rw [hb]
        change (l.mapM f >>= fun l' => pure (b :: l')) = _
        rw [ih (fun a ha => h a (List.mem_cons_of_mem _ ha)) ⟨a', hmem, herror⟩]
        rfl

/-- The summary of a node fails where a number of replicas becomes zero. -/
theorem makeNodeEvalSummary_of_zero (hbatch : 0 < batch_size) {least : ℤ} {d : ℕ} (hd : 1 ≤ d)
    (hle : d ≤ dev_num) (hzero : toInt (d * least) = 0) :
    makeNodeEvalSummary (plainStaging batch_size min_pipeline_bs) (DPStaging.weightHelper ["a"])
      dev_num least = .error .replicaNum := by
  have hnode : ((List.range' 1 dev_num).mapM fun d : ℕ => do
      let repl := toSize (toInt (d * least))
      let prof ← profile (plainStaging batch_size min_pipeline_bs) (DPStaging.weightGraph "a") repl
        false
      let step_comm_in ← calcInputCommTime (DPStaging.weightGraph "a") repl
      let step_comm_out ← calcOutputCommTime (DPStaging.weightGraph "a") repl
      return estimateEval prof step_comm_in step_comm_out 0 0) = .error .replicaNum := by
    apply mapM_error
    · intro d' _
      by_cases hzero' : toInt (d' * least) = 0
      · right
        rw [hzero']
        rfl
      · left
        have hpos := toSize_toInt_pos hzero'
        dsimp only
        rw [profile_plain hbatch _ hpos]
        unfold calcInputCommTime calcOutputCommTime divide
        simp only [if_neg hpos.ne']
        exact ⟨_, rfl⟩
    · refine ⟨d, List.mem_range'_1.mpr ⟨hd, by omega⟩, ?_⟩
      rw [hzero]
      rfl
  unfold makeNodeEvalSummary doMakeNodeSummary
  apply mapM_error
  · intro node hmem
    have hmem' : node ∈ [(⟨"a", DPStaging.weightGraph "a", [], []⟩ : MLNode)] := hmem
    obtain rfl := List.mem_singleton.mp hmem'
    exact Or.inr hnode
  · exact ⟨⟨"a", DPStaging.weightGraph "a", [], []⟩, List.mem_cons_self, hnode⟩

theorem runDpComm_of_summary (hbatch : 0 < batch_size) (hdev : 0 < dev_num)
    (hcuda : 0 < cfg.cuda_device_count) (hshow : cfg.show_dp_summary = true) {d : ℕ} (hd : 1 ≤ d)
    (hle : d ≤ dev_num) (hzero : toInt (d * cfg.pipelineRange.1) = 0) :
    runDpComm (plainStaging batch_size min_pipeline_bs) (DPStaging.weightHelper ["a"]) cfg
      dev_num = .error .replicaNum := by
  have hper : min dev_num cfg.cuda_device_count ≠ 0 := (lt_min hdev hcuda).ne'
  unfold runDpComm divide remainder
  dsimp only
  rw [if_neg hper, if_neg hper, hshow, makeNodeEvalSummary_of_zero hbatch hd hle hzero]
  rfl

end Failures

/-- The default settings on nodes with a number of CUDA devices. -/
def defaultConfig (cuda_device_count : ℕ) : SearchConfig where
  min_pipeline := 1
  max_pipeline := 32
  pipeline_num := 0
  partition_num := 0
  dp_search_all := false
  show_dp_summary := false
  cuda_device_count := cuda_device_count

theorem toInt_of_lt {value : ℕ} (h : value < 2 ^ 31) : toInt value = value := by
  unfold toInt
  rw [Int.bmod_eq_of_le]
  · omega
  · omega

/-- As long as no number is too large, there must be a CUDA device and a smallest part of the batch.
-/
theorem nonzeroConfig_iff (cfg : SearchConfig) {dev_num batch_size min_pipeline_bs : ℕ}
    (hdev : 0 < dev_num) (hshow : cfg.show_dp_summary = false)
    (hmax : 0 < toSize cfg.max_pipeline) (hrepl : dev_num * toSize cfg.max_pipeline < 2 ^ 31)
    (hbatch : batch_size < 2 ^ 31) (hmin : min_pipeline_bs < 2 ^ 31) :
    NonzeroConfig cfg dev_num batch_size min_pipeline_bs ↔
      0 < cfg.cuda_device_count ∧ min_pipeline_bs ≤ batch_size := by
  have hsize : toSize min_pipeline_bs = min_pipeline_bs := by
    unfold toSize
    omega
  have hproduct : toInt (dev_num * toSize cfg.max_pipeline) =
      (dev_num * toSize cfg.max_pipeline : ℕ) := by
    rw [← toInt_of_lt hrepl]
    push_cast
    rfl
  have hpos : 0 < dev_num * toSize cfg.max_pipeline := Nat.mul_pos hdev hmax
  have hsamples : toInt (batch_size / min_pipeline_bs : ℕ) =
      (batch_size / min_pipeline_bs : ℕ) :=
    toInt_of_lt (lt_of_le_of_lt (Nat.div_le_self _ _) hbatch)
  constructor
  · intro h
    refine ⟨h.cuda, ?_⟩
    by_contra hlt
    have hzero : batch_size / min_pipeline_bs = 0 := Nat.div_eq_of_lt (not_le.mp hlt)
    have hneg := (h.samples (by omega)).2
    rw [hsize, hsamples, hzero, hproduct] at hneg
    have := hneg rfl
    omega
  · rintro ⟨hcuda, hle⟩
    refine ⟨hcuda, ?_, ?_, ?_⟩
    · rw [hshow]
      intro h
      cases h
    · rw [hproduct]
      omega
    · rw [hsize, hproduct, hsamples]
      intro hmin_pos
      have hquot : 0 < batch_size / min_pipeline_bs := Nat.div_pos hle hmin_pos
      constructor <;> omega

end Checked

end Rannc
