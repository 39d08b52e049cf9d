import Rannc.Graph.Allocation
import Rannc.Graph.ZeroDivisors

/-!
# The devices of a solution

The replicas of the stages of a solution are never more than the devices, whatever is left of the
devices when they are divided into nodes and the nodes among the replicas.
-/
namespace Rannc

namespace Checked

section Sum

variable {dp : DPStaging} {helper : GraphMergeHelper}
  {stage_num dev_num_per_group replica_num pipeline_num : ℕ} {checkpointing : Bool}

theorem sum_insertKey_le (key : String) (value : ℕ) (map : List (String × ℕ)) :
    ((insertKey key value map).map Prod.snd).sum ≤ value + (map.map Prod.snd).sum := by
  have hsub : (eraseKey key map).Sublist map := List.filter_sublist
  have hle := (hsub.map Prod.snd).sum_le_sum fun _ _ => Nat.zero_le _
  simpa [insertKey] using hle

/-- Reading back adds the replicas of the devices that are left. -/
theorem readBack_replicaSum {table : DPTable}
    (htable : dp.TableOk helper replica_num pipeline_num checkpointing table) {s b d : ℕ}
    {start sol : AllocSolution}
    (h : DPStaging.readBack helper replica_num table s b d start = some sol) :
    (sol.repl_nums.map Prod.snd).sum ≤ (start.repl_nums.map Prod.snd).sum + d * replica_num := by
  induction s generalizing b d start with
  | zero =>
    obtain rfl := Option.some.inj h
    exact Nat.le_add_right _ _
  | succ s ih =>
    unfold DPStaging.readBack at h
    dsimp only at h
    split_ifs at h with heval
    · obtain rfl := Option.some.inj h
      simp
    · obtain ⟨step_graph, -, hrest⟩ := Option.bind_eq_some_iff.mp h
      have hdev := (htable.cell s b d (not_le.mp heval)).stage.dev_pos
      dsimp only at hdev
      have hinsert := sum_insertKey_le step_graph.name
        ((d - (table (s + 1) b d).pre_dev_num) * replica_num) start.repl_nums
      have hsplit : (d - (table (s + 1) b d).pre_dev_num) * replica_num +
          (table (s + 1) b d).pre_dev_num * replica_num = d * replica_num := by
        rw [← Nat.add_mul, Nat.sub_add_cancel (by omega)]
      have hle := ih hrest
      dsimp only at hle
      omega

theorem doRunDpComm_replicaSum {sol : AllocSolution}
    (h : dp.doRunDpComm helper stage_num dev_num_per_group replica_num pipeline_num
      checkpointing = some sol) :
    (sol.repl_nums.map Prod.snd).sum ≤ dev_num_per_group * replica_num := by
  obtain ⟨table, hfill, hread⟩ := Option.bind_eq_some_iff.mp h
  have hle := readBack_replicaSum (DPStaging.TableOk.fillTable hfill) hread
  dsimp only at hle
  split_ifs at hle with heval
  · simpa using hle
  · exact hle.trans (by simp)

end Sum

/-- All replicas of a solution have a device. -/
def HasDevices (dev_num : ℕ) (sol : AllocSolution) : Prop :=
  (sol.repl_nums.map Prod.snd).sum ≤ dev_num

section Search

variable {dp : DPStaging} {helper : GraphMergeHelper} {cfg : SearchConfig}
  {dev_num dev_per_node node_num_total : ℕ}

theorem batch_pos_of_mem {pipeline_num : ℕ} (hmem : pipeline_num ∈ pipelineNums dp cfg) :
    0 < dp.batch_size := by
  have hpos := pos_of_mem_pipelineNums hmem
  have hle := List.all_eq_true.mp List.all_takeWhile pipeline_num hmem
  by_contra hzero
  have hbatch : toInt dp.batch_size = 0 := by simp [Nat.eq_zero_of_not_pos hzero, toInt]
  simp only [hbatch, decide_eq_true_eq, le_min_iff] at hle
  omega

theorem pos_of_remainder (a b : ℕ) : Meets (fun _ => True) (remainder a b) fun _ => 0 < b := by
  unfold remainder
  split_ifs with hb
  · trivial
  · exact Nat.pos_of_ne_zero hb

variable (hnodes : dev_per_node * node_num_total ≤ dev_num)

include hnodes

theorem searchPipeline_hasDevices {node_num_used stage_num : ℕ} (hused : 0 < node_num_used)
    (hle : node_num_used ≤ node_num_total) {plans : Plans}
    (hplans : ∀ sol ∈ plans.pl_sols, HasDevices dev_num sol) {pipeline_num : ℕ}
    (hmem : pipeline_num ∈ pipelineNums dp cfg) :
    Meets (fun _ => True) (searchPipeline dp helper dev_per_node node_num_total node_num_used
      stage_num plans pipeline_num) fun plans => ∀ sol ∈ plans.pl_sols, HasDevices dev_num sol := by
  unfold searchPipeline
  apply (meets_divide hused).result.bind
  intro replica_num hreplica_num
  have hreplica : 0 < replica_num := hreplica_num ▸ Nat.div_pos hle hused
  apply (Meets.result (doRunDpComm_agrees (batch_pos_of_mem hmem) hreplica
    (pos_of_mem_pipelineNums hmem))).bind
  intro sol hsol
  have hfits : HasDevices dev_num sol := by
    have hsum := doRunDpComm_replicaSum hsol
    have hdiv : node_num_used * replica_num ≤ node_num_total :=
      hreplica_num ▸ Nat.mul_div_le node_num_total node_num_used
    calc (sol.repl_nums.map Prod.snd).sum ≤ dev_per_node * node_num_used * replica_num := hsum
      _ = dev_per_node * (node_num_used * replica_num) := Nat.mul_assoc ..
      _ ≤ dev_per_node * node_num_total := Nat.mul_le_mul_left _ hdiv
      _ ≤ dev_num := hnodes
  apply (meets_true _).bind
  intro next _
  apply Meets.pure
  split_ifs
  · exact hplans
  · intro sol' hsol'
    cases List.mem_append.mp hsol' with
    | inl hmem => exact hplans sol' hmem
    | inr hmem => exact List.mem_singleton.mp hmem ▸ hfits

theorem searchNodeNum_hasDevices {node_num_used : ℕ} (hused : 0 < node_num_used)
    (hle : node_num_used ≤ node_num_total) {plans : Plans}
    (hplans : ∀ sol ∈ plans.pl_sols, HasDevices dev_num sol) :
    Meets (fun _ => True) (searchNodeNum dp helper cfg dev_per_node node_num_total plans
      node_num_used) fun turn => ∀ sol ∈ turn.1.pl_sols, HasDevices dev_num sol := by
  unfold searchNodeNum
  dsimp only
  split_ifs
  · exact Meets.pure hplans
  all_goals
    apply Meets.bind (Q := fun plans => ∀ sol ∈ plans.pl_sols, HasDevices dev_num sol)
    · apply Meets.foldUntil _ hplans
      intro plans stage_num _ hplans
      apply Meets.bind (Q := fun plans => ∀ sol ∈ plans.pl_sols, HasDevices dev_num sol)
      · apply Meets.foldlM _ hplans
        intro plans pipeline_num hmem hplans
        exact searchPipeline_hasDevices hnodes hused hle hplans hmem
      · intro plans hplans
        exact Meets.pure hplans
    · intro plans hplans
      exact Meets.pure hplans

omit hnodes in
theorem meets_bestPlan_hasDevices {best : ℤ × AllocSolution} {sol : AllocSolution}
    (hbest : HasDevices dev_num best.2) (hsol : HasDevices dev_num sol) :
    Meets (fun _ => True) (bestPlan dp best sol) fun best => HasDevices dev_num best.2 := by
  unfold bestPlan
  apply (meets_true _).bind
  intro est_time _
  apply Meets.pure
  split_ifs
  · exact hsol
  · exact hbest

omit hnodes in
theorem runDpComm_hasDevices {sol : AllocSolution} (h : runDpComm dp helper cfg dev_num = .ok sol) :
    HasDevices dev_num sol := by
  have hmeets : Meets (fun _ => True) (runDpComm dp helper cfg dev_num) (HasDevices dev_num) := by
    unfold runDpComm
    apply (pos_of_remainder _ _).bind
    intro _ hper
    apply (meets_divide hper).result.bind
    intro node_num_total htotal
    have hnodes : min dev_num cfg.cuda_device_count * node_num_total ≤ dev_num :=
      htotal ▸ Nat.mul_div_le _ _
    have hrest : Meets (fun _ => True) (do
        let plans ← foldUntil (searchNodeNum dp helper cfg (min dev_num cfg.cuda_device_count)
          node_num_total) ⟨false, []⟩ (List.range' 1 node_num_total)
        if plans.pl_sols.isEmpty then throw .thrown
        let best ← plans.pl_sols.foldlM (bestPlan dp) (LONG_MAX, ⟨[], [], 0, false⟩)
        let _ ← best.2.graphs.mapM (showStage dp best.2)
        return best.2) (HasDevices dev_num) := by
      apply Meets.bind (Q := fun plans => ∀ sol ∈ plans.pl_sols, HasDevices dev_num sol)
      · apply Meets.foldUntil
        · intro plans node_num_used hused hplans
          have hrange := List.mem_range'_1.mp hused
          exact searchNodeNum_hasDevices hnodes (by omega) (by omega) hplans
        · exact fun sol hsol => absurd hsol List.not_mem_nil
      · intro plans hplans
        split_ifs
        · trivial
        · apply Meets.bind (Q := fun best => HasDevices dev_num best.2)
          · apply Meets.foldlM
            · intro best sol hsol hbest
              exact meets_bestPlan_hasDevices hbest (hplans sol hsol)
            · exact Nat.zero_le _
          · intro best hbest
            apply (meets_true _).bind
            intro _ _
            exact hbest
    split_ifs
    · apply (meets_true _).bind
      intro _ _
      apply (meets_true _).bind
      intro _ _
      exact hrest
    · exact hrest
  rw [h] at hmeets
  exact hmeets

end Search

end Checked

/-- All ways to allocate pack the replicas exactly, and the replicas of a solution fit on the
devices. -/
theorem allocation_packs (partition : PartitionDP) (dev_count : ℕ) (dp : DPStaging)
    (helper : GraphMergeHelper) (cfg : SearchConfig) (dev_num : ℕ) (sol : AllocSolution) :
    (partition.Replicated dev_count →
      (∃ alloc, searchAllocationFlat partition = some alloc ∧
        ExactPacking partition.replica_nums alloc) ∧
      (∃ alloc, searchAllocationSimple partition = some alloc ∧
        ExactPacking partition.replica_nums alloc) ∧
      ((∀ it ∈ partition.replica_nums.entries, ∀ it' ∈ partition.replica_nums.entries,
          it.2 = it'.2) →
        ∃ alloc, searchAllocation partition dev_count = some alloc ∧
          ExactPacking partition.replica_nums alloc)) ∧
    (Checked.runDpComm dp helper cfg dev_num = .ok sol → Checked.HasDevices dev_num sol) :=
  ⟨fun hpart => ⟨searchAllocationFlat_packing hpart, searchAllocationSimple_packing hpart,
    searchAllocation_packing hpart⟩, Checked.runDpComm_hasDevices⟩

/-- Two graphs with two and four replicas. -/
def pairPartition : PartitionDP where
  id := "m"
  graph := producerGraph
  subgraphs := (Dict.empty.set "a" producerGraph).set "b" producerGraph
  replica_nums := (Dict.empty.set "a" 2).set "b" 4
  connections := []

theorem allocation_packs_pair :
    (∃ alloc, searchAllocationFlat pairPartition = some alloc ∧
      ExactPacking pairPartition.replica_nums alloc) ∧
    ∃ sol, Checked.runDpComm (DPStaging.weightStaging 1000) (DPStaging.weightHelper ["a", "b"])
        (Checked.defaultConfig 2) 2 = .ok sol ∧ sol.repl_nums ≠ [] ∧
      Checked.HasDevices 2 sol := by
  have hpart : pairPartition.Replicated 6 := by
    refine ⟨by decide, fun id => ?_, by decide, by decide⟩
    change id ∈ ["a", "b"] ↔ id ∈ ["a", "b"]
    exact Iff.rfl
  have hrun : (match Checked.runDpComm (DPStaging.weightStaging 1000)
      (DPStaging.weightHelper ["a", "b"]) (Checked.defaultConfig 2) 2 with
      | .ok sol => !sol.repl_nums.isEmpty
      | .error _ => false) = true := by
    decide +kernel
  have hpacks := allocation_packs pairPartition 6 (DPStaging.weightStaging 1000)
    (DPStaging.weightHelper ["a", "b"]) (Checked.defaultConfig 2) 2
  split at hrun
  · rename_i sol hsol
    have hne : sol.repl_nums ≠ [] := by simpa using hrun
    exact ⟨((hpacks sol).1 hpart).1, sol, hsol, hne, (hpacks sol).2 hsol⟩
  · exact absurd hrun (by simp)

end Rannc
