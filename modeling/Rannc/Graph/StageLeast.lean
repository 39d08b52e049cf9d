import Rannc.Graph.StageTrials

/-!
# The value of a cell against its candidates

The update of a cell is guarded by the value of the new stage, but what is stored is the larger of
that value and the value of the stages before. The cells hold the least value of their candidates
when no candidate passes the guard with stages before it that are worse than the cell.
-/
namespace Rannc

/-- The cell has the least value of its candidates, and points to one that has it. -/
structure CellLeast (log : List Trial) (table : DPTable) (s b d : ℕ) : Prop where
  attained : ∃ t ∈ log, t.For s b d ∧ t.b_prev = (table s b d).pre_boundary ∧
    t.d_prev = (table s b d).pre_dev_num ∧ t.value table = (table s b d).eval
  least : ∀ t ∈ log, t.For s b d → (table s b d).eval ≤ t.value table

/-- All cells that were ever updated have the least value of their candidates. -/
def LeastCells (log : List Trial) (table : DPTable) : Prop :=
  ∀ s b d, (∃ t ∈ log, t.For s b d ∧ t.Updates) → CellLeast log table s b d

/-- The candidate does not pass the guard, or the stages before it are not worse than the cell. -/
def Trial.Guarded (t : Trial) : Prop :=
  t.Updates → (t.pre t.before).eval ≤ (t.cell t.before).eval

structure LeastInv (s : ℕ) (table : DPTable) (log : List Trial) : Prop where
  le_error : ∀ s b d, (table s b d).eval ≤ ERROR_VAL
  stage : ∀ t ∈ log, 0 < t.s ∧ t.s ≤ s
  least : ∀ t ∈ log, (t.cell table).eval ≤ t.value table
  updated : ∀ t ∈ log, t.Updates → (t.cell table).eval < ERROR_VAL
  attained : ∀ s b d, (table (s + 1) b d).eval < ERROR_VAL → ∃ t ∈ log, t.For (s + 1) b d ∧
    t.b_prev = (table (s + 1) b d).pre_boundary ∧ t.d_prev = (table (s + 1) b d).pre_dev_num ∧
      t.value table = (table (s + 1) b d).eval

namespace LeastInv

variable {cost : ℕ → ℕ → ℕ → Option StepCost} {s : ℕ} {table : DPTable} {log : List Trial}

theorem init : LeastInv 0 DPTable.init [] := by
  constructor
  · intro s b d
    unfold DPTable.init
    split_ifs
    · decide
    · exact le_rfl
  · intro t ht
    exact absurd ht List.not_mem_nil
  · intro t ht
    exact absurd ht List.not_mem_nil
  · intro t ht
    exact absurd ht List.not_mem_nil
  · intro s b d h
    exact absurd h (lt_irrefl _)

theorem nextStage (h : LeastInv s table log) : LeastInv (s + 1) table log where
  le_error := h.le_error
  stage t ht := ⟨(h.stage t ht).1, (h.stage t ht).2.trans (Nat.le_succ s)⟩
  least := h.least
  updated := h.updated
  attained := h.attained

theorem pre_set {t t' : Trial} (ht : 0 < t.s) (hle : t.s ≤ t'.s) (state : DPState) :
    t.pre (table.set t'.s t'.b t'.d state) = t.pre table := by
  unfold Trial.pre DPTable.set
  rw [if_neg]
  omega

theorem value_set {t t' : Trial} (ht : 0 < t.s) (hle : t.s ≤ t'.s) (state : DPState) :
    t.value (table.set t'.s t'.b t'.d state) = t.value table := by
  rw [Trial.value, Trial.value, pre_set ht hle]

theorem cell_set (table : DPTable) (t t' : Trial) (state : DPState) :
    t'.cell (table.set t.s t.b t.d state) = state ∧ t'.cell table = t.cell table ∨
      t'.cell (table.set t.s t.b t.d state) = t'.cell table := by
  cases DPTable.set_cases table t.s t.b t.d state t'.s t'.b t'.d with
  | inl heq =>
    obtain ⟨hs, hb, hd, heq⟩ := heq
    left
    refine ⟨heq, ?_⟩
    rw [Trial.cell, Trial.cell, hs, hb, hd]
  | inr heq => exact Or.inr heq

theorem trial_kept {t : Trial} (h : LeastInv (s + 1) t.before log) (hs : t.s = s + 1)
    (hkept : ¬t.Updates) : LeastInv (s + 1) t.before (log ++ [t]) := by
  have hle : (t.cell t.before).eval ≤ t.step.val (t.pre t.before) := not_lt.mp hkept
  constructor
  · exact h.le_error
  · intro t' ht'
    cases List.mem_append.mp ht' with
    | inl ht' => exact h.stage t' ht'
    | inr ht' =>
      obtain rfl := List.mem_singleton.mp ht'
      omega
  · intro t' ht'
    cases List.mem_append.mp ht' with
    | inl ht' => exact h.least t' ht'
    | inr ht' =>
      obtain rfl := List.mem_singleton.mp ht'
      exact hle.trans (le_max_left _ _)
  · intro t' ht' hup
    cases List.mem_append.mp ht' with
    | inl ht' => exact h.updated t' ht' hup
    | inr ht' =>
      obtain rfl := List.mem_singleton.mp ht'
      exact absurd hup hkept
  · intro s' b d heval
    obtain ⟨t', ht', hfor⟩ := h.attained s' b d heval
    exact ⟨t', List.mem_append_left _ ht', hfor⟩

theorem trial_updated {t : Trial} (h : LeastInv (s + 1) t.before log) (hs : t.s = s + 1)
    (hpre : (t.pre t.before).eval < ERROR_VAL) (hup : t.Updates) (hguard : t.Guarded) :
    LeastInv (s + 1) (t.before.set t.s t.b t.d t.state) (log ++ [t]) := by
  have hpos : 0 < t.s := by omega
  have hcell : (t.cell t.before).eval ≤ ERROR_VAL := h.le_error t.s t.b t.d
  have hvalue : t.state.eval < ERROR_VAL := max_lt (hup.trans_le hcell) hpre
  have hbetter : t.state.eval ≤ (t.cell t.before).eval := max_le hup.le (hguard hup)
  have hself : t.cell (t.before.set t.s t.b t.d t.state) = t.state := DPTable.set_self
  have hvalue_self : t.value (t.before.set t.s t.b t.d t.state) = t.state.eval :=
    value_set hpos le_rfl t.state
  have hvalue_old : ∀ t' ∈ log,
      t'.value (t.before.set t.s t.b t.d t.state) = t'.value t.before := by
    intro t' ht'
    exact value_set (h.stage t' ht').1 ((h.stage t' ht').2.trans hs.ge) t.state
  have hcell_old := fun t' : Trial => cell_set t.before t t' t.state
  constructor
  · intro s' b d
    cases DPTable.set_cases t.before t.s t.b t.d t.state s' b d with
    | inl heq =>
      rw [heq.2.2.2]
      exact hvalue.le
    | inr heq =>
      rw [heq]
      exact h.le_error s' b d
  · intro t' ht'
    cases List.mem_append.mp ht' with
    | inl ht' => exact h.stage t' ht'
    | inr ht' =>
      obtain rfl := List.mem_singleton.mp ht'
      omega
  · intro t' ht'
    cases List.mem_append.mp ht' with
    | inl ht' =>
      have hold := h.least t' ht'
      rw [hvalue_old t' ht']
      cases hcell_old t' with
      | inl heq =>
        rw [heq.1]
        rw [heq.2] at hold
        exact hbetter.trans hold
      | inr heq => rwa [heq]
    | inr ht' =>
      obtain rfl := List.mem_singleton.mp ht'
      rw [hself, hvalue_self]
  · intro t' ht' hup'
    cases hcell_old t' with
    | inl heq => rwa [heq.1]
    | inr heq =>
      cases List.mem_append.mp ht' with
      | inl ht' =>
        rw [heq]
        exact h.updated t' ht' hup'
      | inr ht' =>
        obtain rfl := List.mem_singleton.mp ht'
        rwa [hself]
  · intro s' b d heval
    cases DPTable.set_cases t.before t.s t.b t.d t.state (s' + 1) b d with
    | inl heq =>
      obtain ⟨hs', hb', hd', heq⟩ := heq
      rw [heq]
      exact ⟨t, List.mem_append_right _ (List.mem_singleton_self t), ⟨hs'.symm, hb'.symm, hd'.symm⟩,
        rfl, rfl, hvalue_self⟩
    | inr heq =>
      rw [heq] at heval ⊢
      obtain ⟨t', ht', hfor, hb, hd, hval⟩ := h.attained s' b d heval
      exact ⟨t', List.mem_append_left _ ht', hfor, hb, hd, (hvalue_old t' ht').trans hval⟩

theorem of_run (h : TrialRun cost s table log) (hguard : ∀ t ∈ log, t.Guarded) :
    LeastInv s table log := by
  induction h with
  | init => exact init
  | stage _ ih => exact (ih hguard).nextStage
  | @trial s t log _ hs hran ih =>
    have hinv := ih fun t' ht' => hguard t' (List.mem_append_left _ ht')
    have ht := hguard t (List.mem_append_right _ (List.mem_singleton_self t))
    by_cases hup : t.Updates
    · rw [hran.updated hup]
      exact hinv.trial_updated hs hran.pre hup ht
    · rw [hran.kept hup]
      exact hinv.trial_kept hs hup

theorem cellLeast (h : LeastInv s table log) {s' b d : ℕ}
    (heval : (table (s' + 1) b d).eval < ERROR_VAL) : CellLeast log table (s' + 1) b d := by
  constructor
  · exact h.attained s' b d heval
  · intro t ht hfor
    have hleast := h.least t ht
    rwa [Trial.cell, hfor.1, hfor.2.1, hfor.2.2] at hleast

theorem leastCells (h : LeastInv s table log) : LeastCells log table := by
  intro s' b d hex
  obtain ⟨t, ht, ⟨rfl, rfl, rfl⟩, hup⟩ := hex
  obtain ⟨k, hk⟩ : ∃ k, t.s = k + 1 := ⟨t.s - 1, by have := (h.stage t ht).1; omega⟩
  have heval := h.updated t ht hup
  rw [Trial.cell, hk] at heval
  rw [hk]
  exact h.cellLeast heval

end LeastInv

theorem TrialRun.ran {cost : ℕ → ℕ → ℕ → Option StepCost} {s : ℕ} {table : DPTable}
    {log : List Trial} (h : TrialRun cost s table log) :
    ∀ t ∈ log, t.Ran cost := by
  induction h with
  | init =>
    intro t ht
    exact absurd ht List.not_mem_nil
  | stage _ ih => exact ih
  | trial _ _ hran ih =>
    intro t ht
    cases List.mem_append.mp ht with
    | inl ht => exact ih t ht
    | inr ht => exact List.mem_singleton.mp ht ▸ hran

/-- Without communication the value of a cell is that of its slowest passes, so a stage after it is
never better than the cell. -/
theorem TrialRun.guarded_of_no_comm {cost : ℕ → ℕ → ℕ → Option StepCost} {s : ℕ} {table : DPTable}
    {log : List Trial} (h : TrialRun cost s table log)
    (hcomm : ∀ b_prev b dev_num step, cost b_prev b dev_num = some step →
      step.step_in_comm = 0 ∧ step.step_out_comm = 0) :
    (∀ s b d, (table s b d).eval < ERROR_VAL →
        (table s b d).eval = (table s b d).max_fwd + (table s b d).max_bwd) ∧
      ∀ t ∈ log, t.Guarded := by
  induction h with
  | init =>
    constructor
    · intro s b d heval
      unfold DPTable.init at heval ⊢
      split_ifs at heval ⊢
      · rfl
      · exact absurd heval (lt_irrefl _)
    · intro t ht
      exact absurd ht List.not_mem_nil
  | stage _ ih => exact ih
  | @trial s t log _ hs hran ih =>
    obtain ⟨hcells, hlog⟩ := ih
    obtain ⟨hin, hout⟩ := hcomm _ _ _ _ hran.cost
    have hpre := hcells (t.s - 1) t.b_prev t.d_prev hran.pre
    have hval : t.step.val (t.pre t.before) = t.state.max_fwd + t.state.max_bwd := by
      simp [StepCost.val, estimateEval, hin, hout, Trial.state]
    have hle : (t.pre t.before).eval ≤ t.step.val (t.pre t.before) := by
      rw [hval]
      refine hpre.le.trans (add_le_add ?_ ?_)
      · exact le_max_right _ _
      · exact le_max_right _ _
    have hstate : t.state.eval = t.state.max_fwd + t.state.max_bwd :=
      (max_eq_left hle).trans hval
    constructor
    · intro s' b d heval
      by_cases hup : t.Updates
      · rw [hran.updated hup] at heval ⊢
        cases DPTable.set_cases t.before t.s t.b t.d t.state s' b d with
        | inl heq => rwa [heq.2.2.2]
        | inr heq =>
          rw [heq] at heval ⊢
          exact hcells s' b d heval
      · rw [hran.kept hup] at heval ⊢
        exact hcells s' b d heval
    · intro t' ht'
      cases List.mem_append.mp ht' with
      | inl ht' => exact hlog t' ht'
      | inr ht' =>
        obtain rfl := List.mem_singleton.mp ht'
        intro hup
        exact hle.trans (le_of_lt hup)

theorem Trial.Ran.guarded_iff {cost : ℕ → ℕ → ℕ → Option StepCost} {t : Trial} (h : t.Ran cost) :
    t.Guarded ↔ (t.Updates → (t.cell t.after).eval ≤ (t.cell t.before).eval) := by
  refine forall_congr' fun hup => ?_
  have hafter : t.cell t.after = t.state := by
    rw [h.updated hup]
    exact DPTable.set_self
  rw [hafter]
  constructor
  · intro hpre
    exact max_le (le_of_lt hup) hpre
  · intro hle
    exact (le_max_right _ _).trans hle

namespace DPStaging

variable {dp : DPStaging} {helper : GraphMergeHelper}
  {stage_num dev_num_per_group replica_num pipeline_num : ℕ} {checkpointing : Bool}

theorem lastCell_of_solution {table : DPTable} {sol : AllocSolution}
    (htable : dp.fillTable helper stage_num dev_num_per_group replica_num pipeline_num
      checkpointing = some table)
    (h : dp.doRunDpComm helper stage_num dev_num_per_group replica_num pipeline_num checkpointing =
      some sol) (hne : sol.graphs ≠ []) : ∃ s, stage_num = s + 1 ∧
      (table (s + 1) helper.graph.nodes.length dev_num_per_group).eval < ERROR_VAL := by
  obtain ⟨table', hfill, hread⟩ := Option.bind_eq_some_iff.mp h
  obtain rfl := Option.some.inj (htable.symm.trans hfill)
  dsimp only at hread
  cases stage_num with
  | zero =>
    obtain rfl := Option.some.inj hread
    exact absurd rfl hne
  | succ s =>
    split_ifs at hread with heval
    · exact ⟨s, rfl, heval⟩
    · exact absurd (graphs_of_no_device (TableOk.fillTable hfill) hread) hne

def layerGraph (name : String) (size : ℕ) : IRGraph where
  name := name
  nodes := [{ name := name, input_names := [name], output_names := [name ++ "_out"], id := name }]
  values := [(name, { name := name, type := .tensor .FLOAT [size] true, is_batch := true }),
    (name ++ "_out", { name := name ++ "_out", type := .tensor .FLOAT [1] true, is_batch := true })]
  input_names := [name]
  output_names := [name ++ "_out"]

def layerHelper (layers : List (String × ℕ)) : GraphMergeHelper where
  graph := ⟨layers.map fun l => ⟨l.1, layerGraph l.1 l.2, [], []⟩, []⟩
  names := MLPartitioner.crossingNames
  used := 0
  edge_order := MLPartitioner.crossingPartitioner.edge_order

def slowStaging : DPStaging where
  profile g _ _ _ := if "a" ∈ g.input_names then some ⟨10, 10, 0⟩ else some ⟨1, 1, 0⟩
  batch_size := 8
  dev_mem := 10 ^ 9
  use_amp_master_params := false
  enable_zero := false
  opt_param_factor := 2
  min_pipeline_bs := 1
  limit_dev_num_pot := true
  limit_dev_num_more_than_bs := true
  do_coarsening := true

end DPStaging

end Rannc
