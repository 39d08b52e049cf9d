import Rannc.Graph.Coarsening
import Rannc.Graph.StageLoops
import Mathlib.Tactic.Ring

/-!
# Solutions of the stage search

Every cell of the table that is feasible points to a feasible cell with one stage less, and the
stage between them was tested for the range and the devices it is used with. So what is read back
is a chain of tested stages from the first node to the last.
-/
namespace Rannc

theorem ceilDiv_nonneg (a b : ℕ) : 0 ≤ ceilDiv a b := by
  unfold ceilDiv
  cases Nat.eq_zero_or_pos b with
  | inl hb => simp [hb]
  | inr hb =>
    have hneg : -(a : ℤ) / b ≤ 0 := Int.ediv_nonpos_of_nonpos_of_neg (by omega) (by omega)
    omega

section PowerOfTwo

theorem pow_of_halve {fuel x : ℕ} (h : isPowerOfTwo.halve fuel x = 1) : ∃ k, x = 2 ^ k := by
  induction fuel generalizing x with
  | zero => exact ⟨0, h⟩
  | succ fuel ih =>
    unfold isPowerOfTwo.halve at h
    split_ifs at h with heven
    · obtain ⟨k, hk⟩ := ih h
      exact ⟨k + 1, by rw [pow_succ]; omega⟩
    · exact ⟨0, h⟩

theorem halve_pow {fuel k : ℕ} (h : k ≤ fuel) : isPowerOfTwo.halve fuel (2 ^ k) = 1 := by
  induction fuel generalizing k with
  | zero =>
    obtain rfl : k = 0 := by omega
    rfl
  | succ fuel ih =>
    unfold isPowerOfTwo.halve
    cases k with
    | zero => rfl
    | succ k =>
      have hpos : 0 < 2 ^ k := Nat.two_pow_pos k
      have heven : 2 ^ (k + 1) % 2 = 0 ∧ 1 < 2 ^ (k + 1) := by
        rw [pow_succ]
        omega
      have hhalf : 2 ^ (k + 1) / 2 = 2 ^ k := by
        rw [pow_succ]
        omega
      rw [if_pos heven, hhalf]
      exact ih (by omega)

theorem isPowerOfTwo_iff {x : ℕ} : isPowerOfTwo x = true ↔ ∃ k, x = 2 ^ k := by
  unfold isPowerOfTwo
  rw [decide_eq_true_iff]
  constructor
  · exact pow_of_halve
  · rintro ⟨k, rfl⟩
    exact halve_pow Nat.lt_two_pow_self.le

end PowerOfTwo

section Keys

variable {α : Type}

theorem lookup_eraseKey_of_ne {key k : String} (h : k ≠ key) (map : List (String × α)) :
    (eraseKey key map).lookup k = map.lookup k := by
  induction map with
  | nil => rfl
  | cons it map ih =>
    obtain ⟨name, value⟩ := it
    unfold eraseKey at ih ⊢
    by_cases hname : name = key
    · have hk : (k == name) = false := beq_eq_false_iff_ne.mpr (hname ▸ h)
      rw [List.filter_cons_of_neg (by simp [hname]), ih, List.lookup_cons, hk]
    · rw [List.filter_cons_of_pos (by simp [hname]), List.lookup_cons, List.lookup_cons, ih]

theorem lookup_insertKey_self (key : String) (value : α) (map : List (String × α)) :
    (insertKey key value map).lookup key = some value :=
  List.lookup_cons_self

theorem lookup_insertKey_of_ne {key k : String} (h : k ≠ key) (value : α)
    (map : List (String × α)) : (insertKey key value map).lookup k = map.lookup k := by
  have hk : (k == key) = false := beq_eq_false_iff_ne.mpr h
  unfold insertKey
  rw [List.lookup_cons, hk]
  exact lookup_eraseKey_of_ne h map

theorem lookup_foldr_insertKey {l : List (String × α)} (map : List (String × α))
    (hl : (l.map Prod.fst).Nodup) {it : String × α} (hit : it ∈ l) :
    (l.foldr (fun it map => insertKey it.1 it.2 map) map).lookup it.1 = some it.2 := by
  induction l with
  | nil => exact absurd hit List.not_mem_nil
  | cons a l ih =>
    rw [List.map_cons, List.nodup_cons] at hl
    rw [List.foldr_cons]
    cases List.mem_cons.mp hit with
    | inl heq =>
      obtain rfl := heq
      exact lookup_insertKey_self _ _ _
    | inr hit =>
      have hne : it.1 ≠ a.1 := by
        intro heq
        exact hl.1 (heq ▸ List.mem_map_of_mem hit)
      rw [lookup_insertKey_of_ne hne]
      exact ih hl.2 hit

end Keys

namespace DPTable

variable {table : DPTable} {s b d : ℕ} {state : DPState}

theorem set_self : table.set s b d state s b d = state :=
  if_pos ⟨rfl, rfl, rfl⟩

theorem set_cases (table : DPTable) (s b d : ℕ) (state : DPState) (s' b' d' : ℕ) :
    (s' = s ∧ b' = b ∧ d' = d ∧ table.set s b d state s' b' d' = state) ∨
      table.set s b d state s' b' d' = table s' b' d' := by
  unfold set
  split_ifs with h
  · exact Or.inl ⟨h.1, h.2.1, h.2.2, rfl⟩
  · exact Or.inr rfl

theorem eval_set_lt (hstate : state.eval < ERROR_VAL) {s' b' d' : ℕ}
    (h : (table s' b' d').eval < ERROR_VAL) :
    (table.set s b d state s' b' d').eval < ERROR_VAL := by
  cases set_cases table s b d state s' b' d' with
  | inl heq => rwa [heq.2.2.2]
  | inr heq => rwa [heq]

end DPTable

/-- The nodes from `first` before `boundary`, with a number of devices. -/
structure Stage where
  first : ℕ
  boundary : ℕ
  dev_num : ℕ

/-- The value of a stage after a cell of the stages before. -/
def StepCost.val (step : StepCost) (prev : DPState) : ℤ :=
  estimateEval step.step_prof step.step_in_comm step.step_out_comm prev.max_fwd prev.max_bwd

namespace DPStaging

variable (dp : DPStaging) (helper : GraphMergeHelper)
  (stage_num dev_num_per_group replica_num pipeline_num : ℕ) (checkpointing : Bool)

/-- A number of devices that no restriction in force forbids. -/
structure DevNumOk (dev_num : ℕ) : Prop where
  more_than_bs : dp.limit_dev_num_more_than_bs = true →
    (dev_num : ℤ) ≤ ceilDiv dp.batch_size (replica_num * pipeline_num)
  pot : dp.limit_dev_num_pot = true → ∃ k, dev_num = 2 ^ k
  min_bs : (toSize dp.min_pipeline_bs : ℤ) ≤
    ceilDiv dp.batch_size (replica_num * pipeline_num * dev_num)

/-- The memory test of a stage. -/
def FitsMem (st : Stage) : Prop :=
  ∃ step, dp.stepCost helper replica_num pipeline_num checkpointing st.first st.boundary
    st.dev_num = some step ∧ toSize step.step_mem < dp.dev_mem

structure StageOk (st : Stage) : Prop where
  nonempty : st.first < st.boundary
  dev_pos : 0 < st.dev_num
  limits : dp.DevNumOk replica_num pipeline_num st.dev_num
  fits : dp.FitsMem helper replica_num pipeline_num checkpointing st

/-- Stages one after another from the first node, with all devices before `d`. -/
inductive StageChain : ℕ → ℕ → ℕ → List Stage → Prop
  | nil : StageChain 0 0 0 []
  | snoc {s b d : ℕ} {stages : List Stage} {st : Stage} (hstages : StageChain s b d stages)
      (hst : dp.StageOk helper replica_num pipeline_num checkpointing st) (hfirst : st.first = b) :
      StageChain (s + 1) st.boundary (d + st.dev_num) (stages ++ [st])

/-- A feasible cell comes from a feasible cell before it by a tested stage. -/
structure CellOk (table : DPTable) (s b d : ℕ) (state : DPState) : Prop where
  stage : dp.StageOk helper replica_num pipeline_num checkpointing
    ⟨state.pre_boundary, b, d - state.pre_dev_num⟩
  pre : (table s state.pre_boundary state.pre_dev_num).eval < ERROR_VAL
  start : s = 0 → state.pre_boundary = 0 ∧ state.pre_dev_num = 0

structure TableOk (table : DPTable) : Prop where
  le_error : ∀ s b d, (table s b d).eval ≤ ERROR_VAL
  cell : ∀ s b d, (table (s + 1) b d).eval < ERROR_VAL →
    dp.CellOk helper replica_num pipeline_num checkpointing table s b d (table (s + 1) b d)

/-- A cell that can be set to a state, as a stage from a feasible cell passes the tests and has a
smaller value. -/
structure Improves (table : DPTable) (s b d : ℕ) (step : StepCost) (state : DPState) : Prop where
  allowed : ¬dp.skipDevNum replica_num pipeline_num (d - state.pre_dev_num) = true
  pre : (table (s - 1) state.pre_boundary state.pre_dev_num).eval < ERROR_VAL
  cost : dp.stepCost helper replica_num pipeline_num checkpointing state.pre_boundary b
    (d - state.pre_dev_num) = some step
  fits : toSize step.step_mem < dp.dev_mem
  eval : state.eval = max (step.val (table (s - 1) state.pre_boundary state.pre_dev_num))
    (table (s - 1) state.pre_boundary state.pre_dev_num).eval
  better : step.val (table (s - 1) state.pre_boundary state.pre_dev_num) < (table s b d).eval

variable {dp helper stage_num dev_num_per_group replica_num pipeline_num checkpointing}

theorem DevNumOk.of_not_skip {dev_num : ℕ}
    (h : ¬dp.skipDevNum replica_num pipeline_num dev_num = true) :
    dp.DevNumOk replica_num pipeline_num dev_num := by
  have hmax := ceilDiv_nonneg dp.batch_size (replica_num * pipeline_num)
  have hrepl := ceilDiv_nonneg dp.batch_size (replica_num * pipeline_num * dev_num)
  simp only [skipDevNum, Bool.or_eq_true, Bool.and_eq_true, decide_eq_true_eq, Bool.not_eq_true',
    not_or, not_and, not_lt, Bool.not_eq_false] at h
  push_cast at hmax hrepl h
  constructor
  · intro hlimit
    have hle := h.1.1 hlimit
    omega
  · intro hlimit
    exact isPowerOfTwo_iff.mp (h.1.2 hlimit)
  · have hle := h.2
    omega

theorem TableOk.init : dp.TableOk helper replica_num pipeline_num checkpointing DPTable.init := by
  constructor
  · intro s b d
    unfold DPTable.init
    split_ifs
    · decide
    · exact le_rfl
  · intro s b d h
    exact absurd h (lt_irrefl _)

/-- The table is kept when a cell is set to a feasible state that comes from a feasible cell. -/
theorem TableOk.set {table : DPTable} {s b d : ℕ} {state : DPState}
    (h : dp.TableOk helper replica_num pipeline_num checkpointing table)
    (hstate : state.eval < ERROR_VAL)
    (hcell : dp.CellOk helper replica_num pipeline_num checkpointing table s b d state) :
    dp.TableOk helper replica_num pipeline_num checkpointing (table.set (s + 1) b d state) := by
  constructor
  · intro s' b' d'
    cases DPTable.set_cases table (s + 1) b d state s' b' d' with
    | inl heq =>
      rw [heq.2.2.2]
      exact hstate.le
    | inr heq =>
      rw [heq]
      exact h.le_error s' b' d'
  · intro s' b' d' heval
    cases DPTable.set_cases table (s + 1) b d state (s' + 1) b' d' with
    | inl heq =>
      obtain ⟨hs, rfl, rfl, heq⟩ := heq
      obtain rfl := Nat.succ.inj hs
      rw [heq]
      exact ⟨hcell.stage, DPTable.eval_set_lt hstate hcell.pre, hcell.start⟩
    | inr heq =>
      rw [heq] at heval ⊢
      have hold := h.cell s' b' d' heval
      exact ⟨hold.stage, DPTable.eval_set_lt hstate hold.pre, hold.start⟩

/-- What one turn of the innermost loop does to the table. -/
theorem tryPrev_table {s b d b_prev d_prev : ℕ} {search search' : Search} {stop : Bool}
    (h : dp.tryPrev helper replica_num pipeline_num checkpointing s b d b_prev search d_prev =
      some (search', stop)) :
    search'.table = search.table ∨ ∃ step state,
      dp.Improves helper replica_num pipeline_num checkpointing search.table s b d step state ∧
        state.pre_boundary = b_prev ∧ state.pre_dev_num = d_prev ∧
        search'.table = search.table.set s b d state := by
  unfold tryPrev at h
  replace h := (of_guard_bind h).2
  dsimp only at h
  split_ifs at h with hskip hprev
  · left
    rw [← (Prod.mk.inj (Option.some.inj h)).1]
  · left
    rw [← (Prod.mk.inj (Option.some.inj h)).1]
  · obtain ⟨step, hstep, h⟩ := Option.bind_eq_some_iff.mp h
    split_ifs at h with hmem heval
    · left
      rw [← (Prod.mk.inj (Option.some.inj h)).1]
    · right
      obtain ⟨rfl, _⟩ := Prod.mk.inj (Option.some.inj h)
      let prev := search.table (s - 1) b_prev d_prev
      exact ⟨step, ⟨max (step.val prev) prev.eval, max step.step_prof.fwd_time prev.max_fwd,
        max step.step_prof.bwd_time prev.max_bwd, max step.ar_comm prev.max_allreduce, b_prev,
        d_prev⟩, ⟨hskip, not_le.mp hprev, hstep, not_le.mp hmem, rfl, heval⟩, rfl, rfl, rfl⟩
    · left
      rw [← (Prod.mk.inj (Option.some.inj h)).1]

theorem stepCost_range {b_prev b dev_num : ℕ} {step : StepCost}
    (h : dp.stepCost helper replica_num pipeline_num checkpointing b_prev b dev_num = some step) :
    b_prev < b ∧ b ≤ helper.graph.nodes.length := by
  exact (of_guard_bind h).1

theorem TableOk.tryPrev {s b d b_prev d_prev : ℕ} {search search' : Search} {stop : Bool}
    (hsearch : dp.TableOk helper replica_num pipeline_num checkpointing search.table)
    (hd : d_prev < d) (hstart : s = 0 → b_prev = 0 ∧ d_prev = 0)
    (h : dp.tryPrev helper replica_num pipeline_num checkpointing (s + 1) b d b_prev search d_prev =
      some (search', stop)) :
    dp.TableOk helper replica_num pipeline_num checkpointing search'.table := by
  cases tryPrev_table h with
  | inl heq => exact heq ▸ hsearch
  | inr hset =>
    obtain ⟨step, state, himp, rfl, rfl, heq⟩ := hset
    rw [heq]
    apply hsearch.set
    · rw [himp.eval]
      exact max_lt (himp.better.trans_le (hsearch.le_error _ _ _)) himp.pre
    · constructor
      · exact ⟨(stepCost_range himp.cost).1, Nat.sub_pos_of_lt hd,
          DevNumOk.of_not_skip himp.allowed, step, himp.cost, himp.fits⟩
      · exact himp.pre
      · exact hstart

theorem TableOk.fillTable {table : DPTable}
    (h : dp.fillTable helper stage_num dev_num_per_group replica_num pipeline_num checkpointing =
      some table) :
    dp.TableOk helper replica_num pipeline_num checkpointing table := by
  rw [← StageLoops.fillTable_tryPrev] at h
  exact StageLoops.fillTable_keeps
    (fun _ _ _ _ _ _ _ _ hd hstart hsearch => hsearch.tryPrev hd hstart) TableOk.init h

section Chain

variable {s b d : ℕ} {stages : List Stage}

theorem StageChain.stageOk
    (h : dp.StageChain helper replica_num pipeline_num checkpointing s b d stages) :
    ∀ st ∈ stages, dp.StageOk helper replica_num pipeline_num checkpointing st := by
  induction h with
  | nil =>
    intro st hst
    exact absurd hst List.not_mem_nil
  | snoc _ hok _ ih =>
    intro st hst
    cases List.mem_append.mp hst with
    | inl hst => exact ih st hst
    | inr hst => exact List.mem_singleton.mp hst ▸ hok

theorem StageChain.length
    (h : dp.StageChain helper replica_num pipeline_num checkpointing s b d stages) :
    stages.length = s := by
  induction h with
  | nil => rfl
  | snoc _ _ _ ih => rw [List.length_append, ih, List.length_singleton]

theorem StageChain.dev_sum
    (h : dp.StageChain helper replica_num pipeline_num checkpointing s b d stages) :
    (stages.map Stage.dev_num).sum = d := by
  induction h with
  | nil => rfl
  | snoc _ _ _ ih =>
    rw [List.map_append, List.sum_append, ih, List.map_singleton, List.sum_singleton]

theorem StageChain.layers
    (h : dp.StageChain helper replica_num pipeline_num checkpointing s b d stages) :
    stages.flatMap (fun st => List.range' st.first (st.boundary - st.first)) = List.range b := by
  induction h with
  | nil => rfl
  | @snoc s b d stages st _ hok hfirst ih =>
    have hlt := hok.nonempty
    have hcount : b + (st.boundary - b) = st.boundary := by omega
    have happend := List.range'_append_1 (s := 0) (m := b) (n := st.boundary - b)
    rw [Nat.zero_add, hcount] at happend
    rw [List.flatMap_append, ih, List.flatMap_singleton, hfirst, List.range_eq_range',
      List.range_eq_range', happend]

end Chain

/-- What is read back from a cell is the chain of stages that ends there. -/
theorem readBack_chain {table : DPTable}
    (htable : dp.TableOk helper replica_num pipeline_num checkpointing table) {s b d : ℕ}
    {sol sol' : AllocSolution} (hstart : s = 0 → b = 0 ∧ d = 0)
    (h : readBack helper replica_num table s b d sol = some sol') (hne : sol'.graphs ≠ []) :
    ∃ stages graphs, dp.StageChain helper replica_num pipeline_num checkpointing s b d stages ∧
      stages.map (fun st => helper.merge st.first (st.boundary - 1)) = graphs.map some ∧
      sol' = ⟨graphs ++ sol.graphs, (stages.zip graphs).foldr (fun it map =>
        insertKey it.2.name (it.1.dev_num * replica_num) map) sol.repl_nums, sol.pipeline_num,
        sol.checkpointing⟩ := by
  induction s generalizing b d sol with
  | zero =>
    obtain ⟨rfl, rfl⟩ := hstart rfl
    obtain rfl := Option.some.inj h
    exact ⟨[], [], StageChain.nil, rfl, rfl⟩
  | succ s ih =>
    unfold readBack at h
    dsimp only at h
    split_ifs at h with heval
    · obtain rfl := Option.some.inj h
      exact absurd rfl hne
    · obtain ⟨step_graph, hgraph, hrest⟩ := Option.bind_eq_some_iff.mp h
      have hcell := htable.cell s b d (not_le.mp heval)
      obtain ⟨stages, graphs, hchain, hgraphs, hsol⟩ := ih hcell.start hrest
      have hdev := hcell.stage.dev_pos
      have hsum : (table (s + 1) b d).pre_dev_num + (d - (table (s + 1) b d).pre_dev_num) = d := by
        dsimp only at hdev
        omega
      have hlen : stages.length = graphs.length := by
        simpa using congrArg List.length hgraphs
      have hnext := hchain.snoc hcell.stage rfl
      rw [hsum] at hnext
      refine ⟨_, graphs ++ [step_graph], hnext, ?_, ?_⟩
      · rw [List.map_append, List.map_append, hgraphs, List.map_singleton, List.map_singleton,
          hgraph]
      · rw [hsol, List.zip_append hlen, List.foldr_append, List.append_assoc]
        rfl

theorem graphs_of_no_device {table : DPTable}
    (htable : dp.TableOk helper replica_num pipeline_num checkpointing table) {s b : ℕ}
    {sol sol' : AllocSolution}
    (h : readBack helper replica_num table (s + 1) b 0 sol = some sol') : sol'.graphs = [] := by
  unfold readBack at h
  dsimp only at h
  split_ifs at h with heval
  · obtain rfl := Option.some.inj h
    rfl
  · have hdev := (htable.cell s b 0 (not_le.mp heval)).stage.dev_pos
    dsimp only at hdev
    omega

theorem lookup_zip_insertKey {stages : List Stage} {graphs : List IRGraph}
    (hlen : stages.length = graphs.length) (hnames : (graphs.map IRGraph.name).Nodup)
    {it : Stage × IRGraph} (hit : it ∈ stages.zip graphs) :
    ((stages.zip graphs).foldr (fun it map =>
      insertKey it.2.name (it.1.dev_num * replica_num) map) []).lookup it.2.name =
        some (it.1.dev_num * replica_num) := by
  have hkeys : ((stages.zip graphs).map fun it => it.2.name) = graphs.map IRGraph.name := by
    rw [← List.map_snd_zip hlen.ge, List.map_map, List.map_snd_zip hlen.ge]
    rfl
  have hnodup : (((stages.zip graphs).map fun it =>
      (it.2.name, it.1.dev_num * replica_num)).map Prod.fst).Nodup := by
    rw [List.map_map]
    exact hkeys ▸ hnames
  have hfound := lookup_foldr_insertKey [] hnodup (List.mem_map_of_mem hit)
  rwa [List.foldr_map] at hfound

variable (dp helper stage_num dev_num_per_group replica_num pipeline_num checkpointing)

/-- Stages that cut the nodes in order and share the devices, each within the restrictions and the
memory at which it was tested. -/
structure ValidAllocation (sol : AllocSolution) (stages : List Stage) : Prop where
  graphs : stages.map (fun st => helper.merge st.first (st.boundary - 1)) = sol.graphs.map some
  count : stages.length = stage_num
  layers : stages.flatMap (fun st => List.range' st.first (st.boundary - st.first)) =
    List.range helper.graph.nodes.length
  nonempty : ∀ st ∈ stages, st.first < st.boundary
  dev_pos : ∀ st ∈ stages, 0 < st.dev_num
  dev_sum : (stages.map Stage.dev_num).sum = dev_num_per_group
  limits : ∀ st ∈ stages, dp.DevNumOk replica_num pipeline_num st.dev_num
  fits : ∀ st ∈ stages, dp.FitsMem helper replica_num pipeline_num checkpointing st
  repl_nums : (sol.graphs.map IRGraph.name).Nodup → ∀ it ∈ stages.zip sol.graphs,
    sol.repl_nums.lookup it.2.name = some (it.1.dev_num * replica_num)

variable {dp helper stage_num dev_num_per_group replica_num pipeline_num checkpointing}

theorem doRunDpComm_chain {sol : AllocSolution}
    (h : dp.doRunDpComm helper stage_num dev_num_per_group replica_num pipeline_num checkpointing =
      some sol) (hne : sol.graphs ≠ []) :
    ∃ stages, dp.StageChain helper replica_num pipeline_num checkpointing stage_num
        helper.graph.nodes.length dev_num_per_group stages ∧
      stages.map (fun st => helper.merge st.first (st.boundary - 1)) = sol.graphs.map some ∧
      sol.repl_nums = (stages.zip sol.graphs).foldr (fun it map =>
        insertKey it.2.name (it.1.dev_num * replica_num) map) [] := by
  obtain ⟨table, hfill, hread⟩ := Option.bind_eq_some_iff.mp h
  dsimp only at hread
  have htable := TableOk.fillTable hfill
  cases stage_num with
  | zero =>
    obtain rfl := Option.some.inj hread
    exact absurd rfl hne
  | succ s =>
    have hstart : s + 1 = 0 →
        helper.graph.nodes.length = 0 ∧ dev_num_per_group = 0 := fun hs => absurd hs (by omega)
    split_ifs at hread with heval
    · obtain ⟨stages, graphs, hchain, hgraphs, rfl⟩ := readBack_chain htable hstart hread hne
      rw [List.append_nil]
      exact ⟨stages, hchain, hgraphs, rfl⟩
    · exact absurd (graphs_of_no_device htable hread) hne

/-- A solution is a valid allocation. -/
theorem doRunDpComm_valid {sol : AllocSolution}
    (h : dp.doRunDpComm helper stage_num dev_num_per_group replica_num pipeline_num checkpointing =
      some sol) (hne : sol.graphs ≠ []) :
    ∃ stages, dp.ValidAllocation helper stage_num dev_num_per_group replica_num pipeline_num
      checkpointing sol stages := by
  obtain ⟨stages, hchain, hgraphs, hrepl⟩ := doRunDpComm_chain h hne
  have hlen : stages.length = sol.graphs.length := by
    simpa using congrArg List.length hgraphs
  refine ⟨stages, hgraphs, hchain.length, hchain.layers, fun st hst =>
    (hchain.stageOk st hst).nonempty, fun st hst => (hchain.stageOk st hst).dev_pos,
    hchain.dev_sum, fun st hst => (hchain.stageOk st hst).limits,
    fun st hst => (hchain.stageOk st hst).fits, ?_⟩
  intro hnames it hit
  rw [hrepl]
  exact lookup_zip_insertKey hlen hnames hit

def weightGraph (name : String) : IRGraph where
  name := name
  nodes := []
  values := [("w", { name := "w", type := .tensor .FLOAT [1] true, is_param := true })]
  input_names := ["w"]
  output_names := []

def weightHelper (names : List String) : GraphMergeHelper where
  graph := ⟨names.map fun name => ⟨name, weightGraph name, [], []⟩, []⟩
  names := MLPartitioner.crossingNames
  used := 0
  edge_order := MLPartitioner.crossingPartitioner.edge_order

/-- A search in which graphs take neither time nor memory, but their parameters have a state. -/
def weightStaging (dev_mem : ℕ) : DPStaging where
  profile _ _ _ _ := some ⟨1, 1, 0⟩
  batch_size := 8
  dev_mem := dev_mem
  use_amp_master_params := false
  enable_zero := false
  opt_param_factor := 2
  min_pipeline_bs := 1
  limit_dev_num_pot := true
  limit_dev_num_more_than_bs := true
  do_coarsening := true

theorem doRunDpComm_valid_weights : ∃ sol stages,
    (weightStaging 100).doRunDpComm (weightHelper ["a", "b", "c"]) 2 3 1 2 true = some sol ∧
      sol.graphs.length = 2 ∧
      (weightStaging 100).ValidAllocation (weightHelper ["a", "b", "c"]) 2 3 1 2 true sol
        stages := by
  have h : ((weightStaging 100).doRunDpComm (weightHelper ["a", "b", "c"]) 2 3 1 2 true).any
      (fun sol => sol.graphs.length = 2) = true := by
    decide +kernel
  obtain ⟨sol, hsol, hlen⟩ := (Option.any_eq_true _ _).mp h
  replace hlen := of_decide_eq_true hlen
  have hne : sol.graphs ≠ [] := by
    intro heq
    rw [heq] at hlen
    exact absurd hlen (by decide)
  obtain ⟨stages, hvalid⟩ := doRunDpComm_valid hsol hne
  exact ⟨sol, stages, hsol, hlen, hvalid⟩

end DPStaging

end Rannc
