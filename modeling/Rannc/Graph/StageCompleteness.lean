import Rannc.Graph.StagePruning
import Rannc.Graph.StageLeast

/-!
# The stage search finds a solution

When no boundary needs more devices than a later one, the search finds a solution whenever there
is an allocation within the restrictions and the memory. Otherwise it may leave out all of them.
-/
namespace Rannc

namespace DPStaging

variable {dp : DPStaging} {helper : GraphMergeHelper}
  {stage_num dev_num_per_group replica_num pipeline_num : ℕ} {checkpointing : Bool}
  {max_fwd max_bwd : ℤ}

section Feasible

variable {s b d : ℕ}

theorem Feasible.of_zero
    (h : dp.Feasible helper replica_num pipeline_num checkpointing 0 b d) : b = 0 ∧ d = 0 := by
  obtain ⟨stages, hstages⟩ := h
  cases hstages
  exact ⟨rfl, rfl⟩

/-- The last stage comes after a feasible boundary. -/
theorem Feasible.last
    (h : dp.Feasible helper replica_num pipeline_num checkpointing (s + 1) b d) :
    ∃ b' d', dp.Feasible helper replica_num pipeline_num checkpointing s b' d' ∧ b' < b ∧ d' < d ∧
      dp.StageOk helper replica_num pipeline_num checkpointing ⟨b', b, d - d'⟩ := by
  obtain ⟨stages, hstages⟩ := h
  cases hstages with
  | @snoc _ b' d' stages st hstages hok hfirst =>
    obtain ⟨first, boundary, dev_num⟩ := st
    obtain rfl := hfirst
    have hpos : 0 < dev_num := hok.dev_pos
    have hdev : d' + dev_num - d' = dev_num := by omega
    refine ⟨_, d', ⟨stages, hstages⟩, hok.nonempty, ?_, ?_⟩
    · dsimp only
      omega
    · dsimp only
      rwa [hdev]

theorem Feasible.le (h : dp.Feasible helper replica_num pipeline_num checkpointing s b d) :
    s ≤ b ∧ s ≤ d := by
  induction s generalizing b d with
  | zero => exact ⟨Nat.zero_le b, Nat.zero_le d⟩
  | succ s ih =>
    obtain ⟨b', d', hprev, hb, hd, _⟩ := h.last
    have hle := ih hprev
    omega

theorem Feasible.candidate {table : DPTable}
    (h : dp.Feasible helper replica_num pipeline_num checkpointing (s + 1) b d)
    (htable : ∀ b' d', b' < b → d' < d →
      dp.Feasible helper replica_num pipeline_num checkpointing s b' d' →
        (table s b' d').eval < ERROR_VAL) :
    dp.Candidate helper replica_num pipeline_num checkpointing table s b d := by
  obtain ⟨b', d', hprev, hb, hd, hok⟩ := h.last
  have hle := hprev.le
  refine ⟨b', d', hle.1, ?_, hle.2, ?_, hd, htable b' d' hb hd hprev, hok⟩
  · split_ifs with hs
    · obtain rfl := hs
      rw [hprev.of_zero.1]
      exact Nat.one_pos
    · exact hb
  · split_ifs with hs
    · obtain rfl := hs
      rw [hprev.of_zero.2]
      exact Nat.one_pos
    · exact hd

end Feasible

section Complete

variable {search search' : Search} {s : ℕ}
  (hprof : dp.Profiled helper replica_num pipeline_num checkpointing)
  (htimes : dp.TimesBelow helper replica_num pipeline_num checkpointing max_fwd max_bwd)

include hprof htimes in
/-- The boundaries of a stage, one after another. -/
theorem foldUntilM_searchBoundary_spec {b n : ℕ} (htable : Bounded max_fwd max_bwd search.table)
    (hcand : ∀ b' d, b ≤ b' → b' < b + n → d ≤ dev_num_per_group →
      dp.Feasible helper replica_num pipeline_num checkpointing (s + 1) b' d →
        dp.Candidate helper replica_num pipeline_num checkpointing search.table s b' d)
    (hshort : ∀ b₁ b₂ d, b ≤ b₁ → b₁ < b₂ → b₂ < b + n → d ≤ dev_num_per_group →
      dp.Feasible helper replica_num pipeline_num checkpointing (s + 1) b₂ d →
        ∃ d₁ ≤ d, dp.Feasible helper replica_num pipeline_num checkpointing (s + 1) b₁ d₁)
    (hmin : ∀ b' d, b ≤ b' → b' < b + n → d ≤ dev_num_per_group →
      dp.Feasible helper replica_num pipeline_num checkpointing (s + 1) b' d → search.min_d ≤ d)
    (h : foldUntilM (dp.searchBoundary helper dev_num_per_group replica_num pipeline_num
      checkpointing (s + 1)) search (List.range' b n) = some search') :
    Grows max_fwd max_bwd (s + 1) search.table search'.table ∧
      ∀ b' d, b ≤ b' → b' < b + n → d ≤ dev_num_per_group →
        dp.Feasible helper replica_num pipeline_num checkpointing (s + 1) b' d →
          (search'.table (s + 1) b' d).eval < ERROR_VAL := by
  induction n generalizing b search with
  | zero =>
    obtain rfl := Option.some.inj h
    refine ⟨Grows.refl htable, fun b' d hle hlt => ?_⟩
    omega
  | succ n ih =>
    obtain ⟨⟨search₁, stop⟩, hturn, hrest⟩ := Option.bind_eq_some_iff.mp h
    obtain ⟨hgrows, hfinds⟩ := searchBoundary_spec hprof htimes htable hturn
    -- what the boundary gives for any feasible one from it on
    have hhere : ∀ b' d, b ≤ b' → b' < b + (n + 1) → d ≤ dev_num_per_group →
        dp.Feasible helper replica_num pipeline_num checkpointing (s + 1) b' d →
          stop = false ∧ search₁.min_d ≤ d := by
      intro b' d hle hlt hd hfeas
      obtain ⟨d₁, hd₁, hfeas₁⟩ : ∃ d₁ ≤ d,
          dp.Feasible helper replica_num pipeline_num checkpointing (s + 1) b d₁ := by
        cases hle.eq_or_lt with
        | inl heq => exact ⟨d, le_rfl, heq ▸ hfeas⟩
        | inr hlt' => exact hshort b b' d le_rfl hlt' hlt hd hfeas
      have hfound := hfinds d₁ (hmin b d₁ le_rfl (by omega) (hd₁.trans hd) hfeas₁) hfeas₁.le.2
        (hd₁.trans hd) (hcand b d₁ le_rfl (by omega) (hd₁.trans hd) hfeas₁)
      exact ⟨hfound.1, hfound.2.1.trans hd₁⟩
    cases stop with
    | true =>
      obtain rfl := Option.some.inj hrest
      refine ⟨hgrows, fun b' d hle hlt hd hfeas => ?_⟩
      cases (hhere b' d hle hlt hd hfeas).1
    | false =>
      have hsame : ∀ b d, search₁.table s b d = search.table s b d :=
        fun b d => hgrows.other s b d (Nat.succ_ne_self s).symm
      obtain ⟨hgrows', hrest'⟩ := ih hgrows.bounded
        (fun b' d hle hlt hd hfeas =>
          (hcand b' d (by omega) (by omega) hd hfeas).congr hsame)
        (fun b₁ b₂ d hle hlt hlt₂ => hshort b₁ b₂ d (by omega) hlt (by omega))
        (fun b' d hle hlt hd hfeas => (hhere b' d (by omega) (by omega) hd hfeas).2) hrest
      refine ⟨hgrows.trans hgrows', fun b' d hle hlt hd hfeas => ?_⟩
      cases hle.eq_or_lt with
      | inl heq =>
        obtain rfl := heq
        have hfound := hfinds d (hmin b d le_rfl hlt hd hfeas) hfeas.le.2 hd
          (hcand b d le_rfl hlt hd hfeas)
        exact hgrows'.feasible _ _ _ hfound.2.2
      | inr hlt' => exact hrest' b' d hlt' (by omega) hd hfeas

/-- The cells of a stage that later stages or the solution are read from are found. -/
def Complete (dp : DPStaging) (helper : GraphMergeHelper)
    (stage_num dev_num_per_group replica_num pipeline_num : ℕ) (checkpointing : Bool)
    (table : DPTable) (s : ℕ) : Prop :=
  ∀ b d, (s = stage_num → b = helper.graph.nodes.length) →
    b + stage_num ≤ helper.graph.nodes.length + s → d ≤ dev_num_per_group →
      dp.Feasible helper replica_num pipeline_num checkpointing s b d →
        (table s b d).eval < ERROR_VAL

theorem toSize_lastBoundary {layers stage_num s : ℕ} (hlayers : stage_num ≤ layers)
    (hs : s ≤ stage_num) (hsize : layers < 2 ^ 64) :
    toSize ((layers : ℤ) - stage_num + (s : ℕ)) = layers - stage_num + s := by
  unfold toSize
  rw [Int.emod_eq_of_lt (by omega) (by omega)]
  omega

include hprof htimes in
theorem searchStage_spec (hs : s + 1 ≤ stage_num) (hlayers : stage_num ≤ helper.graph.nodes.length)
    (hsize : helper.graph.nodes.length < 2 ^ 64)
    (hshort : dp.PrefixNeedsNoMore helper stage_num dev_num_per_group replica_num pipeline_num
      checkpointing)
    (htable : Bounded max_fwd max_bwd search.table)
    (hcomplete : dp.Complete helper stage_num dev_num_per_group replica_num pipeline_num
      checkpointing search.table s)
    (h : dp.searchStage helper stage_num dev_num_per_group replica_num pipeline_num checkpointing
      search (s + 1) = some search') :
    Bounded max_fwd max_bwd search'.table ∧
      dp.Complete helper stage_num dev_num_per_group replica_num pipeline_num checkpointing
        search'.table (s + 1) := by
  unfold searchStage at h
  dsimp only at h
  rw [toSize_lastBoundary hlayers hs hsize] at h
  have hspec := foldUntilM_searchBoundary_spec hprof htimes (by exact htable) ?_ ?_ ?_ h
  · refine ⟨hspec.1.bounded, ?_⟩
    intro b d hend hrange hd hfeas
    have hle := hfeas.le.1
    apply hspec.2 b d _ _ hd hfeas
    · split_ifs with heq
      · exact (hend heq).ge
      · exact hle
    · split_ifs with heq
      · have hb := hend heq
        omega
      · omega
  · intro b d hle hlt hd hfeas
    apply hfeas.candidate
    intro b' d' hb' hd' hprev
    apply hcomplete b' d' _ _ (by omega) hprev
    · intro heq
      omega
    · split_ifs at hlt <;> omega
  · intro b₁ b₂ d hle hlt hlt₂ hd hfeas
    split_ifs at hle hlt₂ with heq
    · omega
    · exact hshort (s + 1) b₁ b₂ d (by omega) hle hlt (by omega) hd hfeas
  · intro b d _ _ _ hfeas
    have hle := hfeas.le.2
    dsimp only
    omega

include hprof htimes in
theorem fillTable_complete (hlayers : stage_num ≤ helper.graph.nodes.length)
    (hsize : helper.graph.nodes.length < 2 ^ 64)
    (hshort : dp.PrefixNeedsNoMore helper stage_num dev_num_per_group replica_num pipeline_num
      checkpointing) {table : DPTable}
    (h : dp.fillTable helper stage_num dev_num_per_group replica_num pipeline_num checkpointing =
      some table) :
    dp.Complete helper stage_num dev_num_per_group replica_num pipeline_num checkpointing table
      stage_num := by
  obtain ⟨search, hloop, hend⟩ := Option.bind_eq_some_iff.mp h
  obtain rfl := Option.some.inj hend
  have hinit : Bounded max_fwd max_bwd DPTable.init ∧
      dp.Complete helper stage_num dev_num_per_group replica_num pipeline_num checkpointing
        DPTable.init 0 := by
    constructor
    · intro s b d heval
      unfold DPTable.init at heval ⊢
      split_ifs at heval ⊢
      · exact ⟨htimes.fwd_nonneg, htimes.bwd_nonneg⟩
      · exact absurd heval (lt_irrefl _)
    · intro b d _ _ _ _
      unfold DPTable.init
      rw [if_pos rfl]
      decide
  have hrun := foldlM_prefix (I := fun before search => Bounded max_fwd max_bwd search.table ∧
      dp.Complete helper stage_num dev_num_per_group replica_num pipeline_num checkpointing
        search.table before.length) ?_ hinit hloop
  · rw [List.length_range'] at hrun
    exact hrun.2
  · intro before s after search search' hl hinv hturn
    have hget : (List.range' 1 stage_num)[before.length]? = some s := by
      rw [hl, List.getElem?_append_right le_rfl]
      simp
    obtain ⟨hlt, rfl⟩ := List.getElem?_eq_some_iff.mp hget
    rw [List.length_range'] at hlt
    rw [List.getElem_range', Nat.one_mul, Nat.add_comm] at hturn
    rw [List.length_append, List.length_singleton]
    exact searchStage_spec hprof htimes hlt hlayers hsize hshort hinv.1 hinv.2 hturn

end Complete

section Total

variable (hprof : dp.Profiled helper replica_num pipeline_num checkpointing)
  (hrepl : replica_num * pipeline_num ≠ 0)

include hprof hrepl in
theorem tryPrev_isSome {s b d b_prev d_prev : ℕ} (hb : b_prev < b)
    (hlayers : b ≤ helper.graph.nodes.length) (hd : d_prev < d) (search : Search) :
    (dp.tryPrev helper replica_num pipeline_num checkpointing s b d b_prev search
      d_prev).isSome := by
  obtain ⟨step, hstep⟩ := hprof.cost b_prev b (d - d_prev) hb hlayers (by omega)
  have hguard : (guard (replica_num * pipeline_num ≠ 0) : Option Unit) = some () := by
    rw [guard, if_pos hrepl]
    rfl
  simp only [tryPrev, Option.bind_eq_bind]
  rw [hguard, Option.bind_some, hstep, Option.bind_some]
  split_ifs
  all_goals rfl

include hprof hrepl in
theorem tryDevNum_isSome {s b d : ℕ} (hb : 0 < b)
    (hlayers : b ≤ helper.graph.nodes.length) (hd : 0 < d) (search : Search) :
    (dp.tryDevNum helper replica_num pipeline_num checkpointing s b search d).isSome := by
  have hloop := foldlM_isSome (f := dp.tryBoundary helper replica_num pipeline_num checkpointing s b
    d) (l := List.range' (s - 1) ((if s = 1 then 1 else b) - (s - 1))) ?_
    { search with found_d_sol := false, skip_small_bs := false }
  · obtain ⟨search₁, hloop⟩ := Option.isSome_iff_exists.mp hloop
    simp only [tryDevNum, Option.bind_eq_bind]
    rw [hloop, Option.bind_some]
    split_ifs
    all_goals rfl
  · intro search b_prev hb_prev
    apply foldUntilM_isSome
    intro search d_prev hd_prev
    rw [List.mem_range'_1] at hb_prev hd_prev
    apply tryPrev_isSome hprof hrepl _ hlayers
    · split_ifs at hd_prev <;> omega
    · split_ifs at hb_prev <;> omega

include hprof hrepl in
theorem fillTable_isSome (hlayers : stage_num ≤ helper.graph.nodes.length)
    (hsize : helper.graph.nodes.length < 2 ^ 64) :
    (dp.fillTable helper stage_num dev_num_per_group replica_num pipeline_num
      checkpointing).isSome := by
  have hloop := foldlM_isSome (f := dp.searchStage helper stage_num dev_num_per_group replica_num
    pipeline_num checkpointing) (l := List.range' 1 stage_num) ?_
    ⟨DPTable.init, 1, false, false, false⟩
  · obtain ⟨search, hloop⟩ := Option.isSome_iff_exists.mp hloop
    simp only [fillTable, Option.bind_eq_bind]
    rw [hloop]
    rfl
  · intro search s hs
    rw [List.mem_range'_1] at hs
    apply foldUntilM_isSome
    intro search b hb
    have hrange : 0 < b ∧ b ≤ helper.graph.nodes.length := by
      rw [toSize_lastBoundary hlayers (by omega) hsize, List.mem_range'_1] at hb
      split_ifs at hb <;> omega
    have hdevs := foldUntilM_isSome (f := dp.tryDevNum helper replica_num pipeline_num
      checkpointing s b) (l := (List.range' (max search.min_d s)
        (dev_num_per_group + 1 - max search.min_d s)).reverse) ?_
      { search with found_b_sol := false }
    · obtain ⟨search₁, hdevs⟩ := Option.isSome_iff_exists.mp hdevs
      simp only [searchBoundary, Option.bind_eq_bind]
      rw [hdevs]
      rfl
    · intro search d hd
      rw [List.mem_reverse, List.mem_range'_1] at hd
      exact tryDevNum_isSome hprof hrepl hrange.1 hrange.2 (by omega) search

include hprof in
theorem readBack_isSome {table : DPTable}
    (htable : dp.TableOk helper replica_num pipeline_num checkpointing table) {s b d : ℕ}
    (hlayers : b ≤ helper.graph.nodes.length) (heval : (table s b d).eval < ERROR_VAL)
    (sol : AllocSolution) :
    ∃ sol', readBack helper replica_num table s b d sol = some sol' ∧
      sol'.graphs.length = s + sol.graphs.length := by
  induction s generalizing b d sol with
  | zero => exact ⟨sol, rfl, (Nat.zero_add _).symm⟩
  | succ s ih =>
    have hcell := htable.cell s b d heval
    have hlt : (table (s + 1) b d).pre_boundary < b := hcell.stage.nonempty
    obtain ⟨step_graph, hgraph⟩ := Option.isSome_iff_exists.mp
      (hprof.merge (table (s + 1) b d).pre_boundary (b - 1) (by omega) (by omega))
    obtain ⟨sol', hsol', hlen⟩ := ih (by omega) hcell.pre
      { sol with
        graphs := step_graph :: sol.graphs
        repl_nums := insertKey step_graph.name
          ((d - (table (s + 1) b d).pre_dev_num) * replica_num) sol.repl_nums }
    refine ⟨sol', ?_, ?_⟩
    · simp only [readBack, Option.bind_eq_bind]
      rw [if_neg (not_le.mpr heval), hgraph, Option.bind_some]
      exact hsol'
    · rw [hlen, List.length_cons]
      omega

end Total

/-- The search gives a solution when there is one, if no boundary needs more devices than a later
one and the times of the stages are no errors. -/
theorem doRunDpComm_complete
    (hprof : dp.Profiled helper replica_num pipeline_num checkpointing)
    (htimes : dp.TimesBelow helper replica_num pipeline_num checkpointing max_fwd max_bwd)
    (hshort : dp.PrefixNeedsNoMore helper stage_num dev_num_per_group replica_num pipeline_num
      checkpointing)
    (hrepl : replica_num * pipeline_num ≠ 0) (hstage : 0 < stage_num)
    (hsize : helper.graph.nodes.length < 2 ^ 64)
    (hfeasible : dp.Feasible helper replica_num pipeline_num checkpointing stage_num
      helper.graph.nodes.length dev_num_per_group) :
    ∃ sol, dp.doRunDpComm helper stage_num dev_num_per_group replica_num pipeline_num
      checkpointing = some sol ∧ sol.graphs ≠ [] := by
  have hlayers := hfeasible.le.1
  have hsome : (dp.fillTable helper stage_num dev_num_per_group replica_num pipeline_num
      checkpointing).isSome := fillTable_isSome hprof hrepl hlayers hsize
  obtain ⟨table, hfill⟩ := Option.isSome_iff_exists.mp hsome
  have heval := fillTable_complete hprof htimes hlayers hsize hshort hfill
    helper.graph.nodes.length dev_num_per_group (fun _ => rfl) le_rfl le_rfl hfeasible
  obtain ⟨sol, hsol, hlen⟩ := readBack_isSome hprof (TableOk.fillTable hfill) le_rfl heval
    ⟨[], [], pipeline_num, checkpointing⟩
  refine ⟨sol, ?_, ?_⟩
  · simp only [doRunDpComm, Option.bind_eq_bind]
    rw [hfill, Option.bind_some, if_pos heval]
    exact hsol
  · intro hnil
    rw [hnil, List.length_nil] at hlen
    omega

theorem Profiled.prefixNeedsNoMore
    (hprof : dp.Profiled helper replica_num pipeline_num checkpointing) (hstages : stage_num ≤ 2) :
    dp.PrefixNeedsNoMore helper stage_num dev_num_per_group replica_num pipeline_num
      checkpointing := by
  intro s b b' d hs hb hlt hrange hd hfeas
  cases s with
  | zero => exact absurd hfeas.of_zero.1 (by omega)
  | succ s =>
    obtain rfl : s = 0 := by omega
    obtain ⟨b₀, d₀, hprev, _, hd₀, hok⟩ := hfeas.last
    obtain ⟨rfl, rfl⟩ := hprev.of_zero
    obtain ⟨step', hcost', hmem'⟩ := hok.fits
    obtain ⟨step, hcost⟩ := hprof.cost 0 b d (by omega) (by omega) (by omega)
    have hmono := hprof.range le_rfl hlt.le hcost hcost'
    have hst : dp.StageOk helper replica_num pipeline_num checkpointing ⟨0, b, d⟩ :=
      ⟨by dsimp only; omega, by dsimp only; omega, hok.limits, step, hcost,
        hmono.trans_lt hmem'⟩
    have hchain : dp.StageChain helper replica_num pipeline_num checkpointing (0 + 1) b (0 + d)
        [⟨0, b, d⟩] := StageChain.snoc StageChain.nil hst rfl
    rw [Nat.zero_add d] at hchain
    exact ⟨d, le_rfl, _, hchain⟩

/-- The layers `a` and `b` fit on two devices, also together, but neither fits on one. -/
def pairStaging : DPStaging where
  profile g _ dev_num _ :=
    if ("a" ∈ g.input_names ∨ "b" ∈ g.input_names) ∧ dev_num < 2 then some ⟨1, 1, 100⟩
    else some ⟨1, 1, 10⟩
  batch_size := 8
  dev_mem := 100
  use_amp_master_params := false
  enable_zero := false
  opt_param_factor := 2
  min_pipeline_bs := 1
  limit_dev_num_pot := true
  limit_dev_num_more_than_bs := true
  do_coarsening := false

/-- Only one device makes a difference. -/
theorem pairStaging_stepCost (layers : List (String × ℕ)) (b_prev b dev_num : ℕ) :
    pairStaging.stepCost (layerHelper layers) 1 1 false b_prev b dev_num =
      pairStaging.stepCost (layerHelper layers) 1 1 false b_prev b
        (if dev_num < 2 then 1 else 2) := by
  have hprofile : (fun node : MLNode => pairStaging.profile node.graph pairStaging.batch_size
        (dev_num * 1 * 1) false) = fun node : MLNode =>
      pairStaging.profile node.graph pairStaging.batch_size
        ((if dev_num < 2 then 1 else 2) * 1 * 1) false := by
    funext node
    simp only [pairStaging, Nat.mul_one]
    split_ifs <;> simp_all
  have hopt : (stageNodes (layerHelper layers) b_prev b).mapM (fun node => getOptMemSize node.graph
        pairStaging.opt_param_factor pairStaging.use_amp_master_params pairStaging.enable_zero
          dev_num) =
      (stageNodes (layerHelper layers) b_prev b).mapM fun node => getOptMemSize node.graph
        pairStaging.opt_param_factor pairStaging.use_amp_master_params pairStaging.enable_zero
          (if dev_num < 2 then 1 else 2) := by
    apply mapM_congr
    intro node hnode
    have hmem := List.mem_of_mem_drop (List.mem_of_mem_take hnode)
    obtain ⟨layer, _, rfl⟩ := List.mem_map.mp hmem
    rfl
  have hcoarsening : ¬pairStaging.do_coarsening = true := by decide
  unfold stepCost estimateProf
  dsimp only
  rw [if_neg hcoarsening, if_neg hcoarsening, hprofile, hopt]

def fourLayers : GraphMergeHelper := layerHelper [("a", 1), ("b", 1), ("c", 1), ("d", 1)]

theorem fourLayers_stepCost {b_prev b dev_num : ℕ} {step : StepCost}
    (h : pairStaging.stepCost fourLayers 1 1 false b_prev b dev_num = some step) :
    b_prev < b ∧ b ≤ 4 ∧
      pairStaging.stepCost fourLayers 1 1 false b_prev b (if dev_num < 2 then 1 else 2) =
        some step :=
  ⟨(stepCost_range h).1, (stepCost_range h).2,
    (pairStaging_stepCost _ b_prev b dev_num).symm.trans h⟩

theorem one_or_two (dev_num : ℕ) : (if dev_num < 2 then 1 else 2) ∈ [1, 2] := by
  split_ifs <;> simp

theorem fourLayers_profiled : pairStaging.Profiled fourLayers 1 1 false := by
  have hsome : ∀ b ≤ 4, ∀ b_prev < b, ∀ n ∈ [1, 2],
      (pairStaging.stepCost fourLayers 1 1 false b_prev b n).isSome := by
    decide +kernel
  have hdevices : ∀ b ≤ 4, ∀ b_prev < b,
      ∀ step ∈ pairStaging.stepCost fourLayers 1 1 false b_prev b 2,
        ∀ step' ∈ pairStaging.stepCost fourLayers 1 1 false b_prev b 1,
          toSize step.step_mem ≤ toSize step'.step_mem := by
    decide +kernel
  have hrange : ∀ b' ≤ 4, ∀ b ≤ b', ∀ b_prev < b, ∀ b_prev' ≤ b_prev, ∀ n ∈ [1, 2],
      ∀ step ∈ pairStaging.stepCost fourLayers 1 1 false b_prev b n,
        ∀ step' ∈ pairStaging.stepCost fourLayers 1 1 false b_prev' b' n,
          toSize step.step_mem ≤ toSize step'.step_mem := by
    decide +kernel
  have hmerge : ∀ last < 4, ∀ first ≤ last, (fourLayers.merge first last).isSome := by
    decide +kernel
  constructor
  · intro first boundary dev_num hlt hle _
    have h := hsome boundary hle first hlt _ (one_or_two dev_num)
    rw [fourLayers, ← pairStaging_stepCost, ← fourLayers] at h
    exact Option.isSome_iff_exists.mp h
  · intro first last hle hlt
    exact hmerge last hlt first hle
  · intro first boundary dev_num dev_num' step step' _ hle hstep hstep'
    obtain ⟨hlt, hlayers, hstep⟩ := fourLayers_stepCost hstep
    obtain ⟨_, _, hstep'⟩ := fourLayers_stepCost hstep'
    split_ifs at hstep hstep' with h h'
    · obtain rfl := Option.some.inj (hstep.symm.trans hstep')
      exact le_rfl
    · omega
    · exact hdevices boundary hlayers first hlt step hstep step' hstep'
    · obtain rfl := Option.some.inj (hstep.symm.trans hstep')
      exact le_rfl
  · intro first first' boundary boundary' dev_num step step' hfirst hboundary hstep hstep'
    obtain ⟨hlt, _, hstep⟩ := fourLayers_stepCost hstep
    obtain ⟨_, hlayers, hstep'⟩ := fourLayers_stepCost hstep'
    exact hrange boundary' hlayers boundary hboundary first hlt first' hfirst _
      (one_or_two dev_num) step hstep step' hstep'

theorem fourLayers_timesBelow : pairStaging.TimesBelow fourLayers 1 1 false 4 4 := by
  have htimes : ∀ b ≤ 4, ∀ b_prev < b, ∀ n ∈ [1, 2],
      ∀ step ∈ pairStaging.stepCost fourLayers 1 1 false b_prev b n,
        step.step_prof.fwd_time + (step.step_in_comm + step.step_out_comm : ℕ) ≤ 4 ∧
          step.step_prof.bwd_time + (step.step_in_comm + step.step_out_comm : ℕ) ≤ 4 := by
    decide +kernel
  constructor
  · decide
  · decide
  · decide
  · intro first boundary dev_num step hstep _
    obtain ⟨hlt, hlayers, hstep⟩ := fourLayers_stepCost hstep
    exact (htimes boundary hlayers first hlt _ (one_or_two dev_num) step hstep).1
  · intro first boundary dev_num step hstep _
    obtain ⟨hlt, hlayers, hstep⟩ := fourLayers_stepCost hstep
    exact (htimes boundary hlayers first hlt _ (one_or_two dev_num) step hstep).2

theorem fourLayers_stageOk {st : Stage} (hlt : st.first < st.boundary) (hpos : 0 < st.dev_num)
    (hskip : pairStaging.skipDevNum 1 1 st.dev_num = false)
    (hfits : (pairStaging.stepCost fourLayers 1 1 false st.first st.boundary st.dev_num).any
      (fun step => toSize step.step_mem < 100) = true) :
    pairStaging.StageOk fourLayers 1 1 false st := by
  obtain ⟨step, hstep, hmem⟩ := (Option.any_eq_true _ _).mp hfits
  exact ⟨hlt, hpos, DevNumOk.of_not_skip (Bool.eq_false_iff.mp hskip), step, hstep,
    of_decide_eq_true hmem⟩

theorem fourLayers_feasible : pairStaging.Feasible fourLayers 1 1 false 3 4 4 := by
  have h₁ : pairStaging.StageOk fourLayers 1 1 false ⟨0, 2, 2⟩ :=
    fourLayers_stageOk (by decide) (by decide) (by decide +kernel) (by decide +kernel)
  have h₂ : pairStaging.StageOk fourLayers 1 1 false ⟨2, 3, 1⟩ :=
    fourLayers_stageOk (by decide) (by decide) (by decide +kernel) (by decide +kernel)
  have h₃ : pairStaging.StageOk fourLayers 1 1 false ⟨3, 4, 1⟩ :=
    fourLayers_stageOk (by decide) (by decide) (by decide +kernel) (by decide +kernel)
  exact ⟨_, StageChain.snoc (StageChain.snoc (StageChain.snoc StageChain.nil h₁ rfl) h₂ rfl) h₃ rfl⟩

/-- For the second boundary `a` and `b` would need four devices. So the search does not come back
to three devices for the third boundary, where the pair on two devices is followed by `c`. -/
theorem not_doRunDpComm_complete : ¬ ∀ (dp : DPStaging) (helper : GraphMergeHelper)
    (stage_num dev_num_per_group replica_num pipeline_num : ℕ) (checkpointing : Bool)
    (max_fwd max_bwd : ℤ), dp.Profiled helper replica_num pipeline_num checkpointing →
    dp.TimesBelow helper replica_num pipeline_num checkpointing max_fwd max_bwd →
    replica_num * pipeline_num ≠ 0 → 0 < stage_num → helper.graph.nodes.length < 2 ^ 64 →
    dp.Feasible helper replica_num pipeline_num checkpointing stage_num helper.graph.nodes.length
      dev_num_per_group →
    ∃ sol, dp.doRunDpComm helper stage_num dev_num_per_group replica_num pipeline_num
      checkpointing = some sol ∧ sol.graphs ≠ [] := by
  intro h
  obtain ⟨sol, hsol, hne⟩ := h pairStaging fourLayers 3 4 1 1 false 4 4 fourLayers_profiled
    fourLayers_timesBelow (by decide) (by decide) (by decide) fourLayers_feasible
  have hnone : (pairStaging.doRunDpComm fourLayers 3 4 1 1 false).all
      (fun sol => sol.graphs.isEmpty) = true := by
    decide +kernel
  rw [hsol, Option.all_some] at hnone
  exact hne (List.isEmpty_iff.mp hnone)

/-- In two stages the layers are served. -/
theorem doRunDpComm_complete_twoStages : ∃ sol,
    pairStaging.doRunDpComm fourLayers 2 3 1 1 false = some sol ∧ sol.graphs ≠ [] := by
  have h₁ : pairStaging.StageOk fourLayers 1 1 false ⟨0, 2, 2⟩ :=
    fourLayers_stageOk (by decide) (by decide) (by decide +kernel) (by decide +kernel)
  have h₂ : pairStaging.StageOk fourLayers 1 1 false ⟨2, 4, 1⟩ :=
    fourLayers_stageOk (by decide) (by decide) (by decide +kernel) (by decide +kernel)
  have hfeasible : pairStaging.Feasible fourLayers 1 1 false 2 4 3 :=
    ⟨_, StageChain.snoc (StageChain.snoc StageChain.nil h₁ rfl) h₂ rfl⟩
  exact doRunDpComm_complete fourLayers_profiled fourLayers_timesBelow
    (fourLayers_profiled.prefixNeedsNoMore le_rfl) (by decide) (by decide) (by decide) hfeasible

end DPStaging

end Rannc
