import Rannc.Graph.StageAllocation

/-!
# What the stage search leaves out

The search stops to take devices away when a stage no longer fits, and it does not come back to
fewer devices for a later boundary; at a boundary without any solution it stops for good. With
fewer devices a stage takes no less memory, so the devices that are left out for one boundary are
of no use there. A later boundary is reached with as few devices only if the boundary before can
be.
-/
namespace Rannc

namespace DPStaging

variable (dp : DPStaging) (helper : GraphMergeHelper)
  (stage_num dev_num_per_group replica_num pipeline_num : ℕ) (checkpointing : Bool)

/-- Some stages serve the nodes before `b` with `d` devices, each within the restrictions and the
memory. -/
def Feasible (s b d : ℕ) : Prop :=
  ∃ stages, dp.StageChain helper replica_num pipeline_num checkpointing s b d stages

/-- All candidate stages are profiled and can be merged. Their memory is not smaller with fewer
devices or for a larger range. -/
structure Profiled : Prop where
  cost : ∀ first boundary dev_num, first < boundary → boundary ≤ helper.graph.nodes.length →
    0 < dev_num → ∃ step, dp.stepCost helper replica_num pipeline_num checkpointing first boundary
      dev_num = some step
  merge : ∀ first last, first ≤ last → last < helper.graph.nodes.length →
    (helper.merge first last).isSome
  devices : ∀ {first boundary dev_num dev_num' step step'}, 0 < dev_num' → dev_num' ≤ dev_num →
    dp.stepCost helper replica_num pipeline_num checkpointing first boundary dev_num = some step →
    dp.stepCost helper replica_num pipeline_num checkpointing first boundary dev_num' =
      some step' → toSize step.step_mem ≤ toSize step'.step_mem
  range : ∀ {first first' boundary boundary' dev_num step step'}, first' ≤ first →
    boundary ≤ boundary' →
    dp.stepCost helper replica_num pipeline_num checkpointing first boundary dev_num = some step →
    dp.stepCost helper replica_num pipeline_num checkpointing first' boundary' dev_num =
      some step' → toSize step.step_mem ≤ toSize step'.step_mem

/-- The times of the stages that fit stay below the value that stands for an error. -/
structure TimesBelow (max_fwd max_bwd : ℤ) : Prop where
  fwd_nonneg : 0 ≤ max_fwd
  bwd_nonneg : 0 ≤ max_bwd
  sum_lt : max_fwd + max_bwd < ERROR_VAL
  fwd : ∀ {first boundary dev_num step}, dp.stepCost helper replica_num pipeline_num checkpointing
    first boundary dev_num = some step → toSize step.step_mem < dp.dev_mem →
      step.step_prof.fwd_time + (step.step_in_comm + step.step_out_comm : ℕ) ≤ max_fwd
  bwd : ∀ {first boundary dev_num step}, dp.stepCost helper replica_num pipeline_num checkpointing
    first boundary dev_num = some step → toSize step.step_mem < dp.dev_mem →
      step.step_prof.bwd_time + (step.step_in_comm + step.step_out_comm : ℕ) ≤ max_bwd

/-- A boundary before another never needs more devices than the other. -/
def PrefixNeedsNoMore : Prop :=
  ∀ s b b' d, s < stage_num → s ≤ b → b < b' → b' + stage_num ≤ helper.graph.nodes.length + s →
    d ≤ dev_num_per_group → dp.Feasible helper replica_num pipeline_num checkpointing s b' d →
      ∃ d₁ ≤ d, dp.Feasible helper replica_num pipeline_num checkpointing s b d₁

/-- One turn of the innermost loop. -/
inductive PrevTurn (s b d b_prev d_prev : ℕ) (search : Search) : Search → Bool → Prop
  | skipped (hskip : dp.skipDevNum replica_num pipeline_num (d - d_prev) = true) :
      PrevTurn s b d b_prev d_prev search { search with skip_small_bs := true } false
  | infeasible (hskip : dp.skipDevNum replica_num pipeline_num (d - d_prev) = false)
      (hprev : ERROR_VAL ≤ (search.table s b_prev d_prev).eval) :
      PrevTurn s b d b_prev d_prev search search false
  | tooLarge {step : StepCost}
      (hskip : dp.skipDevNum replica_num pipeline_num (d - d_prev) = false)
      (hprev : (search.table s b_prev d_prev).eval < ERROR_VAL)
      (hcost : dp.stepCost helper replica_num pipeline_num checkpointing b_prev b (d - d_prev) =
        some step)
      (hmem : dp.dev_mem ≤ toSize step.step_mem) : PrevTurn s b d b_prev d_prev search search true
  | evaluated {step : StepCost} {table : DPTable}
      (hskip : dp.skipDevNum replica_num pipeline_num (d - d_prev) = false)
      (hprev : (search.table s b_prev d_prev).eval < ERROR_VAL)
      (hcost : dp.stepCost helper replica_num pipeline_num checkpointing b_prev b (d - d_prev) =
        some step)
      (hmem : toSize step.step_mem < dp.dev_mem)
      (hup : step.val (search.table s b_prev d_prev) < (search.table (s + 1) b d).eval →
        table = search.table.set (s + 1) b d
          ⟨max (step.val (search.table s b_prev d_prev)) (search.table s b_prev d_prev).eval,
            max step.step_prof.fwd_time (search.table s b_prev d_prev).max_fwd,
            max step.step_prof.bwd_time (search.table s b_prev d_prev).max_bwd,
            max step.ar_comm (search.table s b_prev d_prev).max_allreduce, b_prev, d_prev⟩)
      (hkept : ¬step.val (search.table s b_prev d_prev) < (search.table (s + 1) b d).eval →
        table = search.table) :
      PrevTurn s b d b_prev d_prev search
        { search with table := table, found_b_sol := true, found_d_sol := true } false

/-- The passes of every feasible cell stay below the bounds. -/
def Bounded (max_fwd max_bwd : ℤ) (table : DPTable) : Prop :=
  ∀ s b d, (table s b d).eval < ERROR_VAL →
    (table s b d).max_fwd ≤ max_fwd ∧ (table s b d).max_bwd ≤ max_bwd

/-- What the turns of a stage do to the table: its feasible cells and the cells of other stages
stay. -/
structure Grows (max_fwd max_bwd : ℤ) (s : ℕ) (table table' : DPTable) : Prop where
  feasible : ∀ s' b d, (table s' b d).eval < ERROR_VAL → (table' s' b d).eval < ERROR_VAL
  other : ∀ s' b d, s' ≠ s → table' s' b d = table s' b d
  bounded : Bounded max_fwd max_bwd table'

/-- Candidates for a cell of stage `s + 1` were tried. Those that pass all tests are found; when
none is found and none was skipped, none of them fits with less devices either. -/
structure Scan (max_fwd max_bwd : ℤ) (s b d : ℕ) (tried : ℕ → ℕ → Prop)
    (search search' : Search) : Prop where
  grows : Grows max_fwd max_bwd (s + 1) search.table search'.table
  min_d : search'.min_d = search.min_d
  keeps_b : search.found_b_sol = true → search'.found_b_sol = true
  keeps_d : search.found_d_sol = true → search'.found_d_sol = true
  keeps_skip : search.skip_small_bs = true → search'.skip_small_bs = true
  finds : ∀ b_prev d_prev, tried b_prev d_prev →
    (search.table s b_prev d_prev).eval < ERROR_VAL →
    dp.StageOk helper replica_num pipeline_num checkpointing ⟨b_prev, b, d - d_prev⟩ →
      search'.found_b_sol = true ∧ search'.found_d_sol = true ∧
        (search'.table (s + 1) b d).eval < ERROR_VAL
  leaves : search'.found_d_sol = false → search'.skip_small_bs = false → ∀ b_prev d_prev,
    tried b_prev d_prev → (search.table s b_prev d_prev).eval < ERROR_VAL →
      ∀ dev_num, 0 < dev_num → dev_num ≤ d - d_prev →
        ¬dp.FitsMem helper replica_num pipeline_num checkpointing ⟨b_prev, b, dev_num⟩

/-- A stage of nodes before `b` after a feasible cell passes all tests. -/
def Candidate (table : DPTable) (s b d : ℕ) : Prop :=
  ∃ b_prev d_prev, s ≤ b_prev ∧ (b_prev < if s = 0 then 1 else b) ∧
    s ≤ d_prev ∧ (d_prev < if s = 0 then 1 else d) ∧ d_prev < d ∧
    (table s b_prev d_prev).eval < ERROR_VAL ∧
    dp.StageOk helper replica_num pipeline_num checkpointing ⟨b_prev, b, d - d_prev⟩

variable {dp helper stage_num dev_num_per_group replica_num pipeline_num checkpointing}

theorem Candidate.congr {table table' : DPTable} {s b d : ℕ}
    (h : dp.Candidate helper replica_num pipeline_num checkpointing table s b d)
    (htable : ∀ b d, table' s b d = table s b d) :
    dp.Candidate helper replica_num pipeline_num checkpointing table' s b d := by
  obtain ⟨b_prev, d_prev, hb, hb', hd, hd', hlt, hcell, hok⟩ := h
  exact ⟨b_prev, d_prev, hb, hb', hd, hd', hlt, (htable b_prev d_prev).symm ▸ hcell, hok⟩

theorem Grows.refl {max_fwd max_bwd : ℤ} {s : ℕ} {table : DPTable}
    (h : Bounded max_fwd max_bwd table) : Grows max_fwd max_bwd s table table :=
  ⟨fun _ _ _ hcell => hcell, fun _ _ _ _ => rfl, h⟩

theorem Grows.trans {max_fwd max_bwd : ℤ} {s : ℕ} {table₁ table₂ table₃ : DPTable}
    (h₁ : Grows max_fwd max_bwd s table₁ table₂) (h₂ : Grows max_fwd max_bwd s table₂ table₃) :
    Grows max_fwd max_bwd s table₁ table₃ where
  feasible s' b d h := h₂.feasible s' b d (h₁.feasible s' b d h)
  other s' b d hs := (h₂.other s' b d hs).trans (h₁.other s' b d hs)
  bounded := h₂.bounded

theorem skipDevNum_of_ok {dev_num : ℕ} (h : dp.DevNumOk replica_num pipeline_num dev_num) :
    dp.skipDevNum replica_num pipeline_num dev_num = false := by
  have hmax := ceilDiv_nonneg dp.batch_size (replica_num * pipeline_num)
  have hrepl := ceilDiv_nonneg dp.batch_size (replica_num * pipeline_num * dev_num)
  have hmore := h.more_than_bs
  have hpot := h.pot
  have hmin := h.min_bs
  rw [← isPowerOfTwo_iff] at hpot
  push_cast at hmax hrepl hmore hmin
  simp only [skipDevNum, Bool.or_eq_false_iff, Bool.and_eq_false_imp, decide_eq_false_iff_not,
    Bool.not_eq_false', not_lt]
  refine ⟨⟨?_, hpot⟩, ?_⟩
  · intro hlimit
    have hle := hmore hlimit
    omega
  · omega

theorem prevTurn {s b d b_prev d_prev : ℕ} {search search' : Search} {stop : Bool}
    (h : dp.tryPrev helper replica_num pipeline_num checkpointing (s + 1) b d b_prev search d_prev =
      some (search', stop)) :
    dp.PrevTurn helper replica_num pipeline_num checkpointing s b d b_prev d_prev search search'
      stop := by
  unfold tryPrev at h
  replace h := (of_guard_bind h).2
  dsimp only [Nat.add_sub_cancel] at h
  split_ifs at h with hskip hprev
  · obtain ⟨rfl, rfl⟩ := Prod.mk.inj (Option.some.inj h)
    exact PrevTurn.skipped hskip
  · obtain ⟨rfl, rfl⟩ := Prod.mk.inj (Option.some.inj h)
    exact PrevTurn.infeasible (Bool.not_eq_true _ ▸ hskip) hprev
  · obtain ⟨step, hcost, h⟩ := Option.bind_eq_some_iff.mp h
    split_ifs at h with hmem heval
    · obtain ⟨rfl, rfl⟩ := Prod.mk.inj (Option.some.inj h)
      exact PrevTurn.tooLarge (Bool.not_eq_true _ ▸ hskip) (not_le.mp hprev) hcost hmem
    · obtain ⟨rfl, rfl⟩ := Prod.mk.inj (Option.some.inj h)
      exact PrevTurn.evaluated (Bool.not_eq_true _ ▸ hskip) (not_le.mp hprev) hcost
        (not_le.mp hmem) (fun _ => rfl) (fun hno => absurd heval hno)
    · obtain ⟨rfl, rfl⟩ := Prod.mk.inj (Option.some.inj h)
      exact PrevTurn.evaluated (Bool.not_eq_true _ ▸ hskip) (not_le.mp hprev) hcost
        (not_le.mp hmem) (fun hyes => absurd hyes heval) (fun _ => rfl)

section Turns

variable {max_fwd max_bwd : ℤ} {s b d : ℕ} {search search' : Search}
  (hprof : dp.Profiled helper replica_num pipeline_num checkpointing)
  (htimes : dp.TimesBelow helper replica_num pipeline_num checkpointing max_fwd max_bwd)

include hprof in
theorem not_fitsMem_of_le {first boundary dev_num dev_num' : ℕ} {step : StepCost}
    (hcost : dp.stepCost helper replica_num pipeline_num checkpointing first boundary dev_num =
      some step) (hmem : dp.dev_mem ≤ toSize step.step_mem) (hpos : 0 < dev_num')
    (hle : dev_num' ≤ dev_num) :
    ¬dp.FitsMem helper replica_num pipeline_num checkpointing ⟨first, boundary, dev_num'⟩ := by
  rintro ⟨step', hcost', hmem'⟩
  have hmono := hprof.devices hpos hle hcost hcost'
  omega

include htimes in
theorem val_lt_error {first boundary dev_num : ℕ} {step : StepCost} {prev : DPState}
    (hcost : dp.stepCost helper replica_num pipeline_num checkpointing first boundary dev_num =
      some step) (hmem : toSize step.step_mem < dp.dev_mem)
    (hprev : prev.max_fwd ≤ max_fwd ∧ prev.max_bwd ≤ max_bwd) : step.val prev < ERROR_VAL := by
  have hfwd := htimes.fwd hcost hmem
  have hbwd := htimes.bwd hcost hmem
  push_cast at hfwd hbwd
  have hsum : step.val prev ≤ max_fwd + max_bwd :=
    add_le_add (max_le hfwd hprev.1) (max_le hbwd hprev.2)
  exact hsum.trans_lt htimes.sum_lt

include htimes in
theorem Grows.set {table : DPTable} {first boundary dev_num : ℕ} {step : StepCost}
    {prev : DPState} {max_allreduce : ℤ} {pre_boundary pre_dev_num : ℕ}
    (htable : Bounded max_fwd max_bwd table)
    (hcost : dp.stepCost helper replica_num pipeline_num checkpointing first boundary dev_num =
      some step) (hmem : toSize step.step_mem < dp.dev_mem)
    (hprev : prev.max_fwd ≤ max_fwd ∧ prev.max_bwd ≤ max_bwd) (heval : prev.eval < ERROR_VAL) :
    Grows max_fwd max_bwd s table (table.set s b d ⟨max (step.val prev) prev.eval,
      max step.step_prof.fwd_time prev.max_fwd, max step.step_prof.bwd_time prev.max_bwd,
      max_allreduce, pre_boundary, pre_dev_num⟩) := by
  have hval := val_lt_error htimes hcost hmem hprev
  have hfwd := htimes.fwd hcost hmem
  have hbwd := htimes.bwd hcost hmem
  constructor
  · intro s' b' d' hcell
    exact DPTable.eval_set_lt (max_lt hval heval) hcell
  · intro s' b' d' hs
    cases DPTable.set_cases table s b d _ s' b' d' with
    | inl heq => exact absurd heq.1 hs
    | inr heq => exact heq
  · intro s' b' d' hcell
    cases DPTable.set_cases table s b d _ s' b' d' with
    | inl heq =>
      rw [heq.2.2.2]
      exact ⟨max_le (by omega) hprev.1, max_le (by omega) hprev.2⟩
    | inr heq =>
      rw [heq] at hcell ⊢
      exact htable s' b' d' hcell

theorem Scan.nil (h : Bounded max_fwd max_bwd search.table) :
    dp.Scan helper replica_num pipeline_num checkpointing max_fwd max_bwd s b d
      (fun _ _ => False) search search where
  grows := Grows.refl h
  min_d := rfl
  keeps_b hfound := hfound
  keeps_d hfound := hfound
  keeps_skip hskip := hskip
  finds _ _ htried := htried.elim
  leaves _ _ _ _ htried := htried.elim

theorem Scan.mono {tried tried' : ℕ → ℕ → Prop}
    (h : dp.Scan helper replica_num pipeline_num checkpointing max_fwd max_bwd s b d tried search
      search') (hmono : ∀ b_prev d_prev, tried' b_prev d_prev → tried b_prev d_prev) :
    dp.Scan helper replica_num pipeline_num checkpointing max_fwd max_bwd s b d tried' search
      search' where
  grows := h.grows
  min_d := h.min_d
  keeps_b := h.keeps_b
  keeps_d := h.keeps_d
  keeps_skip := h.keeps_skip
  finds b_prev d_prev htried := h.finds b_prev d_prev (hmono _ _ htried)
  leaves hfound hskip b_prev d_prev htried := h.leaves hfound hskip b_prev d_prev (hmono _ _ htried)

theorem Scan.trans {tried₁ tried₂ : ℕ → ℕ → Prop} {search₁ search₂ search₃ : Search}
    (h₁ : dp.Scan helper replica_num pipeline_num checkpointing max_fwd max_bwd s b d tried₁
      search₁ search₂)
    (h₂ : dp.Scan helper replica_num pipeline_num checkpointing max_fwd max_bwd s b d tried₂
      search₂ search₃) :
    dp.Scan helper replica_num pipeline_num checkpointing max_fwd max_bwd s b d
      (fun b_prev d_prev => tried₁ b_prev d_prev ∨ tried₂ b_prev d_prev) search₁ search₃ := by
  have hprev : ∀ b_prev d_prev, search₂.table s b_prev d_prev = search₁.table s b_prev d_prev :=
    fun b_prev d_prev => h₁.grows.other s b_prev d_prev (Nat.succ_ne_self s).symm
  constructor
  · exact h₁.grows.trans h₂.grows
  · exact h₂.min_d.trans h₁.min_d
  · exact fun h => h₂.keeps_b (h₁.keeps_b h)
  · exact fun h => h₂.keeps_d (h₁.keeps_d h)
  · exact fun h => h₂.keeps_skip (h₁.keeps_skip h)
  · intro b_prev d_prev htried hcell hok
    cases htried with
    | inl htried =>
      obtain ⟨hb, hd, heval⟩ := h₁.finds b_prev d_prev htried hcell hok
      exact ⟨h₂.keeps_b hb, h₂.keeps_d hd, h₂.grows.feasible _ _ _ heval⟩
    | inr htried => exact h₂.finds b_prev d_prev htried ((hprev _ _).symm ▸ hcell) hok
  · intro hfound hskip b_prev d_prev htried hcell
    cases htried with
    | inl htried =>
      apply h₁.leaves _ _ b_prev d_prev htried hcell
      · exact Bool.eq_false_iff.mpr fun h => Bool.eq_false_iff.mp hfound (h₂.keeps_d h)
      · exact Bool.eq_false_iff.mpr fun h => Bool.eq_false_iff.mp hskip (h₂.keeps_skip h)
    | inr htried => exact h₂.leaves hfound hskip b_prev d_prev htried ((hprev _ _).symm ▸ hcell)

include hprof htimes in
/-- A turn tries its own candidate; the one that ends the loop also settles those with fewer
devices. -/
theorem PrevTurn.scan {b_prev d_prev : ℕ} {stop : Bool}
    (h : dp.PrevTurn helper replica_num pipeline_num checkpointing s b d b_prev d_prev search
      search' stop) (htable : Bounded max_fwd max_bwd search.table) :
    dp.Scan helper replica_num pipeline_num checkpointing max_fwd max_bwd s b d
      (fun b' d' => b' = b_prev ∧ (d' = d_prev ∨ stop = true ∧ d_prev < d')) search search' := by
  cases h with
  | skipped hskip =>
    constructor
    · exact Grows.refl htable
    · rfl
    · exact fun h => h
    · exact fun h => h
    · exact fun _ => rfl
    · rintro b' d' ⟨rfl, rfl | ⟨hstop, _⟩⟩ _ hok
      · exact absurd hskip (Bool.eq_false_iff.mp (skipDevNum_of_ok hok.limits))
      · cases hstop
    · intro _ hno
      cases hno
  | infeasible hskip hprev =>
    constructor
    · exact Grows.refl htable
    · rfl
    · exact fun h => h
    · exact fun h => h
    · exact fun h => h
    · rintro b' d' ⟨rfl, rfl | ⟨hstop, _⟩⟩ hcell
      · exact absurd hcell (not_lt.mpr hprev)
      · cases hstop
    · rintro _ _ b' d' ⟨rfl, rfl | ⟨hstop, _⟩⟩ hcell
      · exact absurd hcell (not_lt.mpr hprev)
      · cases hstop
  | tooLarge hskip hprev hcost hmem =>
    constructor
    · exact Grows.refl htable
    · rfl
    · exact fun h => h
    · exact fun h => h
    · exact fun h => h
    · rintro b' d' ⟨rfl, hd'⟩ _ hok
      have hpos := hok.dev_pos
      exact absurd hok.fits (not_fitsMem_of_le hprof hcost hmem hpos (by omega))
    · rintro _ _ b' d' ⟨rfl, hd'⟩ _ dev_num hpos hle
      exact not_fitsMem_of_le hprof hcost hmem hpos (by omega)
  | @evaluated step table hskip hprev hcost hmem hup hkept =>
    have hbound := htable s b_prev d_prev hprev
    have hval := val_lt_error htimes hcost hmem hbound
    have hgrows : Grows max_fwd max_bwd (s + 1) search.table table ∧
        (table (s + 1) b d).eval < ERROR_VAL := by
      by_cases hless : step.val (search.table s b_prev d_prev) < (search.table (s + 1) b d).eval
      · rw [hup hless]
        refine ⟨Grows.set htimes htable hcost hmem hbound hprev, ?_⟩
        rw [DPTable.set_self]
        exact max_lt hval hprev
      · rw [hkept hless]
        exact ⟨Grows.refl htable, (not_lt.mp hless).trans_lt hval⟩
    constructor
    · exact hgrows.1
    · rfl
    · exact fun _ => rfl
    · exact fun _ => rfl
    · exact fun h => h
    · exact fun _ _ _ _ _ => ⟨rfl, rfl, hgrows.2⟩
    · intro hno
      cases hno

include hprof htimes in
/-- The loop over the devices of the stages before. -/
theorem scan_foldUntilM {b_prev : ℕ} {d_prevs : List ℕ} (hlt : d_prevs.Pairwise (· < ·))
    (htable : Bounded max_fwd max_bwd search.table)
    (h : foldUntilM (dp.tryPrev helper replica_num pipeline_num checkpointing (s + 1) b d b_prev)
      search d_prevs = some search') :
    dp.Scan helper replica_num pipeline_num checkpointing max_fwd max_bwd s b d
      (fun b' d' => b' = b_prev ∧ d' ∈ d_prevs) search search' := by
  induction d_prevs generalizing search with
  | nil =>
    obtain rfl := Option.some.inj h
    exact (Scan.nil htable).mono fun _ _ htried => absurd htried.2 List.not_mem_nil
  | cons d_prev d_prevs ih =>
    obtain ⟨⟨search₁, stop⟩, hturn, hrest⟩ := Option.bind_eq_some_iff.mp h
    have hscan := (prevTurn hturn).scan hprof htimes htable
    rw [List.pairwise_cons] at hlt
    cases stop with
    | true =>
      obtain rfl := Option.some.inj hrest
      apply hscan.mono
      rintro b' d' ⟨rfl, hd'⟩
      refine ⟨rfl, ?_⟩
      cases List.mem_cons.mp hd' with
      | inl heq => exact Or.inl heq
      | inr hmem => exact Or.inr ⟨rfl, hlt.1 d' hmem⟩
    | false =>
      apply (hscan.trans (ih hlt.2 hscan.grows.bounded hrest)).mono
      rintro b' d' ⟨rfl, hd'⟩
      cases List.mem_cons.mp hd' with
      | inl heq => exact Or.inl ⟨rfl, Or.inl heq⟩
      | inr hmem => exact Or.inr ⟨rfl, hmem⟩

include hprof htimes in
theorem scan_foldlM {b_prevs : List ℕ} (htable : Bounded max_fwd max_bwd search.table)
    (h : b_prevs.foldlM (dp.tryBoundary helper replica_num pipeline_num checkpointing (s + 1) b d)
      search = some search') :
    dp.Scan helper replica_num pipeline_num checkpointing max_fwd max_bwd s b d
      (fun b' d' => b' ∈ b_prevs ∧ s ≤ d' ∧ d' < if s = 0 then 1 else d) search search' := by
  induction b_prevs generalizing search with
  | nil =>
    obtain rfl := Option.some.inj h
    exact (Scan.nil htable).mono fun _ _ htried => absurd htried.1 List.not_mem_nil
  | cons b_prev b_prevs ih =>
    obtain ⟨search₁, hturn, hrest⟩ := Option.bind_eq_some_iff.mp h
    have hscan := scan_foldUntilM hprof htimes List.pairwise_lt_range' htable hturn
    apply (hscan.trans (ih hscan.grows.bounded hrest)).mono
    rintro b' d' ⟨hb', hle, hlt⟩
    cases List.mem_cons.mp hb' with
    | inl heq =>
      left
      refine ⟨heq, List.mem_range'_1.mpr ?_⟩
      have hs : s + 1 = 1 ↔ s = 0 := by omega
      simp only [hs]
      split_ifs at hlt ⊢ <;> omega
    | inr hmem => exact Or.inr ⟨hmem, hle, hlt⟩

include hprof htimes in
/-- All candidates of a cell. The devices are taken no further when none of them, and none with
less devices, is of use. -/
theorem tryDevNum_spec {stop : Bool} (htable : Bounded max_fwd max_bwd search.table)
    (h : dp.tryDevNum helper replica_num pipeline_num checkpointing (s + 1) b search d =
      some (search', stop)) :
    Grows max_fwd max_bwd (s + 1) search.table search'.table ∧
      search'.min_d = (if stop = true then d + 1 else search.min_d) ∧
      (search.found_b_sol = true → search'.found_b_sol = true) ∧
      (dp.Candidate helper replica_num pipeline_num checkpointing search.table s b d →
        search'.found_b_sol = true ∧ (search'.table (s + 1) b d).eval < ERROR_VAL) ∧
      (stop = true → ∀ d' ≤ d,
        ¬dp.Candidate helper replica_num pipeline_num checkpointing search.table s b d') := by
  obtain ⟨search₁, hloop, hend⟩ := Option.bind_eq_some_iff.mp h
  have hscan := scan_foldlM hprof htimes (by exact htable) hloop
  have hs : s + 1 = 1 ↔ s = 0 := by omega
  have htried : ∀ {b_prev : ℕ}, s ≤ b_prev → (b_prev < if s = 0 then 1 else b) →
      b_prev ∈ List.range' (s + 1 - 1) ((if s + 1 = 1 then 1 else b) - (s + 1 - 1)) := by
    intro b_prev hle hlt
    rw [List.mem_range'_1]
    simp only [hs]
    split_ifs at hlt ⊢ <;> omega
  have hfinds : dp.Candidate helper replica_num pipeline_num checkpointing search.table s b d →
      search₁.found_b_sol = true ∧ search₁.found_d_sol = true ∧
        (search₁.table (s + 1) b d).eval < ERROR_VAL := by
    rintro ⟨b_prev, d_prev, hb, hb', hd, hd', _, hcell, hok⟩
    exact hscan.finds b_prev d_prev ⟨htried hb hb', hd, hd'⟩ hcell hok
  split_ifs at hend with hnone
  · obtain ⟨rfl, rfl⟩ := Prod.mk.inj (Option.some.inj hend)
    rw [Bool.and_eq_true, Bool.not_eq_true', Bool.not_eq_true'] at hnone
    refine ⟨hscan.grows, rfl, hscan.keeps_b, fun hcand => ⟨(hfinds hcand).1, (hfinds hcand).2.2⟩,
      fun _ d' hle hcand => ?_⟩
    obtain ⟨b_prev, d_prev, hb, hb', hd, hd', hlt, hcell, hok⟩ := hcand
    have htried' : d_prev < if s = 0 then 1 else d := by
      split_ifs at hd' ⊢ <;> omega
    exact hscan.leaves hnone.1 hnone.2 b_prev d_prev ⟨htried hb hb', hd, htried'⟩ hcell
      (d' - d_prev) (by omega) (by omega) hok.fits
  · obtain ⟨rfl, rfl⟩ := Prod.mk.inj (Option.some.inj hend)
    refine ⟨hscan.grows, hscan.min_d, hscan.keeps_b,
      fun hcand => ⟨(hfinds hcand).1, (hfinds hcand).2.2⟩, fun hstop => ?_⟩
    cases hstop

include hprof htimes in
/-- Devices are taken away one by one; what is left out is of no use at this boundary. -/
theorem foldUntilM_tryDevNum_spec {ds : List ℕ} (hgt : ds.Pairwise (· > ·))
    (htable : Bounded max_fwd max_bwd search.table)
    (h : foldUntilM (dp.tryDevNum helper replica_num pipeline_num checkpointing (s + 1) b) search
      ds = some search') :
    Grows max_fwd max_bwd (s + 1) search.table search'.table ∧
      (search.found_b_sol = true → search'.found_b_sol = true) ∧
      (∀ d ∈ ds, dp.Candidate helper replica_num pipeline_num checkpointing search.table s b d →
        search'.found_b_sol = true ∧ (search'.table (s + 1) b d).eval < ERROR_VAL) ∧
      (search'.min_d = search.min_d ∨ ∃ d₀, search'.min_d = d₀ + 1 ∧ ∀ d ≤ d₀,
        ¬dp.Candidate helper replica_num pipeline_num checkpointing search.table s b d) := by
  induction ds generalizing search with
  | nil =>
    obtain rfl := Option.some.inj h
    exact ⟨Grows.refl htable, fun hfound => hfound, fun d hd => absurd hd List.not_mem_nil,
      Or.inl rfl⟩
  | cons d ds ih =>
    obtain ⟨⟨search₁, stop⟩, hturn, hrest⟩ := Option.bind_eq_some_iff.mp h
    obtain ⟨hgrows, hmin, hkeeps, hfinds, hstop⟩ := tryDevNum_spec hprof htimes htable hturn
    rw [List.pairwise_cons] at hgt
    cases stop with
    | true =>
      obtain rfl := Option.some.inj hrest
      refine ⟨hgrows, hkeeps, ?_, Or.inr ⟨d, hmin, hstop rfl⟩⟩
      intro d' hd' hcand
      cases List.mem_cons.mp hd' with
      | inl heq => exact absurd hcand (hstop rfl d' heq.le)
      | inr hmem => exact absurd hcand (hstop rfl d' (hgt.1 d' hmem).le)
    | false =>
      have hsame : ∀ b d, search₁.table s b d = search.table s b d :=
        fun b d => hgrows.other s b d (Nat.succ_ne_self s).symm
      obtain ⟨hgrows', hkeeps', hfinds', hmin'⟩ := ih hgt.2 hgrows.bounded hrest
      refine ⟨hgrows.trans hgrows', fun hfound => hkeeps' (hkeeps hfound), ?_, ?_⟩
      · intro d' hd' hcand
        cases List.mem_cons.mp hd' with
        | inl heq =>
          obtain rfl := heq
          obtain ⟨hfound, heval⟩ := hfinds hcand
          exact ⟨hkeeps' hfound, hgrows'.feasible _ _ _ heval⟩
        | inr hmem => exact hfinds' d' hmem (hcand.congr hsame)
      · cases hmin' with
        | inl heq => exact Or.inl (heq.trans hmin)
        | inr hleft =>
          obtain ⟨d₀, heq, hnone⟩ := hleft
          exact Or.inr ⟨d₀, heq, fun d hd hcand => hnone d hd (hcand.congr hsame)⟩

include hprof htimes in
theorem searchBoundary_spec {stop : Bool} (htable : Bounded max_fwd max_bwd search.table)
    (h : dp.searchBoundary helper dev_num_per_group replica_num pipeline_num checkpointing (s + 1)
      search b = some (search', stop)) :
    Grows max_fwd max_bwd (s + 1) search.table search'.table ∧
      (∀ d, search.min_d ≤ d → s + 1 ≤ d → d ≤ dev_num_per_group →
        dp.Candidate helper replica_num pipeline_num checkpointing search.table s b d →
          stop = false ∧ search'.min_d ≤ d ∧ (search'.table (s + 1) b d).eval < ERROR_VAL) := by
  obtain ⟨search₁, hloop, hend⟩ := Option.bind_eq_some_iff.mp h
  obtain ⟨rfl, rfl⟩ := Prod.mk.inj (Option.some.inj hend)
  have hgt : (List.range' (max search.min_d (s + 1))
      (dev_num_per_group + 1 - max search.min_d (s + 1))).reverse.Pairwise (· > ·) :=
    List.pairwise_reverse.mpr List.pairwise_lt_range'
  obtain ⟨hgrows, _, hfinds, hmin⟩ :=
    foldUntilM_tryDevNum_spec hprof htimes hgt (by exact htable) hloop
  refine ⟨hgrows, ?_⟩
  intro d hmin_d hs hd hcand
  have hmem : d ∈ (List.range' (max search.min_d (s + 1))
      (dev_num_per_group + 1 - max search.min_d (s + 1))).reverse := by
    rw [List.mem_reverse, List.mem_range'_1]
    omega
  obtain ⟨hfound, heval⟩ := hfinds d hmem hcand
  refine ⟨?_, ?_, heval⟩
  · rw [hfound]
    rfl
  · cases hmin with
    | inl heq => exact heq.le.trans hmin_d
    | inr hleft =>
      obtain ⟨d₀, heq, hnone⟩ := hleft
      have hlt : d₀ < d := by
        by_contra hle
        exact hnone d (not_lt.mp hle) hcand
      omega

end Turns

end DPStaging

end Rannc
