import Rannc.Graph.Coarsening
import Rannc.Graph.ProfilerUtil
import Rannc.Lib.Spread

/-!
# Statistics of a pass

Which nodes are too slow to be merged is told by the average evaluation and the deviation from it,
which are computed in numbers of type `long`. Where the memory does not suffice, a profile with very
large numbers takes the place of a measured one. Beside a measured profile, its squared deviation
does not fit.
-/
namespace Rannc

/-- Times and memory that can be measured. -/
structure GraphProfile.Measured (prof : GraphProfile) : Prop where
  fwd_time : 0 ≤ prof.fwd_time ∧ prof.fwd_time ≤ LONG_MAX
  bwd_time : 0 ≤ prof.bwd_time ∧ prof.bwd_time ≤ LONG_MAX
  max_allocated_mem : 0 ≤ prof.max_allocated_mem ∧ prof.max_allocated_mem ≤ LONG_MAX

/-- How profiling a graph ends. -/
inductive ProfileOutcome
  | measured (prof : GraphProfile) (valid : prof.Measured)
  | outOfMemory

def ProfileOutcome.profile : ProfileOutcome → GraphProfile
  | measured prof _ => prof
  | outOfMemory => makeErrorProfile

theorem ProfileOutcome.profile_measured (outcome : ProfileOutcome) : outcome.profile.Measured := by
  cases outcome with
  | measured prof valid => exact valid
  | outOfMemory => constructor <;> decide

namespace MLPartitioner

variable (p : MLPartitioner)

/-- `eval` without overflow. -/
def exactEval (prof : GraphProfile) : ℤ :=
  if p.coarsen_by_time then prof.fwd_time + prof.bwd_time else prof.max_allocated_mem

/-- The statistics are the true ones. -/
def StatisticsTrue (outcomes : List ProfileOutcome) : Prop :=
  let evals := outcomes.map fun outcome => p.exactEval outcome.profile
  let eval_ave := evals.sum / evals.length
  ∃ st, p.mergeStatistics (outcomes.map ProfileOutcome.profile) = some st ∧
    st.eval_sum = evals.sum ∧
    st.squares = evals.map (fun e => (e - eval_ave) * (e - eval_ave)) ∧
    st.eval_var = (evals.map fun e => (e - eval_ave) * (e - eval_ave)).sum ∧
    0 ≤ st.variance

/-- There are evaluations, not too many large ones, and they are close to each other. -/
structure EvalsClose (evals : List ℤ) : Prop where
  nonempty : evals ≠ []
  sum_le : evals.sum ≤ LONG_MAX
  spread_le : spread evals + 2 * (evals.sum % evals.length * (evals.sum % evals.length)) ≤
    2 * evals.length * LONG_MAX

section Evals

variable {p}

theorem exactEval_nonneg {prof : GraphProfile} (h : prof.Measured) : 0 ≤ p.exactEval prof := by
  unfold exactEval
  split_ifs
  · exact add_nonneg h.fwd_time.1 h.bwd_time.1
  · exact h.max_allocated_mem.1

theorem eval_eq {prof : GraphProfile} (h : prof.Measured) :
    p.eval prof = toLong (p.exactEval prof) := by
  unfold eval exactEval
  split_ifs with htime
  · rfl
  · refine (toLong_eq_self_iff.mpr ⟨?_, h.max_allocated_mem.2⟩).symm
    have hnonneg := h.max_allocated_mem.1
    unfold LONG_MAX
    omega

theorem sumLong_evals {profs : List GraphProfile} (h : ∀ prof ∈ profs, prof.Measured) :
    sumLong (profs.map p.eval) = toLong (profs.map p.exactEval).sum := by
  have hmap : profs.map p.eval = (profs.map p.exactEval).map toLong := by
    rw [List.map_map]
    exact List.map_congr_left fun prof hprof => eval_eq (h prof hprof)
  rw [hmap, sumLong_map_toLong, sumLong_eq]

/-- Once the sum fits, only the squares can be too large. -/
theorem mergeStatistics_eq {profs : List GraphProfile} (h : ∀ prof ∈ profs, prof.Measured)
    (hne : profs ≠ []) {evals : List ℤ} (hevals : profs.map p.exactEval = evals)
    (hsum : evals.sum ≤ LONG_MAX) :
    p.mergeStatistics profs = some ⟨evals.sum, evals.sum / evals.length,
      evals.map (fun e => toLong
        ((e - evals.sum / evals.length) * (e - evals.sum / evals.length))),
      toLong (deviation evals (evals.sum / evals.length)),
      (toSize (toLong (deviation evals (evals.sum / evals.length))) / evals.length : ℕ),
      sqrtDouble (toSize (toLong (deviation evals (evals.sum / evals.length))) /
        evals.length)⟩ := by
  have hlen : evals.length = profs.length := by rw [← hevals, List.length_map]
  have hpos : 0 < profs.length := List.length_pos_iff.mpr hne
  have hnonneg : ∀ e ∈ evals, 0 ≤ e :=
    hevals ▸ List.forall_mem_map.mpr fun prof hprof => exactEval_nonneg (h prof hprof)
  have hsum_nonneg : 0 ≤ evals.sum := List.sum_nonneg hnonneg
  have heval_sum : sumLong (profs.map p.eval) = evals.sum := by
    rw [sumLong_evals h, hevals, toLong_eq_self hsum_nonneg]
    exact hsum
  obtain ⟨ave, hmean⟩ : ∃ ave, evals.sum / (evals.length : ℤ) = ave := ⟨_, rfl⟩
  have hmean_nonneg : 0 ≤ ave := hmean ▸ Int.ediv_nonneg hsum_nonneg (by omega)
  have hmean_le : ave ≤ LONG_MAX := hmean ▸ (Int.ediv_le_self _ hsum_nonneg).trans hsum
  have heval_ave : toLong (toSize evals.sum / profs.length : ℕ) = ave := by
    have hsize : (toSize evals.sum : ℤ) = evals.sum :=
      toSize_eq hsum_nonneg (hsum.trans_lt (by decide))
    rw [Int.natCast_div, hsize, ← hlen, hmean]
    exact (toLong_eq_self hmean_nonneg).mpr hmean_le
  have hdiff : ∀ prof ∈ profs, toLong (p.eval prof - ave) = p.exactEval prof - ave := by
    intro prof hprof
    have hmem : p.exactEval prof ∈ evals := hevals ▸ List.mem_map_of_mem hprof
    have hle : p.exactEval prof ≤ LONG_MAX := (List.single_le_sum hnonneg _ hmem).trans hsum
    have hge := hnonneg _ hmem
    rw [eval_eq (h prof hprof), (toLong_eq_self hge).mpr hle]
    exact toLong_eq_self_iff.mpr ⟨by omega, by omega⟩
  have hsquares : (profs.map fun prof => toLong (toLong (p.eval prof - ave) *
      toLong (p.eval prof - ave))) = evals.map fun e => toLong ((e - ave) * (e - ave)) := by
    rw [← hevals, List.map_map]
    exact List.map_congr_left fun prof hprof => by rw [hdiff prof hprof]; rfl
  have hvar : sumLong (evals.map fun e => toLong ((e - ave) * (e - ave))) =
      toLong (deviation evals ave) := by
    have hmap : (evals.map fun e => toLong ((e - ave) * (e - ave))) =
        (evals.map fun e => (e - ave) * (e - ave)).map toLong := by rw [List.map_map]; rfl
    rw [hmap, sumLong_map_toLong, sumLong_eq, deviation]
  rw [hmean, hlen]
  simp only [mergeStatistics, heval_sum, heval_ave, hsquares, hvar, guard, if_pos hpos.ne']
  rfl

theorem mergeStatistics_eval_sum {profs : List GraphProfile} {st : MergeStatistics}
    (h : p.mergeStatistics profs = some st) :
    profs ≠ [] ∧ st.eval_sum = sumLong (profs.map p.eval) := by
  obtain ⟨hlen, hst⟩ := of_guard_bind h
  obtain rfl := Option.some.inj hst
  exact ⟨fun hnil => hlen (by rw [hnil]; rfl), rfl⟩

theorem deviation_le_iff {evals : List ℤ} (hne : evals ≠ []) :
    deviation evals (evals.sum / evals.length) ≤ LONG_MAX ↔
      spread evals + 2 * (evals.sum % evals.length * (evals.sum % evals.length)) ≤
        2 * evals.length * LONG_MAX := by
  have hlen : 0 < (evals.length : ℤ) := by
    exact_mod_cast List.length_pos_iff.mpr hne
  have hmod : evals.sum - evals.length * (evals.sum / evals.length) =
      evals.sum % evals.length := by rw [Int.emod_def]
  rw [← hmod, ← two_mul_length_mul_deviation]
  exact (mul_le_mul_iff_right₀ (by omega)).symm

theorem evalsClose_replicate {n : ℕ} {x : ℤ} (hn : 0 < n) :
    EvalsClose (List.replicate n x) ↔ n * x ≤ LONG_MAX := by
  constructor
  · intro h
    simpa using h.sum_le
  · intro h
    refine ⟨List.ne_nil_of_length_pos (by simpa using hn), by simpa using h, ?_⟩
    rw [spread_replicate]
    simp only [List.sum_replicate, List.length_replicate, nsmul_eq_mul, Int.mul_emod_right]
    have hmax : (0 : ℤ) ≤ LONG_MAX := by decide
    nlinarith

end Evals

/-- The limit for merging is then the one of exact arithmetic, up to numbers whose root is rounded
to the next integer. -/
theorem mergeStatistics_limit {profs : List GraphProfile} (h : ∀ prof ∈ profs, prof.Measured)
    {evals : List ℤ} (hevals : profs.map p.exactEval = evals) (hclose : EvalsClose evals)
    (hsum : evals.sum ≤ 2 ^ 62)
    (hvar : deviation evals (evals.sum / evals.length) / evals.length < 2 ^ 52) :
    ∃ st, p.mergeStatistics profs = some st ∧ st.limit = evals.sum / evals.length +
      Int.sqrt (deviation evals (evals.sum / evals.length) / evals.length) * 2 := by
  have hne : profs ≠ [] := by
    rintro rfl
    exact hclose.nonempty hevals.symm
  refine ⟨_, mergeStatistics_eq h hne hevals hclose.sum_le, ?_⟩
  have hfit := (deviation_le_iff hclose.nonempty).mpr hclose.spread_le
  have hnonneg := deviation_nonneg evals (evals.sum / (evals.length : ℤ))
  have hsum_nonneg : 0 ≤ evals.sum := by
    refine List.sum_nonneg ?_
    rw [← hevals]
    exact List.forall_mem_map.mpr fun prof hprof => exactEval_nonneg (h prof hprof)
  have hmean_nonneg : 0 ≤ evals.sum / (evals.length : ℤ) :=
    Int.ediv_nonneg hsum_nonneg (Int.natCast_nonneg _)
  have hmean_le : evals.sum / (evals.length : ℤ) ≤ evals.sum := Int.ediv_le_self _ hsum_nonneg
  generalize deviation evals (evals.sum / (evals.length : ℤ)) = var at *
  generalize evals.sum / (evals.length : ℤ) = eval_ave at *
  have hsize : (toSize var : ℤ) = var := toSize_eq hnonneg (hfit.trans_lt (by decide))
  have hquotient : ((toSize var / evals.length : ℕ) : ℤ) = var / evals.length := by
    rw [Int.natCast_div, hsize]
  obtain ⟨variance, hvariance⟩ : ∃ variance, toSize var / evals.length = variance := ⟨_, rfl⟩
  rw [hvariance] at hquotient
  have hlt : variance < 2 ^ 52 := by
    have := hquotient ▸ hvar
    omega
  have hroot : Nat.sqrt variance < 2 ^ 26 := Nat.sqrt_lt.mpr hlt
  have hfits : ∀ value : ℤ, 0 ≤ value → value ≤ LONG_MAX → toLong value = value :=
    fun value hvalue hle => (toLong_eq_self hvalue).mpr hle
  unfold MergeStatistics.limit
  dsimp only
  rw [hfits var hnonneg hfit, hvariance, sqrtDouble_eq hlt, ← hquotient, Int.sqrt,
    Int.toNat_natCast]
  unfold LONG_MAX at hfits
  rw [hfits (Nat.sqrt variance * 2) (by omega) (by omega), hfits _ (by omega) (by omega)]

/-- The statistics are the true ones just where the evaluations are close to each other. -/
theorem statisticsTrue_iff (outcomes : List ProfileOutcome) :
    p.StatisticsTrue outcomes ↔
      EvalsClose (outcomes.map fun outcome => p.exactEval outcome.profile) := by
  obtain ⟨evals, hevals⟩ : ∃ evals,
    (outcomes.map fun outcome => p.exactEval outcome.profile) = evals := ⟨_, rfl⟩
  have hprofs : (outcomes.map ProfileOutcome.profile).map p.exactEval = evals := by
    rw [← hevals, List.map_map]
    rfl
  have hmeasured : ∀ prof ∈ outcomes.map ProfileOutcome.profile, prof.Measured :=
    List.forall_mem_map.mpr fun outcome _ => outcome.profile_measured
  have hnil : outcomes.map ProfileOutcome.profile ≠ [] ↔ evals ≠ [] := by
    rw [← hprofs, Ne, Ne, List.map_eq_nil_iff (f := p.exactEval)]
  have hnonneg : 0 ≤ evals.sum := List.sum_nonneg fun e he => by
    rw [← hprofs] at he
    obtain ⟨prof, hprof, rfl⟩ := List.mem_map.mp he
    exact exactEval_nonneg (hmeasured prof hprof)
  unfold StatisticsTrue
  rw [hevals]
  constructor
  · rintro ⟨st, hst, hsum, -, hvar, -⟩
    obtain ⟨hne, heval_sum⟩ := mergeStatistics_eval_sum hst
    rw [sumLong_evals hmeasured, hprofs, hsum] at heval_sum
    have hsum_le := (toLong_eq_self hnonneg).mp heval_sum.symm
    rw [mergeStatistics_eq hmeasured hne hprofs hsum_le] at hst
    obtain rfl := Option.some.inj hst
    exact ⟨hnil.mp hne, hsum_le, (deviation_le_iff (hnil.mp hne)).mp
      ((toLong_eq_self (deviation_nonneg _ _)).mp hvar)⟩
  · intro h
    have hfit := (deviation_le_iff h.nonempty).mpr h.spread_le
    refine ⟨_, mergeStatistics_eq hmeasured (hnil.mpr h.nonempty) hprofs h.sum_le, rfl, ?_, ?_,
      Int.natCast_nonneg _⟩
    · refine List.map_congr_left fun e he => (toLong_eq_self (mul_self_nonneg _)).mpr ?_
      exact (le_deviation he).trans hfit
    · exact (toLong_eq_self (deviation_nonneg _ _)).mpr hfit

/-- A node that took a microsecond beside one that ran out of memory. -/
theorem not_statisticsTrue : ¬ ∀ (p : MLPartitioner) (outcomes : List ProfileOutcome),
    p.StatisticsTrue outcomes := by
  intro h
  obtain ⟨st, hst, -, hsquares, -⟩ := h crossingPartitioner
    [.measured ⟨1, 0, 0⟩ ⟨by decide, by decide, by decide⟩, .outOfMemory]
  obtain rfl := Option.some.inj hst
  revert hsquares
  decide +kernel

end MLPartitioner

end Rannc
