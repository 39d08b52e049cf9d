import Rannc.Comp.GraphLauncher
import Rannc.Lib.Mean
import Rannc.Lib.OptionFold
import Mathlib.Data.List.TakeWhile

/-!
# Averaging the loss over replicas and splits

Every replica of the subgraph that gives the loss returns the mean over its own samples. Inside a
split the replicas' means are weighted with the split's batch size, and the losses of the splits
with the global batch size. A loss is a tensor without dimensions, a number here.
-/
namespace Rannc

open RoundRobin GraphLauncher

def getRanksInRoute (route : RouteDP) : Finset ℕ := route.sources.toFinset ∪ route.dests.toFinset

/-- The assertion that the rank has a share is the case `none`. -/
def getDpRatio (total_batch_size : ℕ) (ranks : Finset ℕ) (myrank split_index : ℕ) : Option ℚ :=
  ((getSplitBatchSizes total_batch_size ranks split_index).lookup myrank).map fun bs : ℕ =>
    (bs : ℚ) / total_batch_size

/-- What a rank puts in the buffer of the allreduce. -/
def lossSource (route : RouteDP) (batch_size split_index rank : ℕ) : Option ℚ → Option ℚ
  | none => some 0
  | some val => do
    let src_ratio ←
      if rank ∈ route.sources then getDpRatio batch_size route.sources.toFinset rank split_index
      else some 0
    return src_ratio * val

/-- The value that `rank` gets, where `vals` are the values that all ranks come with. -/
def distributeLossTensor (vals : ℕ → Option ℚ) (route : RouteDP) (weight : Bool)
    (batch_size split_index rank : ℕ) : Option (Option ℚ) := do
  let srcs ← (sortRanks (getRanksInRoute route)).mapM fun r =>
    lossSource route batch_size split_index r (vals r)
  if rank ∉ route.dests then
    return none
  let ratio ←
    if weight then getDpRatio batch_size route.dests.toFinset rank split_index else some 1
  return some (ratio * srcs.sum)

def sumDistLossTensors (batch_size : ℕ) : List ℚ → Option ℚ
  | [] => none
  | tensors@(front :: rest) =>
    let dist_bs := getSplitNumBatchSizes batch_size tensors.length
    let ratio (bs : ℕ) : ℚ := bs / batch_size
    some <| (dist_bs.tail.zip rest).foldl (fun ret it => ret + ratio it.1 * it.2)
      (ratio (dist_bs.headD 0) * front)

/-- The branch for losses: the tensors of the splits are numbers. -/
def concatOrSumTensors (tensors : List (Option ℚ)) (batch_size : ℕ) : Option ℚ :=
  sumDistLossTensors batch_size tensors.reduceOption

/-- The last step of `GraphLauncher::compute` for the route of the loss: the outputs of the splits
are distributed one after another and then merged, as far as the rank got them. -/
def lossOutput (vals : ℕ → ℕ → Option ℚ) (route : RouteDP) (is_bwd : Bool)
    (pipeline_num batch_size rank : ℕ) : Option (Option ℚ) := do
  let outs ← (List.range (actualPipelineNum pipeline_num batch_size)).mapM fun i =>
    let scomm := startSplit pipeline_num batch_size i
    distributeLossTensor (vals i) route is_bwd scomm.batch_size scomm.split_index.toNat rank
  let loc_values := outs.takeWhile Option.isSome
  if loc_values.isEmpty then
    return none
  let loss ← concatOrSumTensors loc_values batch_size
  return some loss

theorem sum_getSplitNumBatchSizes (batch_size : ℕ) {splits : ℕ} (hsplits : 0 < splits) :
    (getSplitNumBatchSizes batch_size splits).sum = batch_size := by
  have h := getSplitNumBatchSizes_take_sum batch_size (le_refl splits)
  have hlt : batch_size % splits < splits := Nat.mod_lt _ hsplits
  rw [List.take_of_length_le (by rw [getSplitNumBatchSizes_length]), min_eq_right hlt.le,
    Nat.div_add_mod] at h
  exact h

/-- The losses of the samples of a batch, as the replicas hold them in the splits: every replica
has as many as its share says, and at least one. -/
structure DealtLosses (batch_size splits : ℕ) (replicas : Finset ℕ) where
  losses : ℕ → ℕ → List ℚ
  share : ∀ i < splits, ∀ r ∈ replicas,
    (getSplitBatchSizes ((getSplitNumBatchSizes batch_size splits).getD i 0) replicas i).lookup r =
      some (losses i r).length
  nonempty : ∀ i < splits, ∀ r ∈ replicas, losses i r ≠ []

namespace DealtLosses

variable {batch_size splits : ℕ} {replicas : Finset ℕ} (d : DealtLosses batch_size splits replicas)

def splitSamples (i : ℕ) : List ℚ := (sortRanks replicas).flatMap (d.losses i)

/-- All samples of the batch. -/
def samples : List ℚ := (List.range splits).flatMap d.splitSamples

theorem length_splitSamples (hreplicas : replicas.Nonempty) {i : ℕ} (hi : i < splits) :
    (d.splitSamples i).length = (getSplitNumBatchSizes batch_size splits).getD i 0 := by
  have hsum := sum_shares ((getSplitNumBatchSizes batch_size splits).getD i 0) _ i hreplicas
  rw [splitSamples, List.length_flatMap, ← hsum]
  apply congrArg List.sum
  apply List.map_congr_left
  intro r hr
  rw [d.share i hi r ((mem_sortRanks replicas).mp hr), Option.getD_some]

theorem splitSizes_eq :
    (List.range splits).map (fun i => (getSplitNumBatchSizes batch_size splits).getD i 0) =
      getSplitNumBatchSizes batch_size splits := by
  apply List.ext_getElem
  · simp [getSplitNumBatchSizes_length]
  · intro i _ hi
    rw [List.getElem_map, List.getElem_range, List.getD_eq_getElem _ _ hi]

theorem length_samples (hreplicas : replicas.Nonempty) (hsplits : 0 < splits) :
    d.samples.length = batch_size := by
  have hlen : (List.range splits).map (fun i => (d.splitSamples i).length) =
      getSplitNumBatchSizes batch_size splits := by
    rw [← splitSizes_eq]
    apply List.map_congr_left
    intro i hi
    exact d.length_splitSamples hreplicas (List.mem_range.mp hi)
  rw [samples, List.length_flatMap, hlen, sum_getSplitNumBatchSizes batch_size hsplits]

theorem getDpRatio_eq {i r : ℕ} (hi : i < splits) (hr : r ∈ replicas) :
    getDpRatio ((getSplitNumBatchSizes batch_size splits).getD i 0) replicas r i =
      some (((d.losses i r).length : ℚ) /
        ((getSplitNumBatchSizes batch_size splits).getD i 0 : ℕ)) := by
  rw [getDpRatio, d.share i hi r hr, Option.map_some]

theorem splitSamples_ne_nil (hreplicas : replicas.Nonempty) {i : ℕ} (hi : i < splits) :
    d.splitSamples i ≠ [] := by
  obtain ⟨r, hr⟩ := hreplicas
  intro h
  exact d.nonempty i hi r hr (List.flatMap_eq_nil_iff.mp h r ((mem_sortRanks replicas).mpr hr))

end DealtLosses

section Split

variable {route : RouteDP} {batch_size splits : ℕ}
  (d : DealtLosses batch_size splits route.sources.toFinset) {vals : ℕ → ℕ → Option ℚ}

theorem lossSource_eq
    (hvals : ∀ i < splits, ∀ r ∈ route.sources, vals i r = some (mean (d.losses i r)))
    {i : ℕ} (hi : i < splits) (r : ℕ) :
    lossSource route ((getSplitNumBatchSizes batch_size splits).getD i 0) i r (vals i r) =
      some (if r ∈ route.sources.toFinset then
        (d.losses i r).length / ((getSplitNumBatchSizes batch_size splits).getD i 0 : ℕ) *
          mean (d.losses i r) else 0) := by
  by_cases hr : r ∈ route.sources
  · have hmem : r ∈ route.sources.toFinset := List.mem_toFinset.mpr hr
    rw [hvals i hi r hr, lossSource, if_pos hr, if_pos hmem, d.getDpRatio_eq hi hmem]
    rfl
  · have hmem : r ∉ route.sources.toFinset := by
      rwa [List.mem_toFinset]
    rw [if_neg hmem]
    cases vals i r with
    | none => rfl
    | some val => simp [lossSource, hr]

/-- Every receiver gets the mean over the samples of the split. -/
theorem distributeLossTensor_eq
    (hvals : ∀ i < splits, ∀ r ∈ route.sources, vals i r = some (mean (d.losses i r)))
    (hsources : route.sources ≠ []) {i : ℕ} (hi : i < splits) {rank : ℕ}
    (hrank : rank ∈ route.dests) :
    distributeLossTensor (vals i) route false ((getSplitNumBatchSizes batch_size splits).getD i 0) i
        rank = some (some (mean (d.splitSamples i))) := by
  have hreplicas : route.sources.toFinset.Nonempty := List.toFinset_nonempty_iff _ |>.mpr hsources
  have hsrcs : (sortRanks (getRanksInRoute route)).mapM (fun r =>
      lossSource route ((getSplitNumBatchSizes batch_size splits).getD i 0) i r (vals i r)) =
      some ((sortRanks (getRanksInRoute route)).map fun r =>
        if r ∈ route.sources.toFinset then
          (d.losses i r).length / ((getSplitNumBatchSizes batch_size splits).getD i 0 : ℕ) *
            mean (d.losses i r) else 0) := by
    rw [mapM_eq_some_iff, List.map_map]
    apply List.map_congr_left
    intro r _
    exact lossSource_eq d hvals hi r
  have hparts : ∀ r ∈ sortRanks route.sources.toFinset, d.losses i r ≠ [] := by
    intro r hr
    exact d.nonempty i hi r ((mem_sortRanks _).mp hr)
  have hsubset : route.sources.toFinset ⊆ getRanksInRoute route := Finset.subset_union_left
  have hsum : ((sortRanks (getRanksInRoute route)).map fun r =>
        if r ∈ route.sources.toFinset then
          (d.losses i r).length / ((getSplitNumBatchSizes batch_size splits).getD i 0 : ℕ) *
            mean (d.losses i r) else 0).sum = mean (d.splitSamples i) := by
    rw [sum_map_sortRanks, Finset.sum_ite_mem, Finset.inter_eq_right.mpr hsubset,
      ← sum_map_sortRanks, sum_weighted_mean hparts, mean, d.length_splitSamples hreplicas hi]
    rfl
  simp only [distributeLossTensor, Option.bind_eq_bind]
  rw [hsrcs, Option.bind_some, hsum]
  simp [hrank]

end Split

theorem foldl_add_eq {α : Type} (f : α → ℚ) (l : List α) (a : ℚ) :
    l.foldl (fun ret it => ret + f it) a = a + (l.map f).sum := by
  induction l generalizing a with
  | nil => simp
  | cons x l ih => rw [List.foldl_cons, ih, List.map_cons, List.sum_cons, add_assoc]

theorem sumDistLossTensors_eq (batch_size : ℕ) {tensors : List ℚ} (htensors : tensors ≠ []) :
    sumDistLossTensors batch_size tensors =
      some (((getSplitNumBatchSizes batch_size tensors.length).zip tensors).map fun it =>
        (it.1 : ℚ) / batch_size * it.2).sum := by
  cases tensors with
  | nil => exact absurd rfl htensors
  | cons front rest =>
    have hlen := getSplitNumBatchSizes_length batch_size (front :: rest).length
    rw [sumDistLossTensors]
    cases hbs : getSplitNumBatchSizes batch_size (front :: rest).length with
    | nil =>
      rw [hbs] at hlen
      simp at hlen
    | cons bs sizes =>
      simp only [List.tail_cons, List.headD_cons, List.zip_cons_cons, List.map_cons, List.sum_cons]
      rw [foldl_add_eq fun it : ℕ × ℚ => (it.1 : ℚ) / batch_size * it.2]

/-- The share of one replica's loss of one split in the loss of the batch. -/
def lossWeight (batch_size splits : ℕ) (replicas : Finset ℕ) (i r : ℕ) : ℚ :=
  let split_batch_size := (getSplitNumBatchSizes batch_size splits).getD i 0
  (split_batch_size : ℚ) / batch_size *
    (getDpRatio split_batch_size replicas r i).getD 0

section Batch

variable {route : RouteDP} {batch_size pipeline_num : ℕ}

theorem sumDistLossTensors_splits {splits : ℕ} {replicas : Finset ℕ}
    (d : DealtLosses batch_size splits replicas) (hreplicas : replicas.Nonempty)
    (hsplits : 0 < splits) :
    sumDistLossTensors batch_size
        ((List.range splits).map fun i => mean (d.splitSamples i)) = some (mean d.samples) := by
  have hne : (List.range splits).map (fun i => mean (d.splitSamples i)) ≠ [] := by
    simp
    omega
  have hzip : (getSplitNumBatchSizes batch_size splits).zip
        ((List.range splits).map fun i => mean (d.splitSamples i)) =
      (List.range splits).map fun i =>
        ((d.splitSamples i).length, mean (d.splitSamples i)) := by
    apply List.ext_getElem
    · simp [getSplitNumBatchSizes_length]
    · intro i hi _
      have hi' : i < splits := by
        simpa [getSplitNumBatchSizes_length] using hi
      have hlen : i < (getSplitNumBatchSizes batch_size splits).length := by
        rwa [getSplitNumBatchSizes_length]
      rw [List.getElem_zip, List.getElem_map, List.getElem_map, List.getElem_range,
        d.length_splitSamples hreplicas hi', List.getD_eq_getElem _ _ hlen]
  have hparts : ∀ i ∈ List.range splits, d.splitSamples i ≠ [] := by
    intro i hi
    exact d.splitSamples_ne_nil hreplicas (List.mem_range.mp hi)
  rw [sumDistLossTensors_eq batch_size hne, List.length_map, List.length_range, hzip, List.map_map]
  apply congrArg some
  calc ((List.range splits).map ((fun it : ℕ × ℚ => (it.1 : ℚ) / batch_size * it.2) ∘
          fun i => ((d.splitSamples i).length, mean (d.splitSamples i)))).sum
      = (d.samples).sum / batch_size := sum_weighted_mean hparts (batch_size : ℚ)
    _ = mean d.samples := by
      rw [mean, d.length_samples hreplicas hsplits]

theorem sum_lossWeight {splits : ℕ} {replicas : Finset ℕ}
    (d : DealtLosses batch_size splits replicas) (hreplicas : replicas.Nonempty)
    (hsplits : 0 < splits) (hbatch : 0 < batch_size) :
    ∑ i ∈ Finset.range splits, ∑ r ∈ replicas, lossWeight batch_size splits replicas i r = 1 := by
  have hsplit : ∀ i ∈ Finset.range splits,
      ∑ r ∈ replicas, lossWeight batch_size splits replicas i r =
        ((getSplitNumBatchSizes batch_size splits).getD i 0 : ℕ) / (batch_size : ℚ) := by
    intro i hi
    have hi' : i < splits := Finset.mem_range.mp hi
    have hlen := d.length_splitSamples hreplicas hi'
    have hpos : ((getSplitNumBatchSizes batch_size splits).getD i 0 : ℚ) ≠ 0 := by
      rw [← hlen]
      simpa using d.splitSamples_ne_nil hreplicas hi'
    have hratio : ∀ r ∈ replicas, lossWeight batch_size splits replicas i r =
        ((getSplitNumBatchSizes batch_size splits).getD i 0 : ℕ) / (batch_size : ℚ) *
          (((d.losses i r).length : ℚ) /
            ((getSplitNumBatchSizes batch_size splits).getD i 0 : ℕ)) := by
      intro r hr
      simp only [lossWeight]
      rw [d.getDpRatio_eq hi' hr, Option.getD_some]
    have hshares := sum_div_total ((sortRanks replicas).map fun r => (d.losses i r).length)
      ((getSplitNumBatchSizes batch_size splits).getD i 0 : ℚ)
    rw [List.map_map, ← List.length_flatMap] at hshares
    rw [Finset.sum_congr rfl hratio, ← Finset.mul_sum, ← sum_map_sortRanks]
    calc _ = ((getSplitNumBatchSizes batch_size splits).getD i 0 : ℕ) / (batch_size : ℚ) *
          (((d.splitSamples i).length : ℚ) /
            ((getSplitNumBatchSizes batch_size splits).getD i 0 : ℕ)) :=
          congrArg _ hshares
      _ = _ := by
          rw [hlen, div_self hpos, mul_one]
  have hbatch' : (batch_size : ℚ) ≠ 0 := by
    simpa using hbatch.ne'
  have htotal := sum_div_total ((List.range splits).map fun i =>
    (getSplitNumBatchSizes batch_size splits).getD i 0) (batch_size : ℚ)
  rw [DealtLosses.splitSizes_eq, sum_getSplitNumBatchSizes batch_size hsplits,
    div_self hbatch', ← DealtLosses.splitSizes_eq, List.map_map] at htotal
  rw [Finset.sum_congr rfl hsplit, ← sum_map_sortRanks, sortRanks_range]
  exact htotal

/-- The loss of a batch, at every rank the loss is routed to, is the mean over all its samples,
and the weights it is built with sum to one. -/
theorem lossOutput_eq_mean
    (d : DealtLosses batch_size (actualPipelineNum pipeline_num batch_size)
      route.sources.toFinset) {vals : ℕ → ℕ → Option ℚ}
    (hvals : ∀ i < actualPipelineNum pipeline_num batch_size, ∀ r ∈ route.sources,
      vals i r = some (mean (d.losses i r)))
    (hsources : route.sources ≠ []) (hpipeline : 0 < pipeline_num) (hbatch : 0 < batch_size)
    {rank : ℕ} (hrank : rank ∈ route.dests) :
    d.samples.length = batch_size ∧
      lossOutput vals route false pipeline_num batch_size rank = some (some (mean d.samples)) ∧
      ∑ i ∈ Finset.range (actualPipelineNum pipeline_num batch_size),
        ∑ r ∈ route.sources.toFinset, lossWeight batch_size
          (actualPipelineNum pipeline_num batch_size) route.sources.toFinset i r = 1 := by
  have hreplicas : route.sources.toFinset.Nonempty := (List.toFinset_nonempty_iff _).mpr hsources
  have hpos : 0 < actualPipelineNum pipeline_num batch_size := by
    rw [actualPipelineNum_eq]
    exact lt_min hpipeline hbatch
  refine ⟨d.length_samples hreplicas hpos, ?_, sum_lossWeight d hreplicas hpos hbatch⟩
  set means := (List.range (actualPipelineNum pipeline_num batch_size)).map fun i =>
    some (mean (d.splitSamples i)) with hmeans
  have houts : (List.range (actualPipelineNum pipeline_num batch_size)).mapM (fun i =>
      distributeLossTensor (vals i) route false (startSplit pipeline_num batch_size i).batch_size
        (startSplit pipeline_num batch_size i).split_index.toNat rank) = some means := by
    rw [mapM_eq_some_iff, hmeans, List.map_map]
    apply List.map_congr_left
    intro i hi
    exact distributeLossTensor_eq d hvals hsources (List.mem_range.mp hi) hrank
  have hall : means.takeWhile Option.isSome = means := by
    rw [List.takeWhile_eq_self_iff, hmeans]
    simp
  have hne : means.isEmpty = false := by
    simp [hmeans]
    omega
  have hred : means.reduceOption =
      (List.range (actualPipelineNum pipeline_num batch_size)).map fun i =>
        mean (d.splitSamples i) := by
    change means.filterMap id = _
    simp [hmeans, List.filterMap_map]
  have hconcat : concatOrSumTensors means batch_size = some (mean d.samples) := by
    rw [concatOrSumTensors, hred]
    exact sumDistLossTensors_splits d hreplicas hpos
  simp only [lossOutput, Option.bind_eq_bind]
  rw [houts, Option.bind_some, hall, hconcat]
  simp [hne]

def lossRoute : RouteDP := ⟨⟨"loss", []⟩, [1, 2], "a", [0], "MASTER"⟩

/-- Two replicas, a batch of five in two splits of three and two samples. -/
def unevenLosses : DealtLosses 5 (actualPipelineNum 2 5) lossRoute.sources.toFinset where
  losses i r := if i = 0 then (if r = 1 then [1, 2] else [6]) else (if r = 1 then [4] else [7])
  share := by decide +kernel
  nonempty := by decide

def unevenVals (i r : ℕ) : Option ℚ := if r = 0 then none else some (mean (unevenLosses.losses i r))

theorem lossOutput_eq_mean_uneven :
    lossOutput unevenVals lossRoute false 2 5 0 = some (some (mean [1, 2, 6, 4, 7])) := by
  have hvals : ∀ i < actualPipelineNum 2 5, ∀ r ∈ lossRoute.sources,
      unevenVals i r = some (mean (unevenLosses.losses i r)) := by
    intro i _ r hr
    rw [unevenVals, if_neg]
    rintro rfl
    simp [lossRoute] at hr
  have h := lossOutput_eq_mean unevenLosses hvals (by decide) (by decide) (by decide)
    (show 0 ∈ lossRoute.dests by decide)
  exact h.2.1

end Batch

end Rannc
