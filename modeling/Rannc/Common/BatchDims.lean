import Rannc.Common.BatchSplit

/-!
# Shapes of the parts of a distributed batch

A tensor whose leading dimension is a multiple of the batch size is cut along that dimension in
proportion to the shares of the ranks.
-/
namespace Rannc

open RoundRobin

def productDim (dim : List ℕ) : ℕ := dim.prod

/-- The caller guarantees a nonempty shape, which the code asserts. -/
def calcDistBatchDims (batch_size : ℕ) (global_dim : List ℕ) (ranks : Finset ℕ)
    (split_index : ℕ) : RankMap (List ℕ) :=
  (getSplitBatchSizes batch_size ranks split_index).map fun it =>
    (it.1, global_dim.set 0 (global_dim.headD 0 * it.2 / batch_size))

variable {batch_size : ℕ} (ranks : Finset ℕ) (split_index : ℕ)

theorem lookup_map {α β : Type*} (f : α → β) (m : RankMap α) (r : ℕ) :
    (m.map fun e => (e.1, f e.2)).lookup r = (m.lookup r).map f := by
  induction m with
  | nil => rfl
  | cons e m ih =>
    rw [List.map_cons, List.lookup_cons, List.lookup_cons]
    cases r == e.1 <;> simp [ih]

theorem calcDistBatchDims_lookup (hB : 0 < batch_size) (k : ℕ) (rest : List ℕ) {j : ℕ}
    (hj : j < (sortRanks ranks).length) :
    (calcDistBatchDims batch_size (k * batch_size :: rest) ranks split_index).lookup
        (sortRanks ranks)[j] =
      some (k * dealt ranks.card (split_index * batch_size) batch_size j :: rest) := by
  have h := getSplitBatchSizes_lookup batch_size ranks split_index hj
  rw [calcDistBatchDims,
    lookup_map fun rank_bs => (k * batch_size :: rest).set 0
      ((k * batch_size :: rest).headD 0 * rank_bs / batch_size), h, Option.map_some]
  simp only [List.headD_cons, List.set_cons_zero]
  rw [Nat.mul_right_comm, Nat.mul_div_cancel _ hB]

/-- The number of elements a rank holds of a distributed tensor. -/
def distSize (dist : RankMap (List ℕ)) (rank : ℕ) : ℕ := productDim ((dist.lookup rank).getD [])

theorem distSize_calcDistBatchDims (hB : 0 < batch_size) (k : ℕ) (rest : List ℕ) {j : ℕ}
    (hj : j < (sortRanks ranks).length) :
    distSize (calcDistBatchDims batch_size (k * batch_size :: rest) ranks split_index)
        (sortRanks ranks)[j] =
      k * productDim rest * dealt ranks.card (split_index * batch_size) batch_size j := by
  rw [distSize, calcDistBatchDims_lookup ranks split_index hB k rest hj, Option.getD_some,
    productDim, List.prod_cons, ← productDim]
  ring

theorem sum_distSize (hB : 0 < batch_size) (k : ℕ) (rest : List ℕ) (hranks : ranks.Nonempty) :
    ((sortRanks ranks).map (distSize
        (calcDistBatchDims batch_size (k * batch_size :: rest) ranks split_index))).sum =
      productDim (k * batch_size :: rest) := by
  have hparts : (sortRanks ranks).map (distSize
        (calcDistBatchDims batch_size (k * batch_size :: rest) ranks split_index)) =
      (List.range ranks.card).map fun j =>
        k * productDim rest * dealt ranks.card (split_index * batch_size) batch_size j := by
    refine List.ext_getElem (by simp) fun j hj _ => ?_
    have hj' : j < (sortRanks ranks).length := by simpa using hj
    simpa using distSize_calcDistBatchDims ranks split_index hB k rest hj'
  rw [hparts, List.sum_map_mul_left, sum_dealt hranks.card_pos, productDim, productDim,
    List.prod_cons]
  ring

/-- The shape of the whole, from the shape of a rank's part and the share of the rank. -/
def getGlobalDim (batch_size : ℕ) (local_dim : List ℕ) (ranks : Finset ℕ) (my_rank : ℕ) :
    Option (List ℕ) := do
  let rank_bs ← (getSplitBatchSizes batch_size ranks 0).lookup my_rank
  guard (local_dim ≠ [] ∧ rank_bs ≠ 0)
  return local_dim.set 0 (local_dim.headD 0 * batch_size / rank_bs)

/-- A rank of the set gets the shape of the whole back from the shape of its part. -/
def GlobalDimBack (batch_size : ℕ) (dim : List ℕ) (ranks : Finset ℕ) (rank : ℕ) : Prop :=
  ∃ local_dim, (calcDistBatchDims batch_size dim ranks 0).lookup rank = some local_dim ∧
    getGlobalDim batch_size local_dim ranks rank = some dim

section GlobalDim

variable {batch_size : ℕ} {ranks : Finset ℕ}

theorem card_filter_lt_sortRanks {j : ℕ} (hj : j < (sortRanks ranks).length) :
    (ranks.filter (· < (sortRanks ranks)[j])).card = j := by
  have hmono := List.pairwise_iff_getElem.mp (sortRanks_pairwise ranks)
  have hfilter : ranks.filter (· < (sortRanks ranks)[j]) = ((sortRanks ranks).take j).toFinset := by
    ext r
    rw [Finset.mem_filter, ← mem_sortRanks, List.mem_toFinset, List.mem_take_iff_getElem]
    constructor
    · intro hr
      obtain ⟨i, hi, rfl⟩ := List.getElem_of_mem hr.1
      have hij : i < j := by
        by_contra hge
        rcases Nat.eq_or_lt_of_le (not_lt.mp hge) with heq | hlt
        · subst heq
          exact lt_irrefl _ hr.2
        · exact lt_asymm hr.2 (hmono j i hj hi hlt)
      exact ⟨i, by omega, rfl⟩
    · intro hr
      obtain ⟨i, hi, rfl⟩ := hr
      exact ⟨List.getElem_mem _, hmono i j _ hj (by omega)⟩
  rw [hfilter,
    List.toFinset_card_of_nodup ((nodup_sortRanks ranks).sublist (List.take_sublist _ _)),
    List.length_take, min_eq_left hj.le]

theorem dealt_pos_iff {n j : ℕ} (hj : j < n) : 0 < dealt n 0 batch_size j ↔ j < batch_size := by
  have hlag : lag n 0 j = j := by simp [lag, Nat.mod_eq_of_lt hj]
  rw [dealt_eq (by omega), hlag]
  by_cases hB : batch_size < n
  · rw [Nat.div_eq_of_lt hB, Nat.mod_eq_of_lt hB]
    split_ifs with h
    · simp [h]
    · simp [h]
  · have hdiv : 0 < batch_size / n := Nat.div_pos (not_lt.mp hB) (by omega)
    exact iff_of_true (by omega) (by omega)

end GlobalDim

end Rannc
