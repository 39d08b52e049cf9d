import Rannc.Lib.Dict
import Rannc.Lib.RoundRobin
import Mathlib.Algebra.BigOperators.Group.Finset.Basic
import Mathlib.Data.Finset.Sort
import Mathlib.Data.List.GetD

/-!
# Splitting a batch over ranks and over pipeline splits

`getSplitBatchSizes` shares one batch among a rank set; for a later split of the pipeline the
larger shares move on to other ranks. `getLocalSplitBatchSizes` cuts the batch a rank already
holds into the splits. Sets of ranks are finite sets, sorted where the code sorts them; a map
from ranks that is filled once per rank is the list of its entries.
-/
namespace Rannc

open RoundRobin

/-- The entries of a map from ranks, in the order they are inserted. -/
abbrev RankMap (α : Type*) := List (ℕ × α)

/-- The ranks of a set in increasing order. -/
def sortRanks (ranks : Finset ℕ) : List ℕ :=
  (List.range (ranks.sup id + 1)).filter (· ∈ ranks)

/-- `std::ceil` of an exact quotient, for a positive divisor. -/
def ceilDiv (a b : ℤ) : ℤ := -(-a / b)

/-- Shares of a batch before any rotation: the first ranks get the remainder. -/
def baseBatchSizes (batch_size : ℕ) (vec_ranks : List ℕ) : RankMap ℕ :=
  let rank_num := vec_ranks.length
  vec_ranks.mapIdx fun i rank =>
    (rank, batch_size / rank_num + if i < batch_size % rank_num then 1 else 0)

/-- The offset by which the shares of a split are shifted: one batch for each earlier split. -/
def splitOffset (batch_size rank_num : ℕ) : ℕ → ℕ
  | 0 => 0
  | split_index + 1 => (splitOffset batch_size rank_num split_index + batch_size) % rank_num

def getSplitBatchSizes (batch_size : ℕ) (ranks : Finset ℕ) (split_index : ℕ) : RankMap ℕ :=
  let vec_ranks := sortRanks ranks
  let batch_sizes := baseBatchSizes batch_size vec_ranks
  if split_index = 0 then batch_sizes
  else
    let offset := splitOffset batch_size vec_ranks.length split_index
    batch_sizes.mapIdx fun i entry =>
      (vec_ranks.getD ((i + offset) % vec_ranks.length) 0, entry.2)

/-- The overload for a number of splits: the shares of the ranks `0, …, split_num - 1`. -/
def getSplitNumBatchSizes (batch_size split_num : ℕ) : List ℕ :=
  (getSplitBatchSizes batch_size (Finset.range split_num) 0).map Prod.snd

/-- The loop of `getLocalSplitBatchSizes`, over the splits that are left. -/
def localSplitLoop (world_size : ℤ) : ℤ → List ℕ → List ℤ
  | _, [] => []
  | offset, bs :: rest =>
    let ret_bs := ceilDiv (bs - offset) world_size
    ret_bs :: localSplitLoop world_size (offset + ret_bs * world_size - bs) rest

def getLocalSplitBatchSizes (split_batch_sizes : List ℕ) (world_size rank : ℕ) : List ℤ :=
  localSplitLoop world_size rank split_batch_sizes

section Shares

variable (batch_size : ℕ) (ranks : Finset ℕ)

@[simp] theorem mem_sortRanks {r : ℕ} : r ∈ sortRanks ranks ↔ r ∈ ranks := by
  have hle (h : r ∈ ranks) : r < ranks.sup id + 1 :=
    Nat.lt_succ_of_le (show id r ≤ _ from Finset.le_sup h)
  simpa [sortRanks] using hle

theorem sortRanks_pairwise : (sortRanks ranks).Pairwise (· < ·) :=
  List.pairwise_lt_range.filter _

theorem nodup_sortRanks : (sortRanks ranks).Nodup :=
  (sortRanks_pairwise ranks).imp fun h => h.ne

theorem sortRanks_eq_sort : sortRanks ranks = ranks.sort (· ≤ ·) := by
  have hle : (sortRanks ranks).Pairwise (· ≤ ·) :=
    (sortRanks_pairwise ranks).imp fun h => h.le
  refine List.Perm.eq_of_pairwise' hle (ranks.pairwise_sort (· ≤ ·)) ?_
  exact (List.perm_ext_iff_of_nodup (nodup_sortRanks ranks) (ranks.sort_nodup _)).2 (by simp)

@[simp] theorem length_sortRanks : (sortRanks ranks).length = ranks.card := by
  rw [sortRanks_eq_sort, Finset.length_sort]

@[simp] theorem sortRanks_range (n : ℕ) : sortRanks (Finset.range n) = List.range n := by
  rw [sortRanks_eq_sort, Finset.sort_range]

theorem sum_map_sortRanks {M : Type} [AddCommMonoid M] (f : ℕ → M) :
    ((sortRanks ranks).map f).sum = ∑ r ∈ ranks, f r := by
  have hranks : (sortRanks ranks).toFinset = ranks := by
    ext r
    simp
  rw [← List.sum_toFinset f (nodup_sortRanks ranks), hranks]

theorem splitOffset_eq (n split_index : ℕ) :
    splitOffset batch_size n split_index = split_index * batch_size % n := by
  induction split_index with
  | zero => simp [splitOffset]
  | succ k ih => rw [splitOffset, ih, Nat.mod_add_mod, Nat.succ_mul]

theorem shift_lag {n : ℕ} (hn : 0 < n) (start : ℕ) {j : ℕ} (hj : j < n) :
    (lag n start j + start % n) % n = j := by
  have h : lag n start j + start % n ≡ j [MOD n] := by
    calc lag n start j + start % n
        ≡ lag n start j + start [MOD n] := (Nat.mod_modEq start n).add_left _
      _ = start + lag n start j := Nat.add_comm _ _
      _ ≡ j [MOD n] := start_add_lag hn start j
  rw [h, Nat.mod_eq_of_lt hj]

theorem getSplitBatchSizes_length (split_index : ℕ) :
    (getSplitBatchSizes batch_size ranks split_index).length = ranks.card := by
  unfold getSplitBatchSizes baseBatchSizes
  split_ifs <;> simp

theorem getSplitBatchSizes_getElem (split_index : ℕ) {i : ℕ}
    (hi : i < (getSplitBatchSizes batch_size ranks split_index).length) :
    (getSplitBatchSizes batch_size ranks split_index)[i] =
      ((sortRanks ranks).getD ((i + split_index * batch_size % ranks.card) % ranks.card) 0,
        batch_size / ranks.card + if i < batch_size % ranks.card then 1 else 0) := by
  have hi' : i < ranks.card := by simpa [getSplitBatchSizes_length] using hi
  have hn : 0 < ranks.card := by omega
  by_cases h0 : split_index = 0
  · subst h0
    simp [getSplitBatchSizes, baseBatchSizes, Nat.mod_eq_of_lt hi', List.getD, hi']
  · simp [getSplitBatchSizes, baseBatchSizes, h0, splitOffset_eq]

theorem getSplitBatchSizes_keys_nodup (split_index : ℕ) :
    ((getSplitBatchSizes batch_size ranks split_index).map Prod.fst).Nodup := by
  rw [List.nodup_iff_injective_get]
  rintro ⟨i, hi⟩ ⟨j, hj⟩ hij
  simp only [List.length_map, getSplitBatchSizes_length] at hi hj
  have hn : 0 < ranks.card := by omega
  simp only [List.get_eq_getElem, List.getElem_map, getSplitBatchSizes_getElem] at hij
  have hmod : ∀ x, x % ranks.card < (sortRanks ranks).length := by
    intro x
    simpa using Nat.mod_lt x hn
  rw [List.getD_eq_getElem _ _ (hmod _), List.getD_eq_getElem _ _ (hmod _),
    (nodup_sortRanks ranks).getElem_inj_iff] at hij
  have hmodEq : i ≡ j [MOD ranks.card] := Nat.ModEq.add_right_cancel' _ hij
  exact Fin.ext (Nat.ModEq.eq_of_lt_of_lt hmodEq hi hj)

/-- A rank's share of split `split_index` is what a round robin over all samples of equally large
splits would deal to its position. -/
theorem getSplitBatchSizes_lookup (split_index : ℕ) {j : ℕ} (hj : j < (sortRanks ranks).length) :
    (getSplitBatchSizes batch_size ranks split_index).lookup (sortRanks ranks)[j] =
      some (dealt ranks.card (split_index * batch_size) batch_size j) := by
  have hjn : j < ranks.card := by simpa using hj
  have hn : 0 < ranks.card := by omega
  set i := lag ranks.card (split_index * batch_size) j with hidef
  have hi : i < (getSplitBatchSizes batch_size ranks split_index).length := by
    rw [getSplitBatchSizes_length]
    exact lag_lt hn _ _
  refine lookup_eq_of_mem (getSplitBatchSizes_keys_nodup batch_size ranks split_index) ?_
  have hmem := List.getElem_mem hi
  rwa [getSplitBatchSizes_getElem, shift_lag hn _ hjn, List.getD_eq_getElem _ _ hj,
    ← dealt_eq hn] at hmem

/-- The shares of a batch are all of it. -/
theorem sum_shares (split_index : ℕ) (hranks : ranks.Nonempty) :
    ((sortRanks ranks).map fun r =>
        ((getSplitBatchSizes batch_size ranks split_index).lookup r).getD 0).sum = batch_size := by
  have hshares : ((sortRanks ranks).map fun r =>
        ((getSplitBatchSizes batch_size ranks split_index).lookup r).getD 0) =
      (List.range ranks.card).map (dealt ranks.card (split_index * batch_size) batch_size) := by
    apply List.ext_getElem
    · simp
    · intro j hj _
      have hj' : j < (sortRanks ranks).length := by
        simpa using hj
      rw [List.getElem_map, List.getElem_map, List.getElem_range,
        getSplitBatchSizes_lookup batch_size ranks split_index hj', Option.getD_some]
  rw [hshares, sum_dealt hranks.card_pos]

end Shares

/-- Over the splits the shares are those of a round robin over all samples. -/
structure SharedInTurn (batch_size : ℕ) (ranks : Finset ℕ) (splits : ℕ) : Prop where
  keys : ∀ i < splits, ((getSplitBatchSizes batch_size ranks i).map Prod.fst).Perm (sortRanks ranks)
  share : ∀ i < splits, ∀ e ∈ getSplitBatchSizes batch_size ranks i,
    e.2 = batch_size / ranks.card ∨ e.2 = batch_size / ranks.card + 1
  sum : ∀ i < splits, ((getSplitBatchSizes batch_size ranks i).map Prod.snd).sum = batch_size
  total : ∀ j r, (sortRanks ranks)[j]? = some r →
    ∑ i ∈ Finset.range splits, ((getSplitBatchSizes batch_size ranks i).lookup r).getD 0 =
      ((Finset.range (splits * batch_size)).filter fun x => x % ranks.card = j).card

section SharedInTurn

variable {batch_size : ℕ} {ranks : Finset ℕ}

theorem getSplitBatchSizes_keys_perm (split_index : ℕ) :
    ((getSplitBatchSizes batch_size ranks split_index).map Prod.fst).Perm (sortRanks ranks) := by
  have hnodup := getSplitBatchSizes_keys_nodup batch_size ranks split_index
  have hsub : (getSplitBatchSizes batch_size ranks split_index).map Prod.fst ⊆
      sortRanks ranks := by
    intro r hr
    obtain ⟨e, he, rfl⟩ := List.mem_map.mp hr
    obtain ⟨i, hi, rfl⟩ := List.getElem_of_mem he
    rw [getSplitBatchSizes_getElem]
    have hn : 0 < ranks.card := by
      rw [getSplitBatchSizes_length] at hi
      omega
    have hlt : (i + split_index * batch_size % ranks.card) % ranks.card <
        (sortRanks ranks).length := by
      rw [length_sortRanks]
      exact Nat.mod_lt _ hn
    rw [List.getD_eq_getElem _ _ hlt]
    exact List.getElem_mem hlt
  apply List.Subperm.perm_of_length_le (hnodup.subperm hsub)
  rw [length_sortRanks, List.length_map, getSplitBatchSizes_length]

theorem sum_map_snd (split_index : ℕ) :
    ((getSplitBatchSizes batch_size ranks split_index).map Prod.snd).sum =
      ((sortRanks ranks).map fun r =>
        ((getSplitBatchSizes batch_size ranks split_index).lookup r).getD 0).sum := by
  have hlookup : (getSplitBatchSizes batch_size ranks split_index).map Prod.snd =
      ((getSplitBatchSizes batch_size ranks split_index).map Prod.fst).map fun r =>
        ((getSplitBatchSizes batch_size ranks split_index).lookup r).getD 0 := by
    rw [List.map_map]
    apply List.map_congr_left
    intro e he
    have hget := lookup_eq_of_mem (getSplitBatchSizes_keys_nodup batch_size ranks split_index) he
    rw [Function.comp_apply, hget, Option.getD_some]
  rw [hlookup]
  exact ((getSplitBatchSizes_keys_perm split_index).map _).sum_eq

theorem sharedInTurn (batch_size : ℕ) {ranks : Finset ℕ} (hranks : ranks.Nonempty) (splits : ℕ) :
    SharedInTurn batch_size ranks splits := by
  constructor
  case keys => exact fun i _ => getSplitBatchSizes_keys_perm i
  case share =>
    intro i _ e he
    obtain ⟨k, hk, rfl⟩ := List.getElem_of_mem he
    rw [getSplitBatchSizes_getElem]
    split_ifs
    · exact Or.inr rfl
    · exact Or.inl rfl
  case sum =>
    intro i _
    rw [sum_map_snd, sum_shares _ _ i hranks]
  case total =>
    intro j r hr
    obtain ⟨hj, rfl⟩ := List.getElem?_eq_some_iff.mp hr
    have hlt : j < ranks.card := by simpa using hj
    have hshare : ∀ i ∈ Finset.range splits,
        ((getSplitBatchSizes batch_size ranks i).lookup (sortRanks ranks)[j]).getD 0 =
          dealt ranks.card (i * batch_size) batch_size j := by
      intro i _
      rw [getSplitBatchSizes_lookup batch_size ranks i hj, Option.getD_some]
    rw [Finset.sum_congr rfl hshare, sum_dealt_runs, dealt, Nat.count_eq_card_filter_range]
    congr 1
    apply Finset.filter_congr
    intro x _
    rw [Nat.zero_add, Nat.ModEq, Nat.mod_eq_of_lt hlt]

theorem sharedInTurn_three : SharedInTurn 4 {1, 4, 6} 5 :=
  sharedInTurn 4 ⟨1, by decide⟩ 5

end SharedInTurn

theorem getSplitNumBatchSizes_length (batch_size split_num : ℕ) :
    (getSplitNumBatchSizes batch_size split_num).length = split_num := by
  simp [getSplitNumBatchSizes, getSplitBatchSizes_length]

theorem getSplitNumBatchSizes_getElem (batch_size : ℕ) {split_num i : ℕ}
    (hi : i < (getSplitNumBatchSizes batch_size split_num).length) :
    (getSplitNumBatchSizes batch_size split_num)[i] =
      batch_size / split_num + if i < batch_size % split_num then 1 else 0 := by
  simp [getSplitNumBatchSizes, getSplitBatchSizes_getElem]

theorem getSplitNumBatchSizes_take_sum (batch_size : ℕ) {split_num i : ℕ} (hi : i ≤ split_num) :
    ((getSplitNumBatchSizes batch_size split_num).take i).sum =
      i * (batch_size / split_num) + min i (batch_size % split_num) := by
  induction i with
  | zero => simp
  | succ i ih =>
    have hi' : i < (getSplitNumBatchSizes batch_size split_num).length := by
      rw [getSplitNumBatchSizes_length]
      omega
    rw [List.sum_take_succ _ _ hi', ih (by omega), getSplitNumBatchSizes_getElem, Nat.succ_mul]
    split_ifs <;> omega

theorem ceilDiv_sub {bs o W : ℕ} (hW : 0 < W) (ho : o < W) :
    ceilDiv (bs - o) W = ((bs / W + if o < bs % W then 1 else 0 : ℕ) : ℤ) := by
  have hm : bs % W < W := Nat.mod_lt _ hW
  have hq : (bs : ℤ) = W * (bs / W : ℕ) + (bs % W : ℕ) := by
    exact_mod_cast (Nat.div_add_mod bs W).symm
  have hneg : -((bs : ℤ) - o) = (o - (bs % W : ℕ)) + W * (-((bs / W : ℕ) : ℤ)) := by
    rw [hq]
    ring
  rw [ceilDiv, hneg, Int.add_mul_ediv_left _ _ (by omega)]
  by_cases h : o < bs % W
  · have hd : ((o : ℤ) - (bs % W : ℕ)) / W = -1 := by
      rw [Int.ediv_eq_iff_of_pos (by omega)]
      constructor <;> omega
    rw [hd, if_pos h]
    push_cast
    ring
  · have hd : ((o : ℤ) - (bs % W : ℕ)) / W = 0 := Int.ediv_eq_zero_of_lt (by omega) (by omega)
    rw [hd, if_neg h]
    push_cast
    ring

theorem localSplitLoop_getElem? {W : ℕ} (hW : 0 < W) (rank : ℕ) :
    ∀ (sizes : List ℕ) (start i : ℕ),
      (localSplitLoop W (lag W start rank) sizes)[i]? =
        sizes[i]?.map fun bs => (dealt W (start + (sizes.take i).sum) bs rank : ℤ) := by
  intro sizes
  induction sizes with
  | nil => simp [localSplitLoop]
  | cons bs rest ih =>
    intro start i
    have hstep : ceilDiv (bs - lag W start rank) W = (dealt W start bs rank : ℤ) := by
      rw [ceilDiv_sub hW (lag_lt hW start rank), dealt_eq hW]
    have hnext : (lag W start rank : ℤ) + dealt W start bs rank * W - bs =
        lag W (start + bs) rank := by
      have h := lag_add_dealt hW start bs rank
      zify at h
      linarith only [h]
    cases i with
    | zero => simp [localSplitLoop, hstep]
    | succ i =>
      rw [localSplitLoop]
      simp only [hstep, hnext, List.getElem?_cons_succ, ih, List.take_succ_cons, List.sum_cons,
        Nat.add_assoc]

theorem getLocalSplitBatchSizes_getElem? {W rank : ℕ} (hr : rank < W) (sizes : List ℕ) (i : ℕ) :
    (getLocalSplitBatchSizes sizes W rank)[i]? =
      sizes[i]?.map fun bs => (dealt W (sizes.take i).sum bs rank : ℤ) := by
  have hW : 0 < W := by omega
  have h0 : lag W 0 rank = rank := by
    simp [lag, Nat.mod_eq_of_lt hr]
  have h := localSplitLoop_getElem? hW rank sizes 0 i
  rw [h0] at h
  simpa [getLocalSplitBatchSizes] using h

/-- The splits that a rank cuts its batch into are its samples of the splits of the whole batch. -/
structure LocalSplits (sizes : List ℕ) (W : ℕ) : Prop where
  nonneg : ∀ rank < W, ∀ bs ∈ getLocalSplitBatchSizes sizes W rank, 0 ≤ bs
  split : ∀ i (bs : ℕ), sizes[i]? = some bs →
    ∑ rank ∈ Finset.range W, (getLocalSplitBatchSizes sizes W rank).getD i 0 = bs
  upTo : ∀ rank < W, ∀ i, ((getLocalSplitBatchSizes sizes W rank).take i).sum =
    ((Finset.range (sizes.take i).sum).filter fun x => x ≡ rank [MOD W]).card
  whole : W ∣ sizes.sum → ∀ rank < W,
    (getLocalSplitBatchSizes sizes W rank).sum = (sizes.sum / W : ℕ)

section LocalSplits

variable {W rank : ℕ} (sizes : List ℕ)

theorem getLocalSplitBatchSizes_take_sum (hr : rank < W) (i : ℕ) :
    ((getLocalSplitBatchSizes sizes W rank).take i).sum = dealt W 0 (sizes.take i).sum rank := by
  induction i with
  | zero => simp [dealt]
  | succ i ih =>
    have hget := getLocalSplitBatchSizes_getElem? hr sizes i
    cases hsize : sizes[i]? with
    | none =>
      rw [hsize] at hget
      rw [List.take_add_one, List.take_add_one, hget, hsize]
      simpa using ih
    | some bs =>
      rw [hsize] at hget
      rw [List.take_add_one, List.take_add_one, hget, hsize]
      simp [ih, dealt_add]

theorem localSplits (hW : 1 ≤ W) : LocalSplits sizes W := by
  constructor
  case nonneg =>
    intro rank hr bs hbs
    obtain ⟨i, hi⟩ := List.mem_iff_getElem?.mp hbs
    rw [getLocalSplitBatchSizes_getElem? hr] at hi
    obtain ⟨size, -, rfl⟩ := Option.map_eq_some_iff.mp hi
    exact Int.natCast_nonneg _
  case split =>
    intro i bs hbs
    have hshare : ∀ rank ∈ Finset.range W, (getLocalSplitBatchSizes sizes W rank).getD i 0 =
        (dealt W (sizes.take i).sum bs rank : ℤ) := by
      intro rank hr
      rw [List.getD_eq_getElem?_getD, getLocalSplitBatchSizes_getElem? (Finset.mem_range.mp hr),
        hbs]
      rfl
    rw [Finset.sum_congr rfl hshare]
    exact_mod_cast sum_dealt (n := W) (by omega) (sizes.take i).sum bs
  case upTo =>
    intro rank hr i
    rw [getLocalSplitBatchSizes_take_sum sizes hr, dealt, Nat.count_eq_card_filter_range]
    simp
  case whole =>
    intro hdvd rank hr
    have hlength : (getLocalSplitBatchSizes sizes W rank).length ≤ sizes.length := by
      have hget := getLocalSplitBatchSizes_getElem? hr sizes sizes.length
      simpa using hget
    have htake := getLocalSplitBatchSizes_take_sum sizes hr sizes.length
    rw [List.take_of_length_le hlength, List.take_length] at htake
    rw [htake, dealt_eq (by omega), Nat.mod_eq_zero_of_dvd hdvd]
    simp

theorem localSplits_uneven : LocalSplits [3, 0, 1] 2 := localSplits [3, 0, 1] (by decide)

end LocalSplits

/-- The slice a rank cuts for split `i` has the size the redistribution expects of it. -/
def SliceSizesAgree (W B p i rank : ℕ) : Prop :=
  let bs := getSplitNumBatchSizes B p
  (getLocalSplitBatchSizes bs W rank)[i]? =
    ((getSplitBatchSizes (bs.getD i 0) (Finset.range W) i).lookup rank).map Nat.cast

theorem sliceSizesAgree_iff_dealt {W B p i rank : ℕ} (hi : i < p) (hr : rank < W) :
    SliceSizesAgree W B p i rank ↔
      dealt W ((getSplitNumBatchSizes B p).take i).sum ((getSplitNumBatchSizes B p).getD i 0) rank =
        dealt W (i * (getSplitNumBatchSizes B p).getD i 0) ((getSplitNumBatchSizes B p).getD i 0)
          rank := by
  have hlen : i < (getSplitNumBatchSizes B p).length := by
    rwa [getSplitNumBatchSizes_length]
  have hexp := getSplitBatchSizes_lookup ((getSplitNumBatchSizes B p).getD i 0)
    (Finset.range W) i (by simpa using hr)
  simp only [sortRanks_range, List.getElem_range, Finset.card_range] at hexp
  rw [SliceSizesAgree, getLocalSplitBatchSizes_getElem? hr, hexp,
    List.getElem?_eq_getElem hlen, List.getD_eq_getElem _ _ hlen]
  simp only [Option.map_some, Option.some.injEq, Nat.cast_inj]

theorem take_sum_modEq_iff {W B p i : ℕ} (hi : i < p) :
    W ∣ (getSplitNumBatchSizes B p).getD i 0 ∨
        ((getSplitNumBatchSizes B p).take i).sum ≡
          i * (getSplitNumBatchSizes B p).getD i 0 [MOD W] ↔
      i < B % p ∨ W ∣ B / p ∨ W ∣ B % p := by
  have hlen : i < (getSplitNumBatchSizes B p).length := by
    rwa [getSplitNumBatchSizes_length]
  rw [List.getD_eq_getElem _ _ hlen, getSplitNumBatchSizes_getElem,
    getSplitNumBatchSizes_take_sum B hi.le]
  by_cases h : i < B % p
  · rw [if_pos h, min_eq_left h.le, Nat.mul_add, Nat.mul_one]
    exact iff_of_true (Or.inr rfl) (Or.inl h)
  · rw [if_neg h, min_eq_right (not_lt.mp h), Nat.add_zero, or_iff_right h]
    refine or_congr_right ?_
    constructor
    · intro hmod
      exact (Nat.modEq_zero_iff_dvd).1 (Nat.ModEq.add_left_cancel' (i * (B / p)) hmod)
    · intro hdvd
      simpa using ((Nat.modEq_zero_iff_dvd).2 hdvd).add_left (i * (B / p))

/-- The ranks of every split agree on the slice sizes exactly when the split is one of the larger
ones, or its size or the number of larger splits is a multiple of the world size: from split
`B % p` on, the rotation of `getSplitBatchSizes` counts the earlier splits as if they had the size
of the current one. -/
theorem sliceSizesAgree_iff {W B p i : ℕ} (hW : 0 < W) (hi : i < p) :
    (∀ rank < W, SliceSizesAgree W B p i rank) ↔ i < B % p ∨ W ∣ B / p ∨ W ∣ B % p := by
  rw [← take_sum_modEq_iff hi, ← dealt_eq_dealt_iff hW]
  exact forall₂_congr fun rank hr => sliceSizesAgree_iff_dealt hi hr

theorem sliceSizesAgree_iff_uneven :
    1 < 3 ∧ ((∀ rank < 2, SliceSizesAgree 2 4 3 1 rank) ↔ 1 < 4 % 3 ∨ 2 ∣ 4 / 3 ∨ 2 ∣ 4 % 3) :=
  ⟨by decide, sliceSizesAgree_iff (by decide) (by decide)⟩

/-- Two ranks, a batch of four in three splits: rank 0 slices one row of the second split, and
the redistribution expects none. -/
theorem not_sliceSizesAgree : ¬ ∀ W B p i rank : ℕ, 1 ≤ W → W ∣ B → 1 ≤ p → p ≤ B → i < p →
    rank < W → SliceSizesAgree W B p i rank := by
  intro h
  have hbad := h 2 4 3 1 0 (by decide) (by decide) (by decide) (by decide) (by decide) (by decide)
  revert hbad
  unfold SliceSizesAgree
  decide +kernel

end Rannc
