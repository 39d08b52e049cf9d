import Rannc.Comp.DataParallel
import Rannc.Torch.SliceConcat

/-!
# Modules that work row by row

The part of a rank of a batch consists of the rows of some samples. A module that works row by row
makes of the rows of some samples the rows of what it makes of all of them, so what a rank computes
can be told from a run on the whole batch, and what the ranks have of a batch from their own.
-/
namespace Rannc

open Connector GraphLauncher IValue RoundRobin

/-- Of a tensor with equally many rows for every sample of a batch, the rows of some samples. -/
def Tensor.samples {α : Type} (batch_size first n : ℕ) (t : Tensor α) : Tensor α :=
  let k := t.rows / batch_size
  t.slice (k * first) (k * (first + n))

/-- How many samples a rank has. -/
def share (batch_size : ℕ) (ranks : Finset ℕ) (split_index rank : ℕ) : ℕ :=
  ((getSplitBatchSizes batch_size ranks split_index).lookup rank).getD 0

/-- The first sample of a rank, after those of the ranks before it. -/
def shareStart (batch_size : ℕ) (ranks : Finset ℕ) (split_index rank : ℕ) : ℕ :=
  Blocks.start ((sortRanks ranks).map (share batch_size ranks split_index))
    ((sortRanks ranks).idxOf rank)

section Samples

variable {batch_size split_index rank k : ℕ} {rest : List ℕ} {ranks : Finset ℕ}

theorem Tensor.samples_spec {α : Type} {t : Tensor α} (hb : 0 < batch_size)
    (hdim : t.dim = k * batch_size :: rest) {first n : ℕ} (h : first + n ≤ batch_size) :
    (t.samples batch_size first n).elem_type = t.elem_type ∧
      (t.samples batch_size first n).requires_grad = t.requires_grad ∧
      (t.samples batch_size first n).dim = k * n :: rest ∧
      (t.samples batch_size first n).data =
        Rannc.slice t.data (k * first * productDim rest, k * n * productDim rest) := by
  have hrows : t.rows = k * batch_size := by simp [Tensor.rows, hdim]
  have hk : t.rows / batch_size = k := by rw [hrows, Nat.mul_div_cancel _ hb]
  have hsize : t.rowSize = productDim rest := by simp [Tensor.rowSize, hdim]
  have hfirst : min (k * first) t.rows = k * first := by
    rw [hrows]
    exact min_eq_left (Nat.mul_le_mul_left k (by omega))
  have hcount : min (k * (first + n)) t.rows - min (k * first) t.rows = k * n := by
    rw [hfirst, hrows, min_eq_left (Nat.mul_le_mul_left k h), Nat.mul_add, Nat.add_sub_cancel_left]
  unfold Tensor.samples Tensor.slice
  dsimp only
  rw [hk, hcount, hfirst, hsize, hdim, List.tail_cons]
  exact ⟨rfl, rfl, rfl, rfl⟩

theorem share_eq {j : ℕ} (hj : j < (sortRanks ranks).length) :
    share batch_size ranks split_index (sortRanks ranks)[j] =
      dealt ranks.card (split_index * batch_size) batch_size j := by
  rw [share, getSplitBatchSizes_lookup _ _ _ hj, Option.getD_some]

theorem shareStart_add_share_le (hrank : rank ∈ ranks) :
    shareStart batch_size ranks split_index rank + share batch_size ranks split_index rank ≤
      batch_size := by
  have hmem : rank ∈ sortRanks ranks := (mem_sortRanks ranks).mpr hrank
  have hlt := List.idxOf_lt_length_iff.mpr hmem
  have hle := Blocks.start_add_le_sum ((sortRanks ranks).map (share batch_size ranks split_index))
    (j := (sortRanks ranks).idxOf rank) (by simpa using hlt)
  rw [List.getElem_map, List.getElem_idxOf hlt] at hle
  exact hle.trans (sum_shares batch_size ranks split_index ⟨rank, hrank⟩).le

theorem share_pos (hrank : rank ∈ ranks) (hrows : ranks.card ≤ batch_size) :
    0 < share batch_size ranks split_index rank := by
  obtain ⟨j, hj, rfl⟩ := List.getElem_of_mem ((mem_sortRanks ranks).mpr hrank)
  have hcard : 0 < ranks.card := Finset.card_pos.mpr ⟨_, hrank⟩
  rw [share_eq hj, dealt_eq hcard]
  exact Nat.add_pos_left (Nat.div_pos hrows hcard) _

/-- The part of a rank are its samples. -/
theorem partOf_batch_iff (hb : 0 < batch_size) (hrank : rank ∈ ranks) {t u : Tensor ℚ}
    (hfits : (Whole.batch t).Fits batch_size) :
    (Whole.batch t).PartOf batch_size split_index ranks rank (some u) ↔
      u = t.samples batch_size (shareStart batch_size ranks split_index rank)
        (share batch_size ranks split_index rank) := by
  obtain ⟨-, ⟨k, rest, hdim⟩, -⟩ := hfits
  obtain ⟨helem, hgrad, hsdim, hdata⟩ := Tensor.samples_spec hb hdim
    (shareStart_add_share_le hrank)
  have hmem : rank ∈ sortRanks ranks := (mem_sortRanks ranks).mpr hrank
  have hlt := List.idxOf_lt_length_iff.mpr hmem
  have hget : (sortRanks ranks)[(sortRanks ranks).idxOf rank] = rank := List.getElem_idxOf hlt
  have hlookup : (calcDistBatchDims batch_size t.dim ranks split_index).lookup rank =
      some (k * share batch_size ranks split_index rank :: rest) := by
    have h := calcDistBatchDims_lookup ranks split_index hb k rest hlt
    rw [hget] at h
    rw [hdim, h, ← share_eq hlt, hget]
  have hdist : ∀ r ∈ sortRanks ranks,
      distSize (calcDistBatchDims batch_size t.dim ranks split_index) r =
        k * productDim rest * share batch_size ranks split_index r := by
    intro r hr
    obtain ⟨j, hj, rfl⟩ := List.getElem_of_mem hr
    rw [hdim, distSize_calcDistBatchDims ranks split_index hb k rest hj, share_eq hj]
  have hfrom : rankFrom batch_size t.dim ranks split_index rank =
      k * shareStart batch_size ranks split_index rank * productDim rest := by
    have h := elemFrom_getElem (calcDistBatchDims batch_size t.dim ranks split_index)
      (nodup_sortRanks ranks) hlt
    rw [hget] at h
    rw [rankFrom, h, shareStart, Blocks.start, Blocks.start, List.map_congr_left hdist,
      ← List.map_take, ← List.map_take, List.sum_map_mul_left]
    ring
  have hsize : rankSize batch_size t.dim ranks split_index rank =
      k * share batch_size ranks split_index rank * productDim rest := by
    rw [rankSize, hdist rank hmem]
    ring
  constructor
  · rintro ⟨helem', hgrad', hlookup', hdata'⟩
    rw [hlookup, Option.some_inj] at hlookup'
    refine Tensor.ext (helem'.trans helem.symm) (hlookup'.symm.trans hsdim.symm)
      (hgrad'.trans hgrad.symm) ?_
    rw [hdata', hdata, hfrom, hsize]
    rfl
  · rintro rfl
    refine ⟨helem, hgrad, ?_, ?_⟩
    · rw [hlookup, hsdim]
    · rw [hdata, hfrom, hsize]
      rfl

theorem heldBy_batch_iff (hrank : rank ∈ ranks) (hrows : ranks.card ≤ batch_size) {t : Tensor ℚ}
    {u : Option (Tensor ℚ)} :
    (Whole.batch t).HeldBy batch_size split_index ranks rank u ↔
      (Whole.batch t).Fits batch_size ∧
        u = some (t.samples batch_size (shareStart batch_size ranks split_index rank)
          (share batch_size ranks split_index rank)) := by
  have hb : 0 < batch_size := (Finset.card_pos.mpr ⟨rank, hrank⟩).trans_le hrows
  constructor
  · intro h
    obtain ⟨u, rfl⟩ := h.exists_tensor hrank hrows
    exact ⟨h.1, congrArg some ((partOf_batch_iff hb hrank h.1).mp h.2)⟩
  · rintro ⟨hfits, rfl⟩
    exact ⟨hfits, (partOf_batch_iff hb hrank hfits).mpr rfl⟩

end Samples

section Modules

/-- The same function for all values of a list. -/
def mapValues {α T U : Type} (f : T → U) (vals : List (α × IValue T)) : List (α × IValue U) :=
  vals.map fun it => (it.1, it.2.transformTensorsInIValue f)

def AllFit {α : Type} (batch_size : ℕ) (vals : List (α × IValue (Tensor ℚ))) : Prop :=
  ∀ it ∈ vals, ∀ t ∈ it.2.tensors, (Whole.batch t).Fits batch_size

/-- A module makes of some samples of a batch the samples of what it makes of the batch. -/
structure RowWise (batch_size : ℕ)
    (module : List (String × IValue (Tensor ℚ)) → List (IValueLocation × IValue (Tensor ℚ))) :
    Prop where
  fits : ∀ vals, AllFit batch_size vals → AllFit batch_size (module vals)
  samples : ∀ vals, AllFit batch_size vals → ∀ first n, 0 < n → first + n ≤ batch_size →
    module (mapValues (Tensor.samples batch_size first n) vals) =
      mapValues (Tensor.samples batch_size first n) (module vals)

/-- What runs a module on all of a batch, without gradients. -/
def moduleDriver {T : Type} (input_names : String → List String)
    (module : String → List (String × IValue T) → List (IValueLocation × IValue T)) :
    Driver (IValue T) where
  input_names := input_names
  func sg_name graph_inputs _ := module sg_name graph_inputs
  skip _ _ := false
  combine := List.head?

section Lists

variable {α T U T' : Type}

theorem mapValues_mapValues {f : T → U} {g : U → T'} (vals : List (α × IValue T)) :
    mapValues g (mapValues f vals) = mapValues (fun t => g (f t)) vals := by
  unfold mapValues
  rw [List.map_map]
  refine List.map_congr_left fun it _ => ?_
  exact congrArg (Prod.mk it.1) (transform_transform it.2)

theorem named_iff_eq_mapValues {R : T → U → Prop} {P : T → Prop} {f : T → U}
    (hR : ∀ t u, R t u ↔ P t ∧ u = f t) {ws : List (α × IValue T)} {vs : List (α × IValue U)} :
    List.Forall₂ (Named (Related R)) ws vs ↔
      (∀ it ∈ ws, ∀ t ∈ it.2.tensors, P t) ∧ vs = mapValues f ws := by
  constructor
  · intro h
    induction h with
    | nil => exact ⟨fun it hit => absurd hit List.not_mem_nil, rfl⟩
    | @cons w v _ _ hwv _ ih =>
      obtain ⟨hname, hrel⟩ := hwv
      obtain ⟨hP, hv⟩ := (related_iff_eq_transform hR).mp hrel
      refine ⟨List.forall_mem_cons.mpr ⟨hP, ih.1⟩, ?_⟩
      rw [ih.2]
      exact congrArg (· :: mapValues f _) (Prod.ext hname.symm hv)
  · rintro ⟨hP, rfl⟩
    unfold mapValues
    rw [List.forall₂_map_right_iff]
    exact List.forall₂_same.mpr fun it hit =>
      ⟨rfl, (related_iff_eq_transform hR).mpr ⟨hP it hit, rfl⟩⟩

theorem named_of_mapValues_eq {f : T → T'} {g : U → T'} {ws : List (α × IValue T)}
    {vs : List (α × IValue U)} (h : mapValues f ws = mapValues g vs) :
    List.Forall₂ (Named (Related fun t u => f t = g u)) ws vs := by
  rw [mapValues, mapValues, ← List.forall₂_eq_eq_eq, List.forall₂_map_left_iff,
    List.forall₂_map_right_iff] at h
  exact h.imp fun w v hwv => ⟨(Prod.mk.inj hwv).1, related_of_transform_eq (Prod.mk.inj hwv).2⟩

theorem mapValues_eq_of_named {f : T → T'} {g : U → T'} {ws : List (α × IValue T)}
    {vs : List (α × IValue U)}
    (h : List.Forall₂ (Named (Related fun t u => f t = g u)) ws vs) :
    mapValues f ws = mapValues g vs := by
  rw [mapValues, mapValues, ← List.forall₂_eq_eq_eq, List.forall₂_map_left_iff,
    List.forall₂_map_right_iff]
  exact h.imp fun w v hwv => Prod.ext hwv.1 (transform_eq_of_related hwv.2)

end Lists

section Simulation

variable {input_names : String → List String}
  {module : String → List (String × IValue (Tensor ℚ)) → List (IValueLocation × IValue (Tensor ℚ))}
  {batch_size split_index rank : ℕ} {ranks : Finset ℕ} {g : String}

/-- A value of a batch, and what a rank has of it. -/
def RankHas (batch_size split_index : ℕ) (ranks : Finset ℕ) (rank : ℕ) (w : IValue (Tensor ℚ))
    (v : LocalIValue) : Prop :=
  w.Related (fun t u => (Whole.batch t).HeldBy batch_size split_index ranks rank u) v

/-- A rank does on its samples what the module does on the batch. -/
theorem moduleDriver_simulates_rank (hrank : rank ∈ ranks) (hrows : ranks.card ≤ batch_size)
    (hmodule : RowWise batch_size (module g))
    {func : String → List (String × LocalIValue) → ℕ → List (IValueLocation × LocalIValue)}
    (hfunc : ∀ vals, func g (mapValues some vals) split_index = mapValues some (module g vals))
    (skip_fwd_split : ℕ → Bool) :
    Simulates (RankHas batch_size split_index ranks rank) (moduleDriver input_names module)
      (rankDriver false input_names func skip_fwd_split) split_index g := by
  have hnamed {α : Type} {ws : List (α × IValue (Tensor ℚ))} {vs : List (α × LocalIValue)} :
      List.Forall₂ (Named (RankHas batch_size split_index ranks rank)) ws vs ↔
        AllFit batch_size ws ∧ vs = mapValues some (mapValues (Tensor.samples batch_size
          (shareStart batch_size ranks split_index rank)
          (share batch_size ranks split_index rank)) ws) := by
    rw [mapValues_mapValues]
    exact named_iff_eq_mapValues
      (R := fun t u => (Whole.batch t).HeldBy batch_size split_index ranks rank u)
      fun t u => heldBy_batch_iff (t := t) (u := u) hrank hrows
  refine ⟨rfl, fun ws vs h => ?_, fun ws vs h => ?_, fun ws vs h => optionRel_head? h⟩
  · change (vs.any fun it => isUndefinedTensor it.2) = false
    obtain ⟨-, rfl⟩ := hnamed.mp h
    rw [List.any_eq_false]
    intro it hit
    obtain ⟨it, -, rfl⟩ := List.mem_map.mp hit
    cases it.2 <;> simp [transformTensorsInIValue, isUndefinedTensor]
  · obtain ⟨hfit, rfl⟩ := hnamed.mp h
    refine hnamed.mpr ⟨hmodule.fits ws hfit, ?_⟩
    have hpos : 0 < share batch_size ranks split_index rank := share_pos hrank hrows
    have hsamples := hmodule.samples ws hfit _ _ hpos
      (shareStart_add_share_le hrank)
    exact (hfunc _).trans (congrArg (mapValues some) hsamples)

/-- Values that have some samples in common. -/
def SameSamples (batch_size batch_size' first first' n : ℕ) (v w : IValue (Tensor ℚ)) : Prop :=
  v.Related (fun t u => (Whole.batch t).Fits batch_size ∧ (Whole.batch u).Fits batch_size' ∧
    t.samples batch_size first n = u.samples batch_size' first' n) w

/-- Modules keep samples in common. -/
theorem moduleDriver_simulates {batch_size' first first' n : ℕ} (hn : 0 < n)
    (hfirst : first + n ≤ batch_size) (hfirst' : first' + n ≤ batch_size')
    (hmodule : RowWise batch_size (module g)) (hmodule' : RowWise batch_size' (module g)) :
    Simulates (SameSamples batch_size batch_size' first first' n)
      (moduleDriver input_names module) (moduleDriver input_names module) split_index g := by
  refine ⟨rfl, fun _ _ _ => rfl, fun vs ws h => ?_, fun ws vs h => optionRel_head? h⟩
  have hfit : AllFit batch_size vs := by
    intro it hit
    obtain ⟨i, hi, rfl⟩ := List.getElem_of_mem hit
    exact ((List.forall₂_iff_get.mp h).2 i hi (h.length_eq ▸ hi)).2.forall_tensors
      fun _ _ htu => htu.1
  have hfit' : AllFit batch_size' ws := by
    intro it hit
    obtain ⟨i, hi, rfl⟩ := List.getElem_of_mem hit
    exact ((List.forall₂_iff_get.mp h).2 i (h.length_eq ▸ hi) hi).2.flip.forall_tensors
      fun _ _ htu => htu.2.1
  have heq : mapValues (Tensor.samples batch_size first n) (module g vs) =
      mapValues (Tensor.samples batch_size' first' n) (module g ws) := by
    rw [← hmodule.samples vs hfit first n hn hfirst,
      ← hmodule'.samples ws hfit' first' n hn hfirst']
    exact congrArg (module g) (mapValues_eq_of_named (h.imp fun _ _ hvw =>
      ⟨hvw.1, hvw.2.imp fun _ _ htu => htu.2.2⟩))
  have hout := hmodule.fits vs hfit
  have hout' := hmodule'.fits ws hfit'
  have hnamed := named_of_mapValues_eq heq
  rw [List.forall₂_iff_get] at hnamed ⊢
  refine ⟨hnamed.1, fun i hi hi' => ⟨(hnamed.2 i hi hi').1, ?_⟩⟩
  exact (hnamed.2 i hi hi').2.imp_of_mem_both fun t ht u hu htu =>
    ⟨hout _ (List.get_mem _ _) t ht, hout' _ (List.get_mem _ _) u hu, htu⟩

end Simulation

end Modules

end Rannc
