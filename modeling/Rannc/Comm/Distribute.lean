import Rannc.Comm.Redist
import Rannc.Comm.TypeReduction
import Rannc.Comp.LossAverage
import Rannc.Torch.IValueTypes
import Rannc.Torch.Related

/-!
# Distributing a value over a route

A list or a tuple is distributed element by element, and all ranks of the route go through the
elements together. A batch tensor is redistributed, and a loss is averaged. If the sources hold the
parts of a whole before, the destinations hold its parts afterwards.
-/
namespace Rannc

/-- A value on a rank, where a tensor may be undefined. Products are exact. -/
abbrev LocalIValue := IValue (Option (Tensor ℚ))

namespace IValue

variable {T : Type}

def isNone : IValue T → Bool
  | scalar .none => true
  | _ => false

/-- What may be distributed as a whole. -/
def isDistributed : IValue T → Bool
  | scalar .none | tuple _ | tensor _ | tensorList _ => true
  | _ => false

end IValue

open IValue

/-- What all ranks come with; no result where one of them fails. -/
def collect {α : Type} (ranks : Finset ℕ) (default : α) (f : ℕ → Option α) : Option (ℕ → α) :=
  if ∀ r ∈ ranks, (f r).isSome then some fun r => (f r).getD default else none

theorem collect_eq {α : Type} {ranks : Finset ℕ} {f : ℕ → Option α} {g : ℕ → α} (default : α)
    (h : ∀ r ∈ ranks, f r = some (g r)) :
    ∃ a, collect ranks default f = some a ∧ ∀ r ∈ ranks, a r = g r := by
  refine ⟨_, if_pos fun r hr => by rw [h r hr]; rfl, fun r hr => ?_⟩
  rw [h r hr, Option.getD_some]

/-- The elements that a rank puts on the way. -/
def sendBuf : LocalIValue → Option (List ℚ)
  | .scalar .none => some []
  | .tensor none => some []
  | .tensor (some t) => some t.data
  | _ => none

/-- The loss that a rank comes with. -/
def lossVal : LocalIValue → Option (Option ℚ)
  | .scalar .none => some none
  | .tensor (some t) => if t.dim = [] then some t.data.head? else none
  | _ => none

def lossTensor (elem_type : IRTensorElemType) (x : ℚ) : Tensor ℚ :=
  ⟨elem_type, [], false, [x], by simp [productDim]⟩

/-- The element of a value; a rank without the value has none of its elements. -/
def elemOf (elems : LocalIValue → Option (List LocalIValue)) (idx : ℕ) (val : LocalIValue) :
    Option LocalIValue :=
  if val.isNone then some val else (elems val).bind fun es => es[idx]?

section Distribute

variable (garbage : ℕ → ℚ) (route : RouteDP) (is_bwd : Bool)
  (batch_size split_index split_delay : ℕ)

/-- The buffer that is received into is reused, so its contents are anything. A write outside of it
yields no result. -/
def distributeBatchTensor (elem_type : IRTensorElemType) (global_dim : List ℕ)
    (requires_grad : Bool) (vals : ℕ → LocalIValue) (rank : ℕ) : Option LocalIValue := do
  let ranks := getRanksInRoute route
  let sources := route.sources.toFinset
  let dests := route.dests.toFinset
  let split_index := split_index - split_delay
  let sendbuf ← collect ranks [] fun r => sendBuf (vals r)
  let args := fun r => getRedistArgs r batch_size global_dim sources dests split_index
  match (calcDistBatchDims batch_size global_dim dests split_index).lookup rank with
  | none => some (.scalar .none)
  | some dim =>
    if productDim dim = 0 then some (.tensor none)
    else
      let recv_buf := redist ranks args sendbuf rank ((List.range (productDim dim)).map garbage)
      if h : recv_buf.length = productDim dim then
        some (.tensor (some ⟨elem_type, dim, requires_grad, recv_buf, h⟩))
      else none

def distributeLoss (elem_type : IRTensorElemType) (vals : ℕ → LocalIValue) (rank : ℕ) :
    Option LocalIValue := do
  let losses ← collect (getRanksInRoute route) none fun r => lossVal (vals r)
  let loss ← distributeLossTensor losses route is_bwd batch_size split_index rank
  return match loss with
  | none => .scalar .none
  | some x => .tensor (some (lossTensor elem_type x))

mutual

/-- What `rank` gets, where `vals` is what all ranks come with. A list of anything but tensors
cannot be put together. -/
def doDistribute : IRType → (ℕ → LocalIValue) → ℕ → Option LocalIValue
  | .tensor elem_type dim requires_grad, vals, rank =>
    if dim = [] then distributeLoss route is_bwd batch_size split_index elem_type vals rank
    else distributeBatchTensor garbage route batch_size split_index split_delay elem_type dim
      requires_grad vals rank
  | .list _ elem_types, vals, rank => do
    let a_type ← elem_types.head?
    let results ← distributeElems toListRef elem_types 0 vals rank
    if rank ∉ route.dests then return .scalar .none
    let tensors ← results.mapM toTensor
    return if a_type.getBaseType = .TENSOR then .tensorList tensors
      else .list "Any" (tensors.map .tensor)
  | .tuple elem_types, vals, rank => do
    let results ← distributeElems toTuple elem_types 0 vals rank
    if rank ∉ route.dests then return .scalar .none
    return .tuple results
  | .none, _, _ => some (.scalar .none)
  | _, _, _ => none

def distributeElems (elems : LocalIValue → Option (List LocalIValue)) :
    List IRType → ℕ → (ℕ → LocalIValue) → ℕ → Option (List LocalIValue)
  | [], _, _, _ => some []
  | elem :: elem_types, idx, vals, rank => do
    let elem_vals ← collect (getRanksInRoute route) (.scalar .none) fun r =>
      elemOf elems idx (vals r)
    let result ← doDistribute elem elem_vals rank
    return result :: (← distributeElems elems elem_types (idx + 1) vals rank)

end

/-- The type of the whole is found first. -/
def distribute (vals : ℕ → LocalIValue) (rank : ℕ) : Option LocalIValue := do
  guard (∀ r ∈ getRanksInRoute route, (vals r).isDistributed)
  let global_type ← reduceRouteTypes route.sources.toFinset route.dests.toFinset
    fun r => (vals r).toIRType
  doDistribute garbage route is_bwd batch_size split_index split_delay global_type vals rank

end Distribute

/-- What is distributed in the place of a tensor: the rows of a batch, or a loss of which every rank
has its own. -/
inductive Whole
  | batch (t : Tensor ℚ)
  | loss (elem_type : IRTensorElemType) (val : ℕ → ℚ)

namespace Whole

section

variable (batch_size split_index : ℕ)

/-- A batch has a multiple of the batch size of rows, and elements, which can be addressed. -/
def Fits : Whole → Prop
  | batch t => t.elem_type ≠ .UNDEF ∧ (∃ k rest, t.dim = k * batch_size :: rest) ∧
      0 < productDim t.dim ∧ productDim t.dim < INT_MAX
  | loss elem_type _ => elem_type ≠ .UNDEF

/-- What a rank of `ranks` has of it. A tensor without elements may be undefined. -/
def PartOf (ranks : Finset ℕ) (rank : ℕ) : Whole → Option (Tensor ℚ) → Prop
  | batch t, none => rankSize batch_size t.dim ranks split_index rank = 0
  | batch t, some u => u.elem_type = t.elem_type ∧ u.requires_grad = t.requires_grad ∧
      (calcDistBatchDims batch_size t.dim ranks split_index).lookup rank = some u.dim ∧
      u.data = Blocks.slice t.data (rankFrom batch_size t.dim ranks split_index rank)
        (rankSize batch_size t.dim ranks split_index rank)
  | loss _ _, none => False
  | loss elem_type val, some u => u.elem_type = elem_type ∧ u.dim = [] ∧ u.data = [val rank]

/-- A loss is averaged over the sources, and backward shared out. -/
def distributed (route : RouteDP) (is_bwd : Bool) : Whole → Whole
  | batch t => batch t
  | loss elem_type val => loss elem_type fun rank =>
      (if is_bwd then (getDpRatio batch_size route.dests.toFinset rank split_index).getD 0 else 1) *
        ∑ s ∈ route.sources.toFinset,
          (getDpRatio batch_size route.sources.toFinset s split_index).getD 0 * val s

end

def irType : Whole → IRType
  | batch t => t.irType
  | loss elem_type _ => .tensor elem_type [] false

end Whole

/-- The type with no gradients for losses. -/
def dropLossGrad : IRType → IRType :=
  IRType.mapTensors fun elem_type dim requires_grad =>
    .tensor elem_type dim (requires_grad && dim ≠ [])

mutual

/-- Tensors, lists of them, and tuples of what can be distributed. -/
def Distributable : IValue Whole → Prop
  | .tensor _ => True
  | .tensorList ws => ws ≠ []
  | .tuple elems => DistributableAll elems
  | .scalar .none => True
  | _ => False

def DistributableAll : List (IValue Whole) → Prop
  | [] => True
  | e :: es => Distributable e ∧ DistributableAll es

end

mutual

/-- The type of what can be distributed. -/
def wholeType : IValue Whole → IRType
  | .tensor w => w.irType
  | .tensorList ws => .list .TENSOR (ws.map Whole.irType)
  | .tuple elems => .tuple (wholeTypes elems)
  | _ => .none

def wholeTypes : List (IValue Whole) → List IRType
  | [] => []
  | e :: es => wholeType e :: wholeTypes es

end

@[simp] theorem distributableAll_iff {es : List (IValue Whole)} :
    DistributableAll es ↔ ∀ e ∈ es, Distributable e := by
  induction es with
  | nil => simp [DistributableAll]
  | cons e es ih => simp [DistributableAll, ih]

@[simp] theorem wholeTypes_eq (es : List (IValue Whole)) : wholeTypes es = es.map wholeType := by
  induction es with
  | nil => rfl
  | cons e es ih => rw [wholeTypes, ih, List.map_cons]

section Leaf

variable {garbage : ℕ → ℚ} {route : RouteDP} {is_bwd : Bool}
  {batch_size split_index split_delay : ℕ} {vals : ℕ → LocalIValue} {rank : ℕ}

theorem mem_getRanksInRoute {r : ℕ} :
    r ∈ getRanksInRoute route ↔ r ∈ route.sources ∨ r ∈ route.dests := by
  simp [getRanksInRoute]

theorem lookup_calcDistBatchDims_of_not_mem {ranks : Finset ℕ} (h : rank ∉ ranks)
    (global_dim : List ℕ) :
    (calcDistBatchDims batch_size global_dim ranks split_index).lookup rank = none := by
  have hkeys : rank ∉ (getSplitBatchSizes batch_size ranks split_index).map Prod.fst := by
    rwa [(getSplitBatchSizes_keys_perm split_index).mem_iff, mem_sortRanks]
  rw [List.lookup_eq_none_iff]
  intro e he
  obtain ⟨it, hit, rfl⟩ := List.mem_map.mp he
  have hne : rank ≠ it.1 := fun heq => hkeys (heq ▸ List.mem_map_of_mem hit)
  simpa using hne

/-- The destinations of a batch tensor get their rows. -/
theorem distributeBatchTensor_parts {t : Tensor ℚ} (hb : 1 ≤ batch_size)
    (hfits : (Whole.batch t).Fits batch_size) (hne : route.sources ≠ [])
    (hsources : ∀ s ∈ route.sources, ∃ u, vals s = .tensor u ∧
      (Whole.batch t).PartOf batch_size (split_index - split_delay) route.sources.toFinset s u)
    (hothers : ∀ r ∈ route.dests, r ∉ route.sources → vals r = .scalar .none) :
    ∃ v, distributeBatchTensor garbage route batch_size split_index split_delay t.elem_type t.dim
        t.requires_grad vals rank = some v ∧
      (rank ∈ route.dests → ∃ u, v = .tensor u ∧
        (Whole.batch t).PartOf batch_size (split_index - split_delay) route.dests.toFinset rank u) ∧
      (rank ∉ route.dests → v = .scalar .none) := by
  obtain ⟨-, ⟨k, rest, hdim⟩, -, hsize⟩ := hfits
  have hS : route.sources.toFinset.Nonempty := (List.toFinset_nonempty_iff _).mpr hne
  obtain ⟨sendbuf, hsendbuf, hsend⟩ := collect_eq (f := fun r => sendBuf (vals r))
    (g := fun r => if r ∈ route.sources then Blocks.slice t.data
      (rankFrom batch_size t.dim route.sources.toFinset (split_index - split_delay) r)
      (rankSize batch_size t.dim route.sources.toFinset (split_index - split_delay) r) else []) []
    (by
    intro r hr
    by_cases hs : r ∈ route.sources
    · obtain ⟨u, hu, hpart⟩ := hsources r hs
      rw [hu, if_pos hs]
      cases u with
      | none => simp [sendBuf, Blocks.slice, show rankSize _ _ _ _ _ = 0 from hpart]
      | some u => exact congrArg some hpart.2.2.2
    · rw [hothers r ((mem_getRanksInRoute.mp hr).resolve_left hs) hs, if_neg hs]
      rfl)
  rw [hdim] at hsize
  have hredist := redistFits_of_le hb k rest route.sources.toFinset route.dests.toFinset
    (split_index - split_delay) hsize.le
  unfold distributeBatchTensor
  dsimp only
  rw [hsendbuf, Option.bind_eq_bind, Option.bind_some]
  by_cases hrank : rank ∈ route.dests
  · have hd : rank ∈ route.dests.toFinset := List.mem_toFinset.mpr hrank
    obtain ⟨j, hj, hget⟩ := List.getElem_of_mem ((mem_sortRanks _).mpr hd)
    obtain ⟨dim, hlookup⟩ : ∃ dim, (calcDistBatchDims batch_size t.dim route.dests.toFinset
        (split_index - split_delay)).lookup rank = some dim := by
      rw [hdim, ← hget]
      exact ⟨_, calcDistBatchDims_lookup _ _ hb k rest hj⟩
    have hown : rankSize batch_size t.dim route.dests.toFinset (split_index - split_delay) rank =
        productDim dim := by
      rw [rankSize, distSize, hlookup, Option.getD_some]
    have hdata : redist (getRanksInRoute route) (fun r => getRedistArgs r batch_size t.dim
          route.sources.toFinset route.dests.toFinset (split_index - split_delay)) sendbuf rank
        ((List.range (productDim dim)).map garbage) = Blocks.slice t.data
          (rankFrom batch_size t.dim route.dests.toFinset (split_index - split_delay) rank)
          (rankSize batch_size t.dim route.dests.toFinset (split_index - split_delay) rank) := by
      rw [hdim] at hown ⊢
      refine redist_eq_slice (fun _ _ => rfl) hredist hb (by rw [t.length_data, hdim])
        (fun p hp => ?_) hS hd (by rw [List.length_map, List.length_range, hown])
      rw [hsend p (Finset.mem_union_left _ hp), if_pos (List.mem_toFinset.mp hp), hdim]
    have hlen : (redist (getRanksInRoute route) (fun r => getRedistArgs r batch_size t.dim
          route.sources.toFinset route.dests.toFinset (split_index - split_delay)) sendbuf rank
        ((List.range (productDim dim)).map garbage)).length = productDim dim := by
      have hle := rankFrom_add_rankSize_le hb k rest (split_index - split_delay) hd
      rw [hdata, Blocks.length_slice, hown]
      rw [t.length_data, hdim]
      exact hle
    rw [hlookup]
    dsimp only
    by_cases hzero : productDim dim = 0
    · rw [if_pos hzero]
      exact ⟨_, rfl, fun _ => ⟨none, rfl, hown.trans hzero⟩, fun h => absurd hrank h⟩
    · rw [if_neg hzero, dif_pos hlen]
      exact ⟨_, rfl, fun _ => ⟨_, rfl, rfl, rfl, hlookup, hdata⟩, fun h => absurd hrank h⟩
  · have hnot : rank ∉ route.dests.toFinset := fun h => hrank (List.mem_toFinset.mp h)
    rw [lookup_calcDistBatchDims_of_not_mem hnot]
    exact ⟨_, rfl, fun h => absurd h hrank, fun _ => rfl⟩

/-- The destinations of a loss get the average. -/
theorem distributeLoss_parts {elem_type : IRTensorElemType} {val : ℕ → ℚ}
    (hsources : ∀ s ∈ route.sources, ∃ u, vals s = .tensor u ∧
      (Whole.loss elem_type val).PartOf batch_size (split_index - split_delay)
        route.sources.toFinset s u)
    (hothers : ∀ r ∈ route.dests, r ∉ route.sources → vals r = .scalar .none) :
    ∃ v, distributeLoss route is_bwd batch_size split_index elem_type vals rank = some v ∧
      (rank ∈ route.dests → ∃ u, v = .tensor u ∧
        ((Whole.loss elem_type val).distributed batch_size split_index route is_bwd).PartOf
          batch_size (split_index - split_delay) route.dests.toFinset rank u) ∧
      (rank ∉ route.dests → v = .scalar .none) := by
  obtain ⟨losses, hlosses, heq⟩ := collect_eq (f := fun r => lossVal (vals r))
    (g := fun r => if r ∈ route.sources then some (val r) else none) none (by
    intro r hr
    by_cases hs : r ∈ route.sources
    · obtain ⟨u, hu, hpart⟩ := hsources r hs
      rw [hu, if_pos hs]
      cases u with
      | none => exact hpart.elim
      | some u =>
        obtain ⟨-, hdim, hdata⟩ := hpart
        simp [lossVal, hdim, hdata]
    · rw [hothers r ((mem_getRanksInRoute.mp hr).resolve_left hs) hs, if_neg hs]
      rfl)
  have hratio : ∀ (ranks : Finset ℕ), ∀ r ∈ ranks, ∃ q : ℚ,
      getDpRatio batch_size ranks r split_index = some q := by
    intro ranks r hr
    obtain ⟨j, hj, rfl⟩ := List.getElem_of_mem ((mem_sortRanks _).mpr hr)
    rw [getDpRatio, getSplitBatchSizes_lookup _ _ _ hj]
    exact ⟨_, rfl⟩
  have hsrcs : (sortRanks (getRanksInRoute route)).mapM (fun r =>
      lossSource route batch_size split_index r (losses r)) =
      some ((sortRanks (getRanksInRoute route)).map fun r => if r ∈ route.sources.toFinset then
        (getDpRatio batch_size route.sources.toFinset r split_index).getD 0 * val r else 0) := by
    rw [mapM_eq_some_iff, List.map_map]
    refine List.map_congr_left fun r hr => ?_
    rw [heq r ((mem_sortRanks _).mp hr)]
    by_cases hs : r ∈ route.sources
    · have hmem : r ∈ route.sources.toFinset := List.mem_toFinset.mpr hs
      obtain ⟨q, hq⟩ := hratio _ r hmem
      rw [if_pos hs, lossSource, if_pos hs, Function.comp_apply, if_pos hmem, hq]
      rfl
    · have hmem : r ∉ route.sources.toFinset := fun h => hs (List.mem_toFinset.mp h)
      rw [if_neg hs, Function.comp_apply, if_neg hmem]
      rfl
  have hsum : ((sortRanks (getRanksInRoute route)).map fun r =>
      if r ∈ route.sources.toFinset then
        (getDpRatio batch_size route.sources.toFinset r split_index).getD 0 * val r else 0).sum =
      ∑ s ∈ route.sources.toFinset,
        (getDpRatio batch_size route.sources.toFinset s split_index).getD 0 * val s := by
    have hsubset : route.sources.toFinset ⊆ getRanksInRoute route := Finset.subset_union_left
    rw [sum_map_sortRanks, Finset.sum_ite_mem, Finset.inter_eq_right.mpr hsubset]
  unfold distributeLoss distributeLossTensor
  dsimp only
  rw [hlosses, Option.bind_eq_bind, Option.bind_some, hsrcs, Option.bind_eq_bind,
    Option.bind_eq_bind, Option.bind_some, hsum]
  by_cases hrank : rank ∈ route.dests
  · rw [if_neg (not_not.mpr hrank)]
    cases is_bwd with
    | false =>
      rw [if_neg Bool.false_ne_true]
      exact ⟨_, rfl, fun _ => ⟨_, rfl, rfl, rfl, rfl⟩, fun h => absurd hrank h⟩
    | true =>
      obtain ⟨q, hq⟩ := hratio _ rank (List.mem_toFinset.mpr hrank)
      rw [if_pos rfl, hq]
      refine ⟨_, rfl, fun _ => ⟨_, rfl, rfl, rfl, ?_⟩, fun h => absurd hrank h⟩
      dsimp only [lossTensor]
      rw [if_pos rfl, hq]
      rfl
  · rw [if_pos hrank]
    exact ⟨_, rfl, fun h => absurd h hrank, fun _ => rfl⟩

end Leaf

section Tree

variable (garbage : ℕ → ℚ) (route : RouteDP) (is_bwd : Bool)
  (batch_size split_index split_delay : ℕ)

/-- Once the sources hold the parts of the whole, the destinations get theirs. -/
def Distributes (W : IValue Whole) : Prop :=
  ∀ (T : IRType) (vals : ℕ → LocalIValue), dropLossGrad T = wholeType W →
    (∀ s ∈ route.sources, W.Related (Whole.PartOf batch_size (split_index - split_delay)
      route.sources.toFinset s) (vals s)) →
    (∀ r ∈ route.dests, r ∉ route.sources → vals r = .scalar .none) →
    ∀ rank, ∃ v, doDistribute garbage route is_bwd batch_size split_index split_delay T vals rank =
        some v ∧
      (rank ∈ route.dests → (W.transformTensorsInIValue
        (Whole.distributed batch_size split_index route is_bwd)).Related
          (Whole.PartOf batch_size (split_index - split_delay) route.dests.toFinset rank) v) ∧
      (rank ∉ route.dests → v = .scalar .none)

variable {garbage route is_bwd batch_size split_index split_delay}

theorem dropLossGrad_eq_batch {T : IRType} {t : Tensor ℚ} (hdim : t.dim ≠ [])
    (h : dropLossGrad T = t.irType) : T = t.irType := by
  cases T with
  | tensor elem_type dim requires_grad =>
    simp only [dropLossGrad, IRType.mapTensors, Tensor.irType, IRType.tensor.injEq] at h
    obtain ⟨rfl, rfl, hgrad⟩ := h
    simp only [Tensor.irType, IRType.tensor.injEq, true_and]
    simpa [hdim] using hgrad
  | _ => simp [dropLossGrad, IRType.mapTensors, Tensor.irType] at h

theorem dropLossGrad_eq_loss {T : IRType} {elem_type : IRTensorElemType}
    (h : dropLossGrad T = .tensor elem_type [] false) :
    ∃ requires_grad, T = .tensor elem_type [] requires_grad := by
  cases T with
  | tensor elem_type' dim requires_grad =>
    simp only [dropLossGrad, IRType.mapTensors, IRType.tensor.injEq] at h
    obtain ⟨rfl, rfl, -⟩ := h
    exact ⟨requires_grad, rfl⟩
  | _ => simp [dropLossGrad, IRType.mapTensors] at h

theorem dropLossGrad_eq_list {T : IRType} {list_type : IRListType} {types : List IRType}
    (h : dropLossGrad T = .list list_type types) :
    ∃ types', T = .list list_type types' ∧ types'.map dropLossGrad = types := by
  cases T with
  | list list_type' types' =>
    rw [dropLossGrad, IRType.mapTensors_list, IRType.list.injEq] at h
    obtain ⟨rfl, rfl⟩ := h
    exact ⟨types', rfl, rfl⟩
  | _ => simp [dropLossGrad, IRType.mapTensors] at h

theorem dropLossGrad_eq_tuple {T : IRType} {types : List IRType}
    (h : dropLossGrad T = .tuple types) :
    ∃ types', T = .tuple types' ∧ types'.map dropLossGrad = types := by
  cases T with
  | tuple types' =>
    rw [dropLossGrad, IRType.mapTensors_tuple, IRType.tuple.injEq] at h
    exact ⟨types', rfl, h⟩
  | _ => simp [dropLossGrad, IRType.mapTensors] at h

theorem dropLossGrad_eq_none {T : IRType} (h : dropLossGrad T = .none) : T = .none := by
  cases T with
  | none => rfl
  | _ => simp [dropLossGrad, IRType.mapTensors] at h

theorem Whole.Fits.dim_ne_nil {t : Tensor ℚ} (h : (Whole.batch t).Fits batch_size) :
    t.dim ≠ [] := by
  obtain ⟨-, ⟨k, rest, hdim⟩, -⟩ := h
  rw [hdim]
  exact List.cons_ne_nil _ _

theorem distributes_tensor (hb : 1 ≤ batch_size) (hne : route.sources ≠ []) {w : Whole}
    (hfits : w.Fits batch_size) :
    Distributes garbage route is_bwd batch_size split_index split_delay (.tensor w) := by
  intro T vals hT hsources hothers rank
  cases w with
  | batch t =>
    obtain rfl := dropLossGrad_eq_batch hfits.dim_ne_nil hT
    unfold Tensor.irType doDistribute
    rw [if_neg hfits.dim_ne_nil]
    exact distributeBatchTensor_parts hb hfits hne hsources hothers
  | loss elem_type val =>
    obtain ⟨requires_grad, rfl⟩ := dropLossGrad_eq_loss hT
    rw [doDistribute, if_pos rfl]
    exact distributeLoss_parts hsources hothers

variable (garbage is_bwd) in
/-- The elements are distributed one after another. -/
theorem distributeElems_parts {elems : LocalIValue → Option (List LocalIValue)}
    {all : List (IValue Whole)} {vals : ℕ → LocalIValue}
    (hsources : ∀ s ∈ route.sources, (vals s).isNone = false ∧ ∃ us, elems (vals s) = some us ∧
      List.Forall₂ (Related (Whole.PartOf batch_size (split_index - split_delay)
        route.sources.toFinset s)) all us)
    (hothers : ∀ r ∈ route.dests, r ∉ route.sources → vals r = .scalar .none) (rank : ℕ) :
    ∀ (es : List (IValue Whole)) (idx : ℕ) (elem_types : List IRType), all.drop idx = es →
      elem_types.map dropLossGrad = es.map wholeType →
      (∀ e ∈ es, Distributes garbage route is_bwd batch_size split_index split_delay e) →
      ∃ results, distributeElems garbage route is_bwd batch_size split_index split_delay elems
          elem_types idx vals rank = some results ∧
        (rank ∈ route.dests → List.Forall₂ (Related (Whole.PartOf batch_size
          (split_index - split_delay) route.dests.toFinset rank))
          (es.map (transformTensorsInIValue
            (Whole.distributed batch_size split_index route is_bwd))) results) := by
  intro es
  induction es with
  | nil =>
    intro idx elem_types _ htypes _
    obtain rfl : elem_types = [] := List.map_eq_nil_iff.mp htypes
    exact ⟨[], rfl, fun _ => List.Forall₂.nil⟩
  | cons e es ih =>
    intro idx elem_types hdrop htypes helems
    obtain ⟨elem, elem_types, rfl, helem, htypes⟩ := List.map_eq_cons_iff.mp htypes
    have hget : all[idx]? = some e := by
      rw [← List.head?_drop, hdrop]
      rfl
    have hrest : all.drop (idx + 1) = es := by rw [← List.tail_drop, hdrop, List.tail_cons]
    -- what the ranks come with for the element
    have helemOf : ∀ r ∈ getRanksInRoute route, ∃ u, elemOf elems idx (vals r) = some u ∧
        (r ∈ route.sources → Related (Whole.PartOf batch_size (split_index - split_delay)
          route.sources.toFinset r) e u) ∧ (r ∉ route.sources → u = .scalar .none) := by
      intro r hr
      by_cases hs : r ∈ route.sources
      · obtain ⟨hnone, us, hus, hparts⟩ := hsources r hs
        have hlen := hparts.length_eq
        obtain ⟨hlt, hget'⟩ := List.getElem?_eq_some_iff.mp hget
        have hpart := List.forall₂_iff_get.mp hparts |>.2 idx hlt (hlen ▸ hlt)
        refine ⟨us.get ⟨idx, hlen ▸ hlt⟩, ?_, fun _ => ?_, fun h => absurd hs h⟩
        · rw [elemOf, hnone, if_neg Bool.false_ne_true, hus, Option.bind_some]
          exact List.getElem?_eq_getElem _
        · simpa [hget'] using hpart
      · rw [hothers r ((mem_getRanksInRoute.mp hr).resolve_left hs) hs]
        exact ⟨.scalar .none, rfl, fun h => absurd h hs, fun _ => rfl⟩
    have : Nonempty LocalIValue := ⟨.scalar .none⟩
    choose! u hu hpart hnone using helemOf
    obtain ⟨elem_vals, hcollect, heq⟩ := collect_eq (f := fun r => elemOf elems idx (vals r))
      (.scalar .none) hu
    obtain ⟨v, hv, hdest, -⟩ := helems e List.mem_cons_self elem elem_vals helem
      (fun s hs => by
        have hs' := mem_getRanksInRoute.mpr (Or.inl hs)
        rw [heq s hs']
        exact hpart s hs' hs)
      (fun r hr hs => by
        have hr' := mem_getRanksInRoute.mpr (Or.inr hr)
        rw [heq r hr']
        exact hnone r hr' hs) rank
    obtain ⟨results, hresults, hdests⟩ := ih (idx + 1) elem_types hrest htypes
      fun e he => helems e (List.mem_cons_of_mem _ he)
    refine ⟨v :: results, ?_, fun hrank => ?_⟩
    · rw [distributeElems, hcollect, Option.bind_eq_bind, Option.bind_some, hv,
        Option.bind_eq_bind, Option.bind_some, hresults]
      rfl
    · exact List.Forall₂.cons (hdest hrank) (hdests hrank)

theorem distributes_tensorList (hb : 1 ≤ batch_size) (hne : route.sources ≠ []) {ws : List Whole}
    (hws : ws ≠ []) (hfits : ∀ w ∈ ws, w.Fits batch_size) :
    Distributes garbage route is_bwd batch_size split_index split_delay (.tensorList ws) := by
  intro T vals hT hsources hothers rank
  obtain ⟨types, rfl, htypes⟩ := dropLossGrad_eq_list hT
  have helems : ∀ s ∈ route.sources, (vals s).isNone = false ∧
      ∃ us, toListRef (vals s) = some us ∧
        List.Forall₂ (Related (Whole.PartOf batch_size (split_index - split_delay)
          route.sources.toFinset s)) (ws.map .tensor) us := by
    intro s hs
    obtain ⟨us, hus, hparts⟩ := hsources s hs
    rw [hus]
    refine ⟨rfl, _, rfl, ?_⟩
    rw [List.forall₂_map_left_iff, List.forall₂_map_right_iff]
    exact hparts.imp fun w u h => ⟨u, rfl, h⟩
  obtain ⟨results, hresults, hdests⟩ := distributeElems_parts garbage is_bwd
    helems hothers rank (ws.map .tensor) 0 types List.drop_zero
    (by rw [htypes, List.map_map]; rfl) (by
      intro e he
      obtain ⟨w, hw, rfl⟩ := List.mem_map.mp he
      exact distributes_tensor hb hne (hfits w hw))
  obtain ⟨w, ws, rfl⟩ := List.exists_cons_of_ne_nil hws
  obtain ⟨a_type, types, rfl, ha_type, -⟩ := List.map_eq_cons_iff.mp htypes
  have hbase : a_type.getBaseType = .TENSOR := by
    cases w with
    | batch t =>
      obtain rfl := dropLossGrad_eq_batch (hfits _ List.mem_cons_self).dim_ne_nil ha_type
      rfl
    | loss elem_type val =>
      obtain ⟨_, rfl⟩ := dropLossGrad_eq_loss ha_type
      rfl
  unfold doDistribute
  rw [List.head?_cons, Option.bind_eq_bind, Option.bind_some, hresults, Option.bind_eq_bind,
    Option.bind_some]
  by_cases hrank : rank ∈ route.dests
  · have hparts := hdests hrank
    rw [List.map_map] at hparts
    obtain ⟨us, hus, hrel⟩ := mapM_toTensor (by rwa [List.map_map])
    rw [if_neg (not_not.mpr hrank), hus, Option.bind_eq_bind, Option.bind_some, if_pos hbase]
    exact ⟨_, rfl, fun _ => ⟨us, rfl, hrel⟩, fun h => absurd hrank h⟩
  · rw [if_pos hrank]
    exact ⟨_, rfl, fun h => absurd h hrank, fun _ => rfl⟩

/-- A value of which the sources have their parts is distributed, so that the destinations have
theirs. -/
theorem distributes (hb : 1 ≤ batch_size) (hne : route.sources ≠ []) {W : IValue Whole}
    (hW : Distributable W) (hfits : ∀ w ∈ W.tensors, w.Fits batch_size) :
    Distributes garbage route is_bwd batch_size split_index split_delay W := by
  induction W using IValue.induction with
  | tensor w => exact distributes_tensor hb hne (hfits w (by simp [tensors]))
  | tensorList ws => exact distributes_tensorList hb hne hW hfits
  | tuple elems ih =>
    intro T vals hT hsources hothers rank
    obtain ⟨types, rfl, htypes⟩ := dropLossGrad_eq_tuple hT
    rw [wholeTypes_eq] at htypes
    have helems : ∀ s ∈ route.sources, (vals s).isNone = false ∧
        ∃ us, toTuple (vals s) = some us ∧
          List.Forall₂ (Related (Whole.PartOf batch_size (split_index - split_delay)
            route.sources.toFinset s)) elems us := by
      intro s hs
      obtain ⟨us, hus, hparts⟩ := hsources s hs
      rw [hus]
      exact ⟨rfl, us, rfl, (relatedAll_iff _).mp hparts⟩
    obtain ⟨results, hresults, hdests⟩ := distributeElems_parts garbage is_bwd
      helems hothers rank elems 0 types List.drop_zero htypes fun e he =>
        ih e he (distributableAll_iff.mp hW e he) fun w hw => hfits w (by
          simp only [tensors, tensorsAll_eq]
          exact List.mem_flatMap.mpr ⟨e, he, hw⟩)
    unfold doDistribute
    rw [hresults, Option.bind_eq_bind, Option.bind_some]
    by_cases hrank : rank ∈ route.dests
    · rw [if_neg (not_not.mpr hrank)]
      refine ⟨_, rfl, fun _ => ⟨results, rfl, ?_⟩, fun h => absurd hrank h⟩
      rw [relatedAll_iff, transformAll_eq]
      exact hdests hrank
    · rw [if_pos hrank]
      exact ⟨_, rfl, fun h => absurd h hrank, fun _ => rfl⟩
  | scalar x =>
    intro T vals hT hsources hothers rank
    cases x with
    | none =>
      obtain rfl := dropLossGrad_eq_none hT
      exact ⟨_, by rw [doDistribute], fun _ => rfl, fun _ => rfl⟩
    | _ => exact absurd hW (by simp [Distributable])
  | scalarList l => exact absurd hW (by simp [Distributable])
  | list elem_type elems => exact absurd hW (by simp [Distributable])

end Tree

section Types

open IRType (getBaseType)

variable (batch_size split_index : ℕ) (S : Finset ℕ)

/-- Some ranks hold the parts of a value, and the others among `rs` nothing. -/
structure HoldParts (rs : List ℕ) (W : IValue Whole) (vals : ℕ → LocalIValue) : Prop where
  nodup : rs.Nodup
  subset : ∀ s ∈ S, s ∈ rs
  part : ∀ s ∈ S, W.Related (Whole.PartOf batch_size split_index S s) (vals s)
  absent : ∀ r ∈ rs, r ∉ S → vals r = .scalar .none

/-- The types of the parts are reduced to the type of the whole. -/
def Reduces (W : IValue Whole) : Prop :=
  ∀ rs vals, HoldParts batch_size split_index S rs W vals →
    ∃ T, doReduceTypes (rs.map fun r => (vals r).toIRType) = some T ∧
      dropLossGrad T = wholeType W

/-- What a rank has of a batch tensor. -/
def localTensor (vals : ℕ → LocalIValue) (r : ℕ) : LocalValue :=
  match vals r with
  | .tensor none => .undefined
  | .tensor (some _) => .share (((getSplitBatchSizes batch_size S split_index).lookup r).getD 0)
  | _ => .absent

variable {batch_size split_index S} {rs : List ℕ} {vals : ℕ → LocalIValue}

/-- The types of present values of a kind are reduced as the type of one of them. -/
theorem doReduceTypes_present (type : ℕ → IRType) (kind : IRBaseType) (hS : S.Nonempty)
    (hsub : ∀ s ∈ S, s ∈ rs) (hvalid : ∀ s ∈ S, isValidType (type s))
    (hkind : ∀ s ∈ S, getBaseType (type s) = kind) (hnone : kind ≠ .NONE)
    (hothers : ∀ r ∈ rs, r ∉ S → type r = .none) :
    ∃ s ∈ S, doReduceTypes (rs.map type) =
      reduceAs doReduceTypes ((rs.filter (· ∈ S)).map type) (type s) := by
  obtain ⟨s₀, hs₀⟩ := hS
  have hsome : (getFirstValidType (rs.map type)).isSome = true := by
    rw [getFirstValidType, List.find?_isSome]
    exact ⟨type s₀, List.mem_map_of_mem (hsub s₀ hs₀), by simpa using hvalid s₀ hs₀⟩
  obtain ⟨a_type, hfirst⟩ := Option.isSome_iff_exists.mp hsome
  obtain ⟨s, hs, rfl⟩ := List.mem_map.mp (List.mem_of_find?_eq_some hfirst)
  have hmem : s ∈ S := by
    by_contra hnot
    have hvalid' := List.find?_some hfirst
    simp [hothers s hs hnot, isValidType, getBaseType] at hvalid'
  have htarget : getNonNoneTypes (rs.map type) = (rs.filter (· ∈ S)).map type := by
    rw [getNonNoneTypes, List.filter_map]
    congr 1
    refine List.filter_congr fun r hr => ?_
    by_cases hrS : r ∈ S
    · simp [hrS, hkind r hrS, hnone]
    · simp [hrS, hothers r hr hrS, getBaseType]
  refine ⟨s, hmem, ?_⟩
  rw [doReduceTypes_eq hfirst, htarget]
  intro t ht
  obtain ⟨r, hr, rfl⟩ := List.mem_map.mp ht
  by_cases hrS : r ∈ S
  · exact Or.inr ((hkind s hmem).trans (hkind r hrS).symm)
  · rw [hothers r hr hrS]
    exact Or.inl rfl

theorem reduces_loss (hS : S.Nonempty) {elem_type : IRTensorElemType} {val : ℕ → ℚ}
    (helem : elem_type ≠ .UNDEF) :
    Reduces batch_size split_index S (.tensor (.loss elem_type val)) := by
  intro rs vals h
  have htype : ∀ s ∈ S, ∃ g, (vals s).toIRType = .tensor elem_type [] g := by
    intro s hs
    obtain ⟨u, hu, hpart⟩ := h.part s hs
    cases u with
    | none => exact hpart.elim
    | some u =>
      obtain ⟨helem', hdim, -⟩ := hpart
      exact ⟨u.requires_grad, by
        rw [hu, IValue.toIRType, tensorIRType, Tensor.irType, helem', hdim]⟩
  obtain ⟨s, hs, hreduce⟩ := doReduceTypes_present (fun r => (vals r).toIRType) .TENSOR hS h.subset
    (fun s hs => by
      obtain ⟨g, hg⟩ := htype s hs
      simp [hg, isValidType, getBaseType, IRType.getTensorElemType, helem])
    (fun s hs => by
      obtain ⟨g, hg⟩ := htype s hs
      rw [hg, getBaseType])
    (by decide) fun r hr hnot => by
      rw [h.absent r hr hnot]
      rfl
  obtain ⟨g, hg⟩ := htype s hs
  have hall : ∀ type ∈ (rs.filter (· ∈ S)).map fun r => (vals r).toIRType,
      ∃ g, type = .tensor elem_type [] g := by
    intro type ht
    obtain ⟨r, hr, rfl⟩ := List.mem_map.mp ht
    exact htype r (of_decide_eq_true (List.mem_filter.mp hr).2)
  have hempty : ∀ type ∈ (rs.filter (· ∈ S)).map fun r => (vals r).toIRType,
      getBaseType type ≠ .NONE → type.getTensorDim = [] := by
    intro type ht _
    obtain ⟨g, rfl⟩ := hall type ht
    rfl
  have hsome : (getFirstValidTensorType
      ((rs.filter (· ∈ S)).map fun r => (vals r).toIRType)).isSome = true := by
    rw [getFirstValidTensorType, List.find?_isSome]
    refine ⟨(vals s).toIRType, List.mem_map_of_mem
      (List.mem_filter.mpr ⟨h.subset s hs, decide_eq_true hs⟩), ?_⟩
    simp [hg, getBaseType, IRType.getTensorElemType, helem]
  obtain ⟨a_type, hfirst⟩ := Option.isSome_iff_exists.mp hsome
  obtain ⟨g', rfl⟩ := hall a_type (List.mem_of_find?_eq_some hfirst)
  refine ⟨.tensor elem_type [] false, ?_, rfl⟩
  rw [hreduce, hg, reduceAs, if_pos rfl, reduceLossTypes, if_pos hempty, hfirst]
  rfl

section Batch

variable {t : Tensor ℚ} {r : ℕ}

theorem exists_share_dim (hb : 1 ≤ batch_size) {k : ℕ} (rest : List ℕ) (hr : r ∈ S) :
    ∃ n, (getSplitBatchSizes batch_size S split_index).lookup r = some n ∧
      (calcDistBatchDims batch_size (k * batch_size :: rest) S split_index).lookup r =
        some (k * n :: rest) := by
  obtain ⟨j, hj, rfl⟩ := List.getElem_of_mem ((mem_sortRanks S).mpr hr)
  exact ⟨_, getSplitBatchSizes_lookup _ _ _ hj, calcDistBatchDims_lookup _ _ hb k rest hj⟩

/-- A rank that has parts of a batch tensor has the type of its share. -/
theorem localTensor_spec (hb : 1 ≤ batch_size) (hfits : (Whole.batch t).Fits batch_size)
    (h : HoldParts batch_size split_index S rs (.tensor (.batch t)) vals) (hr : r ∈ rs) :
    (vals r).toIRType = (localTensor batch_size split_index S vals r).toIRType batch_size t.irType ∧
      (localTensor batch_size split_index S vals r).rows =
        if r ∈ S then ((getSplitBatchSizes batch_size S split_index).lookup r).getD 0 else 0 := by
  obtain ⟨-, ⟨k, rest, hdim⟩, hpos, -⟩ := hfits
  by_cases hrS : r ∈ S
  · obtain ⟨n, hn, hpart_dim⟩ := exists_share_dim (k := k) hb rest hrS
    obtain ⟨u, hu, hpart⟩ := h.part r hrS
    rw [if_pos hrS, hn]
    cases u with
    | none =>
      have hzero : n = 0 := by
        have hsize : rankSize batch_size t.dim S split_index r = 0 := hpart
        rw [rankSize, distSize, hdim, hpart_dim, Option.getD_some, productDim,
          List.prod_cons] at hsize
        rw [hdim, productDim, List.prod_cons] at hpos
        by_contra hn0
        have hk : 0 < k := Nat.pos_of_mul_pos_right (Nat.pos_of_mul_pos_right hpos)
        have hrest : 0 < rest.prod := Nat.pos_of_mul_pos_left hpos
        have := Nat.mul_pos (Nat.mul_pos hk (Nat.pos_of_ne_zero hn0)) hrest
        omega
      simp [localTensor, hu, LocalValue.rows, hzero, LocalValue.toIRType, undefinedType,
        Tensor.irType, IRType.mapTensors, IValue.toIRType, tensorIRType]
    | some u =>
      obtain ⟨helem, hgrad, hlookup, -⟩ := hpart
      rw [hdim, hpart_dim, Option.some_inj] at hlookup
      have hk : k * batch_size / batch_size = k := Nat.mul_div_cancel _ hb
      simp [localTensor, hu, LocalValue.rows, hn, LocalValue.toIRType, shareType, shareDim,
        Tensor.irType, IRType.mapTensors, IValue.toIRType, tensorIRType, helem, hgrad, hdim,
        ← hlookup, hk]
  · rw [if_neg hrS]
    simp [localTensor, h.absent r hr hrS, LocalValue.rows, LocalValue.toIRType, IValue.toIRType,
      scalarIRType]

theorem reduces_batch (hb : 1 ≤ batch_size) (hS : S.Nonempty)
    (hfits : (Whole.batch t).Fits batch_size) :
    Reduces batch_size split_index S (.tensor (.batch t)) := by
  intro rs vals h
  let locals := rs.map (localTensor batch_size split_index S vals)
  have htypes : (rs.map fun r => (vals r).toIRType) =
      locals.map (LocalValue.toIRType batch_size t.irType) := by
    rw [List.map_map]
    exact List.map_congr_left fun r hr => (localTensor_spec hb hfits h hr).1
  have htotal : totalRows locals = batch_size := by
    have hrows : locals.map LocalValue.rows = rs.map fun r =>
        if r ∈ S then ((getSplitBatchSizes batch_size S split_index).lookup r).getD 0 else 0 := by
      rw [List.map_map]
      exact List.map_congr_left fun r hr => (localTensor_spec hb hfits h hr).2
    have hsubset : S ⊆ rs.toFinset := fun s hs => List.mem_toFinset.mpr (h.subset s hs)
    rw [totalRows, hrows, ← List.sum_toFinset _ h.nodup, Finset.sum_ite_mem,
      Finset.inter_eq_right.mpr hsubset, ← sum_map_sortRanks, sum_shares _ _ _ hS]
  obtain ⟨rows, hrows⟩ := exists_share (htotal ▸ hb)
  obtain ⟨helem, ⟨k, rest, hdim⟩, -⟩ := hfits
  have hk : k * batch_size / batch_size = k := Nat.mul_div_cancel _ hb
  obtain ⟨l, hl, hvalid, hfirst⟩ := exists_getFirstValidType (T := t.irType) hrows
    ((toIRType_tensor_valid_iff helem _).mpr ⟨rows, rfl⟩)
  obtain ⟨rows', rfl⟩ := (toIRType_tensor_valid_iff helem l).mp hvalid
  have hsame : ∀ type ∈ locals.map (LocalValue.toIRType batch_size t.irType),
      getBaseType type = .NONE ∨
        getBaseType (LocalValue.toIRType batch_size t.irType (.share rows')) =
          getBaseType type := by
    intro type htype
    obtain ⟨l', -, rfl⟩ := List.mem_map.mp htype
    cases l' with
    | absent => exact Or.inl rfl
    | undefined => exact Or.inr rfl
    | share _ => exact Or.inr rfl
  have hbatch : reduceBatchTensorTypes ((locals.filter fun l => l ≠ .absent).map
      (LocalValue.toIRType batch_size (.tensor t.elem_type (k * batch_size :: rest)
        t.requires_grad))) = _ :=
    reduceBatchTensorTypes_shares helem (share_mem_filter hrows)
  refine ⟨t.irType, ?_, ?_⟩
  · rw [htypes, doReduceTypes_eq hfirst hsame,
      getNonNoneTypes_map (T := t.irType) locals fun l => toIRType_tensor_none_iff l]
    have hshare : LocalValue.toIRType batch_size t.irType (.share rows') =
        .tensor t.elem_type (k * rows' :: rest) t.requires_grad := by
      simp [LocalValue.toIRType, shareType, shareDim, Tensor.irType, IRType.mapTensors, hdim, hk]
    have hwhole : shareType batch_size batch_size
        (.tensor t.elem_type (k * batch_size :: rest) t.requires_grad) = t.irType := by
      simp [shareType, shareDim, Tensor.irType, IRType.mapTensors, hdim, hk]
    rw [hshare, reduceAs, if_neg (List.cons_ne_nil _ _)]
    rw [totalRows_filter, htotal, hwhole] at hbatch
    rw [← hbatch, Tensor.irType, hdim]
  · have hne : t.dim ≠ [] := by
      rw [hdim]
      exact List.cons_ne_nil _ _
    simp [dropLossGrad, Tensor.irType, IRType.mapTensors, wholeType, Whole.irType, hne]

end Batch

/-- The elements of lists and tuples are reduced one by one. -/
theorem mapM_reduces (elems : List (IValue Whole)) (parts : ℕ → List LocalIValue)
    (type : ℕ → IRType) (hnodup : rs.Nodup) (hsub : ∀ s ∈ S, s ∈ rs)
    (hparts : ∀ s ∈ S, List.Forall₂ (Related (Whole.PartOf batch_size split_index S s)) elems
      (parts s))
    (htype : ∀ s ∈ S, (type s).getCompoundTypes = (parts s).map toIRType)
    (ih : ∀ e ∈ elems, Reduces batch_size split_index S e) :
    ∃ Ts, ((List.range elems.length).mapM fun i =>
        (elemTypes ((rs.filter (· ∈ S)).map type) i).bind doReduceTypes) = some Ts ∧
      Ts.map dropLossGrad = elems.map wholeType := by
  have hmem : ∀ r ∈ rs.filter (· ∈ S), r ∈ S := fun r hr =>
    of_decide_eq_true (List.mem_filter.mp hr).2
  have helem : ∀ i (hi : i < elems.length), ∃ T,
      (elemTypes ((rs.filter (· ∈ S)).map type) i).bind doReduceTypes = some T ∧
        dropLossGrad T = wholeType (elems.get ⟨i, hi⟩) := by
    intro i hi
    have hlt : ∀ s ∈ S, i < (parts s).length := fun s hs => (hparts s hs).length_eq ▸ hi
    have htypes : elemTypes ((rs.filter (· ∈ S)).map type) i =
        some ((rs.filter (· ∈ S)).map fun r => ((parts r).getD i (.scalar .none)).toIRType) := by
      rw [elemTypes, if_pos, List.map_map]
      · refine congrArg some (List.map_congr_left fun r hr => ?_)
        rw [Function.comp_apply, htype r (hmem r hr), List.getD_eq_getElem _ _ (by
          rw [List.length_map]
          exact hlt r (hmem r hr)), List.getElem_map, List.getD_eq_getElem _ _ (hlt r (hmem r hr))]
      · intro t ht
        obtain ⟨r, hr, rfl⟩ := List.mem_map.mp ht
        rw [htype r (hmem r hr), List.length_map]
        exact hlt r (hmem r hr)
    obtain ⟨T, hT, hwhole⟩ := ih _ (List.get_mem elems ⟨i, hi⟩) (rs.filter (· ∈ S))
      (fun r => (parts r).getD i (.scalar .none))
      ⟨hnodup.filter _, fun s hs => List.mem_filter.mpr ⟨hsub s hs, decide_eq_true hs⟩,
        fun s hs => by
          have hget := (List.forall₂_iff_get.mp (hparts s hs)).2 i hi (hlt s hs)
          rw [List.getD_eq_getElem _ _ (hlt s hs)]
          exact hget,
        fun r hr hnot => absurd (hmem r hr) hnot⟩
    exact ⟨T, by rw [htypes, Option.bind_some, hT], hwhole⟩
  choose T hT hwhole using helem
  have hmapM := mapM_eq_some_map (l := List.range elems.length)
    (f := fun i => (elemTypes ((rs.filter (· ∈ S)).map type) i).bind doReduceTypes)
    (g := fun i => if h : i < elems.length then T i h else .none) fun i hi => by
      rw [dif_pos (List.mem_range.mp hi)]
      exact hT i (List.mem_range.mp hi)
  refine ⟨_, hmapM, List.ext_getElem (by simp) fun i hi _ => ?_⟩
  have hi' : i < elems.length := by simpa using hi
  simpa [hi'] using hwhole i hi'

/-- The ranks find the type of the whole. -/
theorem reduces (hb : 1 ≤ batch_size) (hS : S.Nonempty) {W : IValue Whole} (hW : Distributable W)
    (hfits : ∀ w ∈ W.tensors, w.Fits batch_size) : Reduces batch_size split_index S W := by
  induction W using IValue.induction with
  | tensor w =>
    cases w with
    | batch t => exact reduces_batch hb hS (hfits _ (by simp [tensors]))
    | loss elem_type val => exact reduces_loss hS (hfits (.loss elem_type val) (by simp [tensors]))
  | tensorList ws =>
    intro rs vals h
    choose! us hus hparts using h.part
    have htype : ∀ s ∈ S, (vals s).toIRType = .list .TENSOR ((us s).map tensorIRType) :=
      fun s hs => by rw [hus s hs, IValue.toIRType]
    obtain ⟨s, hs, hreduce⟩ := doReduceTypes_present (fun r => (vals r).toIRType) .LIST
      hS h.subset (fun s hs => by simp [htype s hs, isValidType, getBaseType])
      (fun s hs => by rw [htype s hs, getBaseType]) (by decide) fun r hr hnot => by
        rw [h.absent r hr hnot]
        rfl
    obtain ⟨Ts, hTs, hwhole⟩ := mapM_reduces (ws.map .tensor)
      (fun s => (us s).map .tensor) (fun r => (vals r).toIRType) h.nodup h.subset
      (fun s hs => by
        rw [List.forall₂_map_left_iff, List.forall₂_map_right_iff]
        exact (hparts s hs).imp fun w u hwu => ⟨u, rfl, hwu⟩)
      (fun s hs => by
        rw [htype s hs, IRType.getCompoundTypes, List.map_map]
        exact List.map_congr_left fun u _ => by rw [Function.comp_apply, IValue.toIRType])
      (fun e he => by
        obtain ⟨w, hw, rfl⟩ := List.mem_map.mp he
        cases w with
        | batch t => exact reduces_batch hb hS (hfits _ hw)
        | loss elem_type val => exact reduces_loss hS (hfits (.loss elem_type val) hw))
    refine ⟨.list .TENSOR Ts, ?_, ?_⟩
    · rw [List.length_map, (hparts s hs).length_eq] at hTs
      rw [hreduce, htype s hs, reduceAs, List.length_map, hTs]
      rfl
    · rw [dropLossGrad, IRType.mapTensors_list, wholeType]
      refine congrArg _ (hwhole.trans ?_)
      rw [List.map_map]
      rfl
  | tuple elems ih =>
    intro rs vals h
    choose! us hus hall using h.part
    have hparts : ∀ s ∈ S, List.Forall₂ (Related (Whole.PartOf batch_size split_index S s)) elems
        (us s) := fun s hs => (relatedAll_iff _).mp (hall s hs)
    have htype : ∀ s ∈ S, (vals s).toIRType = .tuple ((us s).map toIRType) :=
      fun s hs => by rw [hus s hs, IValue.toIRType, toIRTypes_eq]
    obtain ⟨s, hs, hreduce⟩ := doReduceTypes_present (fun r => (vals r).toIRType) .TUPLE
      hS h.subset (fun s hs => by simp [htype s hs, isValidType, getBaseType])
      (fun s hs => by rw [htype s hs, getBaseType]) (by decide) fun r hr hnot => by
        rw [h.absent r hr hnot]
        rfl
    obtain ⟨Ts, hTs, hwhole⟩ := mapM_reduces _ _ (fun r => (vals r).toIRType) h.nodup h.subset
      hparts (fun s hs => by rw [htype s hs, IRType.getCompoundTypes]) fun e he =>
        ih e he (distributableAll_iff.mp hW e he) fun w hw => hfits w (by
          simp only [tensors, tensorsAll_eq]
          exact List.mem_flatMap.mpr ⟨e, he, hw⟩)
    refine ⟨.tuple Ts, ?_, ?_⟩
    · rw [(hparts s hs).length_eq] at hTs
      rw [hreduce, htype s hs, reduceAs, List.length_map, hTs]
      rfl
    · rw [dropLossGrad, IRType.mapTensors_tuple, wholeType, wholeTypes_eq]
      exact congrArg _ hwhole
  | scalar x =>
    intro rs vals h
    cases x with
    | none =>
      refine ⟨.none, ?_, rfl⟩
      rw [doReduceTypes, dif_pos]
      rw [allBaseTypesNone, List.all_eq_true]
      intro type htype
      obtain ⟨r, hr, rfl⟩ := List.mem_map.mp htype
      have hnone : vals r = .scalar .none := by
        by_cases hrS : r ∈ S
        · exact h.part r hrS
        · exact h.absent r hr hrS
      rw [hnone]
      rfl
    | _ => exact absurd hW (by simp [Distributable])
  | scalarList l => exact absurd hW (by simp [Distributable])
  | list elem_type elems => exact absurd hW (by simp [Distributable])

end Types

section Parts

variable {route : RouteDP} {batch_size : ℕ} {W : IValue Whole} {vals : ℕ → LocalIValue}

theorem isDistributed_of_related {R : Whole → Option (Tensor ℚ) → Prop} {v : LocalIValue}
    (hW : Distributable W) (h : W.Related R v) : v.isDistributed = true := by
  cases W with
  | tensor w =>
    obtain ⟨u, rfl, -⟩ := h
    rfl
  | tensorList ws =>
    obtain ⟨us, rfl, -⟩ := h
    rfl
  | tuple elems =>
    obtain ⟨us, rfl, -⟩ := h
    rfl
  | scalar x =>
    obtain rfl : v = .scalar x := h
    cases x with
    | none => rfl
    | _ => exact hW.elim
  | scalarList l => exact hW.elim
  | list elem_type elems => exact hW.elim

/-- The ranks distribute by a type of the whole. -/
theorem exists_doDistribute_eq (garbage : ℕ → ℚ) (is_bwd : Bool) (split_index split_delay : ℕ)
    (hb : 1 ≤ batch_size) (hne : route.sources ≠ []) (hW : Distributable W)
    (hfits : ∀ w ∈ W.tensors, w.Fits batch_size)
    (hsources : ∀ s ∈ route.sources, W.Related (Whole.PartOf batch_size
      (split_index - split_delay) route.sources.toFinset s) (vals s))
    (hothers : ∀ r ∈ route.dests, r ∉ route.sources → vals r = .scalar .none) :
    ∃ T, dropLossGrad T = wholeType W ∧ ∀ rank,
      distribute garbage route is_bwd batch_size split_index split_delay vals rank =
        doDistribute garbage route is_bwd batch_size split_index split_delay T vals rank := by
  have hS : route.sources.toFinset.Nonempty := (List.toFinset_nonempty_iff _).mpr hne
  have hguard : ∀ r ∈ getRanksInRoute route, (vals r).isDistributed := by
    intro r hr
    by_cases hs : r ∈ route.sources
    · exact isDistributed_of_related hW (hsources r hs)
    · rw [hothers r ((mem_getRanksInRoute.mp hr).resolve_left hs) hs]
      rfl
  obtain ⟨T, hT, hwhole⟩ := reduces hb hS hW hfits (sortRanks (getRanksInRoute route)) vals
    ⟨nodup_sortRanks _, fun s hs => (mem_sortRanks _).mpr (Finset.mem_union_left _ hs),
      fun s hs => hsources s (List.mem_toFinset.mp hs), fun r hr hnot => by
        have hnot' : r ∉ route.sources := fun h => hnot (List.mem_toFinset.mpr h)
        exact hothers r
          ((mem_getRanksInRoute.mp ((mem_sortRanks _).mp hr)).resolve_left hnot') hnot'⟩
  refine ⟨T, hwhole, fun rank => ?_⟩
  unfold distribute
  rw [guard, if_pos hguard, Option.bind_eq_bind, Option.pure_def, Option.bind_some,
    reduceRouteTypes]
  change (doReduceTypes ((sortRanks (getRanksInRoute route)).map fun r =>
    (vals r).toIRType)).bind _ = _
  rw [hT, Option.bind_some]

/-- A tuple of a batch of two rows and a list with a loss, from ranks 0 and 1 to rank 2. -/
def tupleRoute : RouteDP := ⟨⟨"t", []⟩, [0, 1], "a", [2], "b"⟩

def pairOfRows : Tensor ℚ := ⟨.FLOAT, [2, 1], true, [5, 7], by decide⟩

def tupleWhole : IValue Whole :=
  .tuple [.tensor (.batch pairOfRows), .tensorList [.loss .FLOAT fun r => if r = 0 then 2 else 4]]

/-- The row of the batch and the loss that a rank has. -/
def tupleVals (r : ℕ) : LocalIValue :=
  if r = 0 then .tuple [.tensor (some ⟨.FLOAT, [1, 1], true, [5], by decide⟩),
    .tensorList [some (lossTensor .FLOAT 2)]]
  else if r = 1 then .tuple [.tensor (some ⟨.FLOAT, [1, 1], true, [7], by decide⟩),
    .tensorList [some (lossTensor .FLOAT 4)]]
  else .scalar .none

theorem related_tupleVals : ∀ s ∈ tupleRoute.sources, tupleWhole.Related
    (Whole.PartOf 2 0 tupleRoute.sources.toFinset s) (tupleVals s) := by
  intro s hs
  have hsum : s = 0 ∨ s = 1 := by simpa [tupleRoute] using hs
  have hparts : (Whole.batch pairOfRows).PartOf 2 0 tupleRoute.sources.toFinset 0
      (some ⟨.FLOAT, [1, 1], true, [5], by decide⟩) ∧
      (Whole.batch pairOfRows).PartOf 2 0 tupleRoute.sources.toFinset 1
        (some ⟨.FLOAT, [1, 1], true, [7], by decide⟩) := by
    refine ⟨⟨rfl, rfl, by decide, by decide +kernel⟩, ⟨rfl, rfl, by decide, by decide +kernel⟩⟩
  rcases hsum with rfl | rfl
  · refine ⟨_, rfl, (relatedAll_iff _).mpr (.cons ⟨_, rfl, hparts.1⟩ (.cons ⟨_, rfl, ?_⟩ .nil))⟩
    exact .cons ⟨rfl, rfl, rfl⟩ .nil
  · refine ⟨_, rfl, (relatedAll_iff _).mpr (.cons ⟨_, rfl, hparts.2⟩ (.cons ⟨_, rfl, ?_⟩ .nil))⟩
    exact .cons ⟨rfl, rfl, rfl⟩ .nil

end Parts

end Rannc
