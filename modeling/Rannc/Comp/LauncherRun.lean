import Rannc.Comp.RowWise

/-!
# A run of the launcher

The launcher cuts the local batches into splits, gathers the rows of a split from all ranks and
hands them to the subgraphs, runs the pipeline, and hands the rows of the outputs back, where they
are put together again. With modules that work row by row, every rank gets what the modules make of
its own batch in one run.
-/
namespace Rannc

open Connector GraphLauncher IValue RoundRobin

section Assign

variable {A K V M : Type} [DecidableEq K] (key : A → K) (get : M → K → Option V)
  (set : M → K → V → M)

/-- Every key gets its value, if there is one, and no other key. -/
theorem foldlM_assign (hget : ∀ m k v k', get (set m k v) k' = if k = k' then some v else get m k')
    {f : A → Option (Option V)} {g : A → Option V} {l : List A}
    (hkeys : (l.map key).Nodup) (hf : ∀ a ∈ l, f a = some (g a)) (m : M)
    (hm : ∀ a ∈ l, get m (key a) = none) :
    ∃ m', l.foldlM (fun m a => (f a).map fun v => v.elim m (set m (key a))) m = some m' ∧
      (∀ a ∈ l, get m' (key a) = g a) ∧ ∀ k ∉ l.map key, get m' k = get m k := by
  induction l generalizing m with
  | nil => exact ⟨m, rfl, fun a ha => absurd ha List.not_mem_nil, fun k _ => rfl⟩
  | cons a l ih =>
    obtain ⟨hnot, hnodup⟩ := List.nodup_cons.mp hkeys
    have hfirst : ∀ k, get ((g a).elim m (set m (key a))) k =
        if key a = k then (g a).or (get m k) else get m k := by
      intro k
      cases g a with
      | none => simp
      | some v => simp [hget]
    obtain ⟨m', hfold, hall, hrest⟩ := ih hnodup (fun b hb => hf b (List.mem_cons_of_mem _ hb))
      ((g a).elim m (set m (key a))) fun b hb => by
        have hne : key a ≠ key b := fun heq => hnot (heq ▸ List.mem_map_of_mem hb)
        rw [hfirst, if_neg hne]
        exact hm b (List.mem_cons_of_mem _ hb)
    refine ⟨m', ?_, fun b hb => ?_, fun k hk => ?_⟩
    · rw [List.foldlM_cons, hf a List.mem_cons_self]
      exact hfold
    · cases List.mem_cons.mp hb with
      | inl heq =>
        subst heq
        rw [hrest _ hnot, hfirst, if_pos rfl, hm b List.mem_cons_self, Option.or_none]
      | inr hmem => exact hall b hmem
    · rw [List.map_cons, List.mem_cons, not_or] at hk
      rw [hrest k hk.2, hfirst, if_neg fun heq => hk.1 heq.symm]

end Assign

namespace GraphLauncher

/-- Undefined tensors are left out. Losses are averaged and other tensors put together. -/
def concatOrSumTensors (batch_size : ℕ) (tensors : List (Option (Tensor ℚ))) :
    Option (Option (Tensor ℚ)) := do
  let valid_tensors := tensors.reduceOption
  let t ← valid_tensors.head?
  if t.dim = [] then
    let losses ← valid_tensors.mapM fun t => if t.dim = [] then t.data.head? else none
    let loss ← sumDistLossTensors batch_size losses
    return some (lossTensor t.elem_type loss)
  else (Tensor.cat valid_tensors).map some

def concatOrSumTensorsInIValues (ivalues : List LocalIValue) (batch_size : ℕ) :
    Option LocalIValue :=
  aggregateTensorsInIValues (concatOrSumTensors batch_size) ivalues

section Launch

variable (garbage : RouteDP → SComm → ℕ → ℕ → ℚ) (route_type : RouteDP → IRType) (is_bwd : Bool)
  (world pipeline_num batch_size : ℕ)

/-- `local_split_batch_sizes` of a rank that has inputs: of all ranks if inputs are gathered, else
of the first. -/
def localSplitSizes (rank : ℕ) : List ℕ :=
  (getLocalSplitBatchSizes (splitBatchSizes pipeline_num batch_size) world rank).map Int.toNat

/-- What a rank sends of its inputs. -/
def sentInput (inputs : ℕ → IValueMap (IValue (Tensor ℚ))) (r : RouteDP) (split_index rank : ℕ) :
    Option LocalIValue :=
  if rank < world then
    (inputs rank r.location).map fun val =>
      (sliceOrWeightTensorsInIValue val (localSplitSizes world pipeline_num batch_size rank)
        split_index).transformTensorsInIValue some
  else some (.scalar .none)

/-- The type of a value between the subgraphs and the launcher is known. -/
def distributeTyped (r : RouteDP) (split_index : ℕ) (vals : ℕ → LocalIValue) (rank : ℕ) :
    Option LocalIValue := do
  let scomm := startSplit pipeline_num batch_size split_index
  guard (∀ p ∈ getRanksInRoute r, (vals p).isDistributed)
  doDistribute (garbage r scomm rank) r is_bwd scomm.batch_size split_index 0
    ((route_type r).setBatchSize scomm.batch_size) vals rank

def splitInput (inputs : ℕ → IValueMap (IValue (Tensor ℚ))) (split_index : ℕ) (r : RouteDP)
    (rank : ℕ) : Option LocalIValue := do
  let send_vals ← collect (getRanksInRoute r) (.scalar .none)
    (sentInput world pipeline_num batch_size inputs r split_index)
  distributeTyped garbage route_type is_bwd pipeline_num batch_size r split_index send_vals rank

/-- The first step of `compute`, on one rank for one split. -/
def splitInputs (in_routes : List RouteDP) (inputs : ℕ → IValueMap (IValue (Tensor ℚ)))
    (rank split_index : ℕ) : Option (String → IValueMap LocalIValue) :=
  in_routes.foldlM (fun split_inputs r =>
    (splitInput garbage route_type is_bwd world pipeline_num batch_size inputs split_index r
      rank).map fun in_val => (passOn (some in_val)).elim split_inputs fun in_val =>
        Function.update split_inputs r.dest_graph
          (Function.update (split_inputs r.dest_graph) r.location (some in_val))) fun _ _ => none

/-- The outputs of the splits over one route, as far as the rank got them, put together. -/
def mergeOutput (runs : ℕ → Connector LocalIValue) (r : RouteDP) (rank : ℕ) :
    Option (Option LocalIValue) := do
  let outs ← (List.range (actualPipelineNum pipeline_num batch_size)).mapM fun i =>
    distributeTyped garbage route_type is_bwd pipeline_num batch_size r i
      (fun p => ((runs p).values i r.source_graph r.location).getD (.scalar .none)) rank
  let loc_values := outs.takeWhile fun out => !out.isNone
  if loc_values.isEmpty then return none
  else (concatOrSumTensorsInIValues loc_values batch_size).map some

/-- The third step: the outputs are distributed and merged. -/
def mergeOutputs (out_routes : List RouteDP) (runs : ℕ → Connector LocalIValue) (rank : ℕ) :
    Option (IValueMap LocalIValue) :=
  out_routes.foldlM (fun ret r =>
    (mergeOutput garbage route_type is_bwd pipeline_num batch_size runs r rank).map fun merged =>
      merged.elim ret fun val => Function.update ret r.location (some val)) fun _ => none

end Launch

section Splits

variable {world pipeline_num batch_size local_size : ℕ}

theorem sum_splitBatchSizes (pipeline_num : ℕ) {batch_size : ℕ}
    (h : 0 < actualPipelineNum pipeline_num batch_size) :
    (splitBatchSizes pipeline_num batch_size).sum = batch_size := by
  have hsum := getSplitNumBatchSizes_take_sum batch_size
    (le_refl (actualPipelineNum pipeline_num batch_size))
  rw [List.take_of_length_le (getSplitNumBatchSizes_length _ _).le,
    min_eq_right (Nat.mod_lt _ h).le, Nat.div_add_mod] at hsum
  exact hsum

theorem localSplitSizes_eq {rank : ℕ} (hrank : rank < world) :
    localSplitSizes world pipeline_num batch_size rank =
      (List.range (actualPipelineNum pipeline_num batch_size)).map fun k =>
        dealt world ((splitBatchSizes pipeline_num batch_size).take k).sum
          ((splitBatchSizes pipeline_num batch_size).getD k 0) rank := by
  have hlen : (splitBatchSizes pipeline_num batch_size).length =
      actualPipelineNum pipeline_num batch_size := getSplitNumBatchSizes_length _ _
  refine List.ext_getElem? fun k => ?_
  rw [localSplitSizes, List.getElem?_map, getLocalSplitBatchSizes_getElem? hrank, Option.map_map,
    List.getElem?_map, ← hlen]
  by_cases hk : k < (splitBatchSizes pipeline_num batch_size).length
  · rw [List.getElem?_range hk, List.getElem?_eq_getElem hk, Option.map_some, Option.map_some,
      List.getD_eq_getElem _ _ hk]
    rfl
  · rw [List.getElem?_eq_none (not_lt.mp hk), List.getElem?_eq_none (by simpa using hk)]
    rfl

theorem length_localSplitSizes {rank : ℕ} (hrank : rank < world) :
    (localSplitSizes world pipeline_num batch_size rank).length =
      actualPipelineNum pipeline_num batch_size := by
  rw [localSplitSizes_eq hrank, List.length_map, List.length_range]

theorem sum_localSplitSizes {rank : ℕ} (hrank : rank < world)
    (hpos : 0 < actualPipelineNum pipeline_num (world * local_size)) :
    (localSplitSizes world pipeline_num (world * local_size) rank).sum = local_size := by
  have hsum := sum_splitBatchSizes pipeline_num hpos
  have hsplits := localSplits (splitBatchSizes pipeline_num (world * local_size))
    (show 1 ≤ world by omega)
  have hwhole := hsplits.whole (by rw [hsum]; exact Nat.dvd_mul_right _ _) rank hrank
  rw [hsum, Nat.mul_div_cancel_left _ (by omega)] at hwhole
  have hcast :
      ((localSplitSizes world pipeline_num (world * local_size) rank).map Nat.cast : List ℤ) =
      getLocalSplitBatchSizes (splitBatchSizes pipeline_num (world * local_size)) world rank := by
    rw [localSplitSizes, List.map_map]
    refine (List.map_congr_left fun bs hbs => ?_).trans (List.map_id _)
    exact Int.toNat_of_nonneg (hsplits.nonneg rank hrank bs hbs)
  rw [← hcast, ← Nat.cast_list_sum] at hwhole
  exact_mod_cast hwhole

/-- The ranks agree on how a split is cut. -/
def SplitsAgree (world pipeline_num batch_size : ℕ) : Prop :=
  ∀ k < actualPipelineNum pipeline_num batch_size, ∀ rank < world,
    SliceSizesAgree world batch_size (actualPipelineNum pipeline_num batch_size) k rank

theorem localSplitSizes_getD (hagree : SplitsAgree world pipeline_num batch_size) {k rank : ℕ}
    (hk : k < actualPipelineNum pipeline_num batch_size) (hrank : rank < world) :
    (localSplitSizes world pipeline_num batch_size rank).getD k 0 =
      share (startSplit pipeline_num batch_size k).batch_size (Finset.range world) k rank := by
  have h := hagree k hk rank hrank
  unfold SliceSizesAgree at h
  dsimp only at h
  rw [List.getD_eq_getElem?_getD, localSplitSizes, List.getElem?_map]
  change Option.getD (Option.map _ (getLocalSplitBatchSizes (getSplitNumBatchSizes batch_size
    (actualPipelineNum pipeline_num batch_size)) world rank)[k]?) 0 = _
  rw [h, share]
  change Option.getD (Option.map Int.toNat (Option.map Nat.cast ((getSplitBatchSizes
    (startSplit pipeline_num batch_size k).batch_size (Finset.range world) k).lookup rank))) 0 = _
  cases (getSplitBatchSizes (startSplit pipeline_num batch_size k).batch_size (Finset.range world)
    k).lookup rank with
  | none => rfl
  | some n => rfl

theorem shareStart_range {bs k rank : ℕ} (hrank : rank < world) :
    shareStart bs (Finset.range world) k rank =
      Blocks.start ((List.range world).map (share bs (Finset.range world) k)) rank := by
  have hidx : (List.range world).idxOf rank = rank := by
    have hlt : rank < (List.range world).length := by simpa using hrank
    have h := List.nodup_range.idxOf_getElem rank hlt
    rwa [List.getElem_range] at h
  rw [shareStart, sortRanks_range, hidx]

/-- The rows of a rank of the global batch. -/
def rankBatch (local_size rank : ℕ) (t : Tensor ℚ) : Tensor ℚ :=
  t.slice (rank * local_size) (rank * local_size + local_size)

/-- What the ranks cut out of their batches for a split. -/
def splitParts (world pipeline_num local_size k : ℕ) (t : Tensor ℚ) : List (Tensor ℚ) :=
  (List.range world).map fun rank =>
    sliceOrWeight (localSplitSizes world pipeline_num (world * local_size) rank) k
      (rankBatch local_size rank t)

/-- The rows of a split. -/
def splitTensor (world pipeline_num local_size k : ℕ) (t : Tensor ℚ) : Tensor ℚ :=
  ((Tensor.cat (splitParts world pipeline_num local_size k t)).getD t).setRequiresGrad
    t.requires_grad

/-- Where a split starts in the batch of a rank. -/
def firstSample (world pipeline_num batch_size k rank : ℕ) : ℕ :=
  ((localSplitSizes world pipeline_num batch_size rank).take k).sum

theorem slice_eq_samples {t : Tensor ℚ} {bs : ℕ} (hb : 0 < bs) (hrows : t.dim.head? = some bs)
    (first n : ℕ) : t.slice first (first + n) = t.samples bs first n := by
  obtain ⟨rest, hdim⟩ := List.head?_eq_some_iff.mp hrows
  have hone : t.rows / bs = 1 := by simp [Tensor.rows, hdim, Nat.div_self hb]
  unfold Tensor.samples
  dsimp only
  rw [hone, one_mul, one_mul]

theorem firstSample_add_le {k rank : ℕ}
    (hk : k < actualPipelineNum pipeline_num (world * local_size)) (hrank : rank < world) :
    firstSample world pipeline_num (world * local_size) k rank +
        (localSplitSizes world pipeline_num (world * local_size) rank).getD k 0 ≤ local_size := by
  have hlen : k < (localSplitSizes world pipeline_num (world * local_size) rank).length := by
    rwa [length_localSplitSizes hrank]
  exact (getD_add_le_sum hlen).trans (sum_localSplitSizes hrank (by omega)).le

variable (world pipeline_num batch_size) in
theorem sliceOrWeight_eq_samples {t : Tensor ℚ} (hlocal : 0 < local_size)
    (hrows : t.dim.head? = some local_size) (k rank : ℕ) :
    sliceOrWeight (localSplitSizes world pipeline_num batch_size rank) k t =
      t.samples local_size (firstSample world pipeline_num batch_size k rank)
        ((localSplitSizes world pipeline_num batch_size rank).getD k 0) := by
  unfold sliceOrWeight
  rw [if_neg fun hnil => by simp [hnil] at hrows]
  exact slice_eq_samples hlocal hrows _ _

section Tensors

variable {t : Tensor ℚ} {rest : List ℕ} (hdim : t.dim = world * local_size :: rest)
  (hlocal : 0 < local_size)

include hdim hlocal

theorem rankBatch_spec {rank : ℕ} (hrank : rank < world) :
    (rankBatch local_size rank t).elem_type = t.elem_type ∧
      (rankBatch local_size rank t).requires_grad = t.requires_grad ∧
      (rankBatch local_size rank t).dim = local_size :: rest := by
  have hb : 0 < world * local_size := Nat.mul_pos (by omega) hlocal
  have hle : rank * local_size + local_size ≤ world * local_size := by
    rw [← Nat.succ_mul]
    exact Nat.mul_le_mul_right _ hrank
  have hsamples := slice_eq_samples hb (by rw [hdim]; rfl) (rank * local_size) local_size
  have hdim' : t.dim = 1 * (world * local_size) :: rest := by rw [one_mul, hdim]
  obtain ⟨helem, hgrad, hsdim, -⟩ := Tensor.samples_spec hb hdim' hle
  rw [rankBatch, hsamples]
  exact ⟨helem, hgrad, by rw [hsdim, one_mul]⟩

/-- A split has the samples of all ranks, one rank after another. -/
theorem splitTensor_spec (hagree : SplitsAgree world pipeline_num (world * local_size)) {k : ℕ}
    (hworld : 0 < world) (hk : k < actualPipelineNum pipeline_num (world * local_size)) :
    let bs := (startSplit pipeline_num (world * local_size) k).batch_size
    let u := splitTensor world pipeline_num local_size k t
    u.elem_type = t.elem_type ∧ u.requires_grad = t.requires_grad ∧ u.dim = bs :: rest ∧
      ∀ rank < world, u.samples bs (shareStart bs (Finset.range world) k rank)
          (share bs (Finset.range world) k rank) =
        sliceOrWeight (localSplitSizes world pipeline_num (world * local_size) rank) k
          (rankBatch local_size rank t) := by
  intro bs u
  have hpart : ∀ rank < world,
      (sliceOrWeight (localSplitSizes world pipeline_num (world * local_size) rank) k
        (rankBatch local_size rank t)).elem_type = t.elem_type ∧
      (sliceOrWeight (localSplitSizes world pipeline_num (world * local_size) rank) k
        (rankBatch local_size rank t)).requires_grad = t.requires_grad ∧
      (sliceOrWeight (localSplitSizes world pipeline_num (world * local_size) rank) k
        (rankBatch local_size rank t)).dim =
          share bs (Finset.range world) k rank :: rest := by
    intro rank hrank
    obtain ⟨helem, hgrad, hrdim⟩ := rankBatch_spec hdim hlocal hrank
    have hslice := sliceOrWeight_eq_samples world pipeline_num (world * local_size) hlocal
      (show (rankBatch local_size rank t).dim.head? = some local_size by rw [hrdim]; rfl) k rank
    have hrdim' : (rankBatch local_size rank t).dim = 1 * local_size :: rest := by
      rw [one_mul, hrdim]
    obtain ⟨helem', hgrad', hsdim, -⟩ := Tensor.samples_spec hlocal hrdim'
      (firstSample_add_le hk hrank)
    rw [hslice, ← localSplitSizes_getD hagree hk hrank]
    exact ⟨helem'.trans helem, hgrad'.trans hgrad, by rw [hsdim, one_mul]⟩
  have hne : splitParts world pipeline_num local_size k t ≠ [] := by
    simpa [splitParts] using hworld.ne'
  have hparts : ∀ p ∈ splitParts world pipeline_num local_size k t,
      p.elem_type = t.elem_type ∧ ∃ n, p.dim = n :: rest := by
    intro p hp
    obtain ⟨rank, hrank, rfl⟩ := List.mem_map.mp hp
    obtain ⟨helem, -, hpdim⟩ := hpart rank (List.mem_range.mp hrank)
    exact ⟨helem, _, hpdim⟩
  obtain ⟨v, hcat, helem, hvdim, -, hdata⟩ := Tensor.cat_spec hne hparts
  have hrows : ((splitParts world pipeline_num local_size k t).map Tensor.rows).sum = bs := by
    have hshares := sum_shares bs (Finset.range world) k ⟨0, Finset.mem_range.mpr hworld⟩
    rw [sortRanks_range] at hshares
    rw [splitParts, List.map_map]
    refine (congrArg List.sum (List.map_congr_left fun rank hrank => ?_)).trans hshares
    simp [Tensor.rows, (hpart rank (List.mem_range.mp hrank)).2.2, share]
  have hu : u = v.setRequiresGrad t.requires_grad := by
    change ((Tensor.cat (splitParts world pipeline_num local_size k t)).getD t).setRequiresGrad
      t.requires_grad = _
    rw [hcat, Option.getD_some]
  have hudim : u.dim = bs :: rest := by
    rw [hu]
    exact hvdim.trans (by rw [hrows])
  refine ⟨by rw [hu]; exact helem, by rw [hu]; rfl, hudim, fun rank hrank => ?_⟩
  have hb : 0 < bs := one_le_splitBatchSizes hk
  have hudim' : u.dim = 1 * bs :: rest := by rw [one_mul, hudim]
  obtain ⟨helem', hgrad', hsdim, hsdata⟩ := Tensor.samples_spec hb hudim'
    (shareStart_add_share_le (Finset.mem_range.mpr hrank))
  obtain ⟨hpelem, hpgrad, hpdim⟩ := hpart rank hrank
  refine Tensor.ext (helem'.trans ?_) (hsdim.trans ?_) (hgrad'.trans ?_) (hsdata.trans ?_)
  · rw [hpelem, hu]
    exact helem
  · rw [hpdim, one_mul]
  · rw [hpgrad, hu]
    rfl
  · -- the block of the rank in the concatenation
    have hbufs : ((splitParts world pipeline_num local_size k t).map Tensor.data).map List.length =
        (List.range world).map fun rank =>
          share bs (Finset.range world) k rank * productDim rest := by
      rw [splitParts, List.map_map, List.map_map]
      refine List.map_congr_left fun rank hrank => ?_
      rw [Function.comp_apply, Function.comp_apply, Tensor.length_data,
        (hpart rank (List.mem_range.mp hrank)).2.2, productDim, List.prod_cons, ← productDim]
    have hblock := Blocks.slice_flatten ((splitParts world pipeline_num local_size k t).map
      Tensor.data) _ hbufs (j := rank) (by simpa [splitParts] using hrank) (by simpa using hrank)
    have hstart : Blocks.start ((List.range world).map fun rank =>
        share bs (Finset.range world) k rank * productDim rest) rank =
          shareStart bs (Finset.range world) k rank * productDim rest := by
      rw [shareStart_range hrank, Blocks.start, Blocks.start, ← List.map_take, ← List.map_take,
        List.sum_map_mul_right]
    have hudata : u.data = ((splitParts world pipeline_num local_size k t).map
        Tensor.data).flatten := by
      rw [hu, ← List.flatMap_def]
      exact hdata
    rw [hudata, one_mul, one_mul, ← hstart]
    refine Eq.trans ?_ (hblock.trans ?_)
    · simp [Blocks.slice, Rannc.slice]
    · simp [splitParts]

end Tensors

end Splits

section Ranks

variable {garbage : RouteDP → SComm → ℕ → ℕ → ℚ} {route_type : RouteDP → IRType}
  {batch_size split_index rank : ℕ} {ranks : Finset ℕ} {w : IValue (Tensor ℚ)} {v : LocalIValue}

theorem rankHas_iff : RankHas batch_size split_index ranks rank w v ↔
    (w.transformTensorsInIValue Whole.batch).Related
      (Whole.HeldBy batch_size split_index ranks rank) v :=
  related_transform_left.symm

theorem isNone_transform {T U : Type} (f : T → U) (v : IValue T) :
    (v.transformTensorsInIValue f).isNone = v.isNone := by
  cases v with
  | scalar x => cases x <;> rfl
  | _ => rfl

theorem passOn_map {T U : Type} (f : T → U) (v : Option (IValue T)) :
    passOn (v.map (transformTensorsInIValue f)) =
      (passOn v).map (transformTensorsInIValue f) := by
  cases v with
  | none => rfl
  | some v =>
    unfold passOn
    rw [Option.map_some, Option.filter_some, Option.filter_some, isNone_transform]
    split_ifs <;> rfl

theorem distributable_transform {T : Type} {v : IValue T} (f g : T → Whole) :
    Distributable (v.transformTensorsInIValue f) ↔
      Distributable (v.transformTensorsInIValue g) := by
  induction v using IValue.induction with
  | tensor t => rfl
  | tensorList ts => simp [transformTensorsInIValue, Distributable]
  | scalarList l => rfl
  | list elem_type elems ih => rfl
  | tuple elems ih =>
    simp only [transformTensorsInIValue, transformAll_eq, Distributable, distributableAll_iff,
      List.forall_mem_map]
    exact forall₂_congr ih
  | scalar x => rfl

theorem distributeCalls_rankHas {scomm : SComm} {k : ℕ} {r : RouteDP} (hb : 1 ≤ scomm.batch_size)
    (hk : scomm.split_index = k) (hne : r.sources ≠ []) {w : Option (IValue (Tensor ℚ))}
    (hw : ∀ x, w = some x → Distributable (x.transformTensorsInIValue Whole.batch))
    {vals : String → ℕ → IValueMap LocalIValue}
    (hvals : ∀ p ∈ r.sources, Option.Rel (RankHas scomm.batch_size k r.sources.toFinset p) w
      (vals r.source_graph p r.location)) {q : ℕ} (hq : q ∈ r.dests) :
    Option.Rel (RankHas scomm.batch_size k r.dests.toFinset q) (passOn w)
      (distributeCalls garbage false r (handedOver scomm k vals r) scomm q) := by
  have hlift : ∀ {ranks : Finset ℕ} {p : ℕ} {x : Option (IValue (Tensor ℚ))}
      {y : Option LocalIValue}, Option.Rel (RankHas scomm.batch_size k ranks p) x y ↔
        Option.Rel (Related (Whole.HeldBy scomm.batch_size k ranks p))
          (x.map (transformTensorsInIValue Whole.batch)) y := by
    intro ranks p x y
    rw [optionRel_map_left]
    simp only [related_transform_left]
    rfl
  rw [hlift, ← passOn_map]
  refine distributeCalls_related hb hk hne (fun x hx => ?_) (fun p hp => hlift.mp (hvals p hp)) hq
  obtain ⟨y, hy, rfl⟩ := Option.map_eq_some_iff.mp hx
  refine ⟨hw y hy, fun x hx => ?_⟩
  obtain ⟨t, -, rfl⟩ := mem_tensors_transform.mp hx
  exact ⟨t, rfl⟩

/-- What is passed on over a route from or to the launcher. -/
theorem distributeTyped_rankHas {pipeline_num k : ℕ} {r : RouteDP}
    (hk : k < actualPipelineNum pipeline_num batch_size) (hne : r.sources ≠ [])
    (hw : Distributable (w.transformTensorsInIValue Whole.batch))
    (htype : dropLossGrad
        ((route_type r).setBatchSize (startSplit pipeline_num batch_size k).batch_size) =
      wholeType (w.transformTensorsInIValue Whole.batch)) {vals : ℕ → LocalIValue}
    (hvals : ∀ p ∈ r.sources, RankHas (startSplit pipeline_num batch_size k).batch_size k
      r.sources.toFinset p w (vals p))
    (hothers : ∀ p ∈ r.dests, p ∉ r.sources → vals p = .scalar .none) (q : ℕ) :
    ∃ v, distributeTyped garbage route_type false pipeline_num batch_size r k vals q = some v ∧
      (q ∈ r.dests → RankHas (startSplit pipeline_num batch_size k).batch_size k r.dests.toFinset q
        w v) ∧
      (q ∉ r.dests → v = .scalar .none) := by
  have hb := one_le_splitBatchSizes hk
  obtain ⟨p, hp⟩ := List.exists_mem_of_ne_nil _ hne
  have hfits : ∀ x ∈ (w.transformTensorsInIValue Whole.batch).tensors,
      x.Fits (startSplit pipeline_num batch_size k).batch_size :=
    (rankHas_iff.mp (hvals p hp)).forall_tensors fun _ _ h => h.1
  have hsources : ∀ s ∈ r.sources, (w.transformTensorsInIValue Whole.batch).Related
      (Whole.PartOf (startSplit pipeline_num batch_size k).batch_size (k - 0) r.sources.toFinset s)
      (vals s) := fun s hs => (rankHas_iff.mp (hvals s hs)).imp fun _ _ h => h.2
  have hguard : ∀ p ∈ getRanksInRoute r, (vals p).isDistributed := by
    intro p hp
    by_cases hs : p ∈ r.sources
    · exact isDistributed_of_related hw (hsources p hs)
    · rw [hothers p ((mem_getRanksInRoute.mp hp).resolve_left hs) hs]
      rfl
  obtain ⟨v, hv, hdest, hrest⟩ := distributes hb hne hw hfits
    _ vals htype hsources hothers q
  refine ⟨v, ?_, fun hq => rankHas_iff.mpr ?_, hrest⟩
  · unfold distributeTyped
    rw [guard, if_pos hguard]
    exact hv
  · have hrel := hdest hq
    rw [transform_distributed fun x hx => (mem_tensors_transform.mp hx).imp fun t ht => ht.2.symm]
      at hrel
    exact hrel.imp_of_mem fun x hx u h => ⟨hfits x hx, h⟩

end Ranks

/-- Slices of a batch that are put together are the batch. -/
theorem concatOrSum_slices {v : IValue (Tensor ℚ)} {sizes : List ℕ} (hne : sizes ≠ [])
    (hrows : ∀ t ∈ v.tensors, t.dim.head? = some sizes.sum) (batch_size : ℕ) :
    concatOrSumTensorsInIValues ((List.range sizes.length).map fun k =>
        (sliceOrWeightTensorsInIValue v sizes k).transformTensorsInIValue some) batch_size =
      some (v.transformTensorsInIValue fun t => some t.detach) := by
  have hlift : ∀ k, (sliceOrWeightTensorsInIValue v sizes k).transformTensorsInIValue some =
      (v.transformTensorsInIValue some).transformTensorsInIValue
        (Option.map (sliceOrWeight sizes k)) := by
    intro k
    rw [sliceOrWeightTensorsInIValue, transform_transform, transform_transform]
    rfl
  have hdetach : (v.transformTensorsInIValue fun t => some t.detach) =
      (v.transformTensorsInIValue some).transformTensorsInIValue (Option.map Tensor.detach) := by
    rw [transform_transform]
    rfl
  obtain ⟨n, hn⟩ := Nat.exists_eq_succ_of_ne_zero (mt List.eq_nil_of_length_eq_zero hne)
  have hrange : List.range sizes.length = 0 :: (List.range n).map Nat.succ := by
    rw [hn, List.range_succ_eq_map]
  simp only [hlift]
  rw [hdetach, concatOrSumTensorsInIValues, hrange, List.map_cons, aggregateTensorsInIValues]
  refine aggregate_transform (g := fun k => Option.map (sliceOrWeight sizes k))
    (h := Option.map Tensor.detach) 0 ((List.range n).map Nat.succ)
    (v.transformTensorsInIValue some) fun u hu => ?_
  obtain ⟨t, ht, rfl⟩ := mem_tensors_transform.mp hu
  rw [← hrange]
  have hcat := cat_slices hne (hrows t ht)
  have hvalid : ((List.range sizes.length).map fun k =>
      Option.map (sliceOrWeight sizes k) (some t)).reduceOption =
        (List.range sizes.length).map fun k => sliceOrWeight sizes k t := by
    change List.filterMap id _ = _
    rw [List.filterMap_map]
    exact congrFun (List.filterMap_eq_map (f := fun k => sliceOrWeight sizes k t)) _
  have hdim : (sliceOrWeight sizes 0 t).dim ≠ [] := by
    rw [(sliceOrWeight_of_rows (hrows t ht) (show 0 < sizes.length by omega)).1]
    exact List.cons_ne_nil _ _
  unfold concatOrSumTensors
  dsimp only
  rw [hvalid, hcat, hrange]
  change (if (sliceOrWeight sizes 0 t).dim = [] then _ else _) = _
  rw [if_neg hdim]
  rfl

section Run

variable (d : Deployment) (in_routes out_routes : List RouteDP) (route_type : RouteDP → IRType)
  (world local_size : ℕ) (input_names : String → List String)
  (module : String → List (String × IValue (Tensor ℚ)) → List (IValueLocation × IValue (Tensor ℚ)))
  (func : ℕ → String → List (String × LocalIValue) → ℕ → List (IValueLocation × LocalIValue))
  (batch : IValueMap (IValue (Tensor ℚ)))

/-- What a rank calls the launcher with. -/
def rankInputs (rank : ℕ) : IValueMap (IValue (Tensor ℚ)) := fun loc =>
  (batch loc).map (transformTensorsInIValue (rankBatch local_size rank))

/-- The rows of a split of all ranks. -/
def splitBatch (pipeline_num k : ℕ) : IValueMap (IValue (Tensor ℚ)) := fun loc =>
  (batch loc).map (transformTensorsInIValue (splitTensor world pipeline_num local_size k))

/-- The places that inputs are routed to. -/
def routedTo (vals : IValueMap (IValue (Tensor ℚ))) (g : String) : IValueMap (IValue (Tensor ℚ)) :=
  fun loc =>
    if ∃ r ∈ in_routes, r.dest_graph = g ∧ r.location = loc then passOn (vals loc) else none

/-- The modules of the subgraphs, run once each on some inputs. -/
def moduleValues (vals : IValueMap (IValue (Tensor ℚ))) : String → IValueMap (IValue (Tensor ℚ)) :=
  wholeValues d false (moduleDriver input_names module) passOn 0 (routedTo in_routes vals)

/-- A tensor of the global batch has a row for each sample. -/
def BatchTensor (pipeline_num : ℕ) (t : Tensor ℚ) : Prop :=
  t.elem_type ≠ .UNDEF ∧ ∃ rest, t.dim = world * local_size :: rest ∧ 0 < productDim rest ∧
    local_size * productDim rest < INT_MAX ∧
    ∀ k < actualPipelineNum pipeline_num (world * local_size),
      (startSplit pipeline_num (world * local_size) k).batch_size * productDim rest < INT_MAX

/-- The size of a split of the pipeline. -/
def splitSize (pipeline_num batch_size k : ℕ) : ℕ :=
  (startSplit pipeline_num batch_size k).batch_size

/-- The type with the size of a split is that of the value. -/
def HasType (type : IRType) (batch_size : ℕ) (w : IValue (Tensor ℚ)) : Prop :=
  dropLossGrad (type.setBatchSize batch_size) = wholeType (w.transformTensorsInIValue Whole.batch)

/-- The launcher and the subgraphs pass on batches, and the modules work row by row. -/
structure LaunchesRows : Prop where
  in_nodup : (in_routes.map fun r => (r.dest_graph, r.location)).Nodup
  in_sources : ∀ r ∈ in_routes, ∀ rank, rank ∈ r.sources ↔ rank < world
  in_dests : ∀ r ∈ in_routes, ∀ rank, rank ∈ r.dests ↔ rank ∈ d.allocation r.dest_graph
  out_nodup : (out_routes.map RouteDP.location).Nodup
  out_mem : ∀ r ∈ out_routes, r.source_graph ∈ d.graphs false
  out_sources : ∀ r ∈ out_routes, ∀ rank, rank ∈ r.sources ↔ rank ∈ d.allocation r.source_graph
  out_dests : ∀ r ∈ out_routes, ∀ rank, rank ∈ r.dests ↔ rank < world
  ranks : ∀ g ∈ d.graphs false, (d.allocation g).Nonempty
  rows : ∀ k < actualPipelineNum d.pipeline_num (world * local_size),
    world ≤ splitSize d.pipeline_num (world * local_size) k ∧ ∀ g ∈ d.graphs false,
      (d.allocation g).card ≤ splitSize d.pipeline_num (world * local_size) k
  rowwise : ∀ g ∈ d.graphs false, RowWise local_size (module g) ∧
    ∀ k < actualPipelineNum d.pipeline_num (world * local_size),
      RowWise (splitSize d.pipeline_num (world * local_size) k) (module g)
  func : ∀ rank, ∀ g ∈ d.graphs false, ∀ k vals,
    func rank g (mapValues some vals) k = mapValues some (module g vals)
  inputs : ∀ r ∈ in_routes, ∃ v, batch r.location = some v ∧
    Distributable (v.transformTensorsInIValue Whole.batch) ∧
    (∀ t ∈ v.tensors, BatchTensor world local_size d.pipeline_num t) ∧
    ∀ k < actualPipelineNum d.pipeline_num (world * local_size),
      HasType (route_type r) (splitSize d.pipeline_num (world * local_size) k)
        (v.transformTensorsInIValue (splitTensor world d.pipeline_num local_size k))
  routable : ∀ k < actualPipelineNum d.pipeline_num (world * local_size), ∀ r ∈ d.routes false,
    ∀ w, moduleValues d in_routes input_names module
        (splitBatch world local_size batch d.pipeline_num k) r.source_graph r.location = some w →
      Distributable (w.transformTensorsInIValue Whole.batch)
  outputs : ∀ k < actualPipelineNum d.pipeline_num (world * local_size), ∀ r ∈ out_routes,
    ∃ w, moduleValues d in_routes input_names module
        (splitBatch world local_size batch d.pipeline_num k) r.source_graph r.location = some w ∧
      w.isNone = false ∧ Distributable (w.transformTensorsInIValue Whole.batch) ∧
      HasType (route_type r) (splitSize d.pipeline_num (world * local_size) k) w
  out_rows : ∀ rank < world, ∀ r ∈ out_routes, ∀ v,
    moduleValues d in_routes input_names module (rankInputs local_size batch rank) r.source_graph
      r.location = some v → ∀ t ∈ v.tensors, t.dim.head? = some local_size

variable {d in_routes out_routes route_type world local_size input_names module func batch}
  {garbage : RouteDP → SComm → ℕ → ℕ → ℚ} {k : ℕ}

section Launches

variable (h : LaunchesRows d in_routes out_routes route_type world local_size input_names module
    func batch) (hworld : 0 < world) (hlocal : 0 < local_size)
  (hagree : SplitsAgree world d.pipeline_num (world * local_size))
  (hk : k < actualPipelineNum d.pipeline_num (world * local_size))

include hworld hlocal hagree hk

theorem splitTensor_fits {t : Tensor ℚ} (ht : BatchTensor world local_size d.pipeline_num t) :
    (Whole.batch (splitTensor world d.pipeline_num local_size k t)).Fits
      (splitSize d.pipeline_num (world * local_size) k) := by
  obtain ⟨helem, rest, hdim, hpos, -, hmax⟩ := ht
  obtain ⟨helem', -, hsdim, -⟩ := splitTensor_spec hdim hlocal hagree hworld hk
  refine ⟨helem'.trans_ne helem, ⟨1, rest, by rw [hsdim, one_mul]; rfl⟩, ?_, ?_⟩
  · rw [hsdim, productDim, List.prod_cons]
    exact Nat.mul_pos (one_le_splitBatchSizes hk) hpos
  · rw [hsdim, productDim, List.prod_cons]
    exact hmax k hk

omit hworld hagree hk in
theorem rankBatch_fits {t : Tensor ℚ} (ht : BatchTensor world local_size d.pipeline_num t)
    {rank : ℕ} (hrank : rank < world) :
    (Whole.batch (rankBatch local_size rank t)).Fits local_size := by
  obtain ⟨helem, rest, hdim, hpos, hmax, -⟩ := ht
  obtain ⟨helem', -, hrdim⟩ := rankBatch_spec hdim hlocal hrank
  refine ⟨helem'.trans_ne helem, ⟨1, rest, by rw [hrdim, one_mul]⟩, ?_, ?_⟩
  · rw [hrdim, productDim, List.prod_cons]
    exact Nat.mul_pos hlocal hpos
  · rw [hrdim, productDim, List.prod_cons]
    exact hmax

include h

theorem rankHas_sent {v : IValue (Tensor ℚ)}
    (hv : ∀ t ∈ v.tensors, BatchTensor world local_size d.pipeline_num t) {rank : ℕ}
    (hrank : rank < world) :
    RankHas (splitSize d.pipeline_num (world * local_size) k) k (Finset.range world) rank
      (v.transformTensorsInIValue (splitTensor world d.pipeline_num local_size k))
      ((sliceOrWeightTensorsInIValue (v.transformTensorsInIValue (rankBatch local_size rank))
        (localSplitSizes world d.pipeline_num (world * local_size) rank) k).transformTensorsInIValue
          some) := by
  have hmem : rank ∈ Finset.range world := Finset.mem_range.mpr hrank
  have hcard : (Finset.range world).card ≤ splitSize d.pipeline_num (world * local_size) k := by
    rw [Finset.card_range]
    exact (h.rows k hk).1
  rw [sliceOrWeightTensorsInIValue, transform_transform, transform_transform]
  refine related_transform_left.mpr (related_transform_self fun t ht => ?_)
  refine (heldBy_batch_iff hmem hcard).mpr
    ⟨splitTensor_fits hworld hlocal hagree hk (hv t ht), ?_⟩
  obtain ⟨-, rest, hdim, -⟩ := hv t ht
  obtain ⟨-, -, -, hsamples⟩ := splitTensor_spec hdim hlocal hagree hworld hk
  exact congrArg some (hsamples rank hrank).symm

/-- One input reaches the ranks of its subgraph by rows. -/
theorem exists_splitInput {r : RouteDP} (hr : r ∈ in_routes) (q : ℕ) :
    ∃ v, splitInput garbage route_type false world d.pipeline_num (world * local_size)
        (rankInputs local_size batch) k r q = some v ∧
      (q ∈ d.allocation r.dest_graph → ∃ w,
        splitBatch world local_size batch d.pipeline_num k r.location = some w ∧
        RankHas (splitSize d.pipeline_num (world * local_size) k) k (d.allocation r.dest_graph) q w
          v) ∧
      (q ∉ d.allocation r.dest_graph → v = .scalar .none) := by
  obtain ⟨v, hbatch, hdist, hrows, htype⟩ := h.inputs r hr
  have hsources : r.sources.toFinset = Finset.range world := by
    ext p
    rw [List.mem_toFinset, h.in_sources r hr, Finset.mem_range]
  have hdests : r.dests.toFinset = d.allocation r.dest_graph := by
    ext p
    rw [List.mem_toFinset, h.in_dests r hr]
  have hne : r.sources ≠ [] := List.ne_nil_of_mem ((h.in_sources r hr 0).mpr hworld)
  -- what the ranks of the route send
  obtain ⟨send_vals, hcollect, hsend⟩ := collect_eq
    (f := sentInput world d.pipeline_num (world * local_size) (rankInputs local_size batch) r k)
    (g := fun p => if p < world then
      (sliceOrWeightTensorsInIValue (v.transformTensorsInIValue (rankBatch local_size p))
        (localSplitSizes world d.pipeline_num (world * local_size) p)
        k).transformTensorsInIValue some
      else .scalar .none) (.scalar .none) fun p _ => by
    unfold sentInput rankInputs
    rw [hbatch]
    split_ifs
    · rfl
    · rfl
  have hshape : Distributable ((v.transformTensorsInIValue (splitTensor world d.pipeline_num
      local_size k)).transformTensorsInIValue Whole.batch) := by
    rw [transform_transform]
    exact (distributable_transform _ _).mp hdist
  have hvals : ∀ p ∈ r.sources, RankHas (splitSize d.pipeline_num (world * local_size) k) k
      r.sources.toFinset p
      (v.transformTensorsInIValue (splitTensor world d.pipeline_num local_size k))
      (send_vals p) := by
    intro p hp
    have hp' : p < world := (h.in_sources r hr p).mp hp
    rw [hsend p (mem_getRanksInRoute.mpr (Or.inl hp)), if_pos hp', hsources]
    exact rankHas_sent h hworld hlocal hagree hk hrows hp'
  have hothers : ∀ p ∈ r.dests, p ∉ r.sources → send_vals p = .scalar .none := by
    intro p hp hnot
    have hp' : ¬ p < world := fun hlt => hnot ((h.in_sources r hr p).mpr hlt)
    rw [hsend p (mem_getRanksInRoute.mpr (Or.inr hp)), if_neg hp']
  obtain ⟨res, hres, hdest, hother⟩ := distributeTyped_rankHas hk hne hshape
    (htype k hk) hvals hothers q
  refine ⟨res, ?_, fun hq => ⟨_, by rw [splitBatch, hbatch]; rfl, ?_⟩, fun hq => ?_⟩
  · unfold splitInput
    rw [hcollect]
    exact hres
  · rw [← hdests]
    exact hdest ((h.in_dests r hr q).mpr hq)
  · exact hother fun hq' => hq ((h.in_dests r hr q).mp hq')

/-- Every rank gets its rows of the inputs of its subgraph. -/
theorem exists_splitInputs (rank : ℕ) :
    ∃ split_inputs, splitInputs garbage route_type false world d.pipeline_num (world * local_size)
        in_routes (rankInputs local_size batch) rank k = some split_inputs ∧
      (∀ g, rank ∈ d.allocation g → ∀ loc, Option.Rel
        (RankHas (splitSize d.pipeline_num (world * local_size) k) k (d.allocation g) rank)
        (routedTo in_routes (splitBatch world local_size batch d.pipeline_num k) g loc)
        (split_inputs g loc)) ∧
      ∀ g, rank ∉ d.allocation g → ∀ loc, split_inputs g loc = none := by
  let f : RouteDP → Option (Option LocalIValue) := fun r =>
    (splitInput garbage route_type false world d.pipeline_num (world * local_size)
      (rankInputs local_size batch) k r rank).map
      fun in_val => passOn (some in_val)
  have hf : ∀ r ∈ in_routes, f r = some ((f r).getD none) := by
    intro r hr
    obtain ⟨v, hv, -⟩ := exists_splitInput h hworld hlocal hagree hk hr rank
    change (Option.map _ (splitInput ..)) = some ((Option.map _ (splitInput ..)).getD none)
    rw [hv]
    rfl
  obtain ⟨split_inputs, hfold, hall, hrest⟩ := foldlM_assign
    (fun r : RouteDP => (r.dest_graph, r.location))
    (fun (m : String → IValueMap LocalIValue) place => m place.1 place.2)
    (fun m place v => Function.update m place.1 (Function.update (m place.1) place.2 (some v)))
    (fun m place v place' => by
        by_cases hg : place.1 = place'.1
        · by_cases hloc : place.2 = place'.2
          · rw [if_pos (Prod.ext hg hloc), ← hg, ← hloc, Function.update_self, Function.update_self]
          · rw [if_neg fun heq => hloc (congrArg Prod.snd heq), ← hg, Function.update_self,
              Function.update_of_ne (Ne.symm hloc)]
        · rw [if_neg fun heq => hg (congrArg Prod.fst heq), Function.update_of_ne (Ne.symm hg)])
    h.in_nodup hf (fun _ _ => none) fun _ _ => rfl
  refine ⟨split_inputs, ?_, fun g hg loc => ?_, fun g hg loc => ?_⟩
  · rw [← hfold]
    unfold splitInputs
    refine congrArg (List.foldlM · _ in_routes) (funext fun m => funext fun r => ?_)
    change _ = Option.map _ (Option.map _ _)
    rw [Option.map_map]
    rfl
  · unfold routedTo
    split_ifs with hroute
    · obtain ⟨r, hr, rfl, rfl⟩ := hroute
      obtain ⟨v, hv, hhas, -⟩ := exists_splitInput h hworld hlocal hagree hk hr
        rank
      obtain ⟨w, hw, hwv⟩ := hhas hg
      have hval : split_inputs r.dest_graph r.location = passOn (some v) := by
        refine (hall r hr).trans ?_
        change (Option.map _ (splitInput ..)).getD none = _
        rw [hv]
        rfl
      rw [hval, hw]
      unfold passOn
      rw [Option.filter_some, Option.filter_some, isNone_of_related hwv]
      split_ifs
      · exact .some hwv
      · exact .none
    · have hnone : split_inputs g loc = none := by
        refine hrest (g, loc) fun hmem => hroute ?_
        obtain ⟨r, hr, heq⟩ := List.mem_map.mp hmem
        exact ⟨r, hr, congrArg Prod.fst heq, congrArg Prod.snd heq⟩
      rw [hnone]
      exact .none
  · by_cases hroute : (g, loc) ∈ in_routes.map fun r => (r.dest_graph, r.location)
    · obtain ⟨r, hr, heq⟩ := List.mem_map.mp hroute
      obtain ⟨rfl, rfl⟩ := Prod.mk.inj heq
      obtain ⟨v, hv, -, hother⟩ := exists_splitInput h hworld hlocal hagree hk
        hr rank
      refine (hall r hr).trans ?_
      change (Option.map _ (splitInput ..)).getD none = _
      rw [hv, hother hg]
      rfl
    · exact hrest (g, loc) hroute

/-- What a rank has after the run are its rows of a run on the split. -/
theorem run_rankHas (hd : d.RoutedOnce false) (hnodup : d.subgraphs.Nodup)
    (hdisjoint : ∀ g ∈ d.subgraphs, ∀ g' ∈ d.subgraphs, g ≠ g' →
      Disjoint (d.allocation g) (d.allocation g'))
    (hdelay : ∀ r ∈ d.routes false, getDelay (d.graph_order false) r = 0 ∨
      d.pipeline_num ≤ world * local_size ∧ d.pipeline_num ∣ world * local_size)
    {graph_inputs : ℕ → ℕ → String → IValueMap LocalIValue}
    (hinputs : ∀ rank, splitInputs garbage route_type false world d.pipeline_num
      (world * local_size) in_routes (rankInputs local_size batch) rank k =
        some (graph_inputs rank k))
    {history : ℕ → ℕ → Option (String → IValueMap LocalIValue)}
    {env : ℕ → Call LocalIValue → Option LocalIValue} {runs : ℕ → Connector LocalIValue}
    (hrun : Pipelined d false
      (fun rank => rankDriver false input_names (func rank) fun _ => false)
      (distributeCalls garbage false) (world * local_size) graph_inputs history env runs)
    {g : String} (hg : g ∈ d.graphs false) {rank : ℕ} (hrank : rank ∈ d.allocation g)
    (loc : IValueLocation) :
    Option.Rel (RankHas (splitSize d.pipeline_num (world * local_size) k) k (d.allocation g) rank)
      (moduleValues d in_routes input_names module
        (splitBatch world local_size batch d.pipeline_num k) g loc)
      ((runs rank).values k g loc) := by
  rw [hrun.values_eq hd hnodup hdisjoint hdelay hk hg hrank]
  refine sequentialValues_related (k := k)
    (R := fun g rank => RankHas (splitSize d.pipeline_num (world * local_size) k) k (d.allocation g)
      rank) hd (fun g hg rank hrank => ?_) (fun g hg rank hrank loc => ?_)
    (fun r hr vals hvals q hq => ?_) g hg rank hrank loc
  · exact moduleDriver_simulates_rank hrank ((h.rows k hk).2 g hg) ((h.rowwise g hg).2 k hk)
      (h.func rank g hg k) fun _ => false
  · obtain ⟨gi, hgi, hhas, -⟩ := exists_splitInputs h hworld hlocal hagree hk
      rank
    obtain rfl := Option.some.inj (hgi.symm.trans (hinputs rank))
    exact hhas g hrank loc
  · have hsources : r.sources.toFinset = d.allocation r.source_graph :=
      Finset.ext fun p => List.mem_toFinset.trans (hd.mem_sources r hr p)
    have hdests : r.dests.toFinset = d.allocation r.dest_graph :=
      Finset.ext fun p => List.mem_toFinset.trans (hd.mem_dests r hr p)
    have hne : r.sources ≠ [] := by
      rw [← List.toFinset_nonempty_iff, hsources]
      exact h.ranks _ (hd.source_mem r hr)
    rw [← hsources] at hvals
    rw [← hdests]
    exact distributeCalls_rankHas (one_le_splitBatchSizes hk) rfl hne
      (fun w hw => h.routable k hk r hr w hw) hvals hq

/-- A run on the batch of a rank and a run on a split have the samples of the rank in common. -/
theorem moduleValues_sameSamples (hd : d.Routed false) {rank : ℕ} (hrank : rank < world)
    {g : String} (hg : g ∈ d.graphs false) (loc : IValueLocation) :
    Option.Rel (SameSamples local_size (splitSize d.pipeline_num (world * local_size) k)
        (firstSample world d.pipeline_num (world * local_size) k rank)
        (shareStart (splitSize d.pipeline_num (world * local_size) k) (Finset.range world) k rank)
        (share (splitSize d.pipeline_num (world * local_size) k) (Finset.range world) k rank))
      (moduleValues d in_routes input_names module (rankInputs local_size batch rank) g loc)
      (moduleValues d in_routes input_names module
        (splitBatch world local_size batch d.pipeline_num k) g loc) := by
  have hmem : rank ∈ Finset.range world := Finset.mem_range.mpr hrank
  have hcard : (Finset.range world).card ≤ splitSize d.pipeline_num (world * local_size) k := by
    rw [Finset.card_range]
    exact (h.rows k hk).1
  have hshare := localSplitSizes_getD hagree hk hrank
  have hfirst : firstSample world d.pipeline_num (world * local_size) k rank +
      share (splitSize d.pipeline_num (world * local_size) k) (Finset.range world) k rank ≤
        local_size := by
    have hle := firstSample_add_le hk hrank
    rwa [hshare] at hle
  refine wholeValues_related hd (fun g hg => ?_) (fun a b hab => passOn_related hab)
    (fun g hg loc => ?_) g hg loc
  · exact moduleDriver_simulates (share_pos hmem hcard) hfirst (shareStart_add_share_le hmem)
      (h.rowwise g hg).1 ((h.rowwise g hg).2 k hk)
  · unfold routedTo
    split_ifs with hroute
    · obtain ⟨r, hr, -, rfl⟩ := hroute
      obtain ⟨v, hbatch, -, hrows, -⟩ := h.inputs r hr
      refine passOn_related ?_
      rw [rankInputs, splitBatch, hbatch, Option.map_some, Option.map_some]
      refine .some (related_transform_left.mpr (related_transform_self fun t ht => ?_))
      refine ⟨rankBatch_fits hlocal (hrows t ht) hrank,
        splitTensor_fits hworld hlocal hagree hk (hrows t ht), ?_⟩
      obtain ⟨-, rest, hdim, -⟩ := hrows t ht
      obtain ⟨-, -, -, hsamples⟩ := splitTensor_spec hdim hlocal hagree hworld hk
      obtain ⟨-, -, hrdim⟩ := rankBatch_spec hdim hlocal hrank
      refine Eq.trans ?_ (hsamples rank hrank).symm
      rw [sliceOrWeight_eq_samples _ _ _ hlocal (by rw [hrdim]; rfl), hshare]
      rfl
    · exact .none

/-- What a rank gets of an output for a split: its samples of what it would compute alone. -/
theorem distributeTyped_output (hd : d.RoutedOnce false) (hnodup : d.subgraphs.Nodup)
    (hdisjoint : ∀ g ∈ d.subgraphs, ∀ g' ∈ d.subgraphs, g ≠ g' →
      Disjoint (d.allocation g) (d.allocation g'))
    (hdelay : ∀ r ∈ d.routes false, getDelay (d.graph_order false) r = 0 ∨
      d.pipeline_num ≤ world * local_size ∧ d.pipeline_num ∣ world * local_size)
    {graph_inputs : ℕ → ℕ → String → IValueMap LocalIValue}
    (hinputs : ∀ rank, splitInputs garbage route_type false world d.pipeline_num
      (world * local_size) in_routes (rankInputs local_size batch) rank k =
        some (graph_inputs rank k))
    {history : ℕ → ℕ → Option (String → IValueMap LocalIValue)}
    {env : ℕ → Call LocalIValue → Option LocalIValue} {runs : ℕ → Connector LocalIValue}
    (hrun : Pipelined d false
      (fun rank => rankDriver false input_names (func rank) fun _ => false)
      (distributeCalls garbage false) (world * local_size) graph_inputs history env runs)
    {r : RouteDP} (hr : r ∈ out_routes) {rank : ℕ} (hrank : rank < world) :
    ∃ v, moduleValues d in_routes input_names module (rankInputs local_size batch rank)
        r.source_graph r.location = some v ∧ v.isNone = false ∧
      distributeTyped garbage route_type false d.pipeline_num (world * local_size) r k
        (fun p => ((runs p).values k r.source_graph r.location).getD (.scalar .none)) rank =
          some ((sliceOrWeightTensorsInIValue v (localSplitSizes world d.pipeline_num
            (world * local_size) rank) k).transformTensorsInIValue some) := by
  obtain ⟨w, hw, hsome, hdist, htype⟩ := h.outputs k hk r hr
  have hsources : r.sources.toFinset = d.allocation r.source_graph := by
    ext p
    rw [List.mem_toFinset, h.out_sources r hr]
  have hdests : r.dests.toFinset = Finset.range world := by
    ext p
    rw [List.mem_toFinset, h.out_dests r hr, Finset.mem_range]
  have hne : r.sources ≠ [] := by
    rw [← List.toFinset_nonempty_iff, hsources]
    exact h.ranks _ (h.out_mem r hr)
  have hvals : ∀ p ∈ r.sources, RankHas (splitSize d.pipeline_num (world * local_size) k) k
      r.sources.toFinset p w
      (((runs p).values k r.source_graph r.location).getD (.scalar .none)) := by
    intro p hp
    have hhas := run_rankHas h hworld hlocal hagree hk hd hnodup hdisjoint hdelay hinputs hrun
      (h.out_mem r hr) ((h.out_sources r hr p).mp hp) r.location
    rw [hw] at hhas
    rw [hsources]
    revert hhas
    generalize (runs p).values k r.source_graph r.location = res
    rintro (hhas | _)
    exact hhas
  have hothers : ∀ p ∈ r.dests, p ∉ r.sources →
      ((runs p).values k r.source_graph r.location).getD (.scalar .none) = .scalar .none := by
    intro p _ hp
    have hp' : p ∉ d.allocation r.source_graph := fun hmem => hp ((h.out_sources r hr p).mpr hmem)
    have hnot : r.source_graph ∉ d.graphsOnRank p := fun hmem => by
      have := (List.mem_filter.mp hmem).2
      exact hp' (of_decide_eq_true this)
    obtain ⟨gi, hgi, -, hnone⟩ := exists_splitInputs h hworld hlocal hagree hk p
    obtain rfl := Option.some.inj (hgi.symm.trans (hinputs p))
    rw [run_values_of_not_mem hnot (hrun.run p) k hk, hnone _ hp']
    rfl
  obtain ⟨res, hres, hdest, -⟩ := distributeTyped_rankHas hk hne hdist htype
    hvals hothers rank
  have hmem : rank ∈ Finset.range world := Finset.mem_range.mpr hrank
  have hcard : (Finset.range world).card ≤ splitSize d.pipeline_num (world * local_size) k := by
    rw [Finset.card_range]
    exact (h.rows k hk).1
  have hhas := hdest ((h.out_dests r hr rank).mpr hrank)
  rw [hdests] at hhas
  have hres' : res = w.transformTensorsInIValue fun t => some (t.samples
      (splitSize d.pipeline_num (world * local_size) k)
      (shareStart (splitSize d.pipeline_num (world * local_size) k) (Finset.range world) k rank)
      (share (splitSize d.pipeline_num (world * local_size) k) (Finset.range world) k rank)) :=
    ((related_iff_eq_transform fun t u => heldBy_batch_iff (t := t) (u := u) hmem hcard).mp hhas).2
  have hsame := moduleValues_sameSamples h hworld hlocal hagree hk hd.toRouted hrank
    (h.out_mem r hr) r.location
  rw [hw] at hsame
  revert hsame
  generalize hv : moduleValues d in_routes input_names module (rankInputs local_size batch rank)
    r.source_graph r.location = local_val
  rintro (hsame | _)
  rename_i v
  refine ⟨v, rfl, ?_, ?_⟩
  · rw [← isNone_of_related hsame]
    exact hsome
  · rw [hres, hres', Option.some_inj, sliceOrWeightTensorsInIValue, transform_transform]
    refine (transform_eq_of_related (V := v) ?_).symm
    refine hsame.imp_of_mem fun t ht u htu => congrArg some ?_
    have hshare := localSplitSizes_getD hagree hk hrank
    rw [sliceOrWeight_eq_samples _ _ _ hlocal (h.out_rows rank hrank r hr v hv t ht), hshare]
    exact htu.2.2

end Launches

theorem exists_graph_inputs (hworld : 0 < world) (hlocal : 0 < local_size)
    (hagree : SplitsAgree world d.pipeline_num (world * local_size))
    (h : LaunchesRows d in_routes out_routes route_type world local_size input_names module func
      batch) (garbage : RouteDP → SComm → ℕ → ℕ → ℚ) :
    ∃ graph_inputs : ℕ → ℕ → String → IValueMap LocalIValue,
      ∀ k < actualPipelineNum d.pipeline_num (world * local_size), ∀ rank,
        splitInputs garbage route_type false world d.pipeline_num (world * local_size) in_routes
          (rankInputs local_size batch) rank k = some (graph_inputs rank k) := by
  have hfirst : ∀ rank k, ∃ gi, k < actualPipelineNum d.pipeline_num (world * local_size) →
      splitInputs garbage route_type false world d.pipeline_num (world * local_size) in_routes
        (rankInputs local_size batch) rank k = some gi := by
    intro rank k
    by_cases hk : k < actualPipelineNum d.pipeline_num (world * local_size)
    · obtain ⟨gi, hgi, -⟩ := exists_splitInputs h hworld hlocal hagree hk rank
      exact ⟨gi, fun _ => hgi⟩
    · exact ⟨fun _ _ => none, fun hlt => absurd hlt hk⟩
  choose graph_inputs hinputs using hfirst
  exact ⟨graph_inputs, fun k hk rank => hinputs rank k hk⟩

/-- After a run of the pipeline the launcher finishes its last step, with what the modules make of
the batch of a rank. -/
theorem mergeOutputs_eq_local (hd : d.RoutedOnce false) (hnodup : d.subgraphs.Nodup)
    (hdisjoint : ∀ g ∈ d.subgraphs, ∀ g' ∈ d.subgraphs, g ≠ g' →
      Disjoint (d.allocation g) (d.allocation g'))
    (hdelay : ∀ r ∈ d.routes false, getDelay (d.graph_order false) r = 0 ∨
      d.pipeline_num ≤ world * local_size ∧ d.pipeline_num ∣ world * local_size)
    (hworld : 0 < world) (hlocal : 0 < local_size) (hpipe : 0 < d.pipeline_num)
    (hagree : SplitsAgree world d.pipeline_num (world * local_size))
    (h : LaunchesRows d in_routes out_routes route_type world local_size input_names module func
      batch) {graph_inputs : ℕ → ℕ → String → IValueMap LocalIValue}
    (hinputs : ∀ k < actualPipelineNum d.pipeline_num (world * local_size), ∀ rank,
      splitInputs garbage route_type false world d.pipeline_num (world * local_size) in_routes
        (rankInputs local_size batch) rank k = some (graph_inputs rank k))
    {history : ℕ → ℕ → Option (String → IValueMap LocalIValue)}
    {env : ℕ → Call LocalIValue → Option LocalIValue} {runs : ℕ → Connector LocalIValue}
    (hrun : Pipelined d false
      (fun rank => rankDriver false input_names (func rank) fun _ => false)
      (distributeCalls garbage false) (world * local_size) graph_inputs history env runs)
    {rank : ℕ} (hrank : rank < world) : ∃ ret,
      mergeOutputs garbage route_type false d.pipeline_num (world * local_size) out_routes runs
        rank = some ret ∧
      ∀ r ∈ out_routes, ret r.location =
        (moduleValues d in_routes input_names module (rankInputs local_size batch rank)
          r.source_graph r.location).map (transformTensorsInIValue fun t => some t.detach) := by
  have hpos : 0 < actualPipelineNum d.pipeline_num (world * local_size) := by
    rw [actualPipelineNum_eq]
    exact lt_min hpipe (Nat.mul_pos hworld hlocal)
  have hmerge : ∀ r ∈ out_routes, mergeOutput garbage route_type false d.pipeline_num
      (world * local_size) runs r rank = some ((moduleValues d in_routes input_names module
        (rankInputs local_size batch rank) r.source_graph r.location).map
          (transformTensorsInIValue fun t => some t.detach)) := by
    intro r hr
    have hout := fun k hk => distributeTyped_output (k := k) h hworld hlocal hagree hk hd hnodup
      hdisjoint hdelay (hinputs k hk) hrun hr hrank
    obtain ⟨v, hv, hsome, -⟩ := hout 0 hpos
    have hlen : (localSplitSizes world d.pipeline_num (world * local_size) rank).length =
        actualPipelineNum d.pipeline_num (world * local_size) := length_localSplitSizes hrank
    have hsum := sum_localSplitSizes hrank hpos
    have houts : (List.range (actualPipelineNum d.pipeline_num (world * local_size))).mapM
        (fun k => distributeTyped garbage route_type false d.pipeline_num (world * local_size) r k
          (fun p => ((runs p).values k r.source_graph r.location).getD (.scalar .none)) rank) =
        some ((List.range (localSplitSizes world d.pipeline_num (world * local_size)
          rank).length).map fun k => (sliceOrWeightTensorsInIValue v (localSplitSizes world
            d.pipeline_num (world * local_size) rank) k).transformTensorsInIValue some) := by
      rw [hlen, mapM_eq_some_iff, List.map_map]
      refine List.map_congr_left fun k hk => ?_
      obtain ⟨v', hv', -, hres⟩ := hout k (List.mem_range.mp hk)
      obtain rfl := Option.some.inj (hv.symm.trans hv')
      exact hres
    have hall : ∀ out ∈ (List.range (localSplitSizes world d.pipeline_num (world * local_size)
        rank).length).map fun k => (sliceOrWeightTensorsInIValue v (localSplitSizes world
          d.pipeline_num (world * local_size) rank) k).transformTensorsInIValue some,
        (!out.isNone) = true := by
      intro out hout
      obtain ⟨k, -, rfl⟩ := List.mem_map.mp hout
      rw [sliceOrWeightTensorsInIValue, isNone_transform, isNone_transform, hsome]
      rfl
    unfold mergeOutput
    rw [houts, hv, Option.bind_eq_bind, Option.bind_some, List.takeWhile_eq_self_iff.mpr hall]
    dsimp only
    rw [concatOrSum_slices (by rw [← List.length_pos_iff, hlen]; exact hpos)
        (by rw [hsum]; exact h.out_rows rank hrank r hr v hv)]
    rw [if_neg]
    · rfl
    · rw [List.isEmpty_iff, List.map_eq_nil_iff, List.range_eq_nil, hlen]
      exact hpos.ne'
  obtain ⟨ret, hret, hall, -⟩ := foldlM_assign RouteDP.location
    (fun (m : IValueMap LocalIValue) loc => m loc)
    (fun m loc v => Function.update m loc (some v)) (fun m loc v loc' => by
      by_cases hloc : loc = loc'
      · rw [if_pos hloc, hloc, Function.update_self]
      · rw [if_neg hloc, Function.update_of_ne (Ne.symm hloc)])
    h.out_nodup hmerge (fun _ => none) fun _ _ => rfl
  exact ⟨ret, hret, hall⟩

/-- Every rank gets, of every output, what the modules make of its own batch in one run: with any
buffers and whatever the calls between the subgraphs return, as long as they pair up. The
launcher finishes its first step, there are runs of the pipeline, and it finishes its last step
after each. -/
theorem launch_eq_local (hd : d.RoutedOnce false) (hnodup : d.subgraphs.Nodup)
    (hdisjoint : ∀ g ∈ d.subgraphs, ∀ g' ∈ d.subgraphs, g ≠ g' →
      Disjoint (d.allocation g) (d.allocation g'))
    (hdelay : ∀ r ∈ d.routes false, getDelay (d.graph_order false) r = 0 ∨
      d.pipeline_num ≤ world * local_size ∧ d.pipeline_num ∣ world * local_size)
    (hworld : 0 < world) (hlocal : 0 < local_size) (hpipe : 0 < d.pipeline_num)
    (hagree : SplitsAgree world d.pipeline_num (world * local_size))
    (h : LaunchesRows d in_routes out_routes route_type world local_size input_names module func
      batch) (garbage : RouteDP → SComm → ℕ → ℕ → ℚ)
    (history : ℕ → ℕ → Option (String → IValueMap LocalIValue)) :
    ∃ graph_inputs : ℕ → ℕ → String → IValueMap LocalIValue,
      (∀ k < actualPipelineNum d.pipeline_num (world * local_size), ∀ rank,
        splitInputs garbage route_type false world d.pipeline_num (world * local_size) in_routes
          (rankInputs local_size batch) rank k = some (graph_inputs rank k)) ∧
      (∀ env runs, Pipelined d false
          (fun rank => rankDriver false input_names (func rank) fun _ => false)
          (distributeCalls garbage false) (world * local_size) graph_inputs history env runs →
        ∀ rank < world, ∃ ret,
          mergeOutputs garbage route_type false d.pipeline_num (world * local_size) out_routes runs
            rank = some ret ∧
          ∀ r ∈ out_routes, ret r.location =
            (moduleValues d in_routes input_names module (rankInputs local_size batch rank)
              r.source_graph r.location).map (transformTensorsInIValue fun t => some t.detach)) ∧
      ∃ env runs, Pipelined d false
        (fun rank => rankDriver false input_names (func rank) fun _ => false)
        (distributeCalls garbage false) (world * local_size) graph_inputs history env runs := by
  obtain ⟨graph_inputs, hinputs⟩ := exists_graph_inputs hworld hlocal hagree h garbage
  refine ⟨graph_inputs, hinputs, fun env runs hrun rank hrank => ?_, ?_⟩
  · exact mergeOutputs_eq_local hd hnodup hdisjoint hdelay hworld hlocal hpipe hagree h hinputs hrun
      hrank
  · exact exists_pipelined hd hnodup hdisjoint hdelay _ _ graph_inputs history

end Run

section Six

def sixRows : Tensor ℚ := ⟨.FLOAT, [6, 1], false, [1, 2, 3, 4, 5, 6], by decide⟩

def sixRowsIn : IValueMap (IValue (Tensor ℚ)) := startWith (.tensor sixRows) "a"

def intoA : RouteDP := ⟨⟨"x", []⟩, [0, 1, 2], "MASTER", [0, 1], "a"⟩

def outOfB : RouteDP := ⟨⟨"z", []⟩, [2], "b", [0, 1, 2], "MASTER"⟩

theorem rowWise_handThrough (batch_size : ℕ) (g : String) :
    RowWise batch_size (handThrough g · 0) where
  fits vals hvals it hit := by
    obtain ⟨it', hit', rfl⟩ := List.mem_map.mp hit
    exact hvals it' hit'
  samples vals _ first n _ _ := by
    unfold handThrough mapValues
    rw [List.map_map, List.map_map]
    rfl

theorem moduleValues_sixRows (f : Tensor ℚ → Tensor ℚ) :
    let outs := moduleValues twoAndOne [intoA] handThroughNames (handThrough · · 0) fun loc =>
      (sixRowsIn loc).map (transformTensorsInIValue f)
    outs "a" ⟨"y", []⟩ = some (.tensor (f sixRows)) ∧
      outs "b" ⟨"z", []⟩ = some (.tensor (f sixRows)) := ⟨rfl, rfl⟩

theorem sixRows_launches : LaunchesRows twoAndOne [intoA] [outOfB]
    (fun _ => .tensor .FLOAT [3, 1] false) 3 2 handThroughNames (handThrough · · 0)
    (fun _ => handThrough) sixRowsIn where
  in_nodup := by decide
  in_sources r hr rank := by
    obtain rfl := List.mem_singleton.mp hr
    simp [intoA]
    omega
  in_dests r hr rank := by
    obtain rfl := List.mem_singleton.mp hr
    simp [intoA, twoAndOne]
  out_nodup := by decide
  out_mem := by decide
  out_sources r hr rank := by
    obtain rfl := List.mem_singleton.mp hr
    simp [outOfB, twoAndOne]
  out_dests r hr rank := by
    obtain rfl := List.mem_singleton.mp hr
    simp [outOfB]
    omega
  ranks := by decide
  rows := by decide +kernel
  rowwise g _ := ⟨rowWise_handThrough 2 g, fun k _ => rowWise_handThrough _ g⟩
  func rank g _ k vals := by
    unfold handThrough mapValues
    rw [List.map_map, List.map_map]
    rfl
  inputs r hr := by
    obtain rfl := List.mem_singleton.mp hr
    refine ⟨.tensor sixRows, rfl, trivial, fun t ht => ?_, fun k hk => ?_⟩
    · obtain rfl := List.mem_singleton.mp ht
      exact ⟨by decide, [1], rfl, by decide, by decide, by decide +kernel⟩
    · have hk : k < 2 := hk
      interval_cases k
      · rfl
      · rfl
  routable k _ r hr w hw := by
    obtain rfl := List.mem_singleton.mp hr
    obtain rfl := Option.some.inj ((moduleValues_sixRows _).1.symm.trans hw)
    exact trivial
  outputs k hk r hr := by
    obtain rfl := List.mem_singleton.mp hr
    refine ⟨_, (moduleValues_sixRows _).2, rfl, trivial, ?_⟩
    have hk : k < 2 := hk
    interval_cases k
    · rfl
    · rfl
  out_rows rank hrank r hr v hv t ht := by
    obtain rfl := List.mem_singleton.mp hr
    obtain rfl := Option.some.inj ((moduleValues_sixRows _).2.symm.trans hv)
    obtain rfl := List.mem_singleton.mp ht
    interval_cases rank
    · rfl
    · rfl
    · rfl

theorem launch_eq_local_six :
    ∃ graph_inputs : ℕ → ℕ → String → IValueMap LocalIValue,
      (∀ k < actualPipelineNum 2 6, ∀ rank,
        splitInputs (fun _ _ _ _ => 9) (fun _ => .tensor .FLOAT [3, 1] false) false 3 2 6 [intoA]
          (rankInputs 2 sixRowsIn) rank k = some (graph_inputs rank k)) ∧
      (∀ env runs, Pipelined twoAndOne false
          (fun _ => rankDriver false handThroughNames handThrough fun _ => false)
          (distributeCalls (fun _ _ _ _ => 9) false) 6 graph_inputs (fun _ _ => none) env runs →
        ∀ rank < 3, ∃ ret,
          mergeOutputs (fun _ _ _ _ => 9) (fun _ => .tensor .FLOAT [3, 1] false) false 2 6 [outOfB]
            runs rank = some ret ∧
          ∀ r ∈ [outOfB], ret r.location =
            (moduleValues twoAndOne [intoA] handThroughNames (handThrough · · 0)
              (rankInputs 2 sixRowsIn rank) r.source_graph r.location).map
                (transformTensorsInIValue fun t => some t.detach)) ∧
      ∃ env runs, Pipelined twoAndOne false
        (fun _ => rankDriver false handThroughNames handThrough fun _ => false)
        (distributeCalls (fun _ _ _ _ => 9) false) 6 graph_inputs (fun _ _ => none) env runs :=
  launch_eq_local (d := twoAndOne) twoAndOne_routed (by decide)
    (by decide) (fun _ _ => Or.inr ⟨by decide, by decide⟩) (by decide) (by decide) (by decide)
    (by unfold SplitsAgree SliceSizesAgree; decide +kernel) sixRows_launches (fun _ _ _ _ => 9)
    fun _ _ => none

end Six

end GraphLauncher

end Rannc
