import Rannc.Graph.Allocation
import Rannc.Graph.BalanceBlocks
import Rannc.Graph.CutSearch
import Rannc.Graph.SubGraphFlow

/-!
# Balancing the blocks of a split

The boundaries of blocks are moved as profiles of the subgraphs suggest, and afterwards one at a
time for a smaller cut. A split stays one of all vertices in as many blocks as long as each block
holds what is taken from it. When nothing could be profiled the split before is taken again, and
before the first one there is none.
-/
namespace Rannc

open Rannc.Digraph

/-- The blocks are those of all `n` vertices, and as many as before. -/
def KeepsBlocks (n : ℕ) (split res : List UInt64) : Prop :=
  ValidSplit n res ∧ res.length = split.length

structure BalanceConf where
  replica_num : ℕ
  pipeline_num : ℕ
  batch_size : ℕ
  dev_mem : ℤ
  opt_param_factor : ℤ

/-- What is known of the subgraphs after an iteration. -/
structure BalanceProfile where
  subgraph_vals : List ℤ
  est_val : ℤ
  mem_exceed : Bool

def evalSubgraph (prof : GraphProfile) : ℤ := toLong (prof.fwd_time * 2)

/-- The subgraphs work one after the other on the parts of the batch. -/
def estimate (vals : List ℤ) (pipeline_num : ℕ) : ℤ :=
  sumLong ((List.range (pipeline_num + vals.length - 1)).map fun t =>
    let init_sg_idx := t + 1 - pipeline_num
    let fin_sg_idx := min vals.length (t + 1)
    ((vals.take fin_sg_idx).drop init_sg_idx).foldl max 0)

def MAX_BALANCE_ITER : ℕ := 10

section Loop

variable (long : LongCast) (outcome : ℕ → List UInt64 → Option (Option BalanceProfile))

/-- The loop ends with the split before when there is an error while profiling or a subgraph needs
too much memory. -/
def balanceLoop : ℕ → ℕ → ℤ → List UInt64 → List UInt64 → Option (ℤ × List UInt64)
  | 0, _, est_val, split, _ => some (est_val, split)
  | n + 1, iter_idx, est_val, split, prev_split => do
    match ← outcome iter_idx split with
    | none => return (est_val, prev_split)
    | some profile =>
      if profile.mem_exceed then return (profile.est_val, prev_split)
      else
        let (new_split, stop) ← doBalanceSplitVariance long split profile.subgraph_vals
        if stop then return (profile.est_val, new_split)
        else balanceLoop n (iter_idx + 1) profile.est_val new_split split

end Loop

section DoBalance

variable (long : LongCast) (sort : TopologicalSort) (order : SetOrder) (conf : BalanceConf)
  (profile : ℕ → List (String × IRGraph) → Option (List (String × GraphProfile))) (g : BGraph)

/-- Profile the subgraphs of a split, of which nothing comes if there is an error. Whatever else
fails ends the loop. -/
def profileSplit (iter_idx : ℕ) (split : List UInt64) : Option (Option BalanceProfile) := do
  let partition ← createPartition sort order (fixNonBatchRanks sort (setRanksOnGraph sort g split))
  let num := conf.replica_num * conf.pipeline_num
  let scaled_graphs ← partition.subgraphs.mapM fun it => do
    return (it.1, ← scaleGraph it.2 (it.2.name ++ "_dev_" ++ Nat.repr num) num 0 conf.batch_size)
  let param_sizes ← scaled_graphs.mapM fun it => do return (it.1, ← it.2.getParamSizeInByte)
  match profile iter_idx scaled_graphs with
  | none => return none
  | some node_profiles =>
    let profs ← partition.order.mapM fun id => node_profiles.lookup id
    let subgraph_vals := profs.map evalSubgraph
    let time_ar :=
      if 1 < conf.replica_num then (param_sizes.map Prod.snd).sum / (200 * 1000) else 0
    let mem_exceed := (partition.order.zip profs).any fun it =>
      ((param_sizes.lookup it.1).elim 0 fun size => conf.dev_mem - size * conf.opt_param_factor) <
        it.2.max_allocated_mem
    return some ⟨subgraph_vals, estimate subgraph_vals conf.pipeline_num + time_ar, mem_exceed⟩

/-- The estimate, the split and the graph with its ranks. -/
def doBalance (initial_split : List UInt64) : Option (ℤ × List UInt64 × BGraph) := do
  let (est_val, split) ← balanceLoop long (profileSplit sort order conf profile g)
    MAX_BALANCE_ITER 0 LONG_MAX initial_split []
  return (est_val, split, fixNonBatchRanks sort (setRanksOnGraph sort g split))

end DoBalance

section Runs

variable (long : LongCast) (outcome : ℕ → List UInt64 → Option (Option BalanceProfile))
  (initial_split : List UInt64)

/-- The splits of an iteration and the one before. -/
inductive Balancing : ℕ → List UInt64 → List UInt64 → Prop
  | start : Balancing 0 initial_split []
  | next {iter_idx : ℕ} {split prev_split new_split : List UInt64} {profile : BalanceProfile} :
      Balancing iter_idx split prev_split → iter_idx < MAX_BALANCE_ITER →
      outcome iter_idx split = some (some profile) → profile.mem_exceed = false →
      doBalanceSplitVariance long split profile.subgraph_vals = some (new_split, false) →
      Balancing (iter_idx + 1) new_split split

/-- The first iteration ends by an error or for want of memory. -/
def FirstFails : Prop :=
  outcome 0 initial_split = some none ∨
    ∃ profile, outcome 0 initial_split = some (some profile) ∧ profile.mem_exceed = true

/-- A step that is made from a split. -/
structure Steps (split : List UInt64) (profile : BalanceProfile) : Prop where
  reached : ∃ iter_idx < MAX_BALANCE_ITER, (∃ prev_split,
    Balancing long outcome initial_split iter_idx split prev_split) ∧
      outcome iter_idx split = some (some profile)
  fits_mem : profile.mem_exceed = false

variable {long outcome initial_split} {n : ℕ}

/-- There is no value without a block. -/
theorem Balancing.keepsBlocks (hinitial : ValidSplit n initial_split) (hn : n < 2 ^ 63)
    (hvals : ∀ iter_idx split profile, ValidSplit n split →
      outcome iter_idx split = some (some profile) → profile.subgraph_vals.length ≤ split.length)
    (hfits : ∀ split profile, Steps long outcome initial_split split profile →
      StepFits long n split profile.subgraph_vals)
    {iter_idx : ℕ} {split prev_split : List UInt64}
    (h : Balancing long outcome initial_split iter_idx split prev_split) :
    KeepsBlocks n initial_split split ∧
      (iter_idx ≠ 0 → KeepsBlocks n initial_split prev_split) := by
  induction h with
  | start => exact ⟨⟨hinitial, rfl⟩, fun h => absurd rfl h⟩
  | @next iter_idx split prev_split new_split profile hreached hiter houtcome hmem hstep ih =>
    obtain ⟨⟨hvalid, hlength⟩, -⟩ := ih
    have hlength_vals : profile.subgraph_vals.length = split.length :=
      (hvals iter_idx split profile hvalid houtcome).antisymm (length_vals_of_step hstep)
    have hstep_fits := hfits split profile
      ⟨⟨iter_idx, hiter, ⟨prev_split, hreached⟩, houtcome⟩, hmem⟩
    refine ⟨⟨doBalanceSplitVariance_valid hvalid hn hlength_vals hstep_fits hstep, ?_⟩,
      fun _ => ⟨hvalid, hlength⟩⟩
    rw [length_of_doBalanceSplitVariance hstep, hlength]

/-- The result is a split of an iteration or the one before. -/
theorem balanceLoop_result {fuel iter_idx : ℕ} {est_val est_val' : ℤ}
    {split prev_split res : List UInt64}
    (h : Balancing long outcome initial_split iter_idx split prev_split)
    (hfuel : fuel + iter_idx = MAX_BALANCE_ITER)
    (hrun : balanceLoop long outcome fuel iter_idx est_val split prev_split =
      some (est_val', res)) :
    ∃ last split' prev_split', Balancing long outcome initial_split last split' prev_split' ∧
      (res = split' ∨ res = prev_split' ∧
        (outcome last split' = some none ∨
          ∃ profile, outcome last split' = some (some profile) ∧ profile.mem_exceed = true)) := by
  induction fuel generalizing iter_idx est_val split prev_split with
  | zero =>
    obtain ⟨-, rfl⟩ := Prod.mk.inj (Option.some.inj hrun)
    exact ⟨iter_idx, split, prev_split, h, Or.inl rfl⟩
  | succ fuel ih =>
    obtain ⟨found, houtcome, hrun⟩ := Option.bind_eq_some_iff.mp hrun
    cases found with
    | none =>
      obtain ⟨-, rfl⟩ := Prod.mk.inj (Option.some.inj hrun)
      exact ⟨iter_idx, split, prev_split, h, Or.inr ⟨rfl, Or.inl houtcome⟩⟩
    | some profile =>
      dsimp only at hrun
      split_ifs at hrun with hmem
      · obtain ⟨-, rfl⟩ := Prod.mk.inj (Option.some.inj hrun)
        exact ⟨iter_idx, split, prev_split, h, Or.inr ⟨rfl, Or.inr ⟨profile, houtcome, hmem⟩⟩⟩
      · rw [Bool.not_eq_true] at hmem
        obtain ⟨⟨new_split, stop⟩, hstep, hrun⟩ := Option.bind_eq_some_iff.mp hrun
        cases stop with
        | true =>
          obtain ⟨-, rfl⟩ := Prod.mk.inj (Option.some.inj hrun)
          obtain ⟨-, ⟨-, rfl, -⟩ | ⟨-, hstop, -⟩⟩ := doBalanceSplitVariance_cases hstep
          · exact ⟨iter_idx, new_split, prev_split, h, Or.inl rfl⟩
          · exact absurd hstop nofun
        | false => exact ih (h.next (by omega) houtcome hmem hstep) (by omega) hrun

theorem balanceLoop_first (long : LongCast) (hfails : FirstFails outcome initial_split) :
    ∃ est_val, balanceLoop long outcome MAX_BALANCE_ITER 0 LONG_MAX initial_split [] =
      some (est_val, []) := by
  rcases hfails with hnone | ⟨profile, hsome, hmem⟩
  · exact ⟨LONG_MAX, by rw [MAX_BALANCE_ITER, balanceLoop, hnone]; rfl⟩
  · refine ⟨profile.est_val, ?_⟩
    rw [MAX_BALANCE_ITER, balanceLoop, hsome, Option.bind_eq_bind, Option.bind_some]
    exact if_pos hmem

variable (long outcome initial_split n) in
/-- The first iteration ends well, and the blocks have room in every step. -/
structure BalanceFits : Prop where
  first : ¬ FirstFails outcome initial_split
  steps : ∀ split profile, Steps long outcome initial_split split profile →
    StepFits long n split profile.subgraph_vals

variable (long outcome initial_split n) in
/-- All splits are valid, and so is the one that is left in the end. -/
structure BalanceKeeps : Prop where
  reached : ∀ iter_idx split prev_split,
    Balancing long outcome initial_split iter_idx split prev_split →
      KeepsBlocks n initial_split split
  result : ∀ est_val res, balanceLoop long outcome MAX_BALANCE_ITER 0 LONG_MAX initial_split [] =
    some (est_val, res) → KeepsBlocks n initial_split res

variable (long outcome initial_split) in
/-- There is a positive value for every block, and conversions are specified. -/
def StepsSpecified : Prop :=
  ∀ split profile, Steps long outcome initial_split split profile →
    profile.subgraph_vals.length = split.length ∧
    (∀ val ∈ profile.subgraph_vals, 0 < val ∧ val ≤ LONG_MAX) ∧
      SizeSpecified long split profile.subgraph_vals

theorem BalanceFits.keeps (hfits : BalanceFits long outcome initial_split n)
    (hinitial : ValidSplit n initial_split) (hn : n < 2 ^ 63)
    (hvals : ∀ iter_idx split profile, ValidSplit n split →
      outcome iter_idx split = some (some profile) →
        profile.subgraph_vals.length ≤ split.length) :
    BalanceKeeps long outcome initial_split n := by
  have hreached {iter_idx : ℕ} {split prev_split : List UInt64}
      (h : Balancing long outcome initial_split iter_idx split prev_split) :=
    h.keepsBlocks hinitial hn hvals hfits.steps
  refine ⟨fun _ _ _ h => (hreached h).1, fun est_val res hrun => ?_⟩
  obtain ⟨last, split, prev_split, h, rfl | ⟨rfl, hfail⟩⟩ :=
    balanceLoop_result Balancing.start rfl hrun
  · exact (hreached h).1
  · refine (hreached h).2 fun hzero => hfits.first ?_
    subst hzero
    cases h
    exact hfail

/-- Where every conversion is specified, the blocks stay in no other way. -/
theorem BalanceKeeps.fits (h : BalanceKeeps long outcome initial_split n) (hn : n < 2 ^ 63)
    (hspecified : StepsSpecified long outcome initial_split) :
    BalanceFits long outcome initial_split n := by
  constructor
  case first =>
    intro hfails
    obtain ⟨est_val, hrun⟩ := balanceLoop_first long hfails
    exact (h.result est_val [] hrun).1.ne_nil rfl
  case steps =>
    intro split profile hstep
    obtain ⟨hlength, hpos, hsize⟩ := hspecified split profile hstep
    obtain ⟨⟨iter_idx, hiter, ⟨prev_split, hreached⟩, houtcome⟩, hmem⟩ := hstep
    have hvalid := (h.reached iter_idx split prev_split hreached).1
    obtain ⟨⟨new_split, stop⟩, hnew⟩ := Option.isSome_iff_exists.mp
      (doBalanceSplitVariance_isSome long hvalid.ne_nil hlength)
    refine stepFits_of_valid hvalid hn hlength (scaledSize_nonneg hvalid hn hlength hpos hsize)
      hnew ?_
    cases stop with
    | false => exact (h.reached _ _ _ (hreached.next hiter houtcome hmem hnew)).1
    | true =>
      obtain ⟨-, ⟨-, rfl, -⟩ | ⟨-, hstop, -⟩⟩ := doBalanceSplitVariance_cases hnew
      · exact hvalid
      · exact absurd hstop nofun

end Runs

section Values

variable {sort : TopologicalSort} {order : SetOrder} {g : BGraph} {split : List UInt64} {n : ℕ}

theorem setRanksOnGraph_erase (sort : TopologicalSort) (g : BGraph) (split : List UInt64) :
    (setRanksOnGraph sort g split).erase = g.erase := by
  have hrun : ∀ (vs : List ℕ) (st : BGraph × ℕ × ℕ),
      (vs.foldl (setRank split) st).1.erase = st.1.erase := by
    intro vs
    induction vs with
    | nil => exact fun _ => rfl
    | cons v vs ih => exact fun st => (ih (setRank split st v)).trans (BGraph.erase_set_ranks v _)
  exact (hrun _ _).trans (by simp [BGraph.erase])

/-- The last position is behind all vertices. -/
theorem setRank_lt {g : BGraph} {rank index v : ℕ} (hvalid : ValidSplit n split)
    (hv : v < g.vertices.length) (hindex : index < n) (hrank : rank < split.length)
    (hranks : ∀ w, ∀ r ∈ g.ranks w, r < split.length) :
    (setRank split (g, rank, index) v).2.1 < split.length ∧
      ∀ w, ∀ r ∈ (setRank split (g, rank, index) v).1.ranks w, r < split.length := by
  have hrank' : (setRank split (g, rank, index) v).2.1 < split.length := by
    dsimp only [setRank]
    split_ifs with hnext
    · obtain ⟨⟨s, hs, hle⟩, -⟩ := hnext
      by_contra hlast
      have hlength : rank + 1 = split.length := by omega
      obtain ⟨hlt, rfl⟩ := List.getElem?_eq_some_iff.mp hs
      have htop := hvalid.boundary_length
      rw [← hlength, boundary_getElem hrank] at htop
      omega
    · exact hrank
  refine ⟨hrank', fun w r hr => ?_⟩
  have hset : (setRank split (g, rank, index) v).1.ranks w = if w = v then
      insert (setRank split (g, rank, index) v).2.1 (g.ranks v) else g.ranks w :=
    BGraph.ranks_set_ranks hv _ w
  rw [hset] at hr
  split_ifs at hr
  · rcases Finset.mem_insert.mp hr with rfl | hr
    · exact hrank'
    · exact hranks v r hr
  · exact hranks w r hr

theorem setRanksOnGraph_lt (sort : TopologicalSort) (hacyclic : Acyclic (Edge g.edges))
    (hvalid : ValidSplit g.vertices.length split) :
    ∀ w, ∀ r ∈ (setRanksOnGraph sort g split).ranks w, r < split.length := by
  have hrun : ∀ (vs : List ℕ) (st : BGraph × ℕ × ℕ), (∀ v ∈ vs, v < g.vertices.length) →
      st.1.vertices.length = g.vertices.length → st.2.2 + vs.length ≤ g.vertices.length →
      st.2.1 < split.length → (∀ w, ∀ r ∈ st.1.ranks w, r < split.length) →
      ∀ w, ∀ r ∈ (vs.foldl (setRank split) st).1.ranks w, r < split.length := by
    intro vs
    induction vs with
    | nil => exact fun st _ _ _ _ hranks => hranks
    | cons v vs ih =>
      intro st hvs hlength hindex hrank hranks
      rw [List.length_cons] at hindex
      have hlt : st.2.2 < g.vertices.length := by omega
      obtain ⟨hrank', hranks'⟩ := setRank_lt hvalid (hlength ▸ hvs v List.mem_cons_self) hlt hrank
        hranks
      refine ih (setRank split st v) (fun w hw => hvs w (List.mem_cons_of_mem _ hw)) ?_ ?_ hrank'
        hranks'
      · exact (BGraph.length_set_ranks v _).trans hlength
      · have hnext : (setRank split st v).2.2 = st.2.2 + 1 := rfl
        omega
  have hlength : (all_nodes_topo sort g).length = g.vertices.length := by
    unfold all_nodes_topo
    rw [List.length_reverse, (sort.perm hacyclic).length_eq, List.length_range]
  refine hrun _ (g.erase, 0, 0) (fun v hv => (mem_topo_iff hacyclic).mp hv) ?_ ?_ ?_ ?_
  · simp [BGraph.erase]
  · exact (Nat.zero_add _).trans_le hlength.le
  · exact List.length_pos_iff.mpr hvalid.ne_nil
  · intro w r hr
    rw [BGraph.ranks, BGraph.info_erase] at hr
    exact absurd hr (Finset.notMem_empty r)

theorem fixNonBatchRanks_lt (sort : TopologicalSort) (hacyclic : Acyclic (Edge g.edges)) {bound : ℕ}
    (h : ∀ w, ∀ r ∈ g.ranks w, r < bound) :
    ∀ w, ∀ r ∈ (fixNonBatchRanks sort g).ranks w, r < bound := by
  have hrun : ∀ (vs : List ℕ) (g' : BGraph), (∀ v ∈ vs, v < g'.vertices.length) →
      (∀ w, ∀ r ∈ g'.ranks w, r < bound) →
      ∀ w, ∀ r ∈ (vs.foldl fixRank g').ranks w, r < bound := by
    intro vs
    induction vs with
    | nil => exact fun g' _ hranks => hranks
    | cons v vs ih =>
      intro g' hvs hranks
      have hlength := BGraph.length_of_erase (fixRank_erase g' v)
      refine ih (fixRank g' v) (fun w hw => hlength ▸ hvs w (List.mem_cons_of_mem _ hw)) ?_
      intro w r hr
      rw [fixRank_ranks (hvs v List.mem_cons_self)] at hr
      split_ifs at hr
      · obtain ⟨u, -, hu⟩ := mem_targetRanks.mp hr
        exact hranks u r hu
      · exact hranks w r hr
  refine hrun _ g (fun v hv => ?_) h
  exact List.mem_range.mp ((sort.perm hacyclic).mem_iff.mp hv)

theorem length_order {part : Partition} (h : createPartition sort order g = some part) :
    part.order.length = (allRanks g).card := by
  obtain ⟨d, hd, h⟩ := Option.bind_eq_some_iff.mp h
  obtain ⟨_, -, h⟩ := Option.bind_eq_some_iff.mp h
  obtain ⟨_, -, h⟩ := Option.bind_eq_some_iff.mp h
  obtain ⟨_, -, h⟩ := Option.bind_eq_some_iff.mp h
  obtain ⟨_, -, h⟩ := Option.bind_eq_some_iff.mp h
  obtain rfl := Option.some.inj h
  obtain ⟨cons, -, hcontents, -⟩ := createSubGraphs_spec hd
  have hlength := congrArg List.length hcontents
  obtain ⟨_, -, hd⟩ := Option.bind_eq_some_iff.mp hd
  obtain ⟨subgraphs, -, hd⟩ := Option.bind_eq_some_iff.mp hd
  obtain rfl := Option.some.inj hd
  have hset : (order.order (allRanks g)).toFinset = allRanks g := by
    ext r
    rw [List.mem_toFinset, order.mem]
  rw [← hset, List.toFinset_card_of_nodup (order.nodup _)]
  simpa [contents, createSubgraphsByRank] using hlength

/-- There is at most one subgraph for each block. -/
theorem length_vals_le {conf : BalanceConf}
    {profile : ℕ → List (String × IRGraph) → Option (List (String × GraphProfile))}
    (hacyclic : Acyclic (Edge g.edges)) {iter_idx : ℕ} {prof : BalanceProfile}
    (hvalid : ValidSplit g.vertices.length split)
    (h : profileSplit sort order conf profile g iter_idx split = some (some prof)) :
    prof.subgraph_vals.length ≤ split.length := by
  obtain ⟨part, hpart, h⟩ := Option.bind_eq_some_iff.mp h
  dsimp only at h
  obtain ⟨scaled_graphs, -, h⟩ := Option.bind_eq_some_iff.mp h
  obtain ⟨param_sizes, -, h⟩ := Option.bind_eq_some_iff.mp h
  cases hprofiles : profile iter_idx scaled_graphs with
  | none =>
    rw [hprofiles] at h
    exact absurd (Option.some.inj h) nofun
  | some node_profiles =>
    rw [hprofiles] at h
    obtain ⟨profs, hprofs, h⟩ := Option.bind_eq_some_iff.mp h
    obtain rfl := Option.some.inj (Option.some.inj h)
    have hlength := congrArg List.length (mapM_eq_some_iff.mp hprofs)
    rw [List.length_map, List.length_map, length_order hpart] at hlength
    have hedges := BGraph.edges_of_erase (setRanksOnGraph_erase sort g split)
    have hranks := fixNonBatchRanks_lt sort (hedges ▸ hacyclic)
      (setRanksOnGraph_lt sort hacyclic hvalid)
    have hsub : allRanks (fixNonBatchRanks sort (setRanksOnGraph sort g split)) ⊆
        Finset.range split.length := by
      intro r hr
      obtain ⟨w, -, hw⟩ := mem_allRanks.mp hr
      exact Finset.mem_range.mpr (hranks w r hw)
    have hcard := Finset.card_le_card hsub
    rw [Finset.card_range] at hcard
    rw [List.length_map]
    omega

end Values

section Search

variable (cutSize : List UInt64 → Option ℕ) (order : ℕ → MapOrder CutSearchState)
  (start : List UInt64)

/-- The state before a round of the search. -/
inductive Searching : ℕ → CutSearch → Prop
  | start {cut_size : ℕ} : cutSize start = some cut_size →
      Searching 0 ⟨[⟨cut_size, start⟩], []⟩
  | round {iter_idx : ℕ} {search search' : CutSearch} : Searching iter_idx search →
      iter_idx < MAX_SEARCH_ITER → search.openStates ≠ [] →
      search.expand cutSize (order iter_idx) = some search' → Searching (iter_idx + 1) search'

/-- A split whose positions are moved in a round. -/
def Taken (split : List UInt64) : Prop :=
  split ≠ [] ∧ ∃ iter_idx < MAX_SEARCH_ITER, ∃ search,
    Searching cutSize order start iter_idx search ∧ search.openStates ≠ [] ∧
      (chooseBestState (order iter_idx) search.openStates).split = split

/-- The splits that are looked at. -/
def Considered (split : List UInt64) : Prop :=
  split = start ∨ ∃ split', Taken cutSize order start split' ∧ split ∈ testSplits split'

variable {cutSize order start} {n : ℕ} {split : List UInt64}

theorem mem_open_of_foldlM_test {splits : List (List UInt64)} {search search' : CutSearch}
    (h : splits.foldlM (CutSearch.test cutSize) search = some search') {s : CutSearchState}
    (hs : s ∈ search'.openStates) : s ∈ search.openStates ∨ s.split ∈ splits := by
  have hkeep := foldlM_invariant
    (P := fun search' => ∀ s ∈ search'.openStates, s ∈ search.openStates ∨ s.split ∈ splits)
    (fun search₁ q search₂ hq hopen hstep t ht => by
      unfold CutSearch.test at hstep
      split_ifs at hstep
      · obtain rfl := Option.some.inj hstep
        exact hopen t ht
      · obtain ⟨c, -, hsome⟩ := Option.bind_eq_some_iff.mp hstep
        obtain rfl := Option.some.inj hsome
        dsimp only at ht
        split_ifs at ht
        · exact hopen t ht
        · rcases List.mem_append.mp ht with ht | ht
          · exact hopen t ht
          · rw [List.mem_singleton.mp ht]
            exact Or.inr hq)
    (fun s hs => Or.inl hs) h
  exact hkeep s hs

theorem Searching.considered {iter_idx : ℕ} {search : CutSearch}
    (h : Searching cutSize order start iter_idx search) :
    ∀ s ∈ search.openStates, Considered cutSize order start s.split := by
  induction h with
  | start => exact fun s hs => Or.inl (congrArg CutSearchState.split (List.mem_singleton.mp hs))
  | @round iter_idx search search' hsearch hiter hopen hexpand ih =>
    intro s hs
    obtain ⟨hne, hrest⟩ := of_guard_bind hexpand
    obtain ⟨next, hnext, hsome⟩ := Option.bind_eq_some_iff.mp hrest
    obtain rfl := Option.some.inj hsome
    rcases mem_open_of_foldlM_test hnext (List.mem_of_mem_erase hs) with hold | hmoved
    · exact ih s hold
    · exact Or.inr ⟨_, ⟨hne, iter_idx, hiter, search, hsearch, hopen, rfl⟩, hmoved⟩

theorem Taken.considered (h : Taken cutSize order start split) :
    Considered cutSize order start split := by
  obtain ⟨hne, iter_idx, -, search, hsearch, -, rfl⟩ := h
  rcases chooseBestState_mem (order iter_idx) search.openStates with heq | ⟨hmem, -⟩
  · exact absurd (congrArg CutSearchState.split heq) hne
  · exact hsearch.considered _ hmem

theorem modify_eq_set (f : UInt64 → UInt64) {idx : ℕ} (hidx : idx < split.length) :
    split.modify idx f = split.set idx (f split[idx]) := by
  refine List.ext_getElem (by simp) fun i hi hi' => ?_
  rw [List.getElem_modify, List.getElem_set]
  split_ifs with heq
  · simp [heq]
  · rfl

theorem moved_valid_iff (hvalid : ValidSplit n split) (hn : n < 2 ^ 63) {idx : ℕ}
    (hidx : idx + 1 < split.length) :
    (ValidSplit n (split.modify idx (· - 1)) ↔
      boundary split idx < boundary split (idx + 1)) ∧
    (ValidSplit n (split.modify idx (· + 1)) ↔
      boundary split (idx + 1) < boundary split (idx + 2)) := by
  have hlt : idx < split.length := by omega
  have hposition := boundary_getElem hlt
  have hle := hvalid.boundary_le (i := idx + 1) hlt
  have hmono : boundary split idx ≤ boundary split (idx + 1) :=
    hvalid.boundary_mono (Nat.le_succ idx) hlt
  have hnext : boundary split (idx + 1) ≤ boundary split (idx + 2) :=
    hvalid.boundary_mono (Nat.le_succ (idx + 1)) hidx
  have hnext_le := hvalid.boundary_le (i := idx + 2) hidx
  constructor
  · rw [modify_eq_set _ hlt, validSplit_set_iff hvalid hidx, UInt64.toNat_sub, ← hposition,
      UInt64.toNat_one]
    omega
  · rw [modify_eq_set _ hlt, validSplit_set_iff hvalid hidx, UInt64.toNat_add, ← hposition,
      UInt64.toNat_one]
    omega

/-- All positions can be moved if no block is empty. -/
theorem testSplits_valid_iff (hvalid : ValidSplit n split) (hn : n < 2 ^ 63) :
    (∀ q ∈ testSplits split, ValidSplit n q) ↔
      split.length = 1 ∨ ∀ i < split.length, boundary split i < boundary split (i + 1) := by
  have htests : (∀ q ∈ testSplits split, ValidSplit n q) ↔ ∀ idx, idx + 1 < split.length →
      boundary split idx < boundary split (idx + 1) ∧
        boundary split (idx + 1) < boundary split (idx + 2) := by
    simp only [testSplits, List.forall_mem_flatMap, List.mem_range, List.forall_mem_cons]
    constructor
    · intro h idx hidx
      obtain ⟨hsub, hadd, -⟩ := h idx (by omega)
      obtain ⟨hsub_iff, hadd_iff⟩ := moved_valid_iff hvalid hn hidx
      exact ⟨hsub_iff.mp hsub, hadd_iff.mp hadd⟩
    · intro h idx hidx
      obtain ⟨hleft, hright⟩ := h idx (by omega)
      have hlt : idx + 1 < split.length := by omega
      obtain ⟨hsub_iff, hadd_iff⟩ := moved_valid_iff hvalid hn hlt
      exact ⟨hsub_iff.mpr hleft, hadd_iff.mpr hright, by simp⟩
  have hpos := List.length_pos_iff.mpr hvalid.ne_nil
  rw [htests]
  constructor
  · intro h
    refine or_iff_not_imp_left.mpr fun hone i hi => ?_
    rcases Nat.lt_or_ge (i + 1) split.length with hlt | hge
    · exact (h i hlt).1
    · obtain ⟨j, rfl⟩ := Nat.exists_eq_add_one.mpr (by omega : 0 < i)
      exact (h j hi).2
  · rintro (hone | h) idx hidx
    · omega
    · exact ⟨h idx (by omega), h (idx + 1) hidx⟩

section Blocks

variable (hstart : ValidSplit n start) (hn : n < 2 ^ 63)
  (hblocks : ∀ s, Taken cutSize order start s →
    s.length = 1 ∨ ∀ i < s.length, boundary s i < boundary s (i + 1))
include hn hblocks

theorem Taken.moved_keepsBlocks (h : Taken cutSize order start split)
    (hkeeps : KeepsBlocks n start split) {q : List UInt64} (hq : q ∈ testSplits split) :
    KeepsBlocks n start q :=
  ⟨(testSplits_valid_iff hkeeps.1 hn).mpr (hblocks split h) q hq,
    (length_of_mem_testSplits hq).trans hkeeps.2⟩

include hstart

theorem Searching.keepsBlocks {iter_idx : ℕ} {search : CutSearch}
    (h : Searching cutSize order start iter_idx search) :
    ∀ s ∈ search.openStates, KeepsBlocks n start s.split := by
  induction h with
  | start =>
    intro s hs
    rw [List.mem_singleton.mp hs]
    exact ⟨hstart, rfl⟩
  | @round iter_idx search search' hsearch hiter hopen hexpand ih =>
    intro s hs
    obtain ⟨hne, hrest⟩ := of_guard_bind hexpand
    obtain ⟨next, hnext, hsome⟩ := Option.bind_eq_some_iff.mp hrest
    obtain rfl := Option.some.inj hsome
    rcases mem_open_of_foldlM_test hnext (List.mem_of_mem_erase hs) with hold | hmoved
    · exact ih s hold
    · rcases chooseBestState_mem (order iter_idx) search.openStates with heq | ⟨hmem, -⟩
      · exact absurd (congrArg CutSearchState.split heq) hne
      · exact Taken.moved_keepsBlocks hn hblocks
          ⟨hne, iter_idx, hiter, search, hsearch, hopen, rfl⟩ (ih _ hmem) hmoved

theorem Considered.keepsBlocks (h : Considered cutSize order start split) :
    KeepsBlocks n start split := by
  rcases h with rfl | ⟨split', htaken, hmoved⟩
  · exact ⟨hstart, rfl⟩
  · obtain ⟨hne, iter_idx, -, search, hsearch, -, rfl⟩ := id htaken
    rcases chooseBestState_mem (order iter_idx) search.openStates with heq | ⟨hmem, -⟩
    · exact absurd (congrArg CutSearchState.split heq) hne
    · exact htaken.moved_keepsBlocks hn hblocks
        (hsearch.keepsBlocks hstart hn hblocks _ hmem) hmoved

end Blocks

theorem considered_keepsBlocks_iff (hstart : ValidSplit n start) (hn : n < 2 ^ 63) :
    (∀ q, Considered cutSize order start q → KeepsBlocks n start q) ↔
      ∀ s, Taken cutSize order start s →
        s.length = 1 ∨ ∀ i < s.length, boundary s i < boundary s (i + 1) := by
  constructor
  · intro h s hs
    have hvalid := (h s hs.considered).1
    exact (testSplits_valid_iff hvalid hn).mp fun q hq => (h q (Or.inr ⟨s, hs, hq⟩)).1
  · exact fun hblocks q hq => hq.keepsBlocks hstart hn hblocks

end Search

/-- A step keeps the blocks if and only if those on the side that is chosen have room for what is
moved. Balancing keeps them if all its steps do and the first iteration ends well, and searching if
and only if it takes no split with an empty block. -/
theorem splits_stay_valid (long : LongCast) (sort : TopologicalSort) (set_order : SetOrder)
    (order : ℕ → MapOrder CutSearchState) (conf : BalanceConf)
    (profile : ℕ → List (String × IRGraph) → Option (List (String × GraphProfile))) {g : BGraph}
    (hacyclic : Acyclic (Edge g.edges)) (hn : g.vertices.length < 2 ^ 63) {split : List UInt64}
    (hsplit : ValidSplit g.vertices.length split) :
    (∀ vals : List ℤ, vals.length = split.length →
      (∀ idx < split.length, ∀ n_move,
        (KeepsBlocks g.vertices.length split (scale_right_block split vals idx n_move) ↔
          RightFits g.vertices.length split idx (movedSize split idx n_move)) ∧
        (0 ≤ movedSize split idx n_move →
          (KeepsBlocks g.vertices.length split (scale_left_block split vals idx n_move) ↔
            LeftFits split idx (movedSize split idx n_move)))) ∧
      ∃ res stop, doBalanceSplitVariance long split vals = some (res, stop) ∧
        (StepFits long g.vertices.length split vals →
          KeepsBlocks g.vertices.length split res) ∧
        ((∀ val ∈ vals, 0 < val ∧ val ≤ LONG_MAX) → SizeSpecified long split vals →
          KeepsBlocks g.vertices.length split res →
            StepFits long g.vertices.length split vals)) ∧
    (BalanceFits long (profileSplit sort set_order conf profile g) split g.vertices.length →
      BalanceKeeps long (profileSplit sort set_order conf profile g) split g.vertices.length ∧
      ∀ est_val res labelled, doBalance long sort set_order conf profile g split =
        some (est_val, res, labelled) → KeepsBlocks g.vertices.length split res) ∧
    (StepsSpecified long (profileSplit sort set_order conf profile g) split →
      BalanceKeeps long (profileSplit sort set_order conf profile g) split g.vertices.length →
        BalanceFits long (profileSplit sort set_order conf profile g) split g.vertices.length) ∧
    ((∀ q, Considered (splitCutSize sort set_order g) order split q →
        KeepsBlocks g.vertices.length split q) ↔
      ∀ s, Taken (splitCutSize sort set_order g) order split s →
        s.length = 1 ∨ ∀ i < s.length, boundary s i < boundary s (i + 1)) := by
  refine ⟨fun vals hvals => ⟨fun idx hidx n_move => ⟨?_, fun hnonneg => ?_⟩, ?_⟩, fun hfits => ?_,
    fun hspecified hkeeps => hkeeps.fits hn hspecified, considered_keepsBlocks_iff hsplit hn⟩
  · exact ⟨fun h => rightFits_of_valid hsplit hn hidx hvals h.1,
      fun h => ⟨scale_right_block_valid hsplit hn hidx hvals h, length_scale_right_block⟩⟩
  · exact ⟨fun h => leftFits_of_valid hsplit hn hidx hvals hnonneg h.1,
      fun h => ⟨scale_left_block_valid hsplit hn hidx hvals h, length_scale_left_block⟩⟩
  · obtain ⟨⟨res, stop⟩, hres⟩ := Option.isSome_iff_exists.mp
      (doBalanceSplitVariance_isSome long hsplit.ne_nil hvals)
    refine ⟨res, stop, hres, fun hfits => ?_, fun hpos hsize hkeeps => ?_⟩
    · exact ⟨doBalanceSplitVariance_valid hsplit hn hvals hfits hres,
        length_of_doBalanceSplitVariance hres⟩
    · exact stepFits_of_valid hsplit hn hvals
        (scaledSize_nonneg hsplit hn hvals hpos hsize) hres hkeeps.1
  · have hkeeps := hfits.keeps hsplit hn fun _ _ _ hvalid => length_vals_le hacyclic hvalid
    refine ⟨hkeeps, fun est_val res labelled hrun => ?_⟩
    obtain ⟨⟨est_val', res'⟩, hloop, hrun⟩ := Option.bind_eq_some_iff.mp hrun
    obtain ⟨-, hrest⟩ := Prod.mk.inj (Option.some.inj hrun)
    obtain ⟨rfl, -⟩ := Prod.mk.inj hrest
    exact hkeeps.result est_val' res' hloop

/-- What does not fit is converted to the least number. -/
def LongCast.indefinite : LongCast where
  cast x := match x with
    | none => -2 ^ 63
    | some x => if toLong (truncate x) = truncate x then truncate x else -2 ^ 63
  cast_eq x hx := if_pos hx
  toLong_cast x := by
    cases x with
    | none => rfl
    | some x =>
      dsimp only
      split_ifs with hx
      · exact hx
      · rfl

def oneDevice : BalanceConf where
  replica_num := 1
  pipeline_num := 1
  batch_size := 4
  dev_mem := 2 ^ 30
  opt_param_factor := 2

theorem oneOperator_acyclic : Acyclic (Edge oneOperator.edges) :=
  acyclic_of_rank (fun v => v) fun {a b} h => by
    have hall : ∀ e ∈ oneOperator.edges, e.1 < e.2 := by decide
    exact hall (a, b) h

theorem splits_stay_valid_oneOperator : ∃ res,
    doBalanceSplitVariance .indefinite [1, 2, 3] [3, 3, 6] = some (res, false) ∧
      KeepsBlocks oneOperator.vertices.length [1, 2, 3] res := by
  have hsplit : ValidSplit oneOperator.vertices.length [1, 2, 3] := ⟨by decide, rfl⟩
  obtain ⟨-, res, stop, hres, hkeeps, -⟩ := (splits_stay_valid .indefinite .sinksFirst .sorted
    (fun _ => inOrder) oneDevice (fun _ _ => none) oneOperator_acyclic (by decide) hsplit).1
      [3, 3, 6] rfl
  have hstop : (doBalanceSplitVariance .indefinite [1, 2, 3] [3, 3, 6]).map Prod.snd =
      some false := by
    decide +kernel
  have hleft : balance_left .indefinite [1, 2, 3] [3, 3, 6] (max_val_diff_block_idx [3, 3, 6])
      (stepMove .indefinite [1, 2, 3] [3, 3, 6]) = some false := by
    decide +kernel
  rw [hres] at hstop
  obtain rfl : stop = false := Option.some.inj hstop
  refine ⟨res, hres, hkeeps (Or.inr fun left h => ?_)⟩
  obtain rfl := Option.some.inj (hleft.symm.trans h)
  exact Or.inl (by decide +kernel)

/-- The first block is to become 61 times as large, an error comes before a split was kept, and the
end of an empty block is moved below zero. -/
theorem not_splits_stay_valid :
    (∃ res, ValidSplit oneOperator.vertices.length [1, 2, 3] ∧
      doBalanceSplitVariance .indefinite [1, 2, 3] [1, 901, 901] = some (res, false) ∧
        ¬ KeepsBlocks oneOperator.vertices.length [1, 2, 3] res) ∧
    (∃ est_val res labelled, ValidSplit oneOperator.vertices.length [3] ∧
      doBalance .indefinite .sinksFirst .sorted oneDevice (fun _ _ => none) oneOperator [3] =
        some (est_val, res, labelled) ∧ ¬ KeepsBlocks oneOperator.vertices.length [3] res) ∧
    ∃ q, ValidSplit oneOperator.vertices.length [0, 3] ∧
      Considered (splitCutSize .sinksFirst .sorted oneOperator) (fun _ => inOrder) [0, 3] q ∧
        ¬ KeepsBlocks oneOperator.vertices.length [0, 3] q := by
  refine ⟨⟨[61, 32, 3], ⟨by decide, rfl⟩, by decide +kernel, ?_⟩, ?_, ?_⟩
  · rintro ⟨⟨hsorted, -⟩, -⟩
    exact absurd hsorted (by decide)
  · have hrun : (doBalance .indefinite .sinksFirst .sorted oneDevice (fun _ _ => none) oneOperator
        [3]).any (fun res => decide (res.2.1 = [])) = true := by
      decide +kernel
    obtain ⟨⟨est_val, res, labelled⟩, hrun, hres⟩ := (Option.any_eq_true _ _).mp hrun
    refine ⟨est_val, res, labelled, ⟨by decide, rfl⟩, hrun, fun h => ?_⟩
    exact h.1.ne_nil (of_decide_eq_true hres)
  · have hcut : splitCutSize .sinksFirst .sorted oneOperator [0, 3] = some 96 := by decide +kernel
    refine ⟨[18446744073709551615, 3], ⟨by decide, rfl⟩, ?_, ?_⟩
    · refine Or.inr ⟨[0, 3], ⟨by decide, 0, by decide, _, .start hcut, by decide, by decide⟩, ?_⟩
      decide
    · rintro ⟨⟨hsorted, -⟩, -⟩
      exact absurd hsorted (by decide)

end Rannc
