import Rannc.Graph.BoundaryValues
import Rannc.Graph.CutSearch
import Rannc.Lib.Greedy

/-!
# Splitting by the sizes of values

The vertices are cut in topological order where the values take more than a share of the whole. The
blocks of the vertices are then greedy blocks, which operators open: there are at most as many as
parts, and the ranks do not go down along the order. An operator that opens a block may however
stand between another operator and one of its outputs, which is then on another rank.
-/
namespace Rannc

open Rannc.Digraph Greedy

/-- Only values have a size; one whose type has none makes the split fail. -/
def addValueSize (g : BGraph) (size v : ℕ) : Option ℕ :=
  if (g.info v).type = .VALUE then
    (g.info v).value.getSizeInByte.map fun value_size => (size + value_size) % 2 ^ 64
  else some size

/-- The size since the last cut, the index of the vertex and the cuts. -/
def splitStep (g : BGraph) (limit : ℕ) (st : ℕ × ℕ × List UInt64) (v : ℕ) :
    Option (ℕ × ℕ × List UInt64) := do
  let (current_size, index, split_indices) := st
  let current_size ← addValueSize g current_size v
  if limit < current_size then return (0, index + 1, split_indices ++ [UInt64.ofNat index])
  else return (current_size, index + 1, split_indices)

def splitByValueSizes (sort : TopologicalSort) (g : BGraph) (n_partition : ℕ) :
    Option (List UInt64) := do
  let topo_vertices := all_nodes_topo sort g
  let total_size ← topo_vertices.foldlM (addValueSize g) 0
  let (_, index, split_indices) ←
    topo_vertices.foldlM (splitStep g (total_size / n_partition)) (0, 0, [])
  return split_indices ++ [UInt64.ofNat index]

/-- An acyclic graph of operators and values. -/
structure BGraph.TypedFlow (g : BGraph) : Prop extends g.BatchTyped where
  type_ne : ∀ {v w}, (v, w) ∈ g.edges → (g.info v).type ≠ (g.info w).type

theorem BGraph.Flow.typedFlow {g : BGraph} (hg : g.Flow) : g.TypedFlow :=
  ⟨hg.batchTyped, fun hvw => (hg.edge hvw).2.2.type_ne⟩

/-- A connection carries a value from a lower to a higher rank. -/
def AscendingConnection (g : BGraph) (con : GraphConnection) : Prop :=
  ∃ u < g.vertices.length, (g.info u).type = .VALUE ∧ (g.info u).name = con.value ∧
    ∃ r r', r < r' ∧ con.src = createSubgraphId g.id r ∧ con.dest = createSubgraphId g.id r'

/-- At most so many ranks, which operators share with their outputs and which do not go down along
the order; and connections that lead to higher ranks, so that the subgraphs have no cycle. -/
structure OrderedPartition (sort : TopologicalSort) (order : SetOrder) (n_partition : ℕ)
    (labelled : BGraph) : Prop where
  few : (allRanks labelled).card ≤ n_partition
  outputs : ∀ v w, (v, w) ∈ labelled.edges → (labelled.info v).type = .NODE →
    labelled.ranks w = labelled.ranks v
  sorted : (all_nodes_topo sort labelled).Pairwise fun v w =>
    ∀ r ∈ labelled.ranks v, ∀ r' ∈ labelled.ranks w, r ≤ r'
  connections : ∃ cons, addConnections order (fixNonBatchRanks sort labelled) = some cons ∧
    (∀ con ∈ cons.connections ++ cons.param_connections, AscendingConnection labelled con) ∧
    ∀ d, createSubGraphs sort order (fixNonBatchRanks sort labelled) = some d →
      ∀ con ∈ d.connections, con.isGraphInput = false → con.isGraphOutput = false →
        con ∈ cons.connections
  acyclic : ∀ d, createSubGraphs sort order (fixNonBatchRanks sort labelled) = some d →
    Acyclic fun a b => ∃ con ∈ d.connections, con.isGraphInput = false ∧
      con.isGraphOutput = false ∧ con.src = a ∧ con.dest = b

section Greedy

variable (g : BGraph)

def valueSize (v : ℕ) : ℕ :=
  if (g.info v).type = .VALUE then (g.info v).value.getSizeInByte.getD 0 else 0

/-- The sum with the size of a vertex. -/
def growSize (size v : ℕ) : ℕ :=
  if (g.info v).type = .VALUE then (size + valueSize g v) % 2 ^ 64 else size

/-- Blocks are opened by operators. -/
def isOpener (v : ℕ) : Bool := (g.info v).type = .NODE

/-- The size of all values. -/
def valueSizes : ℕ := (g.all_nodes.map (valueSize g)).sum

def sizeLimit (n_partition : ℕ) : ℕ := valueSizes g % 2 ^ 64 / n_partition

/-- The greedy blocks of the vertices. -/
def sizeBlocks (n_partition : ℕ) (vertices : List ℕ) : Blocks :=
  blocks (growSize g) (isOpener g) (sizeLimit g n_partition) vertices

/-- An operator that opens a block stands after the outputs of all operators before it. -/
def OutputsFirst (sort : TopologicalSort) (n_partition : ℕ) : Prop :=
  ∀ before u after, all_nodes_topo sort g = before ++ u :: after → (g.info u).type = .NODE →
    0 < (sizeBlocks g n_partition before).due →
      ∀ v ∈ before, (g.info v).type = .NODE → ∀ w, (v, w) ∈ g.edges → w ∈ before

/-- The sum of all sizes does not wrap, or there are not too many blocks though it does. -/
def FewBlocks (sort : TopologicalSort) (n_partition : ℕ) : Prop :=
  valueSizes g < 2 ^ 64 ∨ (sizeBlocks g n_partition (all_nodes_topo sort g)).opened < n_partition

end Greedy

section Sizes

variable {g : BGraph} {sort : TopologicalSort}

theorem isOpener_iff {v : ℕ} : isOpener g v = true ↔ (g.info v).type = .NODE :=
  decide_eq_true_iff

theorem growSize_of_opener {v : ℕ} (hv : isOpener g v = true) (size : ℕ) :
    growSize g size v = size := by
  unfold growSize
  rw [if_neg]
  rw [isOpener_iff.mp hv]
  exact nofun

theorem growSize_le (size v : ℕ) : growSize g size v ≤ size + valueSize g v := by
  unfold growSize
  split_ifs
  · exact Nat.mod_le _ _
  · exact Nat.le_add_right _ _

theorem growSize_eq {size : ℕ} (hsize : size < 2 ^ 64) (v : ℕ) :
    growSize g size v = (size + valueSize g v) % 2 ^ 64 := by
  unfold growSize
  split_ifs with hvalue
  · rfl
  · rw [valueSize, if_neg hvalue, Nat.add_zero, Nat.mod_eq_of_lt hsize]

theorem addValueSize_eq {size size' v : ℕ} (h : addValueSize g size v = some size') :
    size' = growSize g size v := by
  unfold addValueSize at h
  unfold growSize valueSize
  split_ifs at h ⊢ with hvalue
  · obtain ⟨value_size, hvalue_size, rfl⟩ := Option.map_eq_some_iff.mp h
    rw [hvalue_size, Option.getD_some]
  · exact (Option.some.inj h).symm

theorem foldlM_addValueSize {size size' : ℕ} {vs : List ℕ} (hsize : size < 2 ^ 64)
    (h : vs.foldlM (addValueSize g) size = some size') :
    size' = (size + (vs.map (valueSize g)).sum) % 2 ^ 64 := by
  induction vs generalizing size with
  | nil =>
    obtain rfl := Option.some.inj h
    exact (Nat.mod_eq_of_lt hsize).symm
  | cons v vs ih =>
    obtain ⟨size₁, hstep, hrest⟩ := Option.bind_eq_some_iff.mp (List.foldlM_cons.symm.trans h)
    have hgrown := (addValueSize_eq hstep).trans (growSize_eq hsize v)
    rw [ih (hgrown ▸ Nat.mod_lt _ (by decide)) hrest, hgrown, List.map_cons, List.sum_cons,
      Nat.mod_add_mod, Nat.add_assoc]

/-- Where the sum of sizes exceeds the limit, from an index on. -/
def cutPositions (g : BGraph) (limit : ℕ) : ℕ → ℕ → List ℕ → List ℕ
  | _, _, [] => []
  | size, index, v :: vs =>
    if limit < growSize g size v then index :: cutPositions g limit 0 (index + 1) vs
    else cutPositions g limit (growSize g size v) (index + 1) vs

theorem foldlM_splitStep {limit size size' index index' : ℕ} {cuts cuts' : List UInt64}
    {vs : List ℕ} (h : vs.foldlM (splitStep g limit) (size, index, cuts) =
      some (size', index', cuts')) :
    cuts' = cuts ++ (cutPositions g limit size index vs).map UInt64.ofNat ∧
      index' = index + vs.length := by
  induction vs generalizing size index cuts with
  | nil =>
    obtain ⟨rfl, heq⟩ := Prod.mk.inj (Option.some.inj h)
    obtain ⟨rfl, rfl⟩ := Prod.mk.inj heq
    simp [cutPositions]
  | cons v vs ih =>
    obtain ⟨st, hstep, hrest⟩ := Option.bind_eq_some_iff.mp (List.foldlM_cons.symm.trans h)
    obtain ⟨current_size, hsize, hstep⟩ := Option.bind_eq_some_iff.mp hstep
    obtain rfl := addValueSize_eq hsize
    rw [cutPositions]
    split_ifs at hstep ⊢ with hlimit
    · obtain rfl := Option.some.inj hstep
      obtain ⟨hcuts, hindex⟩ := ih hrest
      rw [hcuts, hindex]
      exact ⟨by simp, by simp only [List.length_cons]; omega⟩
    · obtain rfl := Option.some.inj hstep
      obtain ⟨hcuts, hindex⟩ := ih hrest
      rw [hcuts, hindex]
      exact ⟨rfl, by simp only [List.length_cons]; omega⟩

theorem sum_topo_sizes (hacyclic : Acyclic (Edge g.edges)) :
    ((all_nodes_topo sort g).map (valueSize g)).sum = valueSizes g := by
  have hperm : (all_nodes_topo sort g).Perm g.all_nodes :=
    (List.reverse_perm _).trans (sort.perm hacyclic)
  exact (hperm.map (valueSize g)).sum_eq

theorem splitByValueSizes_eq (hacyclic : Acyclic (Edge g.edges)) {n_partition : ℕ}
    {split : List UInt64} (h : splitByValueSizes sort g n_partition = some split) :
    split = (cutPositions g (sizeLimit g n_partition) 0 0 (all_nodes_topo sort g) ++
      [(all_nodes_topo sort g).length]).map UInt64.ofNat := by
  obtain ⟨total_size, htotal, h⟩ := Option.bind_eq_some_iff.mp h
  obtain ⟨⟨size, index, split_indices⟩, hsteps, h⟩ := Option.bind_eq_some_iff.mp h
  have htotal_eq := foldlM_addValueSize (by decide) htotal
  rw [sum_topo_sizes hacyclic, Nat.zero_add] at htotal_eq
  rw [htotal_eq] at hsteps
  obtain ⟨hcuts, hindex⟩ := foldlM_splitStep hsteps
  obtain rfl := Option.some.inj h
  rw [hcuts, hindex]
  simp [sizeLimit]

theorem cutPositions_mem {limit size index c : ℕ} {vs : List ℕ}
    (hc : c ∈ cutPositions g limit size index vs) : index ≤ c ∧ c < index + vs.length := by
  induction vs generalizing size index with
  | nil => exact absurd hc List.not_mem_nil
  | cons v vs ih =>
    rw [cutPositions] at hc
    rw [List.length_cons]
    split_ifs at hc
    · rcases List.mem_cons.mp hc with rfl | hc
      · omega
      · have hrest := ih hc
        omega
    · have hrest := ih hc
      omega

theorem cutPositions_of_opener {limit size index v : ℕ} {vs : List ℕ} (hsize : size ≤ limit)
    (hv : isOpener g v = true) :
    cutPositions g limit size index (v :: vs) = cutPositions g limit size (index + 1) vs := by
  rw [cutPositions, growSize_of_opener hv, if_neg (Nat.not_lt.mpr hsize)]

end Sizes

section Labels

variable {g : BGraph} {limit : ℕ} {split : List UInt64}

/-- The labels after some vertices: each has the number of blocks opened so far, and the cuts that
are not used are those of the blocks that are due and those to come. -/
structure RankedTo (g : BGraph) (limit : ℕ) (split : List UInt64) (before left : List ℕ)
    (st : BGraph × ℕ × ℕ) : Prop where
  erase : st.1.erase = g.erase
  rank : st.2.1 = (blocks (growSize g) (isOpener g) limit before).opened
  index : st.2.2 = before.length
  ranks : ∀ b₁ v b₂, before = b₁ ++ v :: b₂ →
    st.1.ranks v = {(blocks (growSize g) (isOpener g) limit (b₁ ++ [v])).opened}
  unranked : ∀ v ∉ before, st.1.ranks v = ∅
  cuts : ∃ pend, pend.length = (blocks (growSize g) (isOpener g) limit before).due ∧
    (∀ c ∈ pend, c < before.length) ∧ split.drop st.2.1 =
      (pend ++ cutPositions g limit (blocks (growSize g) (isOpener g) limit before).size
        before.length left ++ [before.length + left.length]).map UInt64.ofNat

/-- A cut is used at an operator when a block is due. -/
theorem RankedTo.cut_iff {before left : List ℕ} {v : ℕ} {st : BGraph × ℕ × ℕ}
    (h : RankedTo g limit split before (v :: left) st) (hv : isOpener g v = true)
    (hlength : (before ++ v :: left).length < 2 ^ 64) :
    (∃ s ∈ split[st.2.1]?, s.toNat ≤ st.2.2) ↔
      0 < (blocks (growSize g) (isOpener g) limit before).due := by
  obtain ⟨pend, hpend, hused, hcuts⟩ := h.cuts
  rw [List.length_append, List.length_cons] at hlength
  have hhead : split[st.2.1]? = (split.drop st.2.1)[0]? := by
    rw [List.getElem?_drop, Nat.add_zero]
  rw [hhead, hcuts, h.index, ← hpend, cutPositions_of_opener (size_blocks_le before) hv]
  cases pend with
  | cons c pend =>
    have hc := hused c List.mem_cons_self
    have hto : (UInt64.ofNat c).toNat = c := by
      rw [UInt64.toNat_ofNat']
      exact Nat.mod_eq_of_lt (by omega)
    simpa [hto] using hc.le
  | nil =>
    have hlater : ∀ c ∈ cutPositions g limit (blocks (growSize g) (isOpener g) limit before).size
        (before.length + 1) left ++ [before.length + (v :: left).length],
          before.length < c ∧ c < 2 ^ 64 := by
      intro c hc
      rw [List.length_cons] at hc
      rcases List.mem_append.mp hc with hc | hc
      · have hbounds := cutPositions_mem hc
        omega
      · rw [List.mem_singleton] at hc
        omega
    rw [List.nil_append, List.getElem?_map]
    simp only [List.length_nil, lt_irrefl, iff_false]
    rintro ⟨s, hs, hle⟩
    obtain ⟨c, hc, rfl⟩ := Option.map_eq_some_iff.mp hs
    obtain ⟨hlt, hfits⟩ := hlater c (List.mem_of_getElem? hc)
    rw [UInt64.toNat_ofNat', Nat.mod_eq_of_lt hfits] at hle
    omega

/-- The cuts that are left after one vertex. -/
theorem cuts_step {before left pend : List ℕ} {v : ℕ}
    (hpend : pend.length = (blocks (growSize g) (isOpener g) limit before).due)
    (hused : ∀ c ∈ pend, c < before.length)
    (hcuts : split.drop (blocks (growSize g) (isOpener g) limit before).opened =
      (pend ++ cutPositions g limit (blocks (growSize g) (isOpener g) limit before).size
        before.length (v :: left) ++ [before.length + (v :: left).length]).map UInt64.ofNat) :
    ∃ pend', pend'.length = (blocks (growSize g) (isOpener g) limit (before ++ [v])).due ∧
      (∀ c ∈ pend', c < (before ++ [v]).length) ∧
      split.drop (blocks (growSize g) (isOpener g) limit (before ++ [v])).opened =
        (pend' ++ cutPositions g limit
          (blocks (growSize g) (isOpener g) limit (before ++ [v])).size (before ++ [v]).length left
            ++ [(before ++ [v]).length + left.length]).map UInt64.ofNat := by
  have hsize : (blocks (growSize g) (isOpener g) limit before).size ≤ limit := size_blocks_le before
  have hend : before.length + (v :: left).length = (before ++ [v]).length + left.length := by
    rw [List.length_append, List.length_cons, List.length_singleton]
    omega
  have hlength : (before ++ [v]).length = before.length + 1 := by simp
  rw [hend] at hcuts
  rw [blocks_concat, hlength]
  rw [hlength] at hcuts
  set b := blocks (growSize g) (isOpener g) limit before
  rcases step_cases (growSize g) (isOpener g) limit b v with
    ⟨hv, hdue, heq⟩ | ⟨hv, hdue, heq⟩ | ⟨hv, hexceeds, heq⟩ | ⟨hv, hfits, heq⟩ <;> rw [heq]
  · -- the operator uses the first of the cuts that are due
    obtain ⟨c, pend', rfl⟩ := List.exists_cons_of_length_pos (hpend.symm ▸ hdue)
    rw [cutPositions_of_opener hsize hv] at hcuts
    refine ⟨pend', by rw [← hpend]; rfl, fun c' hc' => ?_, ?_⟩
    · exact Nat.lt_succ_of_lt (hused c' (List.mem_cons_of_mem _ hc'))
    · rw [← List.drop_drop, hcuts]
      rfl
  · rw [cutPositions_of_opener hsize hv] at hcuts
    exact ⟨pend, hpend, fun c hc => Nat.lt_succ_of_lt (hused c hc), hcuts⟩
  · -- a cut at the value is due from now on
    refine ⟨pend ++ [before.length], by simp [hpend], fun c hc => ?_, ?_⟩
    · rcases List.mem_append.mp hc with hc | hc
      · exact Nat.lt_succ_of_lt (hused c hc)
      · rw [List.mem_singleton] at hc
        omega
    · rw [cutPositions, if_pos hexceeds] at hcuts
      simpa using hcuts
  · rw [cutPositions, if_neg (Nat.not_lt.mpr hfits)] at hcuts
    exact ⟨pend, hpend, fun c hc => Nat.lt_succ_of_lt (hused c hc), hcuts⟩

theorem RankedTo.step {before left : List ℕ} {v : ℕ} {st : BGraph × ℕ × ℕ}
    (h : RankedTo g limit split before (v :: left) st) (hv : v < g.vertices.length)
    (hnew : v ∉ before) (hlength : (before ++ v :: left).length < 2 ^ 64) :
    RankedTo g limit split (before ++ [v]) left (setRank split st v) := by
  have hlt : v < st.1.vertices.length := by rwa [BGraph.length_of_erase h.erase]
  have hrank : (setRank split st v).2.1 =
      (blocks (growSize g) (isOpener g) limit (before ++ [v])).opened := by
    dsimp only [setRank]
    rw [opened_concat, type_of_erase h.erase, h.rank]
    by_cases hnode : isOpener g v = true
    · have hcut := h.cut_iff hnode hlength
      rw [h.rank] at hcut
      simp only [hnode, true_and, isOpener_iff.mp hnode, and_true, hcut]
    · have hvalue : ¬(g.info v).type = .NODE := fun htype => hnode (isOpener_iff.mpr htype)
      simp [hnode, hvalue]
  have hself : st.1.ranks v = ∅ := h.unranked v hnew
  have hset : ∀ w, (setRank split st v).1.ranks w =
      if w = v then {(setRank split st v).2.1} else st.1.ranks w := by
    intro w
    dsimp only [setRank]
    rw [BGraph.ranks_set_ranks hlt, hself]
    rfl
  constructor
  case erase => exact (BGraph.erase_set_ranks v _).trans h.erase
  case rank => exact hrank
  case index =>
    rw [List.length_append, List.length_singleton, ← h.index]
    rfl
  case ranks =>
    intro b₁ w b₂ hsplit
    rw [hset, hrank]
    rcases List.eq_nil_or_concat b₂ with rfl | ⟨b₂', x, rfl⟩
    · obtain ⟨rfl, hlast⟩ := List.append_inj' hsplit rfl
      obtain rfl : v = w := by simpa using hlast
      rw [if_pos rfl]
    · rw [List.concat_eq_append, ← List.cons_append, ← List.append_assoc] at hsplit
      obtain ⟨hbefore, -⟩ := List.append_inj' hsplit rfl
      have hne : w ≠ v := by
        rintro rfl
        exact hnew (hbefore ▸ List.mem_append_right _ List.mem_cons_self)
      rw [if_neg hne]
      exact h.ranks b₁ w b₂' hbefore
  case unranked =>
    intro w hw
    rw [List.mem_append, List.mem_singleton, not_or] at hw
    rw [hset, if_neg hw.2]
    exact h.unranked w hw.1
  case cuts =>
    obtain ⟨pend, hpend, hused, hcuts⟩ := h.cuts
    rw [h.rank] at hcuts
    rw [hrank]
    exact cuts_step hpend hused hcuts

theorem RankedTo.run {before left : List ℕ} {st : BGraph × ℕ × ℕ}
    (h : RankedTo g limit split before left st) (hbound : ∀ v ∈ left, v < g.vertices.length)
    (hnodup : (before ++ left).Nodup) (hlength : (before ++ left).length < 2 ^ 64) :
    RankedTo g limit split (before ++ left) [] (left.foldl (setRank split) st) := by
  induction left generalizing before st with
  | nil => rwa [List.append_nil]
  | cons v left ih =>
    have hnew : v ∉ before := fun hmem =>
      (List.nodup_append.mp hnodup).2.2 v hmem v List.mem_cons_self rfl
    have hstep := h.step (hbound v List.mem_cons_self) hnew hlength
    rw [List.append_cons] at hnodup hlength ⊢
    exact ih hstep (fun w hw => hbound w (List.mem_cons_of_mem _ hw)) hnodup hlength

end Labels

theorem FewBlocks.opened_lt {sort : TopologicalSort} {g : BGraph} {n_partition : ℕ}
    (h : FewBlocks g sort n_partition) (hacyclic : Acyclic (Edge g.edges)) (hn : 1 ≤ n_partition) :
    (sizeBlocks g n_partition (all_nodes_topo sort g)).opened < n_partition := by
  refine h.elim (fun hfits => ?_) id
  refine Greedy.opened_lt growSize_le hn (sum_topo_sizes hacyclic).le ?_
  rw [sizeLimit, Nat.mod_eq_of_lt hfits]

/-- The vertices have the numbers of their blocks as ranks. -/
structure SizeLabels (sort : TopologicalSort) (n_partition : ℕ) (g labelled : BGraph) : Prop where
  erase : labelled.erase = g.erase
  ranks : ∀ before v after, all_nodes_topo sort g = before ++ v :: after →
    labelled.ranks v = {(sizeBlocks g n_partition (before ++ [v])).opened}

theorem setRanksOnGraph_sizeLabels {sort : TopologicalSort} {g : BGraph}
    (hacyclic : Acyclic (Edge g.edges)) {n_partition : ℕ} (hlength : g.vertices.length < 2 ^ 64)
    {split : List UInt64}
    (hsplit : splitByValueSizes sort g n_partition = some split) :
    SizeLabels sort n_partition g (setRanksOnGraph sort g split) := by
  have htopo_length : (all_nodes_topo sort g).length = g.vertices.length := by
    unfold all_nodes_topo
    rw [List.length_reverse, (sort.perm hacyclic).length_eq, List.length_range]
  have hstart : RankedTo g (sizeLimit g n_partition) split [] (all_nodes_topo sort g)
      (g.erase, 0, 0) := by
    constructor
    case erase => simp [BGraph.erase]
    case rank => rfl
    case index => rfl
    case ranks => exact fun b₁ v b₂ hb => absurd hb (by simp)
    case unranked => exact fun v _ => by rw [BGraph.ranks, BGraph.info_erase]
    case cuts =>
      refine ⟨[], rfl, fun n hn => absurd hn List.not_mem_nil, ?_⟩
      rw [List.drop_zero, splitByValueSizes_eq hacyclic hsplit, List.length_nil,
        Nat.zero_add]
      rfl
  have hrun := hstart.run (fun v hv => (mem_topo_iff hacyclic).mp hv)
    (by simpa using nodup_topo hacyclic) (by simpa [htopo_length] using hlength)
  exact ⟨hrun.erase, hrun.ranks⟩

namespace SizeLabels

variable {sort : TopologicalSort} {order : SetOrder} {n_partition : ℕ} {g labelled : BGraph}

theorem topo_eq (h : SizeLabels sort n_partition g labelled) :
    all_nodes_topo sort labelled = all_nodes_topo sort g := by
  unfold all_nodes_topo
  rw [BGraph.length_of_erase h.erase, BGraph.edges_of_erase h.erase]

theorem ranks_getElem (h : SizeLabels sort n_partition g labelled) {i : ℕ}
    (hi : i < (all_nodes_topo sort g).length) : labelled.ranks (all_nodes_topo sort g)[i] =
      {(sizeBlocks g n_partition ((all_nodes_topo sort g).take (i + 1))).opened} := by
  have hsplit : all_nodes_topo sort g = (all_nodes_topo sort g).take i ++
      (all_nodes_topo sort g)[i] :: (all_nodes_topo sort g).drop (i + 1) := by
    rw [List.cons_getElem_drop_succ, List.take_append_drop]
  rw [h.ranks _ _ _ hsplit, List.take_succ_eq_append_getElem hi]

theorem exists_rank (h : SizeLabels sort n_partition g labelled) (hacyclic : Acyclic (Edge g.edges))
    {v : ℕ} (hv : v < g.vertices.length) : ∃ r, labelled.ranks v = {r} := by
  have hmem : v ∈ all_nodes_topo sort g := (mem_topo_iff hacyclic).mpr hv
  obtain ⟨before, after, hsplit⟩ := List.append_of_mem hmem
  exact ⟨_, h.ranks before v after hsplit⟩

theorem allRanks_eq (h : SizeLabels sort n_partition g labelled)
    (hacyclic : Acyclic (Edge g.edges)) (hne : all_nodes_topo sort g ≠ []) : allRanks labelled =
      Finset.range ((sizeBlocks g n_partition (all_nodes_topo sort g)).opened + 1) := by
  ext r
  rw [mem_allRanks, Finset.mem_range, Nat.lt_succ_iff, BGraph.length_of_erase h.erase]
  constructor
  · rintro ⟨v, hv, hrank⟩
    have hmem : v ∈ all_nodes_topo sort g := (mem_topo_iff hacyclic).mpr hv
    obtain ⟨before, after, hsplit⟩ := List.append_of_mem hmem
    rw [h.ranks before v after hsplit, Finset.mem_singleton] at hrank
    have hle : (sizeBlocks g n_partition (before ++ [v])).opened ≤ _ :=
      opened_le_append (before ++ [v]) after
    rwa [hrank, hsplit, List.append_cons before v after]
  · intro hr
    obtain ⟨before, v, after, hsplit, hopened⟩ := exists_opened_eq hne hr
    have hmem : v ∈ all_nodes_topo sort g := by simp [hsplit]
    refine ⟨v, (mem_topo_iff hacyclic).mp hmem, ?_⟩
    rw [h.ranks before v after hsplit, ← hopened]
    exact Finset.mem_singleton_self _

theorem few_iff (h : SizeLabels sort n_partition g labelled) (hacyclic : Acyclic (Edge g.edges))
    (hn : 1 ≤ n_partition) : (allRanks labelled).card ≤ n_partition ↔
      FewBlocks g sort n_partition := by
  have hiff : FewBlocks g sort n_partition ↔
      (sizeBlocks g n_partition (all_nodes_topo sort g)).opened < n_partition :=
    ⟨fun hfew => hfew.opened_lt hacyclic hn, Or.inr⟩
  rw [hiff]
  by_cases hne : all_nodes_topo sort g = []
  · have hlength : g.vertices.length = 0 := by
      by_contra hpos
      have hmem : 0 ∈ all_nodes_topo sort g :=
        (mem_topo_iff hacyclic).mpr (Nat.pos_of_ne_zero hpos)
      exact absurd (hne ▸ hmem) List.not_mem_nil
    have hnone : allRanks labelled = ∅ := by
      ext r
      simp [mem_allRanks, BGraph.length_of_erase h.erase, hlength]
    rw [hnone, hne]
    exact iff_of_true (Nat.zero_le _) hn
  · rw [h.allRanks_eq hacyclic hne, Finset.card_range]
    exact Nat.succ_le_iff

theorem sorted (h : SizeLabels sort n_partition g labelled) :
    (all_nodes_topo sort labelled).Pairwise fun v w =>
      ∀ r ∈ labelled.ranks v, ∀ r' ∈ labelled.ranks w, r ≤ r' := by
  rw [h.topo_eq, List.pairwise_iff_getElem]
  intro i j hi hj hij r hr r' hr'
  rw [h.ranks_getElem hi, Finset.mem_singleton] at hr
  rw [h.ranks_getElem hj, Finset.mem_singleton] at hr'
  obtain ⟨between, hbetween⟩ : (all_nodes_topo sort g).take (i + 1) <+:
      (all_nodes_topo sort g).take (j + 1) := List.take_prefix_take_left (by omega)
  rw [hr, hr', ← hbetween]
  exact opened_le_append _ _

theorem exists_split (sort : TopologicalSort) (hg : g.TypedFlow) {v w : ℕ}
    (hvw : (v, w) ∈ g.edges) :
    ∃ before between after, all_nodes_topo sort g = before ++ v :: (between ++ w :: after) := by
  obtain ⟨hv, hw⟩ := hg.bound hvw
  have hmem : w ∈ all_nodes_topo sort g := (mem_topo_iff hg.acyclic).mpr hw
  obtain ⟨before, after, hsplit⟩ := List.append_of_mem hmem
  obtain ⟨first, between, rfl⟩ := List.append_of_mem (mem_before_of_edge hg.acyclic hsplit hv hvw)
  refine ⟨first, between, after, ?_⟩
  rw [hsplit, List.append_assoc, List.cons_append]

theorem le_of_edge (h : SizeLabels sort n_partition g labelled) (hg : g.TypedFlow) {v w r r' : ℕ}
    (hvw : (v, w) ∈ g.edges) (hr : r ∈ labelled.ranks v) (hr' : r' ∈ labelled.ranks w) :
    r ≤ r' := by
  obtain ⟨before, between, after, hsplit⟩ := exists_split sort hg hvw
  have hsplit' : all_nodes_topo sort g = (before ++ v :: between) ++ w :: after := by
    rw [hsplit, List.append_assoc, List.cons_append]
  rw [h.ranks _ _ _ hsplit, Finset.mem_singleton] at hr
  rw [h.ranks _ _ _ hsplit', Finset.mem_singleton, List.append_cons before, List.append_assoc]
    at hr'
  rw [hr, hr']
  exact opened_le_append _ _

/-- The ranks of operators and outputs differ where a block is opened between them. -/
theorem outputs_iff (h : SizeLabels sort n_partition g labelled) (hg : g.TypedFlow) :
    (∀ v w, (v, w) ∈ labelled.edges → (labelled.info v).type = .NODE →
      labelled.ranks w = labelled.ranks v) ↔ OutputsFirst g sort n_partition := by
  have hedges := BGraph.edges_of_erase h.erase
  have hnodup : (all_nodes_topo sort g).Nodup := nodup_topo hg.acyclic
  constructor
  · intro houtputs before u after hsplit hu hdue v hv hnode w hvw
    by_contra hw
    have hranks := houtputs v w (hedges ▸ hvw) (by rwa [type_of_erase h.erase])
    have hmem : w ∈ all_nodes_topo sort g := (mem_topo_iff hg.acyclic).mpr (hg.bound hvw).2
    have hne : w ≠ u := by
      rintro rfl
      exact hg.type_ne hvw (hnode.trans hu.symm)
    rw [hsplit, List.mem_append, List.mem_cons] at hmem
    obtain ⟨between, last, rfl⟩ := List.append_of_mem ((hmem.resolve_left hw).resolve_left hne)
    obtain ⟨first, rest, rfl⟩ := List.append_of_mem hv
    have hsplit_v : all_nodes_topo sort g =
        first ++ v :: (rest ++ u :: (between ++ w :: last)) := by
      rw [hsplit, List.append_assoc, List.cons_append]
    have hsplit_w : all_nodes_topo sort g =
        (first ++ v :: rest ++ u :: between) ++ w :: last := by simp [hsplit]
    have hopened : (sizeBlocks g n_partition (first ++ v :: rest ++ [u])).opened = _ :=
      opened_concat (first ++ v :: rest) u
    rw [if_pos ⟨isOpener_iff.mpr hu, hdue⟩] at hopened
    have hfirst : (sizeBlocks g n_partition (first ++ [v])).opened ≤ _ :=
      opened_le_append (first ++ [v]) rest
    have hlast : (sizeBlocks g n_partition (first ++ v :: rest ++ [u])).opened ≤ _ :=
      opened_le_append (first ++ v :: rest ++ [u]) (between ++ [w])
    rw [h.ranks _ _ _ hsplit_v, h.ranks _ _ _ hsplit_w, Finset.singleton_inj] at hranks
    simp only [sizeBlocks, List.append_assoc, List.cons_append, List.nil_append] at *
    omega
  · intro hfirst v w hvw hnode
    rw [hedges] at hvw
    rw [type_of_erase h.erase] at hnode
    obtain ⟨before, between, after, hsplit⟩ := exists_split sort hg hvw
    have hsplit' : all_nodes_topo sort g = (before ++ v :: between) ++ w :: after := by
      rw [hsplit, List.append_assoc, List.cons_append]
    rw [h.ranks _ _ _ hsplit, h.ranks _ _ _ hsplit', Finset.singleton_inj, List.append_cons before,
      List.append_assoc]
    refine opened_append_of_quiet (before ++ [v]) fun ys₁ u ys₂ hys hopens => ?_
    by_contra hdue
    have hsplit_u : all_nodes_topo sort g = (before ++ [v] ++ ys₁) ++ u :: (ys₂ ++ after) := by
      rw [hsplit, List.append_cons before, List.append_cons between, hys]
      simp
    have hmem : w ∈ before ++ [v] ++ ys₁ :=
      hfirst _ u _ hsplit_u (isOpener_iff.mp hopens) (Nat.pos_of_ne_zero hdue) v (by simp) hnode w
        hvw
    have hlater : w ∈ u :: ys₂ := by
      have hlast := congrArg List.getLast? hys
      rw [List.getLast?_concat, List.getLast?_append_cons] at hlast
      exact List.mem_of_getLast? hlast.symm
    rw [hsplit_u, ← List.cons_append, ← List.append_assoc] at hnodup
    exact (List.nodup_append.mp (List.nodup_append.mp hnodup).1).2.2 w hmem w hlater rfl

end SizeLabels

/-- Ranks that may be moved, but not below the labels. -/
structure NotBelow (labelled g : BGraph) : Prop where
  erase : g.erase = labelled.erase
  nonempty : ∀ v < labelled.vertices.length, (g.ranks v).Nonempty
  le : ∀ v < labelled.vertices.length, ∀ r ∈ labelled.ranks v, ∀ r' ∈ g.ranks v, r ≤ r'

section Connections

variable {sort : TopologicalSort} {order : SetOrder} {n_partition : ℕ} {g g' labelled : BGraph}
  {cons : ConnectionLists} {con : GraphConnection}

/-- A vertex takes the ranks of what it leads to, which has no lower labels. -/
theorem NotBelow.fixRank (h : NotBelow labelled g')
    (hlabels : SizeLabels sort n_partition g labelled) (hg : g.TypedFlow) {v : ℕ}
    (hv : v < labelled.vertices.length) :
    NotBelow labelled (fixRank g' v) := by
  have hranks := fixRank_ranks (g := g') (v := v) (BGraph.length_of_erase h.erase ▸ hv)
  have hedges : g'.edges = g.edges :=
    (BGraph.edges_of_erase h.erase).trans (BGraph.edges_of_erase hlabels.erase)
  refine ⟨(fixRank_erase g' v).trans h.erase, fun w hw => ?_, fun w hw r hr r' hr' => ?_⟩
  · rw [hranks w]
    split_ifs with hfix
    · exact hfix.2.2
    · exact h.nonempty w hw
  · rw [hranks w] at hr'
    split_ifs at hr' with hfix
    · obtain ⟨rfl, -, -⟩ := hfix
      obtain ⟨u, hwu, hu⟩ := mem_targetRanks.mp hr'
      rw [hedges] at hwu
      have hult := (hg.bound hwu).2
      obtain ⟨s, hs⟩ := hlabels.exists_rank hg.acyclic hult
      rw [← BGraph.length_of_erase hlabels.erase] at hult
      have hmem : s ∈ labelled.ranks u := hs ▸ Finset.mem_singleton_self s
      exact (hlabels.le_of_edge hg hwu hr hmem).trans (h.le u hult s hmem r' hu)
    · exact h.le w hw r hr r' hr'

theorem fixNonBatchRanks_notBelow (hlabels : SizeLabels sort n_partition g labelled)
    (hg : g.TypedFlow) : NotBelow labelled (fixNonBatchRanks sort labelled) := by
  have hlength := BGraph.length_of_erase hlabels.erase
  have hbound : ∀ v ∈ sort.sort labelled.vertices.length labelled.edges,
      v < labelled.vertices.length := by
    intro v hv
    rw [BGraph.edges_of_erase hlabels.erase, (sort.perm hg.acyclic).mem_iff] at hv
    exact List.mem_range.mp hv
  have hstart : NotBelow labelled labelled := by
    refine ⟨rfl, fun v hv => ?_, fun v hv r hr r' hr' => ?_⟩
    all_goals obtain ⟨s, hs⟩ := hlabels.exists_rank hg.acyclic (hlength ▸ hv)
    · exact hs ▸ Finset.singleton_nonempty s
    · rw [hs, Finset.mem_singleton] at hr hr'
      rw [hr, hr']
  unfold fixNonBatchRanks
  generalize sort.sort labelled.vertices.length labelled.edges = vs at hbound ⊢
  have hrun : ∀ g', NotBelow labelled g' → NotBelow labelled (vs.foldl Rannc.fixRank g') := by
    induction vs with
    | nil => exact fun g' h => h
    | cons v vs ih =>
      intro g' h
      exact ih (fun w hw => hbound w (List.mem_cons_of_mem _ hw)) _
        (h.fixRank hlabels hg (hbound v List.mem_cons_self))
  exact hrun labelled hstart

theorem addConnections_isSome (hg : ∀ {v w}, (v, w) ∈ g.edges → (g.ranks v).Nonempty) :
    (addConnections order g).isSome := by
  refine foldlM_isSome (fun cons e he => foldlM_isSome (fun cons r _ => ?_) cons) _
  obtain ⟨s, hs⟩ := hg (v := e.1) (w := e.2) he
  obtain ⟨s', hhead⟩ := Option.isSome_iff_exists.mp
    (List.isSome_head?.mpr (List.ne_nil_of_mem (order.mem.mpr hs)))
  simp only [addConnection, hhead, Option.bind_eq_bind, Option.bind_some]
  split_ifs <;> rfl

/-- What crosses to another rank is the value of a batch and leads to a higher one. -/
theorem Fixed.crossing_ascending (hfixed : Fixed labelled g') (hg : g.TypedFlow)
    (hlabels : SizeLabels sort n_partition g labelled) (hshares : labelled.SharesRanks)
    (hbelow : NotBelow labelled g') {u v r r' : ℕ} (hc : Crossing g' u v r)
    (hhead : (order.order (g'.ranks u)).head? = some r') :
    AscendingConnection labelled (crossingConnection g' u v r r') := by
  have herase := BGraph.info_of_erase hfixed.erase u
  have hname := congrArg VertexInfo.name herase
  have hid := congrArg BGraph.id hfixed.erase
  dsimp only at hname hid
  have hedge : (u, v) ∈ g.edges := by
    rw [← BGraph.edges_of_erase hlabels.erase, ← BGraph.edges_of_erase hfixed.erase]
    exact hc.edge
  obtain ⟨hu, hv⟩ := hg.bound hedge
  obtain ⟨hvalue, hbatch⟩ :=
    hfixed.crossing_batch (hg.toBatchTyped.of_erase hlabels.erase) hshares hc
  obtain ⟨s, hs⟩ := hlabels.exists_rank hg.acyclic hu
  obtain ⟨t, ht⟩ := hlabels.exists_rank hg.acyclic hv
  have hranks := hfixed.ranks_of_batch hbatch
  rw [hs] at hranks
  have hr' : r' = s := by
    have hmem := order.mem.mp (List.mem_of_head? hhead)
    rwa [hranks, Finset.mem_singleton] at hmem
  have hne : r ≠ s := by
    have hsource := hc.source
    rwa [hranks, Finset.mem_singleton] at hsource
  have hle : s ≤ t := hlabels.le_of_edge hg hedge (by simp [hs]) (by simp [ht])
  rw [← BGraph.length_of_erase hlabels.erase] at hu hv
  have hle' : t ≤ r := hbelow.le v hv t (by simp [ht]) r hc.target
  refine ⟨u, hu, type_of_erase hfixed.erase u ▸ hvalue, hname.symm, r', r, by omega, ?_, ?_⟩
  · exact congrArg (createSubgraphId · r') hid
  · exact congrArg (createSubgraphId · r) hid

theorem acyclic_of_ascending {connections : List GraphConnection}
    (h : ∀ con ∈ connections, con.isGraphInput = false → con.isGraphOutput = false →
      AscendingConnection g con) : Acyclic fun a b => ∃ con ∈ connections,
        con.isGraphInput = false ∧ con.isGraphOutput = false ∧ con.src = a ∧ con.dest = b := by
  have hlt : ∀ {a b}, Relation.TransGen (fun a b => ∃ con ∈ connections, con.isGraphInput = false ∧
      con.isGraphOutput = false ∧ con.src = a ∧ con.dest = b) a b →
      ∃ r r', r < r' ∧ a = createSubgraphId g.id r ∧ b = createSubgraphId g.id r' := by
    intro a b hab
    induction hab with
    | single hab =>
      obtain ⟨con, hcon, hin, hout, rfl, rfl⟩ := hab
      obtain ⟨-, -, -, -, hranks⟩ := h con hcon hin hout
      exact hranks
    | tail _ hbc ih =>
      obtain ⟨con, hcon, hin, hout, rfl, rfl⟩ := hbc
      obtain ⟨-, -, -, -, s, s', hs, hsrc, hdest⟩ := h con hcon hin hout
      obtain ⟨r, r', hr, ha, hb⟩ := ih
      obtain rfl := createSubgraphId_inj.mp (hb.symm.trans hsrc)
      exact ⟨r, s', hr.trans hs, ha, hdest⟩
  intro a ha
  obtain ⟨r, r', hr, hsrc, hdest⟩ := hlt ha
  exact hr.ne (createSubgraphId_inj.mp (hsrc.symm.trans hdest))

end Connections

/-- The partition is ordered unless sums that wrap give too many blocks or an operator that opens a
block comes between another operator and one of its outputs. -/
theorem orderedPartition_iff (sort : TopologicalSort) (order : SetOrder) {g : BGraph}
    (hg : g.TypedFlow) {n_partition : ℕ} (hn : 1 ≤ n_partition)
    (hlength : g.vertices.length < 2 ^ 64) {split : List UInt64}
    (hsplit : splitByValueSizes sort g n_partition = some split) :
    OrderedPartition sort order n_partition (setRanksOnGraph sort g split) ↔
      FewBlocks g sort n_partition ∧ OutputsFirst g sort n_partition := by
  have hlabels := setRanksOnGraph_sizeLabels hg.acyclic hlength hsplit
  constructor
  · exact fun h => ⟨(hlabels.few_iff hg.acyclic hn).mp h.few, (hlabels.outputs_iff hg).mp h.outputs⟩
  · rintro ⟨hfew, hfirst⟩
    set labelled := setRanksOnGraph sort g split
    have houtputs := (hlabels.outputs_iff hg).mpr hfirst
    have hshares : labelled.SharesRanks := fun v w hlabel hvw =>
      houtputs v w hvw (type_of_isLabelled hlabel)
    have htyped := hg.toBatchTyped.of_erase hlabels.erase
    have hfixed := fixNonBatchRanks_fixed_of_acyclic sort htyped.acyclic
      fun hvw => (htyped.bound hvw).1
    have hbelow := fixNonBatchRanks_notBelow hlabels hg
    have hsome : (addConnections order (fixNonBatchRanks sort labelled)).isSome :=
      addConnections_isSome fun {v w} hvw => by
        rw [BGraph.edges_of_erase hbelow.erase] at hvw
        exact hbelow.nonempty v (htyped.bound hvw).1
    obtain ⟨cons, hcons⟩ := Option.isSome_iff_exists.mp hsome
    have hok := addConnections_ok hcons
    have hascending : ∀ con ∈ cons.connections ++ cons.param_connections,
        AscendingConnection labelled con := by
      intro con hcon
      rcases List.mem_append.mp hcon with hcon | hcon
      · obtain ⟨u, v, r, r', hc, hhead, -, rfl⟩ := hok.sound con hcon
        exact hfixed.crossing_ascending hg hlabels hshares hbelow hc hhead
      · obtain ⟨u, v, r, r', hc, hhead, -, rfl⟩ := hok.param_sound con hcon
        exact hfixed.crossing_ascending hg hlabels hshares hbelow hc hhead
    have hbetween : ∀ d, createSubGraphs sort order (fixNonBatchRanks sort labelled) = some d →
        ∀ con ∈ d.connections, con.isGraphInput = false → con.isGraphOutput = false →
          con ∈ cons.connections := by
      intro d hd con hcon hin hout
      obtain ⟨cons', hcons', -, hconnections⟩ := createSubGraphs_spec hd
      obtain rfl := Option.some.inj (hcons.symm.trans hcons')
      rw [hconnections] at hcon
      exact mem_masterConnections hcon hin hout
    constructor
    case few => exact (hlabels.few_iff hg.acyclic hn).mpr hfew
    case outputs => exact houtputs
    case sorted => exact hlabels.sorted
    case connections => exact ⟨cons, hcons, hascending, hbetween⟩
    case acyclic =>
      exact fun d hd => acyclic_of_ascending fun con hcon hin hout =>
        hascending con (List.mem_append_left _ (hbetween d hd con hcon hin hout))

theorem OutputsFirst.of_checks {sort : TopologicalSort} {g : BGraph} {n_partition : ℕ}
    (h : ∀ i (hi : i < (all_nodes_topo sort g).length),
      (g.info (all_nodes_topo sort g)[i]).type = .NODE →
        0 < (sizeBlocks g n_partition ((all_nodes_topo sort g).take i)).due → ∀ e ∈ g.edges,
          (g.info e.1).type = .NODE → e.1 ∈ (all_nodes_topo sort g).take i →
            e.2 ∈ (all_nodes_topo sort g).take i) : OutputsFirst g sort n_partition := by
  intro before u after hsplit hu hdue v hv hnode w hvw
  have hi : before.length < (all_nodes_topo sort g).length := by simp [hsplit]
  have hbefore : (all_nodes_topo sort g).take before.length = before := by simp [hsplit]
  have hcheck := h before.length hi
  rw [hbefore] at hcheck
  exact hcheck (by simpa [hsplit] using hu) hdue (v, w) hvw hnode hv

/-- Two chunks of a batch, the second of so many numbers. -/
def chunks (size : ℕ) : IRGraph where
  name := "g"
  nodes := [⟨"aten::chunk", ["x"], ["a", "b"], "n0", false, true⟩,
    ⟨"aten::relu", ["a"], ["y"], "n1", false, true⟩,
    ⟨"aten::relu", ["b"], ["z"], "n2", false, true⟩]
  values := [("x", 1), ("a", 1), ("b", size), ("y", 1), ("z", 1)].map fun it =>
    (it.1, { name := it.1, type := .tensor .FLOAT [it.2] true, is_batch := true })
  input_names := ["x"]
  output_names := ["y", "z"]

theorem chunks_wellFormed (size : ℕ) : (chunks size).WellFormed := by
  apply IRGraph.WellFormed.of_checks
  · simp [IRGraph.definedNames, IRGraph.getValue, chunks, List.lookup_cons]
  all_goals
    simp only [IRGraph.definedNames, chunks]
    decide

theorem chunks_typed (size : ℕ) : (chunks size).Typed :=
  .of_checks (by simp [IRGraph.getValue, chunks, List.lookup_cons])
    (by simp [IRGraph.getValue, chunks, List.lookup_cons])

theorem chunks_flow (size : ℕ) {bg : BGraph} (h : (chunks size).toBGL = some bg) : bg.TypedFlow :=
  (toBGL_flow (chunks_wellFormed size) (chunks_typed size) h).1.typedFlow

theorem orderedPartition_iff_chunks : ∃ bg split, (chunks 1).toBGL = some bg ∧
    splitByValueSizes .sinksFirst bg 2 = some split ∧
      OrderedPartition .sinksFirst .sorted 2 (setRanksOnGraph .sinksFirst bg split) := by
  have hrun : (chunks 1).toBGL.any (fun bg =>
      (splitByValueSizes .sinksFirst bg 2).isSome ∧ bg.vertices.length < 2 ^ 64 ∧
      valueSizes bg < 2 ^ 64 ∧ ∀ i (hi : i < (all_nodes_topo .sinksFirst bg).length),
      (bg.info (all_nodes_topo .sinksFirst bg)[i]).type = .NODE →
        0 < (sizeBlocks bg 2 ((all_nodes_topo .sinksFirst bg).take i)).due → ∀ e ∈ bg.edges,
          (bg.info e.1).type = .NODE → e.1 ∈ (all_nodes_topo .sinksFirst bg).take i →
            e.2 ∈ (all_nodes_topo .sinksFirst bg).take i) = true := by
    decide +kernel
  obtain ⟨bg, hbg, hrun⟩ := (Option.any_eq_true _ _).mp hrun
  obtain ⟨hsome, hlength, hsizes, hchecks⟩ := of_decide_eq_true hrun
  obtain ⟨split, hsplit⟩ := Option.isSome_iff_exists.mp hsome
  refine ⟨bg, split, hbg, hsplit, ?_⟩
  exact (orderedPartition_iff .sinksFirst .sorted (chunks_flow 1 hbg) (by decide) hlength
    hsplit).mpr ⟨Or.inl hsizes, .of_checks hchecks⟩

/-- The second chunk is large, and what reads it comes before the first chunk. -/
theorem not_orderedPartition : ∃ bg split, (chunks 10).toBGL = some bg ∧ bg.TypedFlow ∧
    splitByValueSizes .sinksFirst bg 2 = some split ∧
      ¬ OrderedPartition .sinksFirst .sorted 2 (setRanksOnGraph .sinksFirst bg split) := by
  have hrun : (chunks 10).toBGL.any (fun bg =>
      (splitByValueSizes .sinksFirst bg 2).any fun split =>
        (setRanksOnGraph .sinksFirst bg split).edges.any fun e =>
          ((setRanksOnGraph .sinksFirst bg split).info e.1).type = .NODE ∧
            (setRanksOnGraph .sinksFirst bg split).ranks e.2 ≠
              (setRanksOnGraph .sinksFirst bg split).ranks e.1) = true := by
    decide +kernel
  obtain ⟨bg, hbg, hrun⟩ := (Option.any_eq_true _ _).mp hrun
  obtain ⟨split, hsplit, hrun⟩ := (Option.any_eq_true _ _).mp hrun
  obtain ⟨⟨v, w⟩, hvw, hne⟩ := List.any_eq_true.mp hrun
  obtain ⟨hnode, hranks⟩ := of_decide_eq_true hne
  exact ⟨bg, split, hbg, chunks_flow 10 hbg, hsplit, fun h => hranks (h.outputs v w hvw hnode)⟩

end Rannc
