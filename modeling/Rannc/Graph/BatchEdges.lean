import Rannc.Graph.SubGraphs

/-!
# Edges that cross to another rank

Whatever labels the ranks come from, a vertex that is not a batch is in the end on all ranks of what
it leads to, so that only batches are missing on another rank. An operator on batches shares its
ranks with its outputs: what is left are the values of batches.
-/
namespace Rannc

open Rannc.Digraph

/-- An acyclic graph in which an operator on batches has only batches as outputs. -/
structure BGraph.BatchTyped (g : BGraph) : Prop where
  acyclic : Acyclic (Edge g.edges)
  bound : ∀ {v w}, (v, w) ∈ g.edges → v < g.vertices.length ∧ w < g.vertices.length
  outputs : ∀ {v w}, (v, w) ∈ g.edges → (g.info v).type = .NODE → (g.info v).isBatch = true →
    (g.info w).isBatch = true
  value_id : ∀ {v}, v < g.vertices.length → (g.info v).type = .VALUE →
    (g.info v).id = "v_" ++ (g.info v).name
  ids : (g.vertices.map VertexInfo.id).Nodup

/-- The outputs of operators on batches and of the loss have the ranks of the operator. -/
def BGraph.SharesRanks (g : BGraph) : Prop :=
  ∀ v w, (g.info v).isLabelled = true → (v, w) ∈ g.edges → g.ranks w = g.ranks v

theorem BGraph.Flow.batchTyped {g : BGraph} (hg : g.Flow) : g.BatchTyped where
  acyclic := hg.acyclic
  bound hvw := ⟨(hg.edge hvw).1.trans (hg.edge hvw).2.1, (hg.edge hvw).2.1⟩
  outputs {v w} hvw hnode hbatch := by
    cases (hg.edge hvw).2.2 with
    | read hx _ _ => exact absurd (hnode.symm.trans hx) nofun
    | write _ _ _ hb _ => rw [hb, hbatch]
  value_id := hg.value_id
  ids := hg.ids

namespace BGraph.BatchTyped

variable {g g' : BGraph}

theorem of_erase (hg : g.BatchTyped) (h : g'.erase = g.erase) : g'.BatchTyped := by
  have hlength := length_of_erase h
  have hedges := edges_of_erase h
  have hid (v : ℕ) : (g'.info v).id = (g.info v).id := by
    have hinfo := congrArg VertexInfo.id (info_of_erase h v)
    exact hinfo
  have hname (v : ℕ) : (g'.info v).name = (g.info v).name := by
    have hinfo := congrArg VertexInfo.name (info_of_erase h v)
    exact hinfo
  have hids : g'.vertices.map VertexInfo.id = g.vertices.map VertexInfo.id := by
    have hmap := congrArg (fun g : BGraph => g.vertices.map VertexInfo.id) h
    simpa [erase, Function.comp_def] using hmap
  constructor
  · rw [hedges]
    exact hg.acyclic
  · rw [hedges, hlength]
    exact hg.bound
  · intro v w
    rw [hedges, type_of_erase h, isBatch_of_erase h, isBatch_of_erase h]
    exact hg.outputs
  · intro v
    rw [hlength, type_of_erase h, hid, hname]
    exact hg.value_id
  · rw [hids]
    exact hg.ids

theorem name_inj (hg : g.BatchTyped) {v w : ℕ} (hv : v < g.vertices.length)
    (hw : w < g.vertices.length) (hvtype : (g.info v).type = .VALUE)
    (hwtype : (g.info w).type = .VALUE) (h : (g.info v).name = (g.info w).name) : v = w :=
  BGraph.id_inj hg.ids hv hw (by rw [hg.value_id hv hvtype, hg.value_id hw hwtype, h])

end BGraph.BatchTyped

section Sweep

variable {g g' : BGraph}

theorem BGraph.set_ranks_self (g : BGraph) (v : ℕ) : g.set_ranks v (g.ranks v) = g := by
  have hmodify : g.vertices.modify v (fun vi => { vi with ranks := g.ranks v }) = g.vertices := by
    apply List.ext_getElem (by simp)
    intro i hi hi'
    rw [List.getElem_modify]
    split_ifs with hv
    · subst hv
      simp [ranks, info, hi']
    · rfl
  unfold set_ranks
  rw [hmodify]

theorem Fixed.ranks_subset (h : Fixed g g') {v w : ℕ} (hvw : (v, w) ∈ g'.edges)
    (hbatch : (g'.info v).isBatch = false) : g'.ranks w ⊆ g'.ranks v := by
  intro r hr
  have htarget : r ∈ targetRanks g' v := mem_targetRanks.mpr ⟨w, hvw, hr⟩
  rw [isBatch_of_erase h.erase] at hbatch
  rw [h.ranks v, if_pos ⟨hbatch, r, htarget⟩]
  exact htarget

theorem Fixed.fixRank_eq (h : Fixed g g') (v : ℕ) : fixRank g' v = g' := by
  unfold fixRank
  dsimp only
  split_ifs with hbatch hne
  · rfl
  · rw [isBatch_of_erase h.erase, Bool.not_eq_true] at hbatch
    have hranks := h.ranks v
    rw [if_pos ⟨hbatch, hne⟩] at hranks
    rw [← hranks, BGraph.set_ranks_self]
  · rfl

theorem Fixed.fixNonBatchRanks_eq (h : Fixed g g') (sort : TopologicalSort) :
    fixNonBatchRanks sort g' = g' := by
  unfold fixNonBatchRanks
  induction sort.sort g'.vertices.length g'.edges with
  | nil => rfl
  | cons v vs ih => rw [List.foldl_cons, h.fixRank_eq, ih]

theorem Fixed.ranks_of_batch (h : Fixed g g') {v : ℕ} (hbatch : (g'.info v).isBatch = true) :
    g'.ranks v = g.ranks v := by
  rw [h.ranks v, ← isBatch_of_erase h.erase, hbatch]
  simp

/-- What crosses to another rank is the value of a batch. -/
theorem Fixed.crossing_batch (hg : g.BatchTyped) (hshares : g.SharesRanks) (h : Fixed g g')
    {u v r : ℕ} (hc : Crossing g' u v r) :
    (g'.info u).type = .VALUE ∧ (g'.info u).isBatch = true := by
  have hbatch : (g'.info u).isBatch = true := by
    by_contra hbatch
    rw [Bool.not_eq_true] at hbatch
    exact hc.source (h.ranks_subset hc.edge hbatch hc.target)
  refine ⟨?_, hbatch⟩
  cases htype : (g'.info u).type with
  | VALUE => rfl
  | NODE =>
    have hedge : (u, v) ∈ g.edges := BGraph.edges_of_erase h.erase ▸ hc.edge
    have hvbatch : (g'.info v).isBatch = true := (hg.of_erase h.erase).outputs hc.edge htype hbatch
    have hlabel : (g.info u).isLabelled = true := by
      rw [← isLabelled_of_erase h.erase]
      have hnode : (g'.info u).node.is_batch = true := by
        simpa [VertexInfo.isBatch, htype] using hbatch
      simp [VertexInfo.isLabelled, htype, hnode]
    have htarget := hc.target
    rw [h.ranks_of_batch hvbatch, hshares u v hlabel hedge, ← h.ranks_of_batch hbatch] at htarget
    exact absurd htarget hc.source

end Sweep

end Rannc
