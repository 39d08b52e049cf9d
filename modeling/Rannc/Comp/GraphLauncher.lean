import Rannc.Common.BatchSplit
import Rannc.Comp.ConnectorRun

/-!
# The splits of one run

The launcher cuts the batch into the splits of the pipeline and hands them to the connector one by
one; before each it tells `SComm` the size and the index of the split. A batch with fewer samples
than the pipeline has stages makes fewer splits.
-/
namespace Rannc

open Traced

variable {V : Type}

namespace GraphLauncher

/-- `actual_pipeline_num` -/
def actualPipelineNum (pipeline_num batch_size : ℕ) : ℕ :=
  if pipeline_num > batch_size then batch_size else pipeline_num

def splitBatchSizes (pipeline_num batch_size : ℕ) : List ℕ :=
  getSplitNumBatchSizes batch_size (actualPipelineNum pipeline_num batch_size)

/-- What `set_bs` and `startSplit` leave in `SComm` for a split. -/
def startSplit (pipeline_num batch_size i : ℕ) : SComm :=
  ⟨(splitBatchSizes pipeline_num batch_size).getD i 0, i⟩

/-- The second step of `compute`: all splits run one after another. `history` is what an earlier
run left in the connector. -/
def compute (d : Deployment) (is_bwd : Bool) (rank : ℕ) (drv : Driver V)
    (env : Call V → Option V) (batch_size : ℕ) (graph_inputs : ℕ → String → IValueMap V)
    (history : ℕ → Option (String → IValueMap V)) : Option (Connector V) :=
  (List.range (actualPipelineNum d.pipeline_num batch_size)).foldlM
    (fun st i => st.compute d is_bwd rank drv env (startSplit d.pipeline_num batch_size i) i
      (graph_inputs i))
    ⟨history, fun _ _ => [], [], []⟩

theorem actualPipelineNum_eq (pipeline_num batch_size : ℕ) :
    actualPipelineNum pipeline_num batch_size = min pipeline_num batch_size := by
  unfold actualPipelineNum
  split_ifs <;> omega

theorem splitBatchSizes_getD (pipeline_num batch_size : ℕ) {i : ℕ}
    (hi : i < actualPipelineNum pipeline_num batch_size) :
    (splitBatchSizes pipeline_num batch_size).getD i 0 =
      batch_size / actualPipelineNum pipeline_num batch_size +
        if i < batch_size % actualPipelineNum pipeline_num batch_size then 1 else 0 := by
  have hlen : i < (splitBatchSizes pipeline_num batch_size).length := by
    rwa [splitBatchSizes, getSplitNumBatchSizes_length]
  rw [List.getD_eq_getElem _ _ hlen]
  exact getSplitNumBatchSizes_getElem batch_size hlen

theorem one_le_splitBatchSizes {pipeline_num batch_size i : ℕ}
    (hi : i < actualPipelineNum pipeline_num batch_size) :
    1 ≤ (startSplit pipeline_num batch_size i).batch_size := by
  simp only [startSplit, splitBatchSizes_getD _ _ hi]
  have hle : actualPipelineNum pipeline_num batch_size ≤ batch_size := by
    rw [actualPipelineNum_eq]
    exact min_le_right _ _
  exact le_add_right (Nat.div_pos hle (by omega))

section Run

variable (d : Deployment) (is_bwd : Bool) (rank : ℕ)

/-- The events of one split on a rank. -/
def splitEvents (batch_size k : ℕ) : List (Event Unit) :=
  (Connector.sortedGraphIds d is_bwd rank).flatMap
    (Connector.turnEvents d is_bwd (startSplit d.pipeline_num batch_size k) k)

variable {d is_bwd rank} {drv : Driver V} {env : Call V → Option V}

/-- A run does not fail, its events are those of the splits in order, and the history at its end
holds what has been sent. -/
theorem exists_compute (rank : ℕ) (hd : d.Routed is_bwd) (drv : Driver V) (env : Call V → Option V)
    (batch_size : ℕ) (graph_inputs : ℕ → String → IValueMap V)
    (history : ℕ → Option (String → IValueMap V)) :
    ∃ st, compute d is_bwd rank drv env batch_size graph_inputs history = some st ∧
      Connector.Before (actualPipelineNum d.pipeline_num batch_size) st ∧
      st.shape = (List.range (actualPipelineNum d.pipeline_num batch_size)).flatMap
        (splitEvents d is_bwd rank batch_size) := by
  have hrun : Runs Connector.shape (Connector.Before 0)
      (Connector.Before (List.range (actualPipelineNum d.pipeline_num batch_size)).length)
      (fun st => (List.range (actualPipelineNum d.pipeline_num batch_size)).foldlM
        (fun (st : Connector V) i => st.compute d is_bwd rank drv env
          (startSplit d.pipeline_num batch_size i) i (graph_inputs i)) st)
      ((List.range (actualPipelineNum d.pipeline_num batch_size)).flatMap
        (splitEvents d is_bwd rank batch_size)) := by
    refine Runs.foldlM (I := fun before => Connector.Before before.length) _
      fun before k after hrange => ?_
    have hk : k = before.length := by
      have hlt : before.length <
          (List.range (actualPipelineNum d.pipeline_num batch_size)).length := by
        rw [hrange, List.length_append, List.length_cons]
        omega
      have h : (List.range (actualPipelineNum d.pipeline_num batch_size))[before.length]? =
          some k := by
        rw [hrange, List.getElem?_append_right le_rfl, Nat.sub_self, List.getElem?_cons_zero]
      rw [List.getElem?_eq_getElem hlt, List.getElem_range, Option.some_inj] at h
      exact h.symm
    subst hk
    rw [List.length_append, List.length_singleton]
    exact Connector.compute_runs hd rfl (graph_inputs before.length)
  obtain ⟨st, hst, hbefore, hshape⟩ := hrun ⟨history, fun _ _ => [], [], []⟩
    ⟨by simp, fun call hcall => absurd hcall List.not_mem_nil⟩
  rw [List.length_range] at hbefore
  exact ⟨st, hst, hbefore, hshape⟩

end Run

end GraphLauncher

end Rannc
