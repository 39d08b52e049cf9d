import Rannc.Graph.CreateDeployment
import Rannc.Graph.MLGraph

/-!
# Partitions of stages

The connections between the graphs of the stages are found by the names of their inputs and
outputs. A value that no other stage produces comes from the master, and the outputs of the model
go to the master from the stage that has them.
-/
namespace Rannc.MLPartDecomposer

/-- The graph that a value comes from, the last one first. -/
def outVals (ir_graph : IRGraph) (subgraphs : List IRGraph) : List (String × String) :=
  (subgraphs.flatMap fun sg =>
    (sg.output_names.filter fun out => out ∉ ir_graph.input_names).map (·, sg.name)).reverse

/-- The values that are read, with their readers. -/
def inVals (subgraphs : List IRGraph) : Option (List (String × String)) := do
  let reads ← subgraphs.mapM fun sg => do
    let inputs ← sg.getNonParamInputNames
    return inputs.map (·, sg.name)
  return reads.flatten

/-- The connection to a reader from another graph. -/
def graphConnection (out_vals : List (String × String)) (read : String × String) :
    Option GraphConnection :=
  match out_vals.lookup read.1 with
  | none => none
  | some src_id =>
    if src_id ≠ read.2 then
      some ⟨read.1, src_id, read.2, src_id ++ "_" ++ read.1, read.2 ++ "_" ++ read.1⟩
    else none

/-- Connections from the master to the readers of an input that do not get it yet. -/
def addInput (order : MapOrder String) (in_vals : List (String × String))
    (connections : List GraphConnection) (name : String) : List GraphConnection :=
  let tgt_ids := order.order ((in_vals.filter fun read => read.1 = name).map Prod.snd).dedup
  tgt_ids.foldl
    (fun connections tgt_id =>
      if ∃ con ∈ connections, con.dest = tgt_id ∧ con.value = name then connections
      else connections ++
        [⟨name, MASTER_NAME, tgt_id, MASTER_NAME ++ "_" ++ name, tgt_id ++ "_" ++ name⟩])
    connections

/-- The connection that brings an output to the master. There has to be a graph that has it. -/
def outputConnection (out_vals : List (String × String)) (out : String) :
    Option GraphConnection := do
  let src_id ← out_vals.lookup out
  return ⟨out, src_id, MASTER_NAME, src_id ++ "_" ++ out, MASTER_NAME ++ "_" ++ out⟩

def createPartition (order : MapOrder String) (ir_graph : IRGraph) (subgraphs : List IRGraph) :
    Option Partition := do
  let out_vals := outVals ir_graph subgraphs
  let in_vals ← inVals subgraphs
  let connections := in_vals.filterMap (graphConnection out_vals)
  let inputs ← ir_graph.getNonParamInputNames
  let connections := inputs.foldl (addInput order in_vals) connections
  let outputs ← ir_graph.output_names.mapM (outputConnection out_vals)
  return ⟨ir_graph.name, ir_graph, subgraphs.map fun sg => (sg.name, sg), connections ++ outputs,
    subgraphs.map IRGraph.name⟩

variable {ir_graph : IRGraph} {subgraphs : List IRGraph}

theorem mem_outVals {it : String × String} : it ∈ outVals ir_graph subgraphs ↔
    it.1 ∉ ir_graph.input_names ∧ ∃ sg ∈ subgraphs, it.1 ∈ sg.output_names ∧ it.2 = sg.name := by
  obtain ⟨out, id⟩ := it
  simp only [outVals, List.mem_reverse, List.mem_flatMap, List.mem_map, List.mem_filter,
    decide_eq_true_eq, Prod.mk.injEq]
  constructor
  · rintro ⟨sg, hsg, out', ⟨hout, hinput⟩, rfl, rfl⟩
    exact ⟨hinput, sg, hsg, hout, rfl⟩
  · rintro ⟨hinput, sg, hsg, hout, rfl⟩
    exact ⟨sg, hsg, out, ⟨hout, hinput⟩, rfl, rfl⟩

theorem exists_lookup_outVals {out : String} (hinput : out ∉ ir_graph.input_names) {sg : IRGraph}
    (hsg : sg ∈ subgraphs) (hout : out ∈ sg.output_names) :
    ∃ src_id, (outVals ir_graph subgraphs).lookup out = some src_id := by
  have hmem : (out, sg.name) ∈ outVals ir_graph subgraphs :=
    mem_outVals.mpr ⟨hinput, sg, hsg, hout, rfl⟩
  cases hlookup : (outVals ir_graph subgraphs).lookup out with
  | none => exact absurd (List.lookup_eq_none_iff.mp hlookup _ hmem) (by simp)
  | some src_id => exact ⟨src_id, rfl⟩

theorem of_lookup_outVals {out src_id : String}
    (h : (outVals ir_graph subgraphs).lookup out = some src_id) :
    ∃ sg ∈ subgraphs, sg.name = src_id ∧ out ∈ sg.output_names := by
  obtain ⟨before, after, hsplit, -⟩ := List.lookup_eq_some_iff.mp h
  have hmem : (out, src_id) ∈ outVals ir_graph subgraphs := by
    rw [hsplit]
    simp
  obtain ⟨-, sg, hsg, hout, hid⟩ := mem_outVals.mp hmem
  exact ⟨sg, hsg, hid.symm, hout⟩

end Rannc.MLPartDecomposer
