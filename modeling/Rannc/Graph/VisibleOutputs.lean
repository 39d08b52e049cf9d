import Rannc.Graph.FirstNodes
import Rannc.Graph.GraphMergeHelper
import Rannc.Graph.MergeRuns
import Rannc.Graph.MLPartDecomposer

/-!
# Outputs of the model after merging

A merge keeps an output of its first node only if the second does not read it or a third one does;
what the model returns is not looked at. But a first node that reads an output of the model passes
it on, and so does every node that is merged from it. So the second node of a merge has the output
itself if it reads it, and no merge hides one.

What no node has in the first place is not sent to the master either: an operator that is neither a
batch nor a loss is on the ranks that read it, and if only the model itself does, on none.
-/
namespace Rannc

open Rannc.Digraph

/-- The values of a list that a first node has come out of every node that contains it. -/
def MLNode.Visible (outputs : List String) (n : MLNode) : Prop :=
  ∀ leaf, leaf.sub_nodes = [] → n.Contains leaf →
    ∀ out ∈ outputs, leaf.graph.hasValue out = true → out ∈ n.graph.output_names

/-- The node shows the values of the list, and passes on what it reads of them. -/
structure NodeOk (outputs : List String) (n : MLNode) : Prop where
  known : n.graph.InputsKnown
  visible : n.Visible outputs
  passes : ∀ out ∈ outputs, out ∈ n.graph.input_names → out ∈ n.graph.output_names

section Nodes

variable {outputs : List String} {n n1 n2 : MLNode}

theorem FirstNode.nodeOk {ir_graph : IRGraph} (h : FirstNode ir_graph n) :
    NodeOk ir_graph.producedOutputs n := by
  constructor
  case known => exact h.reads
  case visible =>
    intro leaf _ hleaf out hout hvalue
    rw [contains_first h.first hleaf] at hvalue
    exact h.shows out hout hvalue
  case passes => exact fun out hout hinput => h.shows out hout (h.reads out hinput)

theorem NodeOk.rename {name : String} {n' : MLNode} (h : NodeOk outputs n)
    (hgraph : n'.graph = n.graph.rename name) (hcovers : n.Covers n') : NodeOk outputs n' := by
  constructor
  case known =>
    rw [hgraph]
    exact h.known
  case visible =>
    intro leaf hleaf hc
    rw [hgraph]
    exact h.visible leaf hleaf (hcovers leaf hleaf hc)
  case passes =>
    rw [hgraph]
    exact h.passes

theorem NodeOk.liftUp (h : NodeOk outputs n) (name : String) :
    NodeOk outputs (liftUp name n) := by
  have hgraph : (Rannc.liftUp name n).graph = n.graph.rename name := rfl
  refine h.rename hgraph fun leaf hleaf hc => ?_
  obtain ⟨m, hm, hc⟩ := (contains_merged hleaf (List.cons_ne_nil _ _)).mp hc
  exact List.mem_singleton.mp hm ▸ hc

/-- A merge of nodes that pass on what they read hides nothing. -/
theorem merge_nodeOk {name : String} {all_nodes : List MLNode} {edges : List MLEdge}
    (h1 : NodeOk outputs n1) (h2 : NodeOk outputs n2)
    (h : merge name n1 n2 all_nodes edges = some n) : NodeOk outputs n := by
  have hsub := merge_sub_nodes h
  have hkept : ∀ out ∈ outputs, out ∈ n1.graph.output_names ∨ out ∈ n2.graph.output_names →
      out ∈ n.graph.output_names := by
    intro out hout hmem
    apply (mem_merge_output_names h).mpr
    by_cases hread : out ∈ n2.graph.input_names
    · exact Or.inr (h2.passes out hout hread)
    · exact hmem.imp_left fun hmem => ⟨hmem, Or.inl hread⟩
  constructor
  case known =>
    obtain ⟨n', hmerged, hknown⟩ := h1.known.merge h2.known name all_nodes edges
    exact Option.some.inj (hmerged.symm.trans h) ▸ hknown
  case visible =>
    intro leaf hleaf hc out hout hvalue
    have hn : n.sub_nodes ≠ [] := by
      rw [hsub]
      exact List.cons_ne_nil _ _
    obtain ⟨m, hm, hc⟩ := (contains_merged hleaf hn).mp hc
    apply hkept out hout
    rw [hsub] at hm
    cases hm with
    | head => exact Or.inl (h1.visible leaf hleaf hc out hout hvalue)
    | tail _ hm =>
      obtain rfl := List.mem_singleton.mp hm
      exact Or.inr (h2.visible leaf hleaf hc out hout hvalue)
  case passes =>
    intro out hout hinput
    apply hkept out hout
    exact (mem_merge_input_names h hinput).imp (h1.passes out hout) (h2.passes out hout)

end Nodes

namespace MLPartitioner

variable {p : MLPartitioner} {outputs : List String}

theorem mergeNode_nodeOk {pass : Pass} {st st' : MergeState} {v : MLNode}
    (hv : NodeOk outputs v) (hbg : ∀ n ∈ pass.bg.nodes, NodeOk outputs n)
    (hst : ∀ n ∈ st.merged_nodes, NodeOk outputs n)
    (h : mergeNode p pass st v = some st') : ∀ n ∈ st'.merged_nodes, NodeOk outputs n := by
  unfold mergeNode at h
  split_ifs at h with hmatched
  · obtain rfl := Option.some.inj h
    exact hst
  obtain ⟨best, hfind, h⟩ := Option.bind_eq_some_iff.mp h
  obtain rfl := Option.some.inj h
  have hbest : NodeOk outputs best.best_merged := by
    cases findBest_from hfind with
    | inl halone =>
      obtain ⟨-, name, hlift⟩ := halone
      rw [hlift]
      exact hv.liftUp name
    | inr hmerged =>
      obtain ⟨adj, hadj, -, name, hmerge⟩ := hmerged
      exact merge_nodeOk hv (hbg adj (List.mem_of_find?_eq_some hadj)) hmerge
  intro n hn
  cases List.mem_append.mp hn with
  | inl hn => exact hst n hn
  | inr hn => exact List.mem_singleton.mp hn ▸ hbest

theorem mergeAdjacents_nodeOk {graph graph' : MLGraph} {skip_profiling : Bool}
    {min_partition_num used used' : ℕ} (hgraph : ∀ n ∈ graph.nodes, NodeOk outputs n)
    (h : p.mergeAdjacents graph skip_profiling min_partition_num used = some (graph', used')) :
    ∀ n ∈ graph'.nodes, NodeOk outputs n := by
  obtain ⟨pass, st, hpass, hst, -, hnodes, -⟩ := mergeAdjacents_eq_some h
  obtain ⟨-, hperm, hbg⟩ := startPass_eq_some hpass
  have hbg_nodes : ∀ n ∈ pass.bg.nodes, NodeOk outputs n := by
    rw [hbg]
    exact hgraph
  rw [hnodes]
  refine foldlM_invariant (P := fun st : MergeState => ∀ n ∈ st.merged_nodes, NodeOk outputs n)
    (fun st v st' hv hok hstep => ?_) (by simp) hst
  exact mergeNode_nodeOk (hgraph v (hperm.mem_iff.mp hv)) hbg_nodes hok hstep

theorem mergePair_nodeOk {graph graph' : MLGraph} {pair : PairMerge}
    (hgraph : ∀ n ∈ graph.nodes, NodeOk outputs n) (hpair : PairOk graph pair)
    (h : p.mergePair graph pair = some graph') : ∀ n ∈ graph'.nodes, NodeOk outputs n := by
  obtain ⟨merged_edges, -, h⟩ := Option.bind_eq_some_iff.mp h
  obtain rfl := Option.some.inj h
  obtain ⟨i, hn1, hn2⟩ := hpair.adjacent
  obtain ⟨name, hmerge⟩ := hpair.merged
  have hmerged : NodeOk outputs pair.merged := merge_nodeOk (hgraph _ (List.mem_of_getElem? hn1))
    (hgraph _ (List.mem_of_getElem? hn2)) hmerge
  intro n hn
  cases mem_replacePair hn with
  | inl heq => exact heq ▸ hmerged
  | inr hn => exact hgraph n hn

theorem MergeRun.nodeOk {sort : TopologicalSort} {ml_graph graph : MLGraph} {used₀ used : ℕ}
    (hfirst : ∀ n ∈ ml_graph.nodes, NodeOk outputs n)
    (hrun : p.MergeRun sort ml_graph used₀ graph used) : ∀ n ∈ graph.nodes, NodeOk outputs n := by
  induction hrun with
  | start => exact hfirst
  | mergeAdjacents _ _ h ih => exact mergeAdjacents_nodeOk ih h
  | sortMLGraph _ h ih => exact fun n hn => ih n ((sortMLGraph_perm h).mem_iff.mp hn)
  | mergeSmall _ _ h h' ih => exact mergePair_nodeOk ih (findSmallMerge_ok h) h'

end MLPartitioner

namespace GraphMergeHelper

variable {helper : GraphMergeHelper} {outputs : List String}

theorem mergeNext_eq_some {first i : ℕ} {st st' : MergeBase}
    (h : helper.mergeNext first st i = some st') :
    ∃ tgt name merged_node, helper.graph.nodes[i]? = some tgt ∧
      Rannc.merge name st.base tgt (st.rest_nodes.map Prod.snd) st.rest_edges = some merged_node ∧
      st'.base =
        { merged_node with graph := merged_node.graph.rename (getMergedGraphId first i) } := by
  obtain ⟨tgt, htgt, h⟩ := Option.bind_eq_some_iff.mp h
  obtain ⟨merged_node, hmerge, h⟩ := Option.bind_eq_some_iff.mp h
  obtain ⟨rest_edges, -, h⟩ := Option.bind_eq_some_iff.mp h
  obtain rfl := Option.some.inj h
  exact ⟨tgt, _, merged_node, htgt, hmerge, rfl⟩

theorem mergeNext_nodeOk {first i : ℕ} {st st' : MergeBase}
    (hgraph : ∀ n ∈ helper.graph.nodes, NodeOk outputs n) (hst : NodeOk outputs st.base)
    (h : helper.mergeNext first st i = some st') : NodeOk outputs st'.base := by
  obtain ⟨tgt, name, merged_node, htgt, hmerge, hbase⟩ := mergeNext_eq_some h
  have hmerged := merge_nodeOk hst (hgraph tgt (List.mem_of_getElem? htgt)) hmerge
  have hsub : st'.base.sub_nodes ≠ [] := by
    rw [hbase, merge_sub_nodes hmerge]
    exact List.cons_ne_nil _ _
  exact hmerged.rename (by rw [hbase]) (covers_of_sub_nodes hsub (by rw [hbase]))

theorem mergeNext_covers {first i : ℕ} {st st' : MergeBase}
    (h : helper.mergeNext first st i = some st') :
    st'.base.Covers st.base ∧ ∀ tgt, helper.graph.nodes[i]? = some tgt → st'.base.Covers tgt := by
  obtain ⟨tgt, name, merged_node, htgt, hmerge, hbase⟩ := mergeNext_eq_some h
  have hsub : st'.base.sub_nodes = [st.base, tgt] := by
    rw [hbase, merge_sub_nodes hmerge]
  refine ⟨covers_sub (by simp [hsub]), fun tgt' htgt' => ?_⟩
  obtain rfl := Option.some.inj (htgt.symm.trans htgt')
  exact covers_sub (by simp [hsub])

theorem mergeUntil_nodeOk {first last : ℕ} {st : MergeBase}
    (hgraph : ∀ n ∈ helper.graph.nodes, NodeOk outputs n)
    (h : helper.mergeUntil first last = some st) : NodeOk outputs st.base := by
  obtain ⟨st₀, hstart, hfold⟩ := Option.bind_eq_some_iff.mp h
  obtain ⟨base, hbase, hst₀⟩ := Option.bind_eq_some_iff.mp hstart
  obtain rfl := Option.some.inj hst₀
  refine foldlM_invariant (P := fun st : MergeBase => NodeOk outputs st.base)
    (fun st i st' _ hok hstep => mergeNext_nodeOk hgraph hok hstep) ?_ hfold
  exact hgraph base (List.mem_of_getElem? hbase)

theorem mergeUntil_covers {first count : ℕ} {st : MergeBase}
    (h : helper.mergeUntil first (first + count) = some st) {i : ℕ} (hfirst : first ≤ i)
    (hlast : i ≤ first + count) {n : MLNode} (hn : helper.graph.nodes[i]? = some n) :
    st.base.Covers n := by
  induction count generalizing st with
  | zero =>
    obtain rfl : first = i := by omega
    obtain ⟨st₀, hstart, hfold⟩ := Option.bind_eq_some_iff.mp h
    obtain ⟨base, hbase, hst₀⟩ := Option.bind_eq_some_iff.mp hstart
    obtain rfl := Option.some.inj hst₀
    rw [Nat.add_sub_cancel_left] at hfold
    obtain rfl := Option.some.inj hfold
    exact Option.some.inj (hbase.symm.trans hn) ▸ .refl base
  | succ count ih =>
    rw [← Nat.add_assoc, mergeUntil_succ (Nat.le_add_right first count)] at h
    obtain ⟨st₀, hst₀, hnext⟩ := Option.bind_eq_some_iff.mp h
    obtain ⟨hbase, htgt⟩ := mergeNext_covers hnext
    by_cases hi : i = first + count + 1
    · exact htgt n (hi ▸ hn)
    · exact hbase.trans (ih hst₀ (by omega))

theorem merge_eq_some {first last : ℕ} {sg : IRGraph} (h : helper.merge first last = some sg) :
    ∃ st, helper.mergeUntil first last = some st ∧ st.base.graph = sg := by
  obtain ⟨-, -, h⟩ := Option.bind_eq_some_iff.mp h
  obtain ⟨st, hst, h⟩ := Option.bind_eq_some_iff.mp h
  exact ⟨st, hst, Option.some.inj h⟩

end GraphMergeHelper

theorem IRGraph.WellFormed.inputsKnown {g : IRGraph} (hwf : g.WellFormed) : g.InputsKnown := by
  intro name hname
  obtain ⟨value, hvalue, -⟩ := hwf.values name (List.mem_append_left _ hname)
  exact hvalue ▸ rfl

theorem IRGraph.RoutedOutput.produced {g : IRGraph} (hwf : g.WellFormed) {out : String}
    (hout : out ∈ g.output_names) (h : g.RoutedOutput out) : out ∈ g.producedOutputs := by
  obtain ⟨n, hn, hmakes, -⟩ := h
  have hwritten : out ∈ g.nodes.flatMap IRNode.output_names :=
    List.mem_flatMap.mpr ⟨n, hn, hmakes.1⟩
  have hinput : out ∉ g.input_names := fun hinput =>
    (List.nodup_append.mp hwf.defined_nodup).2.2 out hinput out hwritten rfl
  exact List.mem_filter.mpr ⟨hout, decide_eq_true hinput⟩

namespace MLPartDecomposer

/-- The partition sends the value to the master from a graph that has it. -/
def SentToMaster (subgraphs : List IRGraph) (part : Partition) (out : String) : Prop :=
  ∃ con ∈ part.connections, con.value = out ∧ con.dest = MASTER_NAME ∧
    ∃ sg ∈ subgraphs, sg.name = con.src ∧ out ∈ sg.output_names

/-- Graphs that know their inputs can be connected if one of them has each output. -/
theorem exists_createPartition (order : MapOrder String) {ir_graph : IRGraph}
    {subgraphs : List IRGraph} (hwf : ir_graph.WellFormed)
    (hknown : ∀ sg ∈ subgraphs, sg.InputsKnown)
    (houtputs : ∀ out ∈ ir_graph.output_names, out ∉ ir_graph.input_names ∧
      ∃ sg ∈ subgraphs, out ∈ sg.output_names) :
    ∃ part, createPartition order ir_graph subgraphs = some part ∧
      ∀ out ∈ ir_graph.output_names, SentToMaster subgraphs part out := by
  have hlookup : ∀ out ∈ ir_graph.output_names,
      ∃ src_id, (outVals ir_graph subgraphs).lookup out = some src_id := by
    intro out hout
    obtain ⟨hinput, sg, hsg, hmem⟩ := houtputs out hout
    exact exists_lookup_outVals hinput hsg hmem
  obtain ⟨in_vals, hin_vals⟩ : ∃ in_vals, inVals subgraphs = some in_vals := by
    obtain ⟨reads, hreads⟩ := mapM_of_forall_some (l := subgraphs)
      (f := fun sg : IRGraph => sg.getNonParamInputNames.bind fun inputs =>
        some (inputs.map (·, sg.name)))
      fun sg hsg => by simp [(hknown sg hsg).getNonParamInputNames_eq]
    exact ⟨reads.flatten, Option.bind_eq_some_iff.mpr ⟨reads, hreads, rfl⟩⟩
  have hcon : ∀ out ∈ ir_graph.output_names,
      (outputConnection (outVals ir_graph subgraphs) out).isSome := by
    intro out hout
    obtain ⟨src_id, hsrc⟩ := hlookup out hout
    simp [outputConnection, hsrc]
  obtain ⟨cons, hcons⟩ := mapM_of_forall_some hcon
  have hinputs := hwf.inputsKnown.getNonParamInputNames_eq
  refine ⟨_, by simp only [createPartition, hin_vals, hinputs, hcons]; rfl, fun out hout => ?_⟩
  obtain ⟨src_id, hsrc⟩ := hlookup out hout
  have hsome : outputConnection (outVals ir_graph subgraphs) out =
      some ⟨out, src_id, MASTER_NAME, src_id ++ "_" ++ out, MASTER_NAME ++ "_" ++ out⟩ := by
    simp [outputConnection, hsrc]
  exact ⟨_, List.mem_append_right _ (mem_of_mapM hcons hout hsome), rfl, rfl,
    of_lookup_outVals hsrc⟩

end MLPartDecomposer

/-- The outputs of the model that the operators of its first nodes make are outputs of the node. -/
def MLNode.ShowsMade (ir_graph : IRGraph) (ml_graph : MLGraph) (n : MLNode) : Prop :=
  ∀ leaf ∈ ml_graph.nodes, n.Contains leaf → ∀ node ∈ leaf.graph.nodes,
    ∀ out ∈ ir_graph.producedOutputs, node.Makes out → out ∈ n.graph.output_names

theorem NodeOk.showsMade {ir_graph : IRGraph} {ml_graph : MLGraph} {n : MLNode}
    (h : NodeOk ir_graph.producedOutputs n) (hfirst : FirstNodes ir_graph ml_graph) :
    n.ShowsMade ir_graph ml_graph := by
  intro leaf hleaf hc node hnode out hout hmakes
  have hleaf_first := hfirst.nodes leaf hleaf
  exact h.visible leaf hleaf_first.first hc out hout (hleaf_first.writes node hnode out hmakes)

section VisibleOutputs

variable {sort : TopologicalSort} {order : SetOrder} {graph_order : MapOrder (String × IRGraph)}
  {ir_graph : IRGraph} {ml_graph graph : MLGraph} {p : MLPartitioner} {used₀ used : ℕ}

theorem routed_shown {helper : GraphMergeHelper} {stages : List (ℕ × ℕ)}
    {sol_graphs : List IRGraph} (hfirst : FirstNodes ir_graph ml_graph)
    (hcomplete : p.Complete ml_graph helper.graph used)
    (hgraph : ∀ n ∈ helper.graph.nodes, NodeOk ir_graph.producedOutputs n)
    (hsol : stages.mapM (fun s => helper.merge s.1 s.2) = some sol_graphs)
    (hstages : ∀ i < helper.graph.nodes.length, ∃ s ∈ stages, s.1 ≤ i ∧ i ≤ s.2) {out : String}
    (hout : out ∈ ir_graph.producedOutputs) (hrouted : ir_graph.RoutedOutput out) :
    ∃ sg ∈ sol_graphs, out ∈ sg.output_names := by
  obtain ⟨node, hnode, hmakes, hcase⟩ := hrouted
  obtain ⟨leaf, hleaf, hnode_leaf⟩ := hfirst.labelled node hnode hcase
  obtain ⟨n, hn, hcovers⟩ := hcomplete.covers leaf hleaf
  obtain ⟨i, hi, hn_at⟩ := List.mem_iff_getElem.mp hn
  obtain ⟨⟨first, last⟩, hs, hfirst_le, hle_last⟩ := hstages i hi
  obtain ⟨sg, hmerge⟩ := Option.isSome_iff_exists.mp (isSome_of_mapM hsol hs)
  refine ⟨sg, mem_of_mapM hsol hs hmerge, ?_⟩
  obtain ⟨st, hst, rfl⟩ := GraphMergeHelper.merge_eq_some hmerge
  obtain ⟨count, rfl⟩ : ∃ count, last = first + count := Nat.exists_eq_add_of_le (by omega)
  have hstage := GraphMergeHelper.mergeUntil_covers hst hfirst_le hle_last
    (List.getElem?_eq_some_iff.mpr ⟨hi, hn_at⟩)
  have hcontains := hstage.trans hcovers leaf (hfirst.nodes leaf hleaf).first .here
  exact (GraphMergeHelper.mergeUntil_nodeOk hgraph hst).showsMade hfirst leaf hleaf hcontains node
    hnode_leaf out hout hmakes

/-- After any merges, an output of the model that an operator makes is an output of every node and
every stage that contains the operator, also if it is read there. No first node is lost, and no
operator that is a batch or a loss is without one. So if all outputs are batches or losses, stages
of all nodes can be connected, and every output is sent to the master. -/
theorem mergeRun_visible (hwf : ir_graph.WellFormed) (htyped : ir_graph.Typed)
    (hinit : initialMLGraph sort order graph_order ir_graph = some ml_graph)
    (hfresh : ∀ i, used₀ ≤ i → p.names.generateName i "ML_" ∉ ml_graph.ids)
    (hrun : p.MergeRun sort ml_graph used₀ graph used) :
    (∀ n ∈ graph.nodes, n.ShowsMade ir_graph ml_graph) ∧
    (∀ leaf ∈ ml_graph.nodes, ∃ n ∈ graph.nodes, n.Contains leaf) ∧
    (∀ node ∈ ir_graph.nodes, node.is_batch = true ∨ node.is_criterion = true →
      ∃ leaf ∈ ml_graph.nodes, node ∈ leaf.graph.nodes) ∧
    ∀ helper : GraphMergeHelper, helper.graph = graph →
      (∀ first last st, helper.mergeUntil first last = some st →
        st.base.ShowsMade ir_graph ml_graph) ∧
      ((∀ out ∈ ir_graph.output_names, ir_graph.RoutedOutput out) →
        ∀ (stages : List (ℕ × ℕ)) (sol_graphs : List IRGraph),
          stages.mapM (fun s => helper.merge s.1 s.2) = some sol_graphs →
          (∀ i < graph.nodes.length, ∃ s ∈ stages, s.1 ≤ i ∧ i ≤ s.2) →
          ∀ order, ∃ part,
            MLPartDecomposer.createPartition order ir_graph sol_graphs = some part ∧
            ∀ out ∈ ir_graph.output_names, MLPartDecomposer.SentToMaster sol_graphs part out) := by
  have hfirst := initialMLGraph_firstNodes hwf htyped hinit
  have hcomplete := hrun.complete hfirst.nodup hfresh
  have hgraph := hrun.nodeOk fun n hn => (hfirst.nodes n hn).nodeOk
  refine ⟨fun n hn => (hgraph n hn).showsMade hfirst, fun leaf hleaf => ?_, hfirst.labelled, ?_⟩
  · obtain ⟨n, hn, hcovers⟩ := hcomplete.covers leaf hleaf
    exact ⟨n, hn, hcovers leaf (hfirst.nodes leaf hleaf).first .here⟩
  rintro helper rfl
  constructor
  · exact fun first last st hst =>
      (GraphMergeHelper.mergeUntil_nodeOk hgraph hst).showsMade hfirst
  intro hrouted stages sol_graphs hsol hstages order
  apply MLPartDecomposer.exists_createPartition order hwf
  · intro sg hsg
    obtain ⟨s, -, hmerge⟩ := exists_of_mem_mapM hsol hsg
    obtain ⟨st, hst, rfl⟩ := GraphMergeHelper.merge_eq_some hmerge
    exact (GraphMergeHelper.mergeUntil_nodeOk hgraph hst).known
  · intro out hout
    have hproduced := (hrouted out hout).produced hwf hout
    refine ⟨of_decide_eq_true (List.mem_filter.mp hproduced).2, ?_⟩
    exact routed_shown hfirst hcomplete hgraph hsol hstages hproduced (hrouted out hout)

end VisibleOutputs

/-- Two operators and a loss. The output of the first is returned beside the loss. -/
def lossGraph : IRGraph where
  name := "g"
  nodes := [⟨"aten::relu", ["x"], ["y"], "n0", false, true⟩,
    ⟨"aten::tanh", ["y"], ["z"], "n1", false, true⟩,
    ⟨"aten::mse_loss", ["z"], ["loss"], "n2", true, false⟩]
  values := [tensorValue true "x", tensorValue true "y", tensorValue true "z",
    tensorValue false "loss"]
  input_names := ["x"]
  output_names := ["y", "loss"]

theorem lossGraph_wellFormed : lossGraph.WellFormed :=
  .of_checks (by decide +kernel) (by decide +kernel) (by decide +kernel) (by decide +kernel)

theorem lossGraph_typed : lossGraph.Typed :=
  .of_checks (by decide +kernel) (by decide +kernel)

theorem lossGraph_routed : ∀ out ∈ lossGraph.output_names, lossGraph.RoutedOutput out := by
  intro out hout
  obtain rfl | rfl : out = "y" ∨ out = "loss" := by simpa [lossGraph] using hout
  · exact ⟨_, List.mem_cons_self, ⟨by decide, Or.inl rfl⟩, Or.inl rfl⟩
  · exact ⟨⟨"aten::mse_loss", ["z"], ["loss"], "n2", true, false⟩, by decide,
      ⟨by decide, Or.inr rfl⟩, Or.inr rfl⟩

/-- The first nodes, and the graph after the first small merge of them in order. -/
def firstMerge (ir_graph : IRGraph) : Option (MLGraph × MLGraph) := do
  let ml_graph ← initialMLGraph .sinksFirst .sorted .inserted ir_graph
  let sorted ← sortMLGraph .sinksFirst ml_graph
  let (pair, _) ← MLPartitioner.crossingPartitioner.findSmallMerge sorted 0
  let merged ← MLPartitioner.crossingPartitioner.mergePair sorted (← pair)
  return (ml_graph, merged)

theorem firstMerge_mergeRun {ir_graph : IRGraph} {ml_graph merged : MLGraph}
    (h : firstMerge ir_graph = some (ml_graph, merged)) :
    initialMLGraph .sinksFirst .sorted .inserted ir_graph = some ml_graph ∧
      ∃ used, MLPartitioner.crossingPartitioner.MergeRun .sinksFirst ml_graph 0 merged used := by
  obtain ⟨ml_graph', hinit, h⟩ := Option.bind_eq_some_iff.mp h
  obtain ⟨sorted, hsorted, h⟩ := Option.bind_eq_some_iff.mp h
  obtain ⟨⟨found, used⟩, hfind, h⟩ := Option.bind_eq_some_iff.mp h
  obtain ⟨pair, hpair, h⟩ := Option.bind_eq_some_iff.mp h
  obtain ⟨merged', hmerge, h⟩ := Option.bind_eq_some_iff.mp h
  obtain ⟨rfl, rfl⟩ := Prod.mk.inj (Option.some.inj h)
  obtain rfl : found = some pair := hpair
  exact ⟨hinit, used, (MLPartitioner.MergeRun.start.sortMLGraph hsorted).mergeSmall le_rfl hfind
    hmerge⟩

def mergeHelper (graph : MLGraph) : GraphMergeHelper :=
  ⟨graph, MLPartitioner.crossingNames, 0, .inserted⟩

/-- The first two operators become one node, which still has the output of the first. The stages
send it to the master, and the loss. -/
theorem mergeRun_visible_loss : ∃ ml_graph merged n sol_graphs part,
    firstMerge lossGraph = some (ml_graph, merged) ∧ n ∈ merged.nodes ∧
    (∃ leaf ∈ n.sub_nodes, "y" ∈ leaf.graph.input_names) ∧ n.ShowsMade lossGraph ml_graph ∧
    [(0, 0), (1, 1)].mapM (fun s => (mergeHelper merged).merge s.1 s.2) = some sol_graphs ∧
    MLPartDecomposer.createPartition .inserted lossGraph sol_graphs = some part ∧
    MLPartDecomposer.SentToMaster sol_graphs part "y" ∧
    MLPartDecomposer.SentToMaster sol_graphs part "loss" := by
  have h : (firstMerge lossGraph).any (fun res => res.1.ids = ["ML_g_p0", "ML_g_p1", "ML_g_p2"] ∧
      res.2.nodes.length = 2 ∧
      (res.2.nodes.any fun n => n.sub_nodes.any fun leaf => "y" ∈ leaf.graph.input_names) ∧
      ([(0, 0), (1, 1)].mapM (fun s => (mergeHelper res.2).merge s.1 s.2)).isSome) = true := by
    decide +kernel
  obtain ⟨⟨ml_graph, merged⟩, hfirst, hres⟩ := (Option.any_eq_true _ _).mp h
  obtain ⟨hids, hlength, hnodes, hstages⟩ := of_decide_eq_true hres
  obtain ⟨n, hn, hleaf⟩ := List.any_eq_true.mp hnodes
  obtain ⟨leaf, hleaf, hy⟩ := List.any_eq_true.mp hleaf
  obtain ⟨sol_graphs, hsol⟩ := Option.isSome_iff_exists.mp hstages
  obtain ⟨hinit, used, hrun⟩ := firstMerge_mergeRun hfirst
  have hchars : ∀ id ∈ ml_graph.ids, ∃ c ∈ id.toList, c ∉ ['M', 'L', '_', 'x'] := by
    rw [hids]
    simp
  obtain ⟨hshows, -, -, hstage⟩ := mergeRun_visible lossGraph_wellFormed lossGraph_typed hinit
    (fun i _ => MLPartitioner.crossingNames_fresh hchars i) hrun
  have hcover : ∀ i < merged.nodes.length,
      ∃ s ∈ [((0 : ℕ), (0 : ℕ)), (1, 1)], s.1 ≤ i ∧ i ≤ s.2 := by
    intro i hi
    rw [hlength] at hi
    interval_cases i <;> simp
  obtain ⟨part, hpart, hsent⟩ := (hstage (mergeHelper merged) rfl).2 lossGraph_routed _ sol_graphs
    hsol hcover .inserted
  exact ⟨ml_graph, merged, n, sol_graphs, part, hfirst, hn, ⟨leaf, hleaf, of_decide_eq_true hy⟩,
    hshows n hn, hsol, hpart, hsent "y" (by decide), hsent "loss" (by decide)⟩

/-- Two batches, and a weight that is turned. The second and the turned weight are returned. -/
def weightGraph : IRGraph where
  name := "g"
  nodes := [⟨"aten::relu", ["x"], ["y"], "n0", false, true⟩,
    ⟨"aten::tanh", ["y"], ["z"], "n1", false, true⟩,
    ⟨"aten::t", ["w"], ["wt"], "n2", false, false⟩]
  values := [tensorValue true "x", tensorValue true "y", tensorValue true "z",
    ("w", { name := "w", type := .tensor .FLOAT [2, 4] true, is_param := true }),
    tensorValue false "wt"]
  input_names := ["x", "w"]
  output_names := ["z", "wt"]

/-- The turned weight is in no node, and a stage of all nodes is not connected to the master. -/
theorem not_mergeRun_visible : ∃ ml_graph merged used sol_graphs,
    initialMLGraph .sinksFirst .sorted .inserted weightGraph = some ml_graph ∧
    MLPartitioner.crossingPartitioner.MergeRun .sinksFirst ml_graph 0 merged used ∧
    weightGraph.WellFormed ∧ weightGraph.Typed ∧ "wt" ∈ weightGraph.producedOutputs ∧
    (∀ n ∈ ml_graph.nodes ++ merged.nodes, "wt" ∉ n.graph.output_names) ∧
    merged.nodes.length = 1 ∧
    [(0, 0)].mapM (fun s => (mergeHelper merged).merge s.1 s.2) = some sol_graphs ∧
    MLPartDecomposer.createPartition .inserted weightGraph sol_graphs = none := by
  have h : (firstMerge weightGraph).any (fun res =>
      (∀ n ∈ res.1.nodes ++ res.2.nodes, "wt" ∉ n.graph.output_names) ∧ res.2.nodes.length = 1 ∧
      ([(0, 0)].mapM fun s => (mergeHelper res.2).merge s.1 s.2).any fun sol_graphs =>
        (MLPartDecomposer.createPartition .inserted weightGraph sol_graphs).isNone) =
      true := by
    decide +kernel
  obtain ⟨⟨ml_graph, merged⟩, hfirst, hres⟩ := (Option.any_eq_true _ _).mp h
  obtain ⟨hwt, hlength, hstage⟩ := of_decide_eq_true hres
  obtain ⟨sol_graphs, hsol, hnone⟩ := (Option.any_eq_true _ _).mp hstage
  obtain ⟨hinit, used, hrun⟩ := firstMerge_mergeRun hfirst
  refine ⟨ml_graph, merged, used, sol_graphs, hinit, hrun, ?_, ?_, by decide, hwt, hlength, hsol,
    Option.isNone_iff_eq_none.mp hnone⟩
  · exact .of_checks (by decide +kernel) (by decide +kernel) (by decide +kernel) (by decide +kernel)
  · exact .of_checks (by decide +kernel) (by decide +kernel)

end Rannc
