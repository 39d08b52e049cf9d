import Rannc.Graph.MergedLayers
import Rannc.Graph.StageAllocation
import Rannc.Graph.VerifyDeployment

/-!
# The stages that the search finds

The graphs of a solution are merged from ranges that share the layers. Where the layers run one
after another, the stages are parts of the model as the deployment needs them, and where the layers
could be deployed as they are, so can every solution.
-/
namespace Rannc

theorem getMergedGraphId_eq_iff {i j i' j' : ℕ} :
    getMergedGraphId i j = getMergedGraphId i' j' ↔ i = i' ∧ j = j' := by
  refine ⟨fun h => ?_, fun h => by rw [h.1, h.2]⟩
  have hrepr : ∀ n : ℕ, (toString n).toList = Nat.toDigits 10 n := fun n => String.toList_ofList
  have hlist := congrArg String.toList h
  simp only [getMergedGraphId, String.toList_append, List.append_assoc, hrepr,
    List.append_cancel_left_eq] at hlist
  obtain ⟨hfirst, -, hlast⟩ := (List.append_cons_inj_of_notMem Nat.underscore_not_in_toDigits
    Nat.underscore_not_in_toDigits).mp hlist
  exact ⟨toDigits_inj hfirst, toDigits_inj hlast⟩

theorem getMergedGraphId_ne_master {i j : ℕ} : getMergedGraphId i j ≠ MASTER_NAME := by
  intro h
  have hlist := congrArg String.toList h
  simp [getMergedGraphId, MASTER_NAME, String.toList_append] at hlist

theorem ml_ne_master (s : String) : "ML_" ++ s ≠ MASTER_NAME := by
  intro h
  have hlist := congrArg String.toList h
  simp [MASTER_NAME, String.toList_append] at hlist

namespace GraphMergeHelper

variable {helper : GraphMergeHelper} {ir_graph : IRGraph}

theorem layer_lt {k : ℕ} {l : IRGraph} (hl : helper.layers[k]? = some l) :
    k < helper.graph.nodes.length := by
  obtain ⟨n, hn, -⟩ := layers_getElem.mp hl
  exact (List.getElem?_eq_some_iff.mp hn).1

theorem Layered.merge_spec (h : helper.Layered ir_graph) (hsorted : helper.Sorted)
    {first last : ℕ} {sg : IRGraph} (hle : first ≤ last) (hsg : helper.merge first last = some sg) :
    helper.RangeGraph ir_graph first last sg ∧
      (first = last ∧ (∃ n, helper.graph.nodes[first]? = some n ∧ sg.name = n.id) ∨
        first < last ∧ sg.name = getMergedGraphId first last) := by
  obtain ⟨hlast, hsg⟩ := of_guard_bind hsg
  obtain ⟨count, rfl⟩ := Nat.exists_eq_add_of_le hle
  obtain ⟨st, graphs, hst, hbeside⟩ := exists_mergeUntil hsorted hlast
  obtain ⟨st', hst', hsg⟩ := Option.bind_eq_some_iff.mp hsg
  obtain rfl := Option.some.inj (hst.symm.trans hst')
  obtain rfl := Option.some.inj hsg
  have hgraphs := hbeside.base.graphs
  refine ⟨h.rangeGraph hgraphs, ?_⟩
  cases count with
  | zero =>
    obtain ⟨base, hbase, hhead⟩ := Option.bind_eq_some_iff.mp hgraphs
    obtain ⟨hhead, -⟩ := List.cons.inj (Option.some.inj hhead)
    exact Or.inl ⟨rfl, base, hbase, by rw [← hhead, hsorted.named _ (List.mem_of_getElem? hbase)]⟩
  | succ count => exact Or.inr ⟨by omega, (prefixGraphs_head hgraphs).1⟩

/-- Graphs that are merged from ranges which share the layers. -/
structure SharesLayers (helper : GraphMergeHelper) (graphs : List IRGraph)
    (ranges : List (ℕ × ℕ)) : Prop where
  merged : ranges.map (fun range => helper.merge range.1 range.2) = graphs.map some
  le : ∀ range ∈ ranges, range.1 ≤ range.2
  cover : ranges.flatMap (fun range => List.range' range.1 (range.2 + 1 - range.1)) =
    List.range helper.graph.nodes.length

/-- The stage that a layer is in. -/
structure StageAt (helper : GraphMergeHelper) (graphs : List IRGraph) (ranges : List (ℕ × ℕ))
    (k : ℕ) (range : ℕ × ℕ) (sg : IRGraph) : Prop where
  mem_ranges : range ∈ ranges
  holds : range.1 ≤ k ∧ k ≤ range.2
  mem_graphs : sg ∈ graphs
  merge : helper.merge range.1 range.2 = some sg

namespace SharesLayers

variable {graphs : List IRGraph} {ranges : List (ℕ × ℕ)} (h : helper.SharesLayers graphs ranges)
include h

theorem exists_range {sg : IRGraph} (hsg : sg ∈ graphs) :
    ∃ range ∈ ranges, helper.merge range.1 range.2 = some sg := by
  have hmem : some sg ∈ graphs.map some := List.mem_map_of_mem hsg
  rw [← h.merged] at hmem
  obtain ⟨range, hrange, hmerge⟩ := List.mem_map.mp hmem
  exact ⟨range, hrange, hmerge⟩

theorem exists_graph {range : ℕ × ℕ} (hrange : range ∈ ranges) :
    ∃ sg ∈ graphs, helper.merge range.1 range.2 = some sg := by
  have hmem := List.mem_map_of_mem (f := fun range => helper.merge range.1 range.2) hrange
  rw [h.merged] at hmem
  obtain ⟨sg, hsg, hmerge⟩ := List.mem_map.mp hmem
  exact ⟨sg, hsg, hmerge.symm⟩

theorem exists_stageAt {k : ℕ} {l : IRGraph} (hl : helper.layers[k]? = some l) :
    ∃ range sg, helper.StageAt graphs ranges k range sg := by
  have hmem := List.mem_range.mpr (layer_lt hl)
  rw [← h.cover] at hmem
  obtain ⟨range, hrange, hk⟩ := List.mem_flatMap.mp hmem
  rw [List.mem_range'_1] at hk
  obtain ⟨sg, hsg, hmerge⟩ := h.exists_graph hrange
  exact ⟨range, sg, hrange, ⟨by omega, by omega⟩, hsg, hmerge⟩

theorem range_unique {range range' : ℕ × ℕ} (hrange : range ∈ ranges) (hrange' : range' ∈ ranges)
    {k : ℕ} (hk : range.1 ≤ k ∧ k ≤ range.2) (hk' : range'.1 ≤ k ∧ k ≤ range'.2) :
    range = range' := by
  have hnodup := List.nodup_range (n := helper.graph.nodes.length)
  rw [← h.cover, List.nodup_flatMap] at hnodup
  by_contra hne
  have : Std.Symm (Function.onFun List.Disjoint
    fun range : ℕ × ℕ => List.range' range.1 (range.2 + 1 - range.1)) := ⟨fun _ _ h => h.symm⟩
  have hdisjoint := hnodup.2.forall hrange hrange' hne
  have hmem : k ∈ List.range' range.1 (range.2 + 1 - range.1) :=
    List.mem_range'_1.mpr ⟨hk.1, by omega⟩
  exact hdisjoint hmem (List.mem_range'_1.mpr ⟨hk'.1, by omega⟩)

theorem nodup : ranges.Nodup := by
  have hnodup := List.nodup_range (n := helper.graph.nodes.length)
  rw [← h.cover, List.nodup_flatMap] at hnodup
  refine hnodup.2.imp_of_mem fun {range range'} hrange _ hdisjoint heq => ?_
  subst heq
  have hle := h.le range hrange
  have hmem : range.1 ∈ List.range' range.1 (range.2 + 1 - range.1) :=
    List.mem_range'_1.mpr ⟨le_rfl, by omega⟩
  exact hdisjoint hmem hmem

end SharesLayers

section Stages

variable {graphs : List IRGraph} {ranges : List (ℕ × ℕ)} (hlayered : helper.Layered ir_graph)
  (hsorted : helper.Sorted) (h : helper.SharesLayers graphs ranges)

include hlayered hsorted h

theorem SharesLayers.rangeGraph {sg : IRGraph} (hsg : sg ∈ graphs) :
    ∃ range ∈ ranges, helper.RangeGraph ir_graph range.1 range.2 sg ∧
      helper.merge range.1 range.2 = some sg := by
  obtain ⟨range, hrange, hmerge⟩ := h.exists_range hsg
  exact ⟨range, hrange, (hlayered.merge_spec hsorted (h.le range hrange) hmerge).1, hmerge⟩

theorem SharesLayers.range_of_name {range range' : ℕ × ℕ} (hrange : range ∈ ranges)
    (hrange' : range' ∈ ranges) {sg sg' : IRGraph}
    (hmerge : helper.merge range.1 range.2 = some sg)
    (hmerge' : helper.merge range'.1 range'.2 = some sg') (hname : sg.name = sg'.name) :
    range = range' := by
  have hspec := (hlayered.merge_spec hsorted (h.le range hrange) hmerge).2
  have hspec' := (hlayered.merge_spec hsorted (h.le range' hrange') hmerge').2
  rcases hspec with ⟨hone, n, hn, hn_name⟩ | ⟨-, hlong⟩
  · rcases hspec' with ⟨hone', n', hn', hn_name'⟩ | ⟨-, hlong'⟩
    · have hindex := hsorted.index_inj hn hn' (by rw [← hn_name, hname, hn_name'])
      exact Prod.ext hindex (by rw [← hone, hindex, hone'])
    · exact absurd (by rw [← hn_name, hname, hlong']) (hsorted.name_ne hn)
  · rcases hspec' with ⟨-, n', hn', hn_name'⟩ | ⟨-, hlong'⟩
    · exact absurd (by rw [← hn_name', ← hname, hlong]) (hsorted.name_ne hn')
    · exact Prod.ext_iff.mpr (getMergedGraphId_eq_iff.mp (by rw [← hlong, hname, hlong']))

theorem SharesLayers.nodup_names : (graphs.map IRGraph.name).Nodup := by
  have hnames : (graphs.map IRGraph.name).map some =
      ranges.map fun range => (helper.merge range.1 range.2).map IRGraph.name := by
    have hmap := congrArg (List.map (Option.map IRGraph.name)) h.merged
    rw [List.map_map, List.map_map] at hmap
    rw [List.map_map]
    exact hmap.symm
  rw [← List.nodup_map_iff (Option.some_injective String), hnames]
  refine h.nodup.map_on fun range hrange range' hrange' heq => ?_
  obtain ⟨sg, -, hmerge⟩ := h.exists_graph hrange
  obtain ⟨sg', -, hmerge'⟩ := h.exists_graph hrange'
  rw [hmerge, hmerge'] at heq
  exact h.range_of_name hlayered hsorted hrange hrange' hmerge hmerge' (Option.some.inj heq)

/-- The stages are parts of the model. -/
theorem SharesLayers.stages : Stages ir_graph graphs where
  model := hlayered.model.verified
  nodup := h.nodup_names hlayered hsorted
  not_master sg hsg := by
    obtain ⟨range, hrange, hmerge⟩ := h.exists_range hsg
    rcases (hlayered.merge_spec hsorted (h.le range hrange) hmerge).2 with
      ⟨-, n, hn, hname⟩ | ⟨-, hname⟩
    · obtain ⟨s, hs⟩ := hsorted.ml n (List.mem_of_getElem? hn)
      rw [hname, hs]
      exact ml_ne_master s
    · rw [hname]
      exact getMergedGraphId_ne_master
  verified sg hsg := by
    obtain ⟨range, -, hrange, -⟩ := h.rangeGraph hlayered hsorted hsg
    exact hrange.layer.verified
  values sg hsg name v hv := by
    obtain ⟨range, -, hrange, -⟩ := h.rangeGraph hlayered hsorted hsg
    have hmodel := hlayered.model.getValue hrange.layer.values hv
    exact ⟨v, hmodel, hlayered.model.names _ (mem_of_getValue hmodel), IRValue.SameUse.refl v⟩
  batch sg hsg it hit := by
    obtain ⟨range, -, hrange, -⟩ := h.rangeGraph hlayered hsorted hsg
    exact hlayered.model.batch it (hrange.layer.values hit)
  params sg hsg name hname hparam := by
    obtain ⟨range, -, hrange, -⟩ := h.rangeGraph hlayered hsorted hsg
    obtain ⟨v, hv, hv_param⟩ := hrange.layer.verified.getValue_input hname
    exact hlayered.model.params (name, v) (hrange.layer.values (mem_of_getValue hv))
      (hv_param.trans hparam)

theorem SharesLayers.exists_node {l : IRGraph} (hl : l ∈ helper.layers) {n : IRNode}
    (hn : n ∈ l.nodes) : ∃ sg ∈ graphs, n ∈ sg.nodes := by
  obtain ⟨k, hk⟩ := List.mem_iff_getElem?.mp hl
  obtain ⟨range, sg, hat⟩ := h.exists_stageAt hk
  have hgraph := (hlayered.merge_spec hsorted (h.le range hat.mem_ranges) hat.merge).1
  exact ⟨sg, hat.mem_graphs, (hgraph.nodes n).mpr ⟨k, l, hat.holds.1, hat.holds.2, hk, hn⟩⟩

theorem SharesLayers.nodes_subset {sg : IRGraph} (hsg : sg ∈ graphs) :
    sg.nodes ⊆ ir_graph.nodes := by
  obtain ⟨range, -, hrange, -⟩ := h.rangeGraph hlayered hsorted hsg
  exact hrange.layer.nodes

end Stages

section Connected

variable {first last : ℕ} {sg : IRGraph}

theorem RangeGraph.reads (hlayered : helper.Layered ir_graph)
    (hrange : helper.RangeGraph ir_graph first last sg) {name : String} (hread : sg.Reads name) :
    ∃ k l, first ≤ k ∧ k ≤ last ∧ helper.layers[k]? = some l ∧ l.Reads name := by
  obtain ⟨⟨k, l, hfirst, hlast, hl, hin⟩, -⟩ := (hrange.inputs name).mp hread.1
  refine ⟨k, l, hfirst, hlast, hl, hin, ?_⟩
  rw [hlayered.model.isParam_eq (hlayered.layerAt hl) (IRGraph.mem_definedNames.mpr (Or.inl hin)),
    ← hlayered.model.isParam_eq hrange.layer (IRGraph.mem_definedNames.mpr (Or.inl hread.1))]
  exact hread.2

theorem RangeGraph.reads_of_made (hlayered : helper.Layered ir_graph)
    (hrange : helper.RangeGraph ir_graph first last sg) {l : IRGraph} {out : String}
    (hl : l ∈ helper.layers) (hmade : out ∈ l.output_names)
    (hread : helper.Within IRGraph.input_names first last out)
    (hnot : ¬helper.Within IRGraph.output_names first last out) : sg.Reads out := by
  have hin := (hrange.inputs out).mpr ⟨hread, hnot⟩
  obtain ⟨n, hn, hout⟩ := (hlayered.layer l hl).made out hmade
  refine ⟨hin, ?_⟩
  rw [hlayered.model.isParam_eq hrange.layer (IRGraph.mem_definedNames.mpr (Or.inl hin))]
  exact hlayered.model.not_isParam ((hlayered.layer l hl).nodes hn) hout

variable {graphs : List IRGraph} {ranges : List (ℕ × ℕ)} (hlayered : helper.Layered ir_graph)
  (hsorted : helper.Sorted) (h : helper.SharesLayers graphs ranges)
  (hcon : Connectable ir_graph helper.layers)

include hsorted in
theorem Sorted.layer_index_inj {j k : ℕ} {l : IRGraph} (hl : helper.layers[j]? = some l)
    (hl' : helper.layers[k]? = some l) : j = k := by
  obtain ⟨n, hn, rfl⟩ := layers_getElem.mp hl
  obtain ⟨n', hn', heq⟩ := layers_getElem.mp hl'
  refine hsorted.index_inj hn hn' ?_
  rw [← hsorted.named n (List.mem_of_getElem? hn), ← hsorted.named n' (List.mem_of_getElem? hn'),
    heq]

include hsorted hcon in
theorem Sorted.index_of_made {j k : ℕ} {l l' : IRGraph} {out : String}
    (hl : helper.layers[j]? = some l) (hl' : helper.layers[k]? = some l')
    (hmade : out ∈ l.output_names) (hmade' : out ∈ l'.output_names) : j = k := by
  obtain rfl := hcon.once l (List.mem_of_getElem? hl) l' (List.mem_of_getElem? hl') out hmade hmade'
  exact hsorted.layer_index_inj hl hl'

include hlayered hsorted h hcon

/-- What a layer makes and a layer of another stage reads is handed from the one stage to the
other. -/
theorem SharesLayers.handed {j k : ℕ} {l l' sg sg' : IRGraph} {out : String} {range range' : ℕ × ℕ}
    (hl : helper.layers[k]? = some l) (hmade : out ∈ l.output_names)
    (hl' : helper.layers[j]? = some l') (hread : out ∈ l'.input_names)
    (hat : helper.StageAt graphs ranges k range sg)
    (hat' : helper.StageAt graphs ranges j range' sg') (hne : range ≠ range') :
    out ∈ sg.output_names ∧ sg'.Reads out ∧ sg ≠ sg' := by
  have hgraph := (hlayered.merge_spec hsorted (h.le range hat.mem_ranges) hat.merge).1
  have hgraph' := (hlayered.merge_spec hsorted (h.le range' hat'.mem_ranges) hat'.merge).1
  have houtside : j < range.1 ∨ range.2 < j := by
    by_contra hinside
    exact hne (h.range_unique hat.mem_ranges hat'.mem_ranges ⟨by omega, by omega⟩ hat'.holds)
  refine ⟨?_, ?_, ?_⟩
  · exact (hgraph.outputs out).mpr ⟨⟨k, l, hat.holds.1, hat.holds.2, hl, hmade⟩,
      Or.inl ⟨j, l', houtside, hl', hread⟩⟩
  · refine hgraph'.reads_of_made hlayered (List.mem_of_getElem? hl) hmade
      ⟨j, l', hat'.holds.1, hat'.holds.2, hl', hread⟩ ?_
    rintro ⟨i, l'', hfirst, hlast, hl'', hmade'⟩
    obtain rfl := hsorted.index_of_made hcon hl hl'' hmade hmade'
    exact hne (h.range_unique hat.mem_ranges hat'.mem_ranges hat.holds ⟨hfirst, hlast⟩)
  · rintro rfl
    exact hne (h.range_of_name hlayered hsorted hat.mem_ranges hat'.mem_ranges hat.merge hat'.merge
      rfl)

theorem SharesLayers.read_outside {k : ℕ} {l sg : IRGraph} {out : String} {range : ℕ × ℕ}
    (hl : helper.layers[k]? = some l) (hmade : out ∈ l.output_names)
    (hat : helper.StageAt graphs ranges k range sg)
    (hread : helper.Outside IRGraph.input_names range.1 range.2 out) :
    ∃ sg' ∈ graphs, sg' ≠ sg ∧ sg'.Reads out := by
  obtain ⟨j, l', hj, hl', hread⟩ := hread
  obtain ⟨range', sg', hat'⟩ := h.exists_stageAt hl'
  have hne : range ≠ range' := by
    rintro rfl
    have hholds := hat'.holds
    omega
  obtain ⟨-, hread', hne'⟩ := h.handed hlayered hsorted hcon hl hmade hl' hread hat hat' hne
  exact ⟨sg', hat'.mem_graphs, hne'.symm, hread'⟩

/-- Where the layers can be connected, so can what is merged from ranges of them. -/
theorem SharesLayers.connectable : Connectable ir_graph graphs where
  reads sg hsg name hread := by
    obtain ⟨range, hrange, hgraph, hmerge⟩ := h.rangeGraph hlayered hsorted hsg
    obtain ⟨j, l, hfirst, hlast, hl, hread_l⟩ := hgraph.reads hlayered hread
    rcases hcon.reads l (List.mem_of_getElem? hl) name hread_l with hmodel | ⟨src, hsrc, -, hmade⟩
    · exact Or.inl hmodel
    · obtain ⟨k, hk⟩ := List.mem_iff_getElem?.mp hsrc
      obtain ⟨range', sg', hat'⟩ := h.exists_stageAt hk
      have hne : range' ≠ range := by
        rintro rfl
        exact ((hgraph.inputs name).mp hread.1).2
          ⟨k, src, hat'.holds.1, hat'.holds.2, hk, hmade⟩
      obtain ⟨hout, -, hne'⟩ := h.handed hlayered hsorted hcon hk hmade hl hread_l.1 hat'
        ⟨hrange, ⟨hfirst, hlast⟩, hsg, hmerge⟩ hne
      exact Or.inr ⟨sg', hat'.mem_graphs, hne', hout⟩
  fresh sg hsg out hout := by
    obtain ⟨range, -, hgraph, -⟩ := h.rangeGraph hlayered hsorted hsg
    obtain ⟨⟨k, l, -, -, hl, hmade⟩, -⟩ := (hgraph.outputs out).mp hout
    exact hcon.fresh l (List.mem_of_getElem? hl) out hmade
  once sg hsg sg' hsg' out hout hout' := by
    obtain ⟨range, hrange, hgraph, hmerge⟩ := h.rangeGraph hlayered hsorted hsg
    obtain ⟨range', hrange', hgraph', hmerge'⟩ := h.rangeGraph hlayered hsorted hsg'
    obtain ⟨⟨k, l, hfirst, hlast, hl, hmade⟩, -⟩ := (hgraph.outputs out).mp hout
    obtain ⟨⟨j, l', hfirst', hlast', hl', hmade'⟩, -⟩ := (hgraph'.outputs out).mp hout'
    obtain rfl := hsorted.index_of_made hcon hl hl' hmade hmade'
    obtain rfl := h.range_unique hrange hrange' ⟨hfirst, hlast⟩ ⟨hfirst', hlast'⟩
    exact Option.some.inj (hmerge.symm.trans hmerge')
  used sg hsg out hout := by
    obtain ⟨range, hrange, hgraph, hmerge⟩ := h.rangeGraph hlayered hsorted hsg
    obtain ⟨⟨k, l, hfirst, hlast, hl, hmade⟩, hneeded⟩ := (hgraph.outputs out).mp hout
    have hat : helper.StageAt graphs ranges k range sg :=
      ⟨hrange, ⟨hfirst, hlast⟩, hsg, hmerge⟩
    rcases hneeded with houtside | hunread
    · exact Or.inr (h.read_outside hlayered hsorted hcon hl hmade hat houtside)
    · rcases hcon.used l (List.mem_of_getElem? hl) out hmade with hmodel | ⟨l', hl', -, hread⟩
      · exact Or.inl hmodel
      · obtain ⟨j, hj⟩ := List.mem_iff_getElem?.mp hl'
        refine Or.inr (h.read_outside hlayered hsorted hcon hl hmade hat ⟨j, l', ?_, hj, hread.1⟩)
        by_contra hinside
        exact hunread ⟨j, l', by omega, by omega, hj, hread.1⟩

end Connected

end GraphMergeHelper

namespace DPStaging

variable {dp : DPStaging} {helper : GraphMergeHelper}
  {stage_num dev_num_per_group replica_num pipeline_num : ℕ} {checkpointing : Bool}
  {sol : AllocSolution}

theorem StageChain.sharesLayers {s d : ℕ} {stages : List Stage} {graphs : List IRGraph}
    (hchain : dp.StageChain helper replica_num pipeline_num checkpointing s
      helper.graph.nodes.length d stages)
    (hgraphs : stages.map (fun st => helper.merge st.first (st.boundary - 1)) = graphs.map some) :
    helper.SharesLayers graphs (stages.map fun st => (st.first, st.boundary - 1)) := by
  have hnonempty : ∀ st ∈ stages, st.first < st.boundary :=
    fun st hst => (hchain.stageOk st hst).nonempty
  refine ⟨?_, ?_, ?_⟩
  · rw [List.map_map]
    exact hgraphs
  · intro range hrange
    obtain ⟨st, hst, rfl⟩ := List.mem_map.mp hrange
    exact Nat.le_sub_one_of_lt (hnonempty st hst)
  · rw [← hchain.layers, List.flatMap_map]
    refine List.flatMap_congr fun st hst => ?_
    have hlt := hnonempty st hst
    have hlen : st.boundary - 1 + 1 - st.first = st.boundary - st.first := by omega
    dsimp only
    rw [hlen]

theorem doRunDpComm_sharesLayers
    (h : dp.doRunDpComm helper stage_num dev_num_per_group replica_num pipeline_num checkpointing =
      some sol) (hne : sol.graphs ≠ []) : ∃ ranges, helper.SharesLayers sol.graphs ranges := by
  obtain ⟨stages, hchain, hgraphs, -⟩ := doRunDpComm_chain h hne
  exact ⟨_, hchain.sharesLayers hgraphs⟩

end DPStaging

/-- What the search finds can be deployed. Where the layers run one after another and could be
deployed themselves, the graphs of a solution are parts of the model that share the nodes of the
layers, and each of its deployments is verified. -/
theorem searched_solution_verified {dp : DPStaging} {helper : GraphMergeHelper}
    {stage_num dev_num_per_group replica_num pipeline_num : ℕ} {checkpointing : Bool}
    {sort : Digraph.TopologicalSort} {sets : SetOrder} {order : MapOrder String}
    {size batch_size : ℕ} {alloc_repl_flat : Bool} {ir_graph : IRGraph} {sol : AllocSolution}
    {dec : Decomposed}
    (hlayered : helper.Layered ir_graph) (hsorted : helper.Sorted)
    (hcon : Connectable ir_graph helper.layers)
    (hsearch : dp.doRunDpComm helper stage_num dev_num_per_group replica_num pipeline_num
      checkpointing = some sol) (hne : sol.graphs ≠ [])
    (hdeploy : MLPartDecomposer.deploySolution sort sets order size batch_size alloc_repl_flat
      ir_graph sol = some dec) :
    Stages ir_graph sol.graphs ∧ (∀ sg ∈ sol.graphs, sg.nodes ⊆ ir_graph.nodes) ∧
      (∀ l ∈ helper.layers, ∀ n ∈ l.nodes, ∃ sg ∈ sol.graphs, n ∈ sg.nodes) ∧
      verifyDeployment dec.partition.subgraphs.entries dec.fwd dec.bwd = .ok () := by
  obtain ⟨ranges, hranges⟩ := DPStaging.doRunDpComm_sharesLayers hsearch hne
  have hstages := hranges.stages hlayered hsorted
  have hdeployed := MLPartDecomposer.deploySolution_spec hstages hdeploy
  refine ⟨hstages, fun sg hsg => hranges.nodes_subset hlayered hsorted hsg,
    fun l hl n hn => hranges.exists_node hlayered hsorted hl hn, ?_⟩
  exact (verifyDeployment_eq_ok_iff hstages hdeployed).mpr
    (hranges.connectable hlayered hsorted hcon)

/-- Three operators, of which the last reads the values of both others. -/
def threeLayersHelper : GraphMergeHelper where
  graph :=
    { nodes := [MLPartitioner.crossingNode "ML_a" "relu" ["x"] "p",
        MLPartitioner.crossingNode "ML_b" "tanh" ["p"] "q",
        MLPartitioner.crossingNode "ML_c" "add" ["p", "q"] "r"]
      edges := [MLPartitioner.crossingEdge "ML_a" "ML_b" "p",
        MLPartitioner.crossingEdge "ML_a" "ML_c" "p",
        MLPartitioner.crossingEdge "ML_b" "ML_c" "q"] }
  names := MLPartitioner.crossingNames
  used := 0
  edge_order := MLPartitioner.crossingPartitioner.edge_order

def threeLayersGraph : IRGraph where
  name := "m"
  nodes := threeLayersHelper.layers.flatMap IRGraph.nodes
  values := ["x", "p", "q", "r"].map MLPartitioner.crossingValue
  input_names := ["x"]
  output_names := ["r"]

/-- A search in which all graphs are equally fast. -/
def threeLayersStaging : DPStaging where
  profile _ _ _ _ := some ⟨1, 1, 0⟩
  batch_size := 2
  dev_mem := 10 ^ 9
  use_amp_master_params := false
  enable_zero := false
  opt_param_factor := 2
  min_pipeline_bs := 1
  limit_dev_num_pot := true
  limit_dev_num_more_than_bs := true
  do_coarsening := true

theorem threeLayersHelper_sorted : threeLayersHelper.Sorted where
  topo := by
    refine ⟨by decide, ?_⟩
    unfold MLGraph.Forward
    decide
  named := by decide
  ml := by
    have hids : ∀ n ∈ threeLayersHelper.graph.nodes,
        ∃ s ∈ ["a", "b", "c"], n.id = "ML_" ++ s := by
      decide
    intro n hn
    obtain ⟨s, -, hs⟩ := hids n hn
    exact ⟨s, hs⟩
  known := by
    unfold IRGraph.InputsKnown
    decide
  fresh i _ := by
    have hids : threeLayersHelper.graph.ids = ["ML_a", "ML_b", "ML_c"] := rfl
    rw [hids]
    exact MLPartitioner.crossingNames_fresh (by simp) i

theorem threeLayersHelper_layer {l : IRGraph} (hl : l ∈ threeLayersHelper.layers) :
    Layer threeLayersGraph l := by
  have hverified : ∀ l ∈ threeLayersHelper.layers, l.verifyNodeInputs = true ∧
      l.verifyNoDuplicatedOutputs = true ∧ l.output_names ⊆ l.definedNames ∧
      (∀ name ∈ l.definedNames, l.hasValue name = true) ∧ (∀ it ∈ l.values, it.2.name = it.1) ∧
      (l.nodes.map IRNode.id).Nodup := by
    decide
  obtain ⟨hinputs, hunique, houtputs, hvalues, hnames, hids⟩ := hverified l hl
  refine ⟨⟨hinputs, hunique, houtputs, fun name hname => exists_value hnames (hvalues name hname),
    hids⟩, ?_, ?_, ?_, ?_, ?_⟩
  · revert l
    decide
  · simp only [threeLayersHelper, GraphMergeHelper.layers, List.map_cons, List.map_nil,
      List.mem_cons, List.not_mem_nil, or_false] at hl
    rcases hl with rfl | rfl | rfl <;> simp [MLPartitioner.crossingNode, threeLayersGraph]
  · revert l
    decide
  · revert l
    decide
  · revert l
    decide

theorem threeLayersHelper_layered : threeLayersHelper.Layered threeLayersGraph where
  model := by
    refine ⟨⟨by decide, by decide, by decide, fun name hname => ?_, by decide⟩, by decide,
      by decide, by decide, by decide⟩
    exact exists_value (by decide) (by revert name; decide)
  layer _ hl := threeLayersHelper_layer hl
  before := by
    have hpairs : threeLayersHelper.layers.Pairwise fun l l' =>
        (∀ n ∈ l'.nodes, ∀ out ∈ n.output_names, out ∉ l.input_names) ∧
        (∀ n ∈ l.nodes, ∀ out ∈ n.output_names, out ∈ l'.input_names → out ∈ l.output_names) ∧
        (∀ n ∈ l.nodes, n ∈ l'.nodes → n.output_names ≠ []) := by
      decide
    exact hpairs.imp fun h => ⟨h.1, h.2.1, h.2.2⟩

theorem threeLayersHelper_connectable : Connectable threeLayersGraph threeLayersHelper.layers :=
  .of_names (by decide) (by decide) (by decide) (by decide) (by decide)

theorem searched_solution_verified_three : ∃ sol dec,
    threeLayersStaging.doRunDpComm threeLayersHelper 2 3 1 1 false = some sol ∧
      MLPartDecomposer.deploySolution .sinksFirst .sorted asGiven 3 2 false threeLayersGraph sol =
        some dec ∧
      Stages threeLayersGraph sol.graphs ∧
      (∀ sg ∈ sol.graphs, sg.nodes ⊆ threeLayersGraph.nodes) ∧
      (∀ l ∈ threeLayersHelper.layers, ∀ n ∈ l.nodes, ∃ sg ∈ sol.graphs, n ∈ sg.nodes) ∧
      verifyDeployment dec.partition.subgraphs.entries dec.fwd dec.bwd = .ok () := by
  have hrun : (threeLayersStaging.doRunDpComm threeLayersHelper 2 3 1 1 false).any
      (fun sol => decide (sol.graphs ≠ []) && (MLPartDecomposer.deploySolution .sinksFirst .sorted
        asGiven 3 2 false threeLayersGraph sol).isSome) = true := by
    decide +kernel
  obtain ⟨sol, hsol, hsome⟩ := (Option.any_eq_true _ _).mp hrun
  obtain ⟨hne, hsome⟩ := Bool.and_eq_true_iff.mp hsome
  obtain ⟨dec, hdec⟩ := Option.isSome_iff_exists.mp hsome
  exact ⟨sol, dec, hsol, hdec, searched_solution_verified threeLayersHelper_layered
    threeLayersHelper_sorted threeLayersHelper_connectable hsol (of_decide_eq_true hne) hdec⟩

end Rannc
