import Rannc.Graph.RemoveUnused
import Rannc.Graph.StagePartition
import Rannc.Graph.StaleInputs

/-!
# Ranges of layers

The layers are parts of the model in topological order. Where each layer is without waste, so is
what is merged from a range of them: it has the nodes of the range, reads what the range does not
make, and makes what is read outside or nowhere in it.
-/
namespace Rannc

open GraphMergeHelper

/-- A part of the model that makes what it returns, reads its inputs, and uses what it makes. -/
structure Layer (ir_graph g : IRGraph) : Prop where
  verified : g.Verified
  nodes : g.nodes ⊆ ir_graph.nodes
  values : g.values ⊆ ir_graph.values
  made : ∀ out ∈ g.output_names, ∃ n ∈ g.nodes, out ∈ n.output_names
  read : ∀ name ∈ g.input_names, ∃ n ∈ g.nodes, name ∈ n.input_names
  used : ∀ n ∈ g.nodes, ∀ out ∈ n.output_names,
    out ∈ g.output_names ∨ ∃ m ∈ g.nodes, out ∈ m.input_names

/-- The second part reads what the first one hands over, and the first one nothing that the second
makes. A node of both has an output. -/
structure Precedes (g1 g2 : IRGraph) : Prop where
  order : ∀ n ∈ g2.nodes, ∀ out ∈ n.output_names, out ∉ g1.input_names
  handed : ∀ n ∈ g1.nodes, ∀ out ∈ n.output_names, out ∈ g2.input_names → out ∈ g1.output_names
  sinks : ∀ n ∈ g1.nodes, n ∈ g2.nodes → n.output_names ≠ []

/-- A model whose values are known by their names, with its parameters among its inputs. -/
structure ModelOk (ir_graph : IRGraph) : Prop where
  verified : ir_graph.Verified
  keys : (ir_graph.values.map Prod.fst).Nodup
  names : ∀ it ∈ ir_graph.values, it.2.name = it.1
  batch : ∀ it ∈ ir_graph.values, it.2.is_batch = true → it.2.is_param = false
  params : ∀ it ∈ ir_graph.values, it.2.is_param = true → it.1 ∈ ir_graph.input_names

variable {ir_graph g g1 g2 : IRGraph} {r : List String}

section Values

theorem ModelOk.getValue (hmodel : ModelOk ir_graph) (h : g.values ⊆ ir_graph.values)
    {name : String} {v : IRValue} (hv : g.getValue name = some v) :
    ir_graph.getValue name = some v :=
  (Dict.mem_entries_iff (d := ⟨ir_graph.values, hmodel.keys⟩)).mp (h (mem_of_getValue hv))

theorem ModelOk.isParam_eq (hmodel : ModelOk ir_graph) (h : Layer ir_graph g) {name : String}
    (hname : name ∈ g.definedNames) : g.isParam name = ir_graph.isParam name := by
  obtain ⟨v, hv, -⟩ := h.verified.values name hname
  unfold IRGraph.isParam
  rw [hv, hmodel.getValue h.values hv]

theorem ModelOk.not_isParam (hmodel : ModelOk ir_graph) {n : IRNode} (hn : n ∈ ir_graph.nodes)
    {out : String} (hout : out ∈ n.output_names) : ir_graph.isParam out = false := by
  obtain ⟨v, hv, -⟩ :=
    hmodel.verified.values out (IRGraph.mem_definedNames.mpr (Or.inr ⟨n, hn, hout⟩))
  unfold IRGraph.isParam
  rw [hv]
  by_contra hparam
  have hin := hmodel.params _ (mem_of_getValue hv) (by simpa using hparam)
  exact hmodel.verified.input_not_written hn hin hout

end Values

/-- What is left when nothing is unused. -/
theorem Layer.removeUnusedNodes (h : Layer ir_graph g) : ∃ new_g, g.removeUnusedNodes = some new_g ∧
    Layer ir_graph new_g ∧ new_g.nodes = g.nodes ∧ new_g.input_names = g.input_names ∧
      new_g.output_names = g.output_names := by
  have hrequired : ∀ name ∈ g.definedNames, name ∈ g.getRequiredValues := by
    intro name hname
    rw [IRGraph.mem_getRequiredValues]
    cases IRGraph.mem_definedNames.mp hname with
    | inl hin => exact Or.inr (h.read name hin)
    | inr hmade =>
      obtain ⟨n, hn, hout⟩ := hmade
      exact h.used n hn name hout
  have hnone : g.detectUnusedNodes = [] := by
    rw [IRGraph.detectUnusedNodes_eq_nil]
    exact fun n hn out hout => hrequired out (IRGraph.mem_definedNames.mpr (Or.inr ⟨n, hn, hout⟩))
  have hloop : g.removeUnusedLoop g.nodes.length g = some g := by
    cases g.nodes.length with
    | zero => rfl
    | succ fuel => rw [IRGraph.removeUnusedLoop, if_pos hnone]
  obtain ⟨new_g, hnew, hnodes, houtputs, hinputs⟩ :=
    h.verified.removeUnusedNodes_eq (IRGraph.partOf_self g) hloop
  have hall : new_g.input_names = g.input_names := by
    rw [hinputs]
    exact List.filter_eq_self.mpr fun name hname =>
      decide_eq_true (hrequired name (IRGraph.mem_definedNames.mpr (Or.inl hname)))
  have hvalues : new_g.values = g.values.filter fun it => it.1 ∈ g.getRequiredValues := by
    obtain ⟨res, hres, hcreate⟩ := Option.bind_eq_some_iff.mp hnew
    obtain rfl := Option.some.inj (hloop.symm.trans hres)
    obtain ⟨is_replicable, rfl⟩ := IRGraph.create_eq hcreate
    rfl
  have hdefined : new_g.definedNames = g.definedNames := by
    unfold IRGraph.definedNames
    rw [hnodes, hall]
  refine ⟨new_g, hnew, ⟨⟨?_, ?_, ?_, fun name hname => ?_, ?_⟩, ?_, ?_, ?_, ?_, ?_⟩, hnodes, hall,
    houtputs⟩
  · unfold IRGraph.verifyNodeInputs
    rw [hnodes, hall]
    exact h.verified.node_inputs
  · unfold IRGraph.verifyNoDuplicatedOutputs
    rw [hdefined]
    exact h.verified.no_duplicated
  · rw [houtputs, hdefined]
    exact h.verified.outputs
  · rw [hdefined] at hname
    obtain ⟨v, hv, hv_name⟩ := h.verified.values name hname
    refine ⟨v, ?_, hv_name⟩
    unfold IRGraph.getValue
    rw [hvalues, IRGraph.lookup_filter (p := fun name => name ∈ g.getRequiredValues)
      (decide_eq_true (hrequired name hname))]
    exact hv
  · rw [hnodes]
    exact h.verified.ids
  · rw [hnodes]
    exact h.nodes
  · rw [hvalues]
    exact fun it hit => h.values (List.mem_of_mem_filter hit)
  · rw [houtputs, hnodes]
    exact h.made
  · rw [hall, hnodes]
    exact h.read
  · rw [hnodes, houtputs]
    exact h.used

section Merge

variable (hmodel : ModelOk ir_graph) (h1 : Layer ir_graph g1) (h2 : Layer ir_graph g2)
  (hbefore : Precedes g1 g2)

include hbefore in
theorem Precedes.not_shadowed {n : IRNode} (hn : n ∈ g2.nodes) : ¬Shadowed g1 n := by
  rintro ⟨out, hout, hin, -⟩
  exact hbefore.order n hn out hout hin

include hmodel h1 h2 hbefore

theorem Precedes.mergeable : Mergeable g1 g2 where
  wf1 := h1.verified
  wf2 := h2.verified
  values name hname1 hname2 := by
    obtain ⟨v1, hv1, -⟩ := h1.verified.values name hname1
    obtain ⟨v2, hv2, -⟩ := h2.verified.values name hname2
    rw [hv1, hv2, ← hmodel.getValue h1.values hv1, hmodel.getValue h2.values hv2]
  nodes n1 hn1 n2 hn2 out hout hout' :=
    hmodel.verified.producer_unique (h1.nodes hn1) (h2.nodes hn2) hout hout'
  forward out hout := by
    obtain ⟨n, hn, hmade⟩ := h2.made out hout
    exact hbefore.order n hn out hmade
  handed := hbefore.handed

theorem Precedes.nothingLost : NothingLost g1 g2 where
  params n hn out hout hin := by
    rw [hmodel.isParam_eq h2 (IRGraph.mem_definedNames.mpr (Or.inl hin))]
    exact hmodel.not_isParam (h1.nodes hn) hout
  kept n hn _ out hout := hbefore.order n hn out hout
  lost n hn hshadowed := absurd hshadowed (hbefore.not_shadowed hn)

section Merged

variable {merged : IRGraph} (hm : Merged g1 g2 r merged)

include hm

theorem Precedes.mem_merged_nodes (n : IRNode) :
    n ∈ merged.nodes ↔ n ∈ g1.nodes ∨ n ∈ g2.nodes := by
  constructor
  · exact fun hn => (hm.mem_cases hn).imp_right And.left
  · rintro (hn | hn)
    · exact hm.mem_left hn
    · exact hm.mem_of_not_shadowed (hbefore.mergeable hmodel h1 h2) hn (hbefore.not_shadowed hn)

theorem Precedes.mem_merged_inputs (x : String) : x ∈ merged.input_names ↔
    x ∈ g1.input_names ∨ x ∈ g2.input_names ∧ x ∉ g1.output_names := by
  rw [hm.inputs]
  refine or_congr_right (and_congr_right fun hx => or_iff_right_of_imp fun hparam hout => ?_)
  obtain ⟨n, hn, hmade⟩ := h1.made x hout
  rw [(hbefore.nothingLost hmodel h1 h2).params n hn x hmade hx] at hparam
  exact Bool.false_ne_true hparam

theorem Precedes.merged_hasValue (hvalues : merged.values =
      g1.values ++ g2.values.filter fun v => !g1.hasValue v.1) {x : String}
    (hx : x ∈ merged.definedNames) : (merged.getValue x).isSome := by
  unfold IRGraph.getValue
  rw [hvalues]
  apply isSome_merged_values
  rcases IRGraph.mem_definedNames.mp hx with hin | ⟨n, hn, hout⟩
  · exact ((hbefore.mem_merged_inputs hmodel h1 h2 hm x).mp hin).imp
      (fun hin => h1.verified.input_value (IRGraph.mem_definedNames.mpr (Or.inl hin)))
      fun hin => h2.verified.input_value (IRGraph.mem_definedNames.mpr (Or.inl hin.1))
  · exact ((hbefore.mem_merged_nodes hmodel h1 h2 hm n).mp hn).imp
      (fun hn => h1.verified.input_value (IRGraph.mem_definedNames.mpr (Or.inr ⟨n, hn, hout⟩)))
      fun hn => h2.verified.input_value (IRGraph.mem_definedNames.mpr (Or.inr ⟨n, hn, hout⟩))

theorem Precedes.merged_ids : (merged.nodes.map IRNode.id).Nodup := by
  obtain ⟨p, hm_nodes, hp⟩ := hm.nodes
  rw [hm_nodes, List.map_append]
  refine h1.verified.ids.append (h2.verified.ids.sublist (List.filter_sublist.map _)) ?_
  intro id hid hid'
  obtain ⟨n, hn, rfl⟩ := List.mem_map.mp hid
  obtain ⟨n', hn', heq⟩ := List.mem_map.mp hid'
  obtain ⟨hn', hkept⟩ := List.mem_filter.mp hn'
  obtain rfl := hmodel.verified.eq_of_id (h1.nodes hn) (h2.nodes hn') heq.symm
  obtain ⟨out, hout⟩ := List.exists_mem_of_ne_nil _ (hbefore.sinks n hn hn')
  exact ((hp n hn').mp hkept).2 n hn out hout hout

theorem Precedes.merged_used {n : IRNode} (hn : n ∈ merged.nodes) {out : String}
    (hout : out ∈ n.output_names) :
    out ∈ merged.output_names ∨ ∃ m ∈ merged.nodes, out ∈ m.input_names := by
  have hnodes := hbefore.mem_merged_nodes hmodel h1 h2 hm
  cases (hnodes n).mp hn with
  | inl hn =>
    rcases h1.used n hn out hout with hgiven | ⟨m, hm1, hread⟩
    · by_cases hx : out ∈ g2.input_names
      · obtain ⟨m, hm2, hread⟩ := h2.read out hx
        exact Or.inr ⟨m, (hnodes m).mpr (Or.inr hm2), hread⟩
      · exact Or.inl ((hm.outputs out).mpr (Or.inr ⟨hgiven, Or.inl hx⟩))
    · exact Or.inr ⟨m, (hnodes m).mpr (Or.inl hm1), hread⟩
  | inr hn =>
    rcases h2.used n hn out hout with hgiven | ⟨m, hm2, hread⟩
    · exact Or.inl ((hm.outputs out).mpr (Or.inl hgiven))
    · exact Or.inr ⟨m, (hnodes m).mpr (Or.inr hm2), hread⟩

theorem Precedes.layer_merged (hvalues : merged.values =
      g1.values ++ g2.values.filter fun v => !g1.hasValue v.1) : Layer ir_graph merged := by
  have hmergeable := hbefore.mergeable hmodel h1 h2
  have hsafe := hbefore.nothingLost hmodel h1 h2
  have hnodes := hbefore.mem_merged_nodes hmodel h1 h2 hm
  have hmodel_values : merged.values ⊆ ir_graph.values := by
    rw [hvalues]
    intro it hit
    cases List.mem_append.mp hit with
    | inl hit => exact h1.values hit
    | inr hit => exact h2.values (List.mem_of_mem_filter hit)
  refine ⟨⟨hm.verifyNodeInputs hmergeable hsafe, hm.verifyNoDuplicatedOutputs hmergeable hsafe,
    fun out hout => ?_, fun x hx => ?_, hbefore.merged_ids hmodel h1 h2 hm⟩, fun n hn => ?_,
    hmodel_values, fun out hout => ?_, fun x hx => ?_,
    fun n hn out hout => hbefore.merged_used hmodel h1 h2 hm hn hout⟩
  · rcases (hm.outputs out).mp hout with hout | ⟨hout, -⟩
    · exact hm.output_bound hmergeable hsafe hout
    · exact hm.bound_left (h1.verified.outputs hout)
  · obtain ⟨v, hv⟩ :=
      Option.isSome_iff_exists.mp (hbefore.merged_hasValue hmodel h1 h2 hm hvalues hx)
    exact ⟨v, hv, hmodel.names _ (hmodel_values (mem_of_getValue hv))⟩
  · cases (hnodes n).mp hn with
    | inl hn => exact h1.nodes hn
    | inr hn => exact h2.nodes hn
  · rcases (hm.outputs out).mp hout with hout | ⟨hout, -⟩
    · obtain ⟨n, hn, hmade⟩ := h2.made out hout
      exact ⟨n, (hnodes n).mpr (Or.inr hn), hmade⟩
    · obtain ⟨n, hn, hmade⟩ := h1.made out hout
      exact ⟨n, (hnodes n).mpr (Or.inl hn), hmade⟩
  · rcases (hbefore.mem_merged_inputs hmodel h1 h2 hm x).mp hx with hx | ⟨hx, -⟩
    · obtain ⟨n, hn, hread⟩ := h1.read x hx
      exact ⟨n, (hnodes n).mpr (Or.inl hn), hread⟩
    · obtain ⟨n, hn, hread⟩ := h2.read x hx
      exact ⟨n, (hnodes n).mpr (Or.inr hn), hread⟩

end Merged

/-- Two parts in sequence are merged into a part with the nodes of both. -/
theorem Precedes.mergeTwo (name : String) (r : List String) : ∃ g, mergeTwo name g1 g2 r = some g ∧
    Layer ir_graph g ∧ (∀ n, n ∈ g.nodes ↔ n ∈ g1.nodes ∨ n ∈ g2.nodes) ∧
    (∀ x, x ∈ g.input_names ↔ x ∈ g1.input_names ∨ x ∈ g2.input_names ∧ x ∉ g1.output_names) ∧
    ∀ out, out ∈ g.output_names ↔
      out ∈ g2.output_names ∨ out ∈ g1.output_names ∧ (out ∉ g2.input_names ∨ out ∈ r) := by
  have hmergeable := hbefore.mergeable hmodel h1 h2
  obtain ⟨merged, hmerged, hm⟩ := hmergeable.exists_merged name r
  obtain ⟨merged', hmerged', hjoined⟩ := hmergeable.joinable.exists_joined name r
  obtain rfl := Option.some.inj (hmerged.symm.trans hmerged')
  obtain ⟨g, hg, hg_layer, hg_nodes, hg_inputs, hg_outputs⟩ :=
    (hbefore.layer_merged hmodel h1 h2 hm hjoined.values).removeUnusedNodes
  refine ⟨g, Option.bind_eq_some_iff.mpr ⟨merged, hmerged, hg⟩, hg_layer, ?_, ?_, ?_⟩
  · rw [hg_nodes]
    exact hbefore.mem_merged_nodes hmodel h1 h2 hm
  · rw [hg_inputs]
    exact hbefore.mem_merged_inputs hmodel h1 h2 hm
  · rw [hg_outputs]
    exact hm.outputs

end Merge

namespace GraphMergeHelper

variable (helper : GraphMergeHelper)

def layers : List IRGraph := helper.graph.nodes.map MLNode.graph

/-- Some layer of the range has the item. -/
def Within {α : Type} (items : IRGraph → List α) (first last : ℕ) (a : α) : Prop :=
  ∃ k l, first ≤ k ∧ k ≤ last ∧ helper.layers[k]? = some l ∧ a ∈ items l

/-- Some layer outside the range has the item. -/
def Outside {α : Type} (items : IRGraph → List α) (first last : ℕ) (a : α) : Prop :=
  ∃ k l, (k < first ∨ last < k) ∧ helper.layers[k]? = some l ∧ a ∈ items l

/-- What is merged from a range of layers. -/
structure RangeGraph (ir_graph : IRGraph) (first last : ℕ) (g : IRGraph) : Prop where
  layer : Layer ir_graph g
  nodes : ∀ n, n ∈ g.nodes ↔ helper.Within IRGraph.nodes first last n
  inputs : ∀ x, x ∈ g.input_names ↔ helper.Within IRGraph.input_names first last x ∧
    ¬helper.Within IRGraph.output_names first last x
  outputs : ∀ out, out ∈ g.output_names ↔ helper.Within IRGraph.output_names first last out ∧
    (helper.Outside IRGraph.input_names first last out ∨
      ¬helper.Within IRGraph.input_names first last out)

/-- Layers that run one after another are the model. -/
structure Layered (ir_graph : IRGraph) : Prop where
  model : ModelOk ir_graph
  layer : ∀ l ∈ helper.layers, Layer ir_graph l
  before : helper.layers.Pairwise Precedes

section Ranges

variable {helper} {first last : ℕ} {α : Type} {items : IRGraph → List α} {a : α} {l : IRGraph}

theorem layers_getElem {k : ℕ} : helper.layers[k]? = some l ↔
    ∃ n, helper.graph.nodes[k]? = some n ∧ n.graph = l := by
  unfold layers
  rw [List.getElem?_map, Option.map_eq_some_iff]

theorem within_self (hl : helper.layers[first]? = some l) :
    helper.Within items first first a ↔ a ∈ items l := by
  constructor
  · rintro ⟨k, l', hfirst, hlast, hl', ha⟩
    obtain rfl : k = first := by omega
    obtain rfl := Option.some.inj (hl.symm.trans hl')
    exact ha
  · exact fun ha => ⟨first, l, le_rfl, le_rfl, hl, ha⟩

theorem within_succ (hl : helper.layers[last + 1]? = some l) (hle : first ≤ last) :
    helper.Within items first (last + 1) a ↔ helper.Within items first last a ∨ a ∈ items l := by
  constructor
  · rintro ⟨k, l', hfirst, hlast, hl', ha⟩
    by_cases hk : k = last + 1
    · subst hk
      obtain rfl := Option.some.inj (hl.symm.trans hl')
      exact Or.inr ha
    · exact Or.inl ⟨k, l', hfirst, by omega, hl', ha⟩
  · rintro (⟨k, l', hfirst, hlast, hl', ha⟩ | ha)
    · exact ⟨k, l', hfirst, by omega, hl', ha⟩
    · exact ⟨last + 1, l, by omega, le_rfl, hl, ha⟩

theorem outside_iff_succ (hl : helper.layers[last + 1]? = some l) :
    helper.Outside items first last a ↔ a ∈ items l ∨ helper.Outside items first (last + 1) a := by
  constructor
  · rintro ⟨k, l', hk, hl', ha⟩
    by_cases hk' : k = last + 1
    · subst hk'
      obtain rfl := Option.some.inj (hl.symm.trans hl')
      exact Or.inl ha
    · exact Or.inr ⟨k, l', by omega, hl', ha⟩
  · rintro (ha | ⟨k, l', hk, hl', ha⟩)
    · exact ⟨last + 1, l, Or.inr (by omega), hl, ha⟩
    · exact ⟨k, l', by omega, hl', ha⟩

theorem mem_unmergedInputs_iff {x : String} : x ∈ helper.unmergedInputs first last ↔
    helper.Outside IRGraph.input_names first last x := by
  rw [mem_unmergedInputs]
  constructor
  · rintro ⟨m, n, hn, hm, hx⟩
    exact ⟨m, n.graph, hm, layers_getElem.mpr ⟨n, hn, rfl⟩, hx⟩
  · rintro ⟨m, l, hm, hl, hx⟩
    obtain ⟨n, hn, rfl⟩ := layers_getElem.mp hl
    exact ⟨m, n, hn, hm, hx⟩

variable {ir_graph : IRGraph} (h : helper.Layered ir_graph)
include h

theorem Layered.layerAt {k : ℕ} (hl : helper.layers[k]? = some l) : Layer ir_graph l :=
  h.layer l (List.mem_of_getElem? hl)

theorem Layered.before_of_lt {j k : ℕ} {l' : IRGraph} (hl : helper.layers[j]? = some l)
    (hl' : helper.layers[k]? = some l') (hlt : j < k) : Precedes l l' := by
  obtain ⟨hj, rfl⟩ := List.getElem?_eq_some_iff.mp hl
  obtain ⟨hk, rfl⟩ := List.getElem?_eq_some_iff.mp hl'
  exact List.pairwise_iff_getElem.mp h.before j k hj hk hlt

theorem Layered.lt_of_made_of_read {j k : ℕ} {l' : IRGraph} {x : String}
    (hl : helper.layers[j]? = some l) (hmade : x ∈ l.output_names)
    (hl' : helper.layers[k]? = some l') (hread : x ∈ l'.input_names) : j < k := by
  obtain ⟨n, hn, hout⟩ := (h.layerAt hl).made x hmade
  rcases lt_trichotomy j k with hlt | rfl | hlt
  · exact hlt
  · obtain rfl := Option.some.inj (hl.symm.trans hl')
    exact absurd hout ((h.layerAt hl).verified.input_not_written hn hread)
  · exact absurd hread ((h.before_of_lt hl' hl hlt).order n hn x hout)

/-- One layer more. -/
theorem RangeGraph.before {g : IRGraph} (hg : helper.RangeGraph ir_graph first last g)
    (hl : helper.layers[last + 1]? = some l) : Precedes g l where
  order n hn out hout hin := by
    obtain ⟨⟨k, l', -, hlast, hl', hread⟩, -⟩ := (hg.inputs out).mp hin
    exact (h.before_of_lt hl' hl (by omega)).order n hn out hout hread
  handed n hn out hout hin := by
    obtain ⟨k, l', hfirst, hlast, hl', hn'⟩ := (hg.nodes n).mp hn
    have hgiven := (h.before_of_lt hl' hl (by omega)).handed n hn' out hout hin
    exact (hg.outputs out).mpr ⟨⟨k, l', hfirst, hlast, hl', hgiven⟩,
      Or.inl ⟨last + 1, l, Or.inr (by omega), hl, hin⟩⟩
  sinks n hn hn' := by
    obtain ⟨k, l', -, hlast, hl', hn⟩ := (hg.nodes n).mp hn
    exact (h.before_of_lt hl' hl (by omega)).sinks n hn hn'

theorem Layered.rangeGraph_self (hl : helper.layers[first]? = some l) :
    helper.RangeGraph ir_graph first first l := by
  have hself : ∀ x ∈ l.output_names, x ∉ l.input_names :=
    fun x hmade hread => lt_irrefl first (h.lt_of_made_of_read hl hmade hl hread)
  refine ⟨h.layerAt hl, fun n => (within_self hl).symm, fun x => ?_, fun out => ?_⟩
  · rw [within_self hl, within_self hl]
    exact (and_iff_left_of_imp fun hread hmade => hself x hmade hread).symm
  · rw [within_self hl, within_self hl]
    exact (and_iff_left_of_imp fun hmade => Or.inr (hself out hmade)).symm

/-- One layer more, where what is required of the range is what is read outside of it. -/
theorem RangeGraph.succ {base g : IRGraph} (hbase : helper.RangeGraph ir_graph first last base)
    (hle : first ≤ last) (hl : helper.layers[last + 1]? = some l) {name : String} {r : List String}
    (hr : ∀ x ∈ base.output_names, x ∈ r ↔ helper.Outside IRGraph.input_names first (last + 1) x)
    (hg : mergeTwo name base l r = some g) : helper.RangeGraph ir_graph first (last + 1) g := by
  obtain ⟨g', hg', hlayer, hnodes, hinputs, houtputs⟩ :=
    (hbase.before h hl).mergeTwo h.model hbase.layer (h.layerAt hl) name r
  obtain rfl := Option.some.inj (hg.symm.trans hg')
  have hnew : ∀ x ∈ l.output_names, x ∉ l.input_names ∧
      ¬helper.Within IRGraph.input_names first last x := by
    intro x hmade
    refine ⟨fun hread => lt_irrefl _ (h.lt_of_made_of_read hl hmade hl hread), ?_⟩
    rintro ⟨k, l', -, hlast, hl', hread⟩
    have hlt := h.lt_of_made_of_read hl hmade hl' hread
    omega
  refine ⟨hlayer, fun n => ?_, fun x => ?_, fun out => ?_⟩
  · rw [hnodes, hbase.nodes, within_succ hl hle]
  · rw [hinputs, hbase.inputs, hbase.outputs, within_succ hl hle, within_succ hl hle,
      outside_iff_succ hl]
    have := hnew x
    tauto
  · have hbase_out := hbase.outputs out
    have hrequired := hr out
    rw [outside_iff_succ hl] at hbase_out
    rw [houtputs, within_succ hl hle, within_succ hl hle]
    have := hnew out
    grind

/-- The graph of a range, also where the inputs of shorter ranges are required: what these read is
not made before. -/
theorem Layered.rangeGraph {count : ℕ} {g : IRGraph} {graphs : List IRGraph}
    (hgraphs : helper.prefixGraphs first count = some (g :: graphs)) :
    helper.RangeGraph ir_graph first (first + count) g := by
  induction count using Nat.strong_induction_on generalizing g graphs with
  | _ count ih =>
    cases count with
    | zero =>
      obtain ⟨base, hbase, hgraphs⟩ := Option.bind_eq_some_iff.mp hgraphs
      obtain ⟨rfl, -⟩ := List.cons.inj (Option.some.inj hgraphs)
      exact h.rangeGraph_self (layers_getElem.mpr ⟨base, hbase, rfl⟩)
    | succ count =>
      obtain ⟨g', base, shorter, tgt, heq, hshorter, htgt, hg⟩ := prefixGraphs_inv hgraphs
      obtain ⟨rfl, -⟩ := List.cons.inj heq
      have hl : helper.layers[first + count + 1]? = some tgt.graph :=
        layers_getElem.mpr ⟨tgt, htgt, rfl⟩
      have hbase := ih count (Nat.lt_succ_self count) hshorter
      refine hbase.succ h (Nat.le_add_right _ _) hl (fun x hx => ?_) hg
      rw [List.mem_append, mem_unmergedInputs_iff, or_iff_right]
      intro hprefix
      obtain ⟨g', hg', hread⟩ := List.mem_flatMap.mp hprefix
      obtain ⟨k, shorter', -, hk, hk_graphs⟩ := (mem_dropLast_tail_iff hshorter).mp hg'
      obtain ⟨⟨j, l, -, hlast, hl', hread⟩, hnot⟩ :=
        ((ih k (by omega) hk_graphs).inputs x).mp hread
      obtain ⟨⟨i, l', hfirst, -, hl'', hmade⟩, -⟩ := (hbase.outputs x).mp hx
      have hlt := h.lt_of_made_of_read hl'' hmade hl' hread
      exact hnot ⟨i, l', hfirst, by omega, hl'', hmade⟩

end Ranges

end GraphMergeHelper

end Rannc
