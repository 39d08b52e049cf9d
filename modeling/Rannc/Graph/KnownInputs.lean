import Rannc.Graph.MergeMeaning

/-!
# Graphs that know their inputs

A graph that has a value for each of its inputs can be built, merged and cleaned up, and the graphs
that come out of this know their inputs again.
-/
namespace Rannc

/-- Every input has a value. -/
def IRGraph.InputsKnown (g : IRGraph) : Prop := ∀ name ∈ g.input_names, (g.getValue name).isSome

namespace IRGraph.InputsKnown

variable {g g1 g2 : IRGraph}

theorem getValue_eq (hg : g.InputsKnown) {name : String} (hname : name ∈ g.input_names) :
    ∃ value, g.getValue name = some value ∧ value.is_param = g.isParam name := by
  obtain ⟨value, hvalue⟩ := Option.isSome_iff_exists.mp (hg name hname)
  exact ⟨value, hvalue, by simp [isParam, hvalue]⟩

theorem getNonParamInputNames_eq (hg : g.InputsKnown) :
    g.getNonParamInputNames = some (g.input_names.filter fun name => !g.isParam name) := by
  apply filterM_eq_filter
  intro name hname
  obtain ⟨value, hvalue, hparam⟩ := hg.getValue_eq hname
  simp [hvalue, hparam]

theorem getParamInputNames_eq (hg : g.InputsKnown) :
    g.getParamInputNames = some (g.input_names.filter g.isParam) := by
  apply filterM_eq_filter
  intro name hname
  obtain ⟨value, hvalue, hparam⟩ := hg.getValue_eq hname
  simp [hvalue, hparam]

/-- What is removed does not keep the graph from being built. -/
theorem removeUnusedNodes (hg : g.InputsKnown) :
    ∃ new_g, g.removeUnusedNodes = some new_g ∧ new_g.InputsKnown := by
  have hloop : ∀ (fuel : ℕ) (new_g : IRGraph), new_g.input_names = g.input_names →
      new_g.values = g.values → ∃ res, g.removeUnusedLoop fuel new_g = some res ∧
        res.input_names = g.input_names ∧ res.values = g.values := by
    intro fuel
    induction fuel with
    | zero => exact fun new_g hinputs hvalues => ⟨new_g, rfl, hinputs, hvalues⟩
    | succ fuel ih =>
      intro new_g hinputs hvalues
      rw [removeUnusedLoop]
      split_ifs
      · exact ⟨new_g, rfl, hinputs, hvalues⟩
      · obtain ⟨is_replicable, hcreate⟩ := exists_create g.name
          (new_g.nodes.filter fun n => n.id ∉ new_g.detectUnusedNodes.map IRNode.id)
          g.output_names hg
        dsimp only
        rw [hcreate]
        exact ih _ rfl rfl
  obtain ⟨res, hres, hinputs, hvalues⟩ := hloop g.nodes.length g rfl rfl
  have hknown : ∀ in_name ∈ res.input_names.filter (· ∈ res.getRequiredValues),
      ((res.values.filter fun it => it.1 ∈ res.getRequiredValues).lookup in_name).isSome := by
    intro in_name hin_name
    obtain ⟨hinput, hrequired⟩ := List.mem_filter.mp hin_name
    rw [lookup_filter (p := fun name => name ∈ res.getRequiredValues) hrequired, hvalues]
    exact hg in_name (hinputs ▸ hinput)
  obtain ⟨is_replicable, hcreate⟩ := exists_create g.name res.nodes
    (res.output_names.filter (· ∈ res.getRequiredValues)) hknown
  exact ⟨_, Option.bind_eq_some_iff.mpr ⟨res, hres, hcreate⟩, hknown⟩

theorem mergeGraphs (h1 : g1.InputsKnown) (h2 : g2.InputsKnown) (name : String)
    (required_inputs : List String) :
    ∃ g, Rannc.mergeGraphs name g1 g2 required_inputs = some g ∧ g.InputsKnown := by
  unfold Rannc.mergeGraphs
  rw [h1.getNonParamInputNames_eq, h2.getNonParamInputNames_eq, h1.getParamInputNames_eq,
    h2.getParamInputNames_eq]
  simp only [Option.bind_eq_bind, Option.bind_some]
  generalize hall : _ ++ List.foldl _ [] _ = all_inputs
  have hknown : ∀ in_name ∈ all_inputs,
      ((g1.values ++ g2.values.filter fun v => !g1.hasValue v.1).lookup in_name).isSome := by
    intro in_name hin_name
    have hmem : in_name ∈ g1.input_names ∨ in_name ∈ g2.input_names := by
      rw [← hall] at hin_name
      cases List.mem_append.mp hin_name with
      | inl hin_name =>
        exact (mem_addInput_names hin_name).imp List.mem_of_mem_filter List.mem_of_mem_filter
      | inr hin_name =>
        have hparam := (mem_addInput_names hin_name).resolve_left List.not_mem_nil
        exact (List.mem_append.mp hparam).imp List.mem_of_mem_filter List.mem_of_mem_filter
    apply isSome_merged_values
    exact hmem.imp (h1 in_name) (h2 in_name)
  obtain ⟨is_replicable, hcreate⟩ := exists_create name _ _ hknown
  exact ⟨_, hcreate, hknown⟩

theorem merge {n1 n2 : MLNode} (h1 : n1.graph.InputsKnown) (h2 : n2.graph.InputsKnown)
    (name : String) (all_nodes : List MLNode) (edges : List MLEdge) :
    ∃ n, Rannc.merge name n1 n2 all_nodes edges = some n ∧ n.graph.InputsKnown := by
  obtain ⟨g, hg, hknown⟩ := h1.mergeGraphs h2 name (getRequiredInputs n1 n2 all_nodes)
  obtain ⟨new_g, hnew, hknown'⟩ := hknown.removeUnusedNodes
  refine ⟨⟨new_g.name, new_g, [n1, n2], ml_edge n1 n2 edges⟩, ?_, hknown'⟩
  simp [Rannc.merge, hg, hnew]

end IRGraph.InputsKnown

end Rannc
