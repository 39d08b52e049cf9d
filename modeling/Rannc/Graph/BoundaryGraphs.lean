import Rannc.Graph.Boundaries
import Rannc.Graph.KnownInputs
import Rannc.Graph.RemoveUnused
import Rannc.Graph.SharedProgram

/-!
# Graphs without the operators of another

When a node is moved, its operators are taken out of the graph that it leaves. Where all values are
used in that graph, no other operator goes with them: what the ones that stay read and write is
what there is to read of the values from outside and to give out.
-/
namespace Rannc.IRGraph

/-- The operators that stay when those of `g2` are taken out of `g1`. -/
def stayingNodes (g1 g2 : IRGraph) : List IRNode := g1.nodes.filter (· ∉ g2.nodes)

/-- What the operators that stay read. -/
def stayingReads (g1 g2 : IRGraph) : List String :=
  (g1.stayingNodes g2).flatMap IRNode.input_names

/-- What the operators that stay read or write. -/
def stayingNames (g1 g2 : IRGraph) : List String :=
  (g1.stayingNodes g2).flatMap fun n => n.input_names ++ n.output_names

section Names

variable {g1 g2 : IRGraph} {name : String}

theorem mem_stayingNodes {n : IRNode} :
    n ∈ g1.stayingNodes g2 ↔ n ∈ g1.nodes ∧ n ∉ g2.nodes := by
  simp [stayingNodes]

theorem mem_stayingReads :
    name ∈ g1.stayingReads g2 ↔ ∃ n ∈ g1.stayingNodes g2, name ∈ n.input_names := by
  simp [stayingReads]

theorem mem_stayingNames : name ∈ g1.stayingNames g2 ↔
    name ∈ g1.stayingReads g2 ∨ ∃ n ∈ g1.stayingNodes g2, name ∈ n.output_names := by
  simp only [stayingNames, stayingReads, List.mem_flatMap, List.mem_append]
  grind

end Names

theorem noUnusedValue_iff {g : IRGraph} :
    g.noUnusedValue = true ↔ ∀ name ∈ g.definedNames, name ∈ g.getRequiredValues := by
  simp [noUnusedValue, findUnusedValue]

theorem removeUnusedNodes_of_used {g new_g : IRGraph} (hused : g.detectUnusedNodes = [])
    (h : g.removeUnusedNodes = some new_g) :
    new_g.nodes = g.nodes ∧
      (∀ name, name ∈ new_g.input_names ↔ name ∈ g.input_names ∧ name ∈ g.getRequiredValues) ∧
      ∀ name ∈ g.getRequiredValues, new_g.getValue name = g.getValue name := by
  have hloop : ∀ fuel, g.removeUnusedLoop fuel g = some g := by
    intro fuel
    cases fuel with
    | zero => rfl
    | succ fuel => exact if_pos hused
  simp only [removeUnusedNodes, hloop, Option.bind_eq_bind, Option.bind_some] at h
  obtain ⟨is_replicable, rfl⟩ := create_eq h
  refine ⟨rfl, by simp, fun name hname => ?_⟩
  exact lookup_filter (p := fun name => name ∈ g.getRequiredValues) (decide_eq_true hname) g.values

theorem lookup_stayingNames {g1 g2 : IRGraph} {name : String} (hname : name ∈ g1.stayingNames g2) :
    (g1.values.filter fun it => it.1 ∈ g1.stayingNames g2).lookup name = g1.getValue name :=
  lookup_filter (p := fun name => name ∈ g1.stayingNames g2) (decide_eq_true hname) g1.values

section Staying

variable {gs : List IRGraph} (hp : OneProgram gs) {g1 g2 : IRGraph} (h1 : g1 ∈ gs) (h2 : g2 ∈ gs)
include hp h1

theorem stayingNames_defined {name : String} (hname : name ∈ g1.stayingNames g2) :
    name ∈ g1.definedNames := by
  simp only [mem_stayingNames, mem_stayingReads, mem_stayingNodes] at hname
  rcases hname with ⟨n, hn, hin⟩ | ⟨n, hn, hout⟩
  · exact (hp.verified g1 h1).read_bound hn.1 hin
  · exact mem_definedNames.mpr (Or.inr ⟨n, hn.1, hout⟩)

theorem input_mem_stayingNames {name : String} (hname : name ∈ g1.input_names) :
    name ∈ g1.stayingNames g2 ↔ name ∈ g1.stayingReads g2 := by
  rw [mem_stayingNames, or_iff_left]
  rintro ⟨n, hn, hout⟩
  exact (hp.verified g1 h1).input_not_written (mem_stayingNodes.mp hn).1 hname hout

include h2

theorem handed {n m : IRNode} (hn : n ∈ g1.stayingNodes g2) (hm : m ∈ g2.nodes) {out : String}
    (hout : out ∈ n.output_names) (hin : out ∈ m.input_names) :
    out ∈ g2.input_names ∧ g2.isParam out = false := by
  obtain ⟨hn, hleft⟩ := mem_stayingNodes.mp hn
  have hbound := (hp.verified g2 h2).read_bound hm hin
  refine ⟨?_, hp.params g1 h1 n hn out hout g2 h2⟩
  rcases mem_definedNames.mp hbound with hinput | ⟨m', hm', hwrite⟩
  · exact hinput
  · exact absurd (hp.producers g1 h1 g2 h2 n hn m' hm' out hout hwrite ▸ hm') hleft

theorem doRemoveSubgraph_eq {name : String} {g : IRGraph}
    (hg : doRemoveSubgraph name g1 g2 = some g) :
    ∃ is_replicable, g = ⟨name, g1.stayingNodes g2,
      g1.values.filter fun it => it.1 ∈ g1.stayingNames g2,
      g1.input_names.filter (· ∈ g1.stayingNames g2),
      g1.output_names.filter (· ∈ g1.stayingNames g2), is_replicable⟩ := by
  have hnodes : (g1.nodes.filter fun n => n.id ∉ g2.nodes.map IRNode.id) = g1.stayingNodes g2 := by
    apply List.filter_congr
    intro n hn
    rw [decide_eq_decide, not_iff_not]
    constructor
    · intro hid
      obtain ⟨m, hm, heq⟩ := List.mem_map.mp hid
      exact hp.ids g2 h2 g1 h1 m hm n hn heq ▸ hm
    · exact List.mem_map_of_mem
  simp only [doRemoveSubgraph, hnodes] at hg
  exact create_eq hg

theorem staying_used (hused : g1.noUnusedValue = true) {n : IRNode}
    (hn : n ∈ g1.stayingNodes g2) {out : String} (hout : out ∈ n.output_names) :
    out ∈ g1.output_names ∨ out ∈ g1.stayingReads g2 ∨
      out ∈ g2.input_names ∧ g2.isParam out = false := by
  have hdefined := mem_definedNames.mpr (Or.inr ⟨n, (mem_stayingNodes.mp hn).1, hout⟩)
  have hrequired := noUnusedValue_iff.mp hused out hdefined
  rcases mem_getRequiredValues.mp hrequired with houtput | ⟨m, hm, hin⟩
  · exact Or.inl houtput
  · by_cases hmoved : m ∈ g2.nodes
    · exact Or.inr (Or.inr (handed hp h1 h2 hn hmoved hout hin))
    · exact Or.inr (Or.inl (mem_stayingReads.mpr ⟨m, mem_stayingNodes.mpr ⟨hm, hmoved⟩, hin⟩))

end Staying

/-- `g` is what is left of `g1` when `g2` is taken from its end. -/
structure TailRemoved (g1 g2 g : IRGraph) : Prop where
  nodes : g.nodes = g1.stayingNodes g2
  inputs : ∀ name, name ∈ g.input_names ↔ name ∈ g1.input_names ∧ name ∈ g1.stayingReads g2
  outputs : ∀ out, out ∈ g.output_names ↔ out ∈ g1.stayingNames g2 ∧
    (out ∈ g1.output_names ∨ out ∈ g2.input_names ∧ g2.isParam out = false)
  params : ∀ name ∈ g.input_names, g.isParam name = g1.isParam name

/-- `g` is what is left of `g1` when `g2` is taken from its beginning. -/
structure HeadRemoved (g1 g2 g : IRGraph) : Prop where
  nodes : g.nodes = g1.stayingNodes g2
  inputs : ∀ name, name ∈ g.input_names ↔
    name ∈ g1.stayingReads g2 ∧ (name ∈ g1.input_names ∨ name ∈ g2.output_names)
  outputs : ∀ out, out ∈ g.output_names ↔ out ∈ g1.stayingNames g2 ∧ out ∈ g1.output_names
  params : ∀ name ∈ g.input_names, g.isParam name = g1.isParam name

/-- An input of `g2` becomes an output if it is there and no parameter. -/
theorem mem_exposed {g g2 : IRGraph} {names start outputs : List String}
    (h : names.foldlM (fun outputs o =>
      if o ∈ outputs then some outputs
      else do
        let value ← g2.getValue o
        if !value.is_param && g.hasValue o then return outputs ++ [o] else return outputs)
      start = some outputs) (out : String) :
    out ∈ outputs ↔ out ∈ start ∨ out ∈ names ∧ g2.isParam out = false ∧ g.hasValue out := by
  induction names generalizing start with
  | nil =>
    obtain rfl := Option.some.inj h
    simp
  | cons o names ih =>
    rw [List.foldlM_cons] at h
    obtain ⟨next, hstep, hrest⟩ := Option.bind_eq_some_iff.mp h
    rw [ih hrest, List.mem_cons]
    split_ifs at hstep with hmem
    · obtain rfl := Option.some.inj hstep
      grind
    · obtain ⟨value, hvalue, hstep⟩ := Option.bind_eq_some_iff.mp hstep
      have hparam : g2.isParam o = value.is_param := by simp [isParam, hvalue]
      split_ifs at hstep with hexposed
      · obtain rfl := Option.some.inj hstep
        simp only [Bool.and_eq_true, Bool.not_eq_true', ← hparam] at hexposed
        grind
      · obtain rfl := Option.some.inj hstep
        simp only [Bool.and_eq_true, Bool.not_eq_true', ← hparam] at hexposed
        grind

section Removed

variable {gs : List IRGraph} (hp : OneProgram gs) {g g1 g2 : IRGraph} (h1 : g1 ∈ gs) (h2 : g2 ∈ gs)
  (hused : g1.noUnusedValue = true) {name : String}
include hp h1 h2 hused

theorem removeTailSubgraph_spec (hg : removeTailSubgraph name g1 g2 = some g) :
    TailRemoved g1 g2 g := by
  simp only [removeTailSubgraph, Option.bind_eq_bind, Option.bind_eq_some_iff] at hg
  obtain ⟨g0, hg0, outputs, houtputs, g', hg', hg⟩ := hg
  obtain ⟨is_replicable0, rfl⟩ := doRemoveSubgraph_eq hp h1 h2 hg0
  obtain ⟨is_replicable, rfl⟩ := create_eq hg'
  have hmem : ∀ out, out ∈ outputs ↔ out ∈ g1.stayingNames g2 ∧
      (out ∈ g1.output_names ∨ out ∈ g2.input_names ∧ g2.isParam out = false) := by
    intro out
    have hvalue : out ∈ g1.stayingNames g2 ↔
        ((g1.values.filter fun it => it.1 ∈ g1.stayingNames g2).lookup out).isSome := by
      rw [Dict.lookup_filter_key fun name => decide (name ∈ g1.stayingNames g2)]
      by_cases hout : out ∈ g1.stayingNames g2
      · simp [hout, (hp.verified g1 h1).input_value (stayingNames_defined hp h1 hout)]
      · simp [hout]
    rw [mem_exposed houtputs, List.mem_filter, decide_eq_true_iff, hvalue]
    unfold hasValue getValue
    tauto
  have hkept : ∀ n ∈ g1.stayingNodes g2, ∀ out ∈ n.output_names,
      out ∈ outputs ∨ ∃ m ∈ g1.stayingNodes g2, out ∈ m.input_names := by
    intro n hn out hout
    have hname : out ∈ g1.stayingNames g2 := mem_stayingNames.mpr (Or.inr ⟨n, hn, hout⟩)
    rcases staying_used hp h1 h2 hused hn hout with houtput | hread | hhanded
    · exact Or.inl ((hmem out).mpr ⟨hname, Or.inl houtput⟩)
    · exact Or.inr (mem_stayingReads.mp hread)
    · exact Or.inl ((hmem out).mpr ⟨hname, Or.inr hhanded⟩)
  obtain ⟨hnodes, hinputs, hvalues⟩ := removeUnusedNodes_of_used
    (detectUnusedNodes_eq_nil.mpr fun n hn out hout =>
      mem_getRequiredValues.mpr (hkept n hn out hout))
    hg
  constructor
  case nodes => exact hnodes
  case outputs =>
    intro out
    rw [removeUnusedNodes_output_names hg]
    exact hmem out
  case inputs =>
    intro name
    rw [hinputs, mem_getRequiredValues, ← mem_stayingReads, List.mem_filter, decide_eq_true_iff]
    constructor
    · intro hname
      exact ⟨hname.1.1, (input_mem_stayingNames hp h1 hname.1.1).mp hname.1.2⟩
    · intro hname
      exact ⟨⟨hname.1, mem_stayingNames.mpr (Or.inl hname.2)⟩, Or.inr hname.2⟩
  case params =>
    intro name hname
    obtain ⟨hinput, hrequired⟩ := (hinputs name).mp hname
    have hstays := of_decide_eq_true (List.mem_filter.mp hinput).2
    unfold isParam
    rw [hvalues name hrequired, getValue, lookup_stayingNames hstays]

theorem removeHeadSubgraph_spec
    (hfirst : ∀ n ∈ g1.stayingNodes g2, ∀ out ∈ n.output_names, out ∉ g2.input_names)
    (hg : removeHeadSubgraph name g1 g2 = some g) : HeadRemoved g1 g2 g := by
  simp only [removeHeadSubgraph, Option.bind_eq_bind, Option.bind_eq_some_iff] at hg
  obtain ⟨g0, hg0, non_param_inputs, hnonparam, param_inputs, hparam, g', hg', hg⟩ := hg
  obtain ⟨is_replicable0, rfl⟩ := doRemoveSubgraph_eq hp h1 h2 hg0
  obtain ⟨is_replicable, rfl⟩ := create_eq hg'
  have hmem_iff : ∀ name, name ∈ non_param_inputs ∨ name ∈ param_inputs ↔
      name ∈ g1.input_names ∧ name ∈ g1.stayingReads g2 := by
    have hknown : IRGraph.InputsKnown ⟨name, g1.stayingNodes g2,
        g1.values.filter fun it => it.1 ∈ g1.stayingNames g2,
        g1.input_names.filter (· ∈ g1.stayingNames g2),
        g1.output_names.filter (· ∈ g1.stayingNames g2), is_replicable0⟩ := by
      intro in_name hin_name
      obtain ⟨hinput, hname⟩ := List.mem_filter.mp hin_name
      change (List.lookup _ _).isSome
      rw [lookup_stayingNames (of_decide_eq_true hname)]
      exact (hp.verified g1 h1).input_value (mem_definedNames.mpr (Or.inl hinput))
    obtain rfl := Option.some.inj (hknown.getNonParamInputNames_eq.symm.trans hnonparam)
    obtain rfl := Option.some.inj (hknown.getParamInputNames_eq.symm.trans hparam)
    intro name
    simp only [List.mem_filter, decide_eq_true_iff, ← and_or_left]
    rw [and_congr_right (input_mem_stayingNames hp h1)]
    simp
  have hkept : ∀ n ∈ g1.stayingNodes g2, ∀ out ∈ n.output_names,
      out ∈ g1.output_names.filter (· ∈ g1.stayingNames g2) ∨
        ∃ m ∈ g1.stayingNodes g2, out ∈ m.input_names := by
    intro n hn out hout
    have hname : out ∈ g1.stayingNames g2 := mem_stayingNames.mpr (Or.inr ⟨n, hn, hout⟩)
    rcases staying_used hp h1 h2 hused hn hout with houtput | hread | hhanded
    · exact Or.inl (List.mem_filter.mpr ⟨houtput, decide_eq_true hname⟩)
    · exact Or.inr (mem_stayingReads.mp hread)
    · exact absurd hhanded.1 (hfirst n hn out hout)
  obtain ⟨hnodes, hinputs, hvalues⟩ := removeUnusedNodes_of_used
    (detectUnusedNodes_eq_nil.mpr fun n hn out hout =>
      mem_getRequiredValues.mpr (hkept n hn out hout))
    hg
  obtain ⟨hnodup, hfirst_mem⟩ := addInput_names_spec (p := fun inputs in_name => in_name ∉ inputs)
    (q := fun _ => True) (by simp) non_param_inputs List.nodup_nil
  obtain ⟨-, hall_mem⟩ := addInput_names_spec
    (p := fun inputs out_name =>
      out_name ∈ (g1.stayingNodes g2).flatMap IRNode.input_names ∧ out_name ∉ inputs)
    (q := fun out_name => out_name ∈ g1.stayingReads g2) (fun _ _ => Iff.rfl) g2.output_names hnodup
  constructor
  case nodes => exact hnodes
  case outputs =>
    intro out
    rw [removeUnusedNodes_output_names hg, List.mem_filter, decide_eq_true_iff, and_comm]
  case inputs =>
    intro name
    rw [hinputs, mem_getRequiredValues, ← mem_stayingReads, List.mem_append, hall_mem, hfirst_mem]
    simp only [List.not_mem_nil, false_or, and_true]
    rw [or_right_comm, hmem_iff, ← or_and_right, and_assoc, and_iff_left_of_imp Or.inr, and_comm]
  case params =>
    intro name hname
    obtain ⟨hmem, hrequired⟩ := (hinputs name).mp hname
    have hread : name ∈ g1.stayingReads g2 := by
      rw [List.mem_append, hall_mem, hfirst_mem] at hmem
      have hname := hmem_iff name
      simp only [List.not_mem_nil, false_or, and_true] at hmem
      tauto
    have hvalue := lookup_stayingNames (mem_stayingNames.mpr (Or.inl hread))
    unfold isParam
    rw [hvalues name hrequired, getValue, hvalue]

end Removed

end Rannc.IRGraph
