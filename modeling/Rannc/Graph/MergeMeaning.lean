import Rannc.Graph.Evaluation
import Rannc.Graph.MLGraph

/-!
# What merged graphs compute

Merging keeps one of the nodes that occur in both graphs. The second graph also loses each node
that writes a value which is there already, with all its other outputs: the merged graph runs the
first graph and then the second exactly when these are not used.
-/
namespace Rannc

open Dataflow IRGraph

namespace IRGraph

variable (g : IRGraph)

def isParam (name : String) : Bool := (g.getValue name).any IRValue.is_param

/-- The inputs of the second graph, when the outputs of the first have been computed. -/
def outputsOver {V : Type} (env : Env String V) (vals : String → V) : String → V := fun name =>
  if name ∈ g.output_names then (env name).getD (vals name) else vals name

end IRGraph

/-- Two graphs that are run one after the other. -/
structure Mergeable (g1 g2 : IRGraph) : Prop where
  wf1 : g1.Verified
  wf2 : g2.Verified
  values : ∀ name ∈ g1.definedNames, name ∈ g2.definedNames → g1.getValue name = g2.getValue name
  nodes : ∀ n1 ∈ g1.nodes, ∀ n2 ∈ g2.nodes, ∀ out ∈ n1.output_names, out ∈ n2.output_names → n1 = n2
  forward : ∀ out ∈ g2.output_names, out ∉ g1.input_names
  handed : ∀ n ∈ g1.nodes, ∀ out ∈ n.output_names, out ∈ g2.input_names → out ∈ g1.output_names

/-- Graphs whose values are the same where they have the same names. -/
structure Joinable (g1 g2 : IRGraph) : Prop where
  wf1 : g1.Verified
  wf2 : g2.Verified
  values : ∀ name ∈ g1.definedNames, name ∈ g2.definedNames → g1.getValue name = g2.getValue name

theorem Mergeable.joinable {g1 g2 : IRGraph} (h : Mergeable g1 g2) : Joinable g1 g2 :=
  ⟨h.wf1, h.wf2, h.values⟩

/-- A graph that computes what `g1` and then `g2` compute. -/
structure RunsAfter (g1 g2 : IRGraph) (required_inputs : List String) (g : IRGraph) : Prop where
  node_inputs : g.verifyNodeInputs = true
  no_duplicated : g.verifyNoDuplicatedOutputs = true
  outputs : ∀ out, out ∈ g.output_names ↔ out ∈ g2.output_names ∨
    out ∈ g1.output_names ∧ (out ∉ g2.input_names ∨ out ∈ required_inputs)
  meaning : ∀ (V : Type) (I : Interp String V) (vals : String → V) (env1 env2 : Env String V),
    g1.evalValues I vals = some env1 →
    g2.evalValues I (g1.outputsOver env1 vals) = some env2 →
    (∀ name ∈ g1.definedNames, name ∈ g2.definedNames → env1 name = env2 name) →
    ∃ env, g.evalValues I vals = some env ∧ ∀ out ∈ g.output_names,
      (out ∈ g1.output_names → env out = env1 out) ∧ (out ∈ g2.output_names → env out = env2 out)

/-- The node writes a value that the first graph reads. -/
def Shadowed (g1 : IRGraph) (n : IRNode) : Prop :=
  ∃ out ∈ n.output_names, out ∈ g1.input_names ∧ g1.isParam out = false

instance (g1 : IRGraph) (n : IRNode) : Decidable (Shadowed g1 n) :=
  inferInstanceAs (Decidable (∃ out ∈ n.output_names, _ ∧ _))

/-- What is lost with the shadowed nodes is not used, and no other node writes an input of the
merged graph. -/
structure NothingLost (g1 g2 : IRGraph) : Prop where
  params : ∀ n ∈ g1.nodes, ∀ out ∈ n.output_names, out ∈ g2.input_names → g2.isParam out = false
  kept : ∀ n ∈ g2.nodes, ¬Shadowed g1 n → ∀ out ∈ n.output_names, out ∉ g1.input_names
  lost : ∀ n ∈ g2.nodes, Shadowed g1 n → ∀ out ∈ n.output_names, out ∉ g1.input_names →
    out ∉ g2.output_names ∧ ∀ m ∈ g2.nodes, ¬Shadowed g1 m → out ∉ m.input_names

theorem outputAvailable_iff {n : IRNode} {avail_vals : List String} :
    outputAvailable n avail_vals = true ↔ ∃ out ∈ n.output_names, out ∈ avail_vals := by
  unfold outputAvailable
  rw [List.any_eq_true]
  simp

/-- Of nodes with different outputs those are added that write nothing that is there already. -/
theorem addNodes_eq {nodes : List IRNode} (hnodup : (nodes.flatMap IRNode.output_names).Nodup)
    (added : List IRNode) (avail_vals : List String) :
    ∃ avail_vals', addNodes (added, avail_vals) nodes =
        (added ++ nodes.filter fun n => !outputAvailable n avail_vals, avail_vals') ∧
      ∀ name, name ∈ avail_vals' ↔ name ∈ avail_vals ∨
        ∃ n ∈ nodes, outputAvailable n avail_vals = false ∧ name ∈ n.output_names := by
  induction nodes generalizing added avail_vals with
  | nil => exact ⟨avail_vals, by simp [addNodes], by simp⟩
  | cons n nodes ih =>
    rw [List.flatMap_cons] at hnodup
    obtain ⟨-, hnodes, hdisjoint⟩ := List.nodup_append.mp hnodup
    cases hn : outputAvailable n avail_vals with
    | true =>
      obtain ⟨avail_vals', hadd, hmem⟩ := ih hnodes added avail_vals
      refine ⟨avail_vals', ?_, ?_⟩
      · rw [List.filter_cons_of_neg (by simp [hn])]
        rw [← hadd]
        unfold addNodes
        rw [List.foldl_cons]
        dsimp only
        rw [if_pos hn]
      · intro name
        rw [hmem]
        simp [hn]
    | false =>
      have hsame : ∀ m ∈ nodes,
          outputAvailable m (n.output_names ++ avail_vals) = outputAvailable m avail_vals := by
        intro m hm
        rw [Bool.eq_iff_iff, outputAvailable_iff, outputAvailable_iff]
        constructor
        · intro h
          obtain ⟨out, hout, hmem⟩ := h
          cases List.mem_append.mp hmem with
          | inl hwrite =>
            exact absurd rfl (hdisjoint out hwrite out (List.mem_flatMap.mpr ⟨m, hm, hout⟩))
          | inr havail => exact ⟨out, hout, havail⟩
        · intro h
          obtain ⟨out, hout, havail⟩ := h
          exact ⟨out, hout, List.mem_append_right _ havail⟩
      obtain ⟨avail_vals', hadd, hmem⟩ := ih hnodes (added ++ [n]) (n.output_names ++ avail_vals)
      refine ⟨avail_vals', ?_, ?_⟩
      · rw [List.filter_cons_of_pos (by simp [hn])]
        rw [List.filter_congr fun m hm => by rw [hsame m hm]] at hadd
        rw [List.append_cons, ← hadd]
        unfold addNodes
        rw [List.foldl_cons]
        dsimp only
        rw [if_neg (by simp [hn])]
      · intro name
        rw [hmem, List.mem_append]
        constructor
        · intro h
          rcases h with (hwrite | havail) | ⟨m, hm, hkept, hwrite⟩
          · exact Or.inr ⟨n, List.mem_cons_self, hn, hwrite⟩
          · exact Or.inl havail
          · exact Or.inr ⟨m, List.mem_cons_of_mem _ hm, hsame m hm ▸ hkept, hwrite⟩
        · intro h
          rcases h with havail | ⟨m, hm, hkept, hwrite⟩
          · exact Or.inl (Or.inr havail)
          · cases List.mem_cons.mp hm with
            | inl heq => exact Or.inl (Or.inl (heq ▸ hwrite))
            | inr hm => exact Or.inr ⟨m, hm, (hsame m hm).trans hkept, hwrite⟩

/-- Names are added that pass a test and are not there yet. -/
theorem addInput_names_spec {p : List String → String → Prop} [∀ l a, Decidable (p l a)]
    {q : String → Prop} (hp : ∀ l a, p l a ↔ q a ∧ a ∉ l) (names : List String)
    {added : List String} (hadded : added.Nodup) :
    (names.foldl (fun l i => if p l i then l ++ [i] else l) added).Nodup ∧
      ∀ a, a ∈ names.foldl (fun l i => if p l i then l ++ [i] else l) added ↔
        a ∈ added ∨ a ∈ names ∧ q a := by
  induction names generalizing added with
  | nil => exact ⟨hadded, by simp⟩
  | cons i names ih =>
    rw [List.foldl_cons]
    by_cases hi : p added i
    · have hnew := (hp added i).mp hi
      rw [if_pos hi]
      obtain ⟨hnodup, hmem⟩ := ih (hadded.append (List.nodup_singleton i)
        (List.disjoint_singleton.mpr hnew.2))
      refine ⟨hnodup, fun a => ?_⟩
      rw [hmem, List.mem_append, List.mem_singleton, List.mem_cons]
      constructor
      · rintro ((h | rfl) | h)
        · exact Or.inl h
        · exact Or.inr ⟨Or.inl rfl, hnew.1⟩
        · exact Or.inr ⟨Or.inr h.1, h.2⟩
      · rintro (h | ⟨rfl | h, hq⟩)
        · exact Or.inl (Or.inl h)
        · exact Or.inl (Or.inr rfl)
        · exact Or.inr ⟨h, hq⟩
    · rw [if_neg hi]
      obtain ⟨hnodup, hmem⟩ := ih hadded
      refine ⟨hnodup, fun a => ?_⟩
      rw [hmem, List.mem_cons]
      constructor
      · rintro (h | h)
        · exact Or.inl h
        · exact Or.inr ⟨Or.inr h.1, h.2⟩
      · rintro (h | ⟨rfl | h, hq⟩)
        · exact Or.inl h
        · exact Or.inl (by_contra fun hnot => hi ((hp added a).mpr ⟨hq, hnot⟩))
        · exact Or.inr ⟨h, hq⟩

namespace IRGraph

variable {g : IRGraph}

theorem Verified.getValue_input (hg : g.Verified) {name : String}
    (hname : name ∈ g.input_names) :
    ∃ value, g.getValue name = some value ∧ value.is_param = g.isParam name := by
  obtain ⟨value, hvalue, -⟩ := hg.values name (mem_definedNames.mpr (Or.inl hname))
  refine ⟨value, hvalue, ?_⟩
  unfold isParam
  rw [hvalue]
  rfl

theorem Verified.getNonParamInputNames_eq (hg : g.Verified) :
    g.getNonParamInputNames = some (g.input_names.filter fun name => !g.isParam name) := by
  apply filterM_eq_filter
  intro name hname
  obtain ⟨value, hvalue, hparam⟩ := hg.getValue_input hname
  rw [hvalue, ← hparam]
  rfl

theorem Verified.getParamInputNames_eq (hg : g.Verified) :
    g.getParamInputNames = some (g.input_names.filter g.isParam) := by
  apply filterM_eq_filter
  intro name hname
  obtain ⟨value, hvalue, hparam⟩ := hg.getValue_input hname
  rw [hvalue, ← hparam]
  rfl

end IRGraph

section Merge

variable {g1 g2 g : IRGraph} {required_inputs : List String}

/-- What merging returns. -/
structure Merged (g1 g2 : IRGraph) (required_inputs : List String) (g : IRGraph) : Prop where
  nodes : ∃ p : IRNode → Bool, g.nodes = g1.nodes ++ g2.nodes.filter p ∧ ∀ n ∈ g2.nodes, p n ↔
    ¬Shadowed g1 n ∧ ∀ m ∈ g1.nodes, ∀ out ∈ m.output_names, out ∉ n.output_names
  nodup : g.input_names.Nodup
  inputs : ∀ name, name ∈ g.input_names ↔ name ∈ g1.input_names ∨
    name ∈ g2.input_names ∧ (g2.isParam name ∨ name ∉ g1.output_names)
  outputs : ∀ out, out ∈ g.output_names ↔ out ∈ g2.output_names ∨
    out ∈ g1.output_names ∧ (out ∉ g2.input_names ∨ out ∈ required_inputs)

/-- The merged graph reads the value, which is no parameter. -/
def ReadsMerged (g1 g2 : IRGraph) (name : String) : Prop :=
  (name ∈ g1.input_names ∧ g1.isParam name = false) ∨
    (name ∈ g2.input_names ∧ g2.isParam name = false) ∧ name ∉ g1.output_names

/-- What merging returns if the first graph may write what only the second one reads. Such nodes
are left out. -/
structure Joined (g1 g2 : IRGraph) (required_inputs : List String) (g : IRGraph) : Prop where
  nodes : ∃ p q : IRNode → Bool, g.nodes = g1.nodes.filter p ++ g2.nodes.filter q ∧
    (∀ n ∈ g1.nodes, p n ↔ ∀ out ∈ n.output_names, ¬ReadsMerged g1 g2 out) ∧
    ∀ n ∈ g2.nodes, q n ↔ ∀ out ∈ n.output_names, ¬ReadsMerged g1 g2 out ∧
      ∀ m ∈ g1.nodes, p m → out ∉ m.output_names
  nodup : g.input_names.Nodup
  inputs : ∀ name, name ∈ g.input_names ↔ name ∈ g1.input_names ∨
    name ∈ g2.input_names ∧ (g2.isParam name ∨ name ∉ g1.output_names)
  outputs : ∀ out, out ∈ g.output_names ↔ out ∈ g2.output_names ∨
    out ∈ g1.output_names ∧ (out ∉ g2.input_names ∨ out ∈ required_inputs)
  values : g.values = g1.values ++ g2.values.filter fun v => !g1.hasValue v.1

theorem Joinable.isParam_eq (h : Joinable g1 g2) {name : String} (h1 : name ∈ g1.definedNames)
    (h2 : name ∈ g2.definedNames) : g1.isParam name = g2.isParam name := by
  unfold isParam
  rw [h.values name h1 h2]

theorem isSome_merged_values {name : String}
    (h : (g1.values.lookup name).isSome ∨ (g2.values.lookup name).isSome) :
    ((g1.values ++ g2.values.filter fun v => !g1.hasValue v.1).lookup name).isSome := by
  rw [List.lookup_append]
  cases hvalue : g1.values.lookup name with
  | some value => rfl
  | none =>
    rw [hvalue] at h
    have hkey : (!g1.hasValue name) = true := by
      unfold hasValue getValue
      rw [hvalue]
      rfl
    rw [lookup_filter (p := fun name => !g1.hasValue name) hkey]
    simpa using h

/-- The inputs of the merged graph that are no parameters. -/
def mergedNonParams (g1 g2 : IRGraph) : List String :=
  (g2.input_names.filter fun name => !g2.isParam name).foldl
    (fun l i => if i ∉ g1.output_names ∧ i ∉ l then l ++ [i] else l)
    (g1.input_names.filter fun name => !g1.isParam name)

/-- Its parameters. -/
def mergedParams (g1 g2 : IRGraph) : List String :=
  (g1.input_names.filter g1.isParam ++ g2.input_names.filter g2.isParam).foldl
    (fun l i => if i ∉ l then l ++ [i] else l) []

theorem mergedNonParams_spec (hnodup : g1.input_names.Nodup) (g2 : IRGraph) :
    (mergedNonParams g1 g2).Nodup ∧
      ∀ name, name ∈ mergedNonParams g1 g2 ↔ ReadsMerged g1 g2 name := by
  obtain ⟨hinputs, hmem⟩ := addInput_names_spec
    (p := fun l i => i ∉ g1.output_names ∧ i ∉ l) (q := (· ∉ g1.output_names))
    (fun _ _ => Iff.rfl) (g2.input_names.filter fun name => !g2.isParam name)
    (hnodup.filter fun name => !g1.isParam name)
  simp only [List.mem_filter, Bool.not_eq_true'] at hmem
  exact ⟨hinputs, hmem⟩

theorem mergedParams_spec (g1 g2 : IRGraph) : (mergedParams g1 g2).Nodup ∧
    ∀ name, name ∈ mergedParams g1 g2 ↔ name ∈ g1.input_names ∧ g1.isParam name = true ∨
      name ∈ g2.input_names ∧ g2.isParam name = true := by
  obtain ⟨hinputs, hmem⟩ := addInput_names_spec (p := fun l i => i ∉ l) (q := fun _ => True)
    (by simp) (g1.input_names.filter g1.isParam ++ g2.input_names.filter g2.isParam)
    List.nodup_nil
  simp only [List.mem_filter, List.mem_append, List.not_mem_nil, false_or, and_true] at hmem
  exact ⟨hinputs, hmem⟩

namespace Joinable

theorem isParam_eq_of_input (h : Joinable g1 g2) {name : String} (h1 : name ∈ g1.input_names)
    (h2 : name ∈ g2.input_names) : g1.isParam name = g2.isParam name :=
  h.isParam_eq (mem_definedNames.mpr (Or.inl h1)) (mem_definedNames.mpr (Or.inl h2))

theorem mem_mergedInputs (h : Joinable g1 g2) (name : String) :
    name ∈ mergedNonParams g1 g2 ++ mergedParams g1 g2 ↔ name ∈ g1.input_names ∨
      name ∈ g2.input_names ∧ (g2.isParam name ∨ name ∉ g1.output_names) := by
  rw [List.mem_append, (mergedNonParams_spec (List.nodup_append.mp h.wf1.nodup).1 g2).2,
    (mergedParams_spec g1 g2).2, ReadsMerged]
  cases hp1 : g1.isParam name with
  | true => cases hp2 : g2.isParam name <;> grind
  | false => cases hp2 : g2.isParam name <;> grind

theorem nodup_mergedInputs (h : Joinable g1 g2) :
    (mergedNonParams g1 g2 ++ mergedParams g1 g2).Nodup := by
  obtain ⟨hnonparam, hmem_nonparam⟩ :=
    mergedNonParams_spec (List.nodup_append.mp h.wf1.nodup).1 g2
  obtain ⟨hparam, hmem_param⟩ := mergedParams_spec g1 g2
  refine hnonparam.append hparam fun name hname hname' => ?_
  rcases (hmem_nonparam name).mp hname with h1 | h2
  · rcases (hmem_param name).mp hname' with h1' | h2'
    · rw [h1.2] at h1'
      exact Bool.false_ne_true h1'.2
    · rw [← h.isParam_eq_of_input h1.1 h2'.1, h1.2] at h2'
      exact Bool.false_ne_true h2'.2
  · rcases (hmem_param name).mp hname' with h1' | h2'
    · rw [h.isParam_eq_of_input h1'.1 h2.1.1, h2.1.2] at h1'
      exact Bool.false_ne_true h1'.2
    · rw [h2.1.2] at h2'
      exact Bool.false_ne_true h2'.2

/-- Merging succeeds. -/
theorem exists_joined (h : Joinable g1 g2) (name : String) (required_inputs : List String) :
    ∃ g, mergeGraphs name g1 g2 required_inputs = some g ∧ Joined g1 g2 required_inputs g := by
  have hreads := (mergedNonParams_spec (List.nodup_append.mp h.wf1.nodup).1 g2).2
  have hvalues : ∀ in_name ∈ mergedNonParams g1 g2 ++ mergedParams g1 g2,
      ((g1.values ++ g2.values.filter fun v => !g1.hasValue v.1).lookup in_name).isSome := by
    intro in_name hin_name
    apply isSome_merged_values
    cases (h.mem_mergedInputs in_name).mp hin_name with
    | inl h1 => exact Or.inl (h.wf1.input_value (mem_definedNames.mpr (Or.inl h1)))
    | inr h2 => exact Or.inr (h.wf2.input_value (mem_definedNames.mpr (Or.inl h2.1)))
  obtain ⟨avail1, hadd1, havail1⟩ := addNodes_eq (List.nodup_append.mp h.wf1.nodup).2.1 []
    (mergedNonParams g1 g2)
  obtain ⟨avail2, hadd2, -⟩ := addNodes_eq (List.nodup_append.mp h.wf2.nodup).2.1
    (g1.nodes.filter fun n => !outputAvailable n (mergedNonParams g1 g2)) avail1
  rw [List.nil_append] at hadd1
  obtain ⟨is_replicable, hcreate⟩ := exists_create name
    ((g1.nodes.filter fun n => !outputAvailable n (mergedNonParams g1 g2)) ++
      g2.nodes.filter fun n => !outputAvailable n avail1)
    ((g1.output_names.filter fun o1 => o1 ∉ g2.input_names ∨ o1 ∈ required_inputs) ++
      g2.output_names) hvalues
  refine ⟨⟨name, (g1.nodes.filter fun n => !outputAvailable n (mergedNonParams g1 g2)) ++
      g2.nodes.filter fun n => !outputAvailable n avail1,
    g1.values ++ g2.values.filter fun v => !g1.hasValue v.1,
    mergedNonParams g1 g2 ++ mergedParams g1 g2,
    (g1.output_names.filter fun o1 => o1 ∉ g2.input_names ∨ o1 ∈ required_inputs) ++
      g2.output_names, is_replicable⟩, ?_, ⟨_, _, rfl, ?_, ?_⟩, h.nodup_mergedInputs,
    h.mem_mergedInputs, ?_, rfl⟩
  · unfold mergeGraphs
    rw [h.wf1.getNonParamInputNames_eq, h.wf2.getNonParamInputNames_eq, h.wf1.getParamInputNames_eq,
      h.wf2.getParamInputNames_eq]
    dsimp only [Option.bind_eq_bind, Option.bind_some]
    rw [← mergedNonParams, ← mergedParams, hadd1, hadd2]
    exact hcreate
  · intro n _
    rw [Bool.not_eq_true', Bool.eq_false_iff, Ne, outputAvailable_iff]
    simp only [hreads]
    grind
  · intro n _
    rw [Bool.not_eq_true', Bool.eq_false_iff, Ne, outputAvailable_iff]
    simp only [havail1, hreads, Bool.not_eq_true']
    grind
  · intro out
    rw [List.mem_append, List.mem_filter, decide_eq_true_iff, or_comm]

end Joinable

/-- Where the first graph hands over what it writes, all its nodes stay. -/
theorem Mergeable.exists_merged (h : Mergeable g1 g2) (name : String)
    (required_inputs : List String) :
    ∃ g, mergeGraphs name g1 g2 required_inputs = some g ∧ Merged g1 g2 required_inputs g := by
  obtain ⟨g, hmerge, hg⟩ := h.joinable.exists_joined name required_inputs
  obtain ⟨p, q, hnodes, hp, hq⟩ := hg.nodes
  have hall : ∀ n ∈ g1.nodes, p n := by
    intro n hn
    apply (hp n hn).mpr
    intro out hout hreads
    rcases hreads with h1 | h2
    · exact h.wf1.input_not_written hn h1.1 hout
    · exact h2.2 (h.handed n hn out hout h2.1.1)
  rw [List.filter_eq_self.mpr hall] at hnodes
  refine ⟨g, hmerge, ⟨q, hnodes, fun n hn => ?_⟩, hg.nodup, hg.inputs, hg.outputs⟩
  rw [hq n hn]
  constructor
  · intro hkept
    refine ⟨fun hshadowed => ?_, fun m hm out hout hout' => ?_⟩
    · obtain ⟨out, hout, hinput⟩ := hshadowed
      exact (hkept out hout).1 (Or.inl hinput)
    · exact (hkept out hout').2 m hm (hall m hm) hout
  · intro hkept out hout
    refine ⟨fun hreads => ?_, fun m hm _ hwrite => hkept.2 m hm out hwrite hout⟩
    rcases hreads with h1 | h2
    · exact hkept.1 ⟨out, hout, h1⟩
    · exact h.wf2.input_not_written hn h2.1.1 hout

variable (h : Mergeable g1 g2) (hg : Merged g1 g2 required_inputs g)

section Nodes

include hg

theorem Merged.mem_left {n : IRNode} (hn : n ∈ g1.nodes) : n ∈ g.nodes := by
  obtain ⟨p, hnodes, -⟩ := hg.nodes
  rw [hnodes]
  exact List.mem_append_left _ hn

theorem Merged.mem_right {n : IRNode} (hn : n ∈ g2.nodes) (hkept : ¬Shadowed g1 n)
    (hnew : ∀ m ∈ g1.nodes, ∀ out ∈ m.output_names, out ∉ n.output_names) : n ∈ g.nodes := by
  obtain ⟨p, hnodes, hp⟩ := hg.nodes
  rw [hnodes]
  exact List.mem_append_right _ (List.mem_filter.mpr ⟨hn, (hp n hn).mpr ⟨hkept, hnew⟩⟩)

theorem Merged.mem_cases {n : IRNode} (hn : n ∈ g.nodes) : n ∈ g1.nodes ∨
    n ∈ g2.nodes ∧ ¬Shadowed g1 n ∧
      ∀ m ∈ g1.nodes, ∀ out ∈ m.output_names, out ∉ n.output_names := by
  obtain ⟨p, hnodes, hp⟩ := hg.nodes
  rw [hnodes] at hn
  cases List.mem_append.mp hn with
  | inl h1 => exact Or.inl h1
  | inr h2 =>
    obtain ⟨h2, hpn⟩ := List.mem_filter.mp h2
    exact Or.inr ⟨h2, (hp n h2).mp hpn⟩

include h

theorem Merged.mem_of_not_shadowed {n : IRNode} (hn : n ∈ g2.nodes) (hkept : ¬Shadowed g1 n) :
    n ∈ g.nodes := by
  by_cases hnew : ∀ m ∈ g1.nodes, ∀ out ∈ m.output_names, out ∉ n.output_names
  · exact hg.mem_right hn hkept hnew
  · push Not at hnew
    obtain ⟨m, hm, out, hout, hout'⟩ := hnew
    rw [← h.nodes m hm n hn out hout hout']
    exact hg.mem_left hm

omit hg in
theorem Mergeable.not_mem_of_shadowed {n : IRNode} (hshadowed : Shadowed g1 n) : n ∉ g1.nodes := by
  obtain ⟨out, hout, hinput, -⟩ := hshadowed
  exact fun hn => h.wf1.input_not_written hn hinput hout

theorem Merged.not_bound {n : IRNode} (hn : n ∈ g2.nodes) (hshadowed : Shadowed g1 n) {out : String}
    (hout : out ∈ n.output_names) (hinput : out ∉ g1.input_names) : out ∉ g.definedNames := by
  intro hbound
  have hn1 := h.not_mem_of_shadowed hshadowed
  rcases mem_definedNames.mp hbound with hin | ⟨m, hm, hwrite⟩
  · rcases (hg.inputs out).mp hin with h1 | h2
    · exact hinput h1
    · exact h.wf2.input_not_written hn h2.1 hout
  · rcases hg.mem_cases hm with h1 | ⟨h2, hkept, -⟩
    · exact hn1 (h.nodes m h1 n hn out hwrite hout ▸ h1)
    · exact hkept (h.wf2.producer_unique h2 hn hwrite hout ▸ hshadowed)

end Nodes

section Sound

variable (hsafe : NothingLost g1 g2)

include hg

theorem Merged.bound_left {name : String} (hname : name ∈ g1.definedNames) :
    name ∈ g.definedNames := by
  rw [mem_definedNames] at hname ⊢
  rcases hname with hin | ⟨n, hn, hout⟩
  · exact Or.inl ((hg.inputs name).mpr (Or.inl hin))
  · exact Or.inr ⟨n, hg.mem_left hn, hout⟩

include h

theorem Merged.input_right {name : String} (hname : name ∈ g2.input_names) :
    name ∈ g.input_names ∨ name ∈ g1.definedNames := by
  by_cases hout : name ∈ g1.output_names
  · exact Or.inr (h.wf1.outputs hout)
  · exact Or.inl ((hg.inputs name).mpr (Or.inr ⟨hname, Or.inr hout⟩))

include hsafe

theorem Merged.verifyNodeInputs : g.verifyNodeInputs = true := by
  obtain ⟨p, hnodes, hp⟩ := hg.nodes
  rw [verifyNodeInputs_iff, instrs, hnodes, List.map_append, readsBound_append, writes_instrs]
  have hbound : ∀ name ∈ g1.definedNames,
      name ∈ g.input_names ++ g1.nodes.flatMap IRNode.output_names := by
    intro name hname
    cases List.mem_append.mp hname with
    | inl hin => exact List.mem_append_left _ ((hg.inputs name).mpr (Or.inl hin))
    | inr hout => exact List.mem_append_right _ hout
  constructor
  · exact (verifyNodeInputs_iff.mp h.wf1.node_inputs).mono
      fun name hname => (hg.inputs name).mpr (Or.inl hname)
  · apply (verifyNodeInputs_iff.mp h.wf2.node_inputs).filter
    · intro n hn hpn name hread hin
      cases hg.input_right h hin with
      | inl hin => exact List.mem_append_left _ hin
      | inr h1 => exact hbound name h1
    · intro n hn hpn m hm hpm name hout hread
      apply hbound
      have hdropped := mt (hp m hm).mpr hpm
      rw [not_and_or, not_not] at hdropped
      cases hdropped with
      | inl hshadowed =>
        by_contra hnot
        exact (hsafe.lost m hm hshadowed name hout
          (fun hin => hnot (mem_definedNames.mpr (Or.inl hin)))).2 n hn ((hp n hn).mp hpn).1 hread
      | inr hshared =>
        push Not at hshared
        obtain ⟨m', hm', out, hwrite, hwrite'⟩ := hshared
        rw [mem_definedNames]
        exact Or.inr ⟨m', hm', h.nodes m' hm' m hm out hwrite hwrite' ▸ hout⟩

theorem Merged.input_not_written {n : IRNode} (hn : n ∈ g.nodes) {name : String}
    (hin : name ∈ g.input_names) : name ∉ n.output_names := by
  intro hout
  rcases hg.mem_cases hn with h1 | ⟨h2, hkept, -⟩
  · rcases (hg.inputs name).mp hin with hin1 | ⟨hin2, hparam | hnot⟩
    · exact h.wf1.input_not_written h1 hin1 hout
    · rw [hsafe.params n h1 name hout hin2] at hparam
      cases hparam
    · exact hnot (h.handed n h1 name hout hin2)
  · rcases (hg.inputs name).mp hin with hin1 | ⟨hin2, -⟩
    · exact hsafe.kept n h2 hkept name hout hin1
    · exact h.wf2.input_not_written h2 hin2 hout

theorem Merged.verifyNoDuplicatedOutputs : g.verifyNoDuplicatedOutputs = true := by
  refine decide_eq_true (hg.nodup.append ?_ ?_)
  · obtain ⟨p, hnodes, hp⟩ := hg.nodes
    rw [hnodes, List.flatMap_append]
    refine (List.nodup_append.mp h.wf1.nodup).2.1.append ?_ ?_
    · exact (List.nodup_append.mp h.wf2.nodup).2.1.sublist
        (List.filter_sublist.flatMap IRNode.output_names)
    · intro name h1 h2
      obtain ⟨m, hm, hwrite⟩ := List.mem_flatMap.mp h1
      obtain ⟨n, hn, hwrite'⟩ := List.mem_flatMap.mp h2
      obtain ⟨hn, hpn⟩ := List.mem_filter.mp hn
      exact ((hp n hn).mp hpn).2 m hm name hwrite hwrite'
  · intro name hin hwritten
    obtain ⟨n, hn, hout⟩ := List.mem_flatMap.mp hwritten
    exact hg.input_not_written h hsafe hn hin hout

theorem Merged.output_bound {out : String} (hout : out ∈ g2.output_names) :
    out ∈ g.definedNames := by
  rcases mem_definedNames.mp (h.wf2.outputs hout) with hin | ⟨n, hn, hwrite⟩
  · cases hg.input_right h hin with
    | inl hin => exact mem_definedNames.mpr (Or.inl hin)
    | inr h1 => exact hg.bound_left h1
  · by_cases hshadowed : Shadowed g1 n
    · by_contra hnot
      refine (hsafe.lost n hn hshadowed out hwrite fun hin => hnot ?_).1 hout
      exact hg.bound_left (mem_definedNames.mpr (Or.inl hin))
    · exact mem_definedNames.mpr (Or.inr ⟨n, hg.mem_of_not_shadowed h hn hshadowed, hwrite⟩)

/-- Values of both graphs, where they agree, are the values of the merged graph. -/
theorem Merged.evalValues {V : Type} {I : Interp String V} {vals : String → V}
    {env1 env2 : Env String V} (h1 : g1.evalValues I vals = some env1)
    (h2 : g2.evalValues I (g1.outputsOver env1 vals) = some env2)
    (hagree : ∀ name ∈ g1.definedNames, name ∈ g2.definedNames → env1 name = env2 name) :
    ∃ env, g.evalValues I vals = some env ∧
      (∀ name ∈ g1.definedNames, env name = env1 name) ∧
      ∀ name ∈ g2.definedNames, name ∈ g.definedNames → env name = env2 name := by
  let ρ : Env String V := fun name => if name ∈ g1.definedNames then env1 name else env2 name
  have hρ1 : ∀ name ∈ g1.definedNames, ρ name = env1 name := fun name hname => if_pos hname
  have hρ2 : ∀ name ∈ g2.definedNames, ρ name = env2 name := by
    intro name hname
    by_cases hname1 : name ∈ g1.definedNames
    · rw [hρ1 name hname1, hagree name hname1 hname]
    · exact if_neg hname1
  have hinput : ∀ name ∈ g.input_names, ρ name = some (vals name) := by
    intro name hname
    rcases (hg.inputs name).mp hname with hin1 | ⟨hin2, -⟩
    · rw [hρ1 name (mem_definedNames.mpr (Or.inl hin1))]
      exact evalValues_input h1 hin1
    · by_cases hbound : name ∈ g1.definedNames
      · rcases mem_definedNames.mp hbound with hin1 | ⟨n, hn, hout⟩
        · rw [hρ1 name hbound]
          exact evalValues_input h1 hin1
        · exact absurd hout (hg.input_not_written h hsafe (hg.mem_left hn) hname)
      · rw [hρ2 name (mem_definedNames.mpr (Or.inl hin2)), evalValues_input h2 hin2]
        unfold outputsOver
        rw [if_neg fun hout => hbound (h.wf1.outputs hout)]
  have hholds : ∀ n ∈ g.nodes, Holds I ρ n.instr := by
    intro n hn
    rcases hg.mem_cases hn with hn1 | ⟨hn2, -⟩
    · refine (evalValues_holds h1 n hn1).congr (fun name hread => ?_) fun name hwrite => ?_
      · exact hρ1 name (h.wf1.read_bound hn1 hread)
      · exact hρ1 name (mem_definedNames.mpr (Or.inr ⟨n, hn1, hwrite⟩))
    · refine (evalValues_holds h2 n hn2).congr (fun name hread => ?_) fun name hwrite => ?_
      · exact hρ2 name (h.wf2.read_bound hn2 hread)
      · exact hρ2 name (mem_definedNames.mpr (Or.inr ⟨n, hn2, hwrite⟩))
  obtain ⟨env, henv, hsame⟩ := evalValues_eq (hg.verifyNodeInputs h hsafe)
    (hg.verifyNoDuplicatedOutputs h hsafe) I vals hinput hholds
  refine ⟨env, henv, fun name hname => ?_, fun name hname hbound => ?_⟩
  · rw [hsame name (hg.bound_left hname), hρ1 name hname]
  · rw [hsame name hbound, hρ2 name hname]

theorem Merged.runsAfter : RunsAfter g1 g2 required_inputs g where
  node_inputs := hg.verifyNodeInputs h hsafe
  no_duplicated := hg.verifyNoDuplicatedOutputs h hsafe
  outputs := hg.outputs
  meaning := by
    intro V I vals env1 env2 h1 h2 hagree
    obtain ⟨env, henv, hleft, hright⟩ := hg.evalValues h hsafe h1 h2 hagree
    refine ⟨env, henv, fun out _ => ⟨fun hout => hleft out (h.wf1.outputs hout), fun hout => ?_⟩⟩
    exact hright out (h.wf2.outputs hout) (hg.output_bound h hsafe hout)

end Sound

/-- All operators return the same. -/
def unitInterp : Interp String Unit := fun _ _ _ => ()

theorem Merged.nothingLost (h : Mergeable g1 g2) (hg : Merged g1 g2 required_inputs g)
    (hruns : RunsAfter g1 g2 required_inputs g) : NothingLost g1 g2 := by
  have hnodup : ∀ n ∈ g.nodes, ∀ name ∈ g.input_names, name ∉ n.output_names := by
    intro n hn name hin hout
    exact List.disjoint_of_nodup_append (of_decide_eq_true hruns.no_duplicated) hin
      (List.mem_flatMap.mpr ⟨n, hn, hout⟩)
  refine ⟨?_, ?_, ?_⟩
  · intro n hn out hout hin
    by_contra hparam
    rw [Bool.not_eq_false] at hparam
    exact hnodup n (hg.mem_left hn) out ((hg.inputs out).mpr (Or.inr ⟨hin, Or.inl hparam⟩)) hout
  · intro n hn hkept out hout hin
    exact hnodup n (hg.mem_of_not_shadowed h hn hkept) out
      ((hg.inputs out).mpr (Or.inl hin)) hout
  · intro n hn hshadowed out hout hin
    have hlost := hg.not_bound h hn hshadowed hout hin
    refine ⟨fun houtput => ?_, fun m hm hkept hread => ?_⟩
    · obtain ⟨env1, h1⟩ := h.wf1.exists_evalValues unitInterp fun _ => ()
      obtain ⟨env2, h2⟩ := h.wf2.exists_evalValues unitInterp (g1.outputsOver env1 fun _ => ())
      have hagree : ∀ name ∈ g1.definedNames, name ∈ g2.definedNames → env1 name = env2 name := by
        intro name hname1 hname2
        obtain ⟨v1, hv1⟩ := Option.isSome_iff_exists.mp ((evalValues_isSome_iff h1 name).mpr hname1)
        obtain ⟨v2, hv2⟩ := Option.isSome_iff_exists.mp ((evalValues_isSome_iff h2 name).mpr hname2)
        rw [hv1, hv2]
      obtain ⟨env, henv, houtputs⟩ := hruns.meaning Unit unitInterp _ env1 env2 h1 h2 hagree
      have hsame := (houtputs out ((hg.outputs out).mpr (Or.inl houtput))).2 houtput
      apply hlost
      rw [← evalValues_isSome_iff henv, hsame, evalValues_isSome_iff h2]
      exact h.wf2.outputs houtput
    · apply hlost
      have hmem := hg.mem_of_not_shadowed h hm hkept
      exact read_mem_definedNames hruns.node_inputs hmem hread

/-- Merging two graphs gives one that runs them in sequence exactly when what is lost with the
shadowed nodes is not used. -/
theorem Mergeable.runsAfter_iff (h : Mergeable g1 g2) (name : String)
    (required_inputs : List String) :
    (∃ g, mergeGraphs name g1 g2 required_inputs = some g ∧ RunsAfter g1 g2 required_inputs g) ↔
      NothingLost g1 g2 := by
  obtain ⟨g, hmerge, hg⟩ := h.exists_merged name required_inputs
  constructor
  · rintro ⟨g', hmerge', hruns⟩
    obtain rfl := Option.some.inj (hmerge.symm.trans hmerge')
    exact hg.nothingLost h hruns
  · exact fun hsafe => ⟨g, hmerge, hg.runsAfter h hsafe⟩

end Merge

theorem getValue_eq_of_vectors {g1 g2 : IRGraph} {names1 names2 : List String}
    (h1 : g1.values = vectorValues names1) (h2 : g2.values = vectorValues names2)
    (hnames1 : g1.definedNames ⊆ names1) (hnames2 : g2.definedNames ⊆ names2) :
    ∀ name ∈ g1.definedNames, name ∈ g2.definedNames → g1.getValue name = g2.getValue name := by
  intro name hname1 hname2
  unfold getValue
  rw [h1, h2, lookup_vectorValues (hnames1 hname1), lookup_vectorValues (hnames2 hname2)]

def sizeNode : IRNode := ⟨"aten::size", ["x"], ["s"], "n0", false, false⟩

/-- The size of the input is used here and below. -/
def reluGraph : IRGraph where
  name := "relu"
  nodes := [sizeNode, ⟨"aten::relu", ["x", "s"], ["y"], "n1", false, true⟩]
  values := vectorValues ["x", "s", "y"]
  input_names := ["x"]
  output_names := ["y"]

def viewGraph : IRGraph where
  name := "view"
  nodes := [sizeNode, ⟨"aten::view", ["y", "s"], ["z"], "n2", false, true⟩]
  values := vectorValues ["x", "s", "y", "z"]
  input_names := ["x", "y"]
  output_names := ["z"]

theorem viewGraph_mergeable : Mergeable reluGraph viewGraph where
  wf1 := verified_of_vectors rfl (by decide) (by decide) (by decide) (by decide) (by decide)
  wf2 := verified_of_vectors rfl (by decide) (by decide) (by decide) (by decide) (by decide)
  values := getValue_eq_of_vectors rfl rfl (by decide) (by decide)
  nodes := by decide
  forward := by decide
  handed := by decide

theorem runsAfter_view : ∃ g, mergeGraphs "ML_0" reluGraph viewGraph [] = some g ∧
    RunsAfter reluGraph viewGraph [] g := by
  apply (Mergeable.runsAfter_iff viewGraph_mergeable "ML_0" []).mpr
  exact ⟨by decide, by decide, by decide⟩

/-- The value `v` is read, which comes from elsewhere. -/
def readerGraph : IRGraph where
  name := "reader"
  nodes := [⟨"aten::relu", ["v"], ["y"], "n1", false, true⟩]
  values := vectorValues ["v", "y"]
  input_names := ["v"]
  output_names := ["y"]

/-- The value `v` is computed together with `w`. -/
def splitGraph : IRGraph where
  name := "split"
  nodes := [⟨"prim::ListUnpack", ["x"], ["v", "w"], "n0", false, false⟩,
    ⟨"aten::add", ["w", "y"], ["z"], "n2", false, true⟩]
  values := vectorValues ["x", "v", "w", "y", "z"]
  input_names := ["x", "y"]
  output_names := ["z"]

theorem splitGraph_mergeable : Mergeable readerGraph splitGraph where
  wf1 := verified_of_vectors rfl (by decide) (by decide) (by decide) (by decide) (by decide)
  wf2 := verified_of_vectors rfl (by decide) (by decide) (by decide) (by decide) (by decide)
  values := getValue_eq_of_vectors rfl rfl (by decide) (by decide)
  nodes := by decide
  forward := by decide
  handed := by decide

/-- The value `w` is lost. -/
theorem not_runsAfter : ¬∀ (g1 g2 : IRGraph) (name : String) (required_inputs : List String),
    Mergeable g1 g2 →
    ∃ g, mergeGraphs name g1 g2 required_inputs = some g ∧ RunsAfter g1 g2 required_inputs g := by
  intro h
  obtain ⟨g, hmerge, hruns⟩ := h readerGraph splitGraph "ML_0" [] splitGraph_mergeable
  have hinputs : (mergeGraphs "ML_0" readerGraph splitGraph []).map verifyNodeInputs =
      some false := by
    decide
  rw [hmerge, Option.map_some, hruns.node_inputs] at hinputs
  cases hinputs

end Rannc
