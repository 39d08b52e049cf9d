import Rannc.Graph.MergeMeaning

/-!
# Graphs of one program

The graphs that a model is cut into share values and operators. What merging two of them gives is
said here without any order between the two: an operator of either is there unless it writes a
value that the merged graph reads.
-/
namespace Rannc

open Dataflow IRGraph

/-- The graphs have the same values under the same names, operators under the same ids, and one
operator for each value that is computed. Parameters are not computed. -/
structure OneProgram (gs : List IRGraph) : Prop where
  verified : ∀ g ∈ gs, g.Verified
  values : ∀ g ∈ gs, ∀ g' ∈ gs, ∀ name value value', g.getValue name = some value →
    g'.getValue name = some value' → value = value'
  producers : ∀ g ∈ gs, ∀ g' ∈ gs, ∀ n ∈ g.nodes, ∀ n' ∈ g'.nodes, ∀ out ∈ n.output_names,
    out ∈ n'.output_names → n = n'
  ids : ∀ g ∈ gs, ∀ g' ∈ gs, ∀ n ∈ g.nodes, ∀ n' ∈ g'.nodes, n.id = n'.id → n = n'
  params : ∀ g ∈ gs, ∀ n ∈ g.nodes, ∀ out ∈ n.output_names, ∀ g' ∈ gs, g'.isParam out = false

/-- The graph has only operators and parameters of the others. -/
structure MadeOf (gs : List IRGraph) (g : IRGraph) : Prop where
  nodes : ∀ n ∈ g.nodes, ∃ g' ∈ gs, n ∈ g'.nodes
  params : ∀ name ∈ g.input_names, g.isParam name = true → ∃ g' ∈ gs, g'.isParam name = true

/-- The merged graph reads the value. -/
def MergedInput (g1 g2 : IRGraph) (name : String) : Prop :=
  name ∈ g1.input_names ∨ name ∈ g2.input_names ∧ (g2.isParam name = true ∨ name ∉ g1.output_names)

instance (g1 g2 : IRGraph) (name : String) : Decidable (MergedInput g1 g2 name) :=
  inferInstanceAs (Decidable (_ ∨ _))

/-- The merged graph reads the value, or has the operator that writes it. -/
def MergedMakes (g1 g2 : IRGraph) (name : String) : Prop :=
  MergedInput g1 g2 name ∨ ∃ n ∈ g1.nodes ++ g2.nodes, name ∈ n.output_names ∧
    ∀ out ∈ n.output_names, ¬MergedInput g1 g2 out

instance (g1 g2 : IRGraph) (name : String) : Decidable (MergedMakes g1 g2 name) :=
  inferInstanceAs (Decidable (_ ∨ _))

/-- The merged graph makes the value and gives it out. -/
def MergedGives (g1 g2 : IRGraph) (required_inputs : List String) (name : String) : Prop :=
  (name ∈ g2.output_names ∨
      name ∈ g1.output_names ∧ (name ∉ g2.input_names ∨ name ∈ required_inputs)) ∧
    MergedMakes g1 g2 name

instance (g1 g2 : IRGraph) (required_inputs : List String) (name : String) :
    Decidable (MergedGives g1 g2 required_inputs name) :=
  inferInstanceAs (Decidable (_ ∧ _))

namespace OneProgram

variable {gs : List IRGraph} (h : OneProgram gs) {g g1 g2 : IRGraph} (h1 : g1 ∈ gs) (h2 : g2 ∈ gs)
include h

theorem getValue_eq {g g' : IRGraph} (hg : g ∈ gs) (hg' : g' ∈ gs) {name : String}
    (hname : name ∈ g.definedNames) (hvalue : (g'.getValue name).isSome) :
    g.getValue name = g'.getValue name := by
  obtain ⟨value, hget, -⟩ := (h.verified g hg).values name hname
  obtain ⟨value', hget'⟩ := Option.isSome_iff_exists.mp hvalue
  rw [hget, hget', h.values g hg g' hg' name value value' hget hget']

theorem isParam_iff {g : IRGraph} (hg : g ∈ gs) {name : String} (hname : name ∈ g.definedNames) :
    g.isParam name = true ↔ ∃ g' ∈ gs, g'.isParam name = true := by
  constructor
  · exact fun hparam => ⟨g, hg, hparam⟩
  · rintro ⟨g', hg', hparam⟩
    unfold isParam
    rw [h.getValue_eq hg hg' hname (Option.isSome_of_any hparam)]
    exact hparam

include h1 h2

theorem joinable : Joinable g1 g2 where
  wf1 := h.verified g1 h1
  wf2 := h.verified g2 h2
  values := by
    intro name hname1 hname2
    exact h.getValue_eq h1 h2 hname1 ((h.verified g2 h2).input_value hname2)

variable {name : String} {required_inputs : List String}
  (hmerge : mergeGraphs name g1 g2 required_inputs = some g)
include hmerge

theorem joined : Joined g1 g2 required_inputs g := by
  obtain ⟨g', hmerge', hg⟩ := (h.joinable h1 h2).exists_joined name required_inputs
  rwa [Option.some.inj (hmerge.symm.trans hmerge')]

theorem mergeGraphs_inputs (x : String) : x ∈ g.input_names ↔ MergedInput g1 g2 x :=
  (h.joined h1 h2 hmerge).inputs x

omit hmerge in
theorem mergedInput_iff {n : IRNode} {out : String} (hn : n ∈ g1.nodes ∨ n ∈ g2.nodes)
    (hout : out ∈ n.output_names) : MergedInput g1 g2 out ↔ ReadsMerged g1 g2 out := by
  have hparams : g1.isParam out = false ∧ g2.isParam out = false := by
    cases hn with
    | inl hn => exact ⟨h.params g1 h1 n hn out hout g1 h1, h.params g1 h1 n hn out hout g2 h2⟩
    | inr hn => exact ⟨h.params g2 h2 n hn out hout g1 h1, h.params g2 h2 n hn out hout g2 h2⟩
  simp [MergedInput, ReadsMerged, hparams.1, hparams.2]

theorem mergeGraphs_nodes (n : IRNode) : n ∈ g.nodes ↔
    n ∈ g1.nodes ++ g2.nodes ∧ ∀ out ∈ n.output_names, ¬MergedInput g1 g2 out := by
  obtain ⟨p, q, hnodes, hp, hq⟩ := (h.joined h1 h2 hmerge).nodes
  have hreads (hn : n ∈ g1.nodes ∨ n ∈ g2.nodes) :
      (∀ out ∈ n.output_names, ¬MergedInput g1 g2 out) ↔
        ∀ out ∈ n.output_names, ¬ReadsMerged g1 g2 out :=
    forall₂_congr fun out hout => not_congr (h.mergedInput_iff h1 h2 hn hout)
  rw [hnodes, List.mem_append, List.mem_append, List.mem_filter, List.mem_filter]
  constructor
  · rintro (⟨hn, hkept⟩ | ⟨hn, hkept⟩)
    · exact ⟨Or.inl hn, (hreads (Or.inl hn)).mpr ((hp n hn).mp hkept)⟩
    · exact ⟨Or.inr hn, (hreads (Or.inr hn)).mpr fun out hout => ((hq n hn).mp hkept out hout).1⟩
  · rintro ⟨hn | hn, hkept⟩
    · exact Or.inl ⟨hn, (hp n hn).mpr ((hreads (Or.inl hn)).mp hkept)⟩
    · have hkept := (hreads (Or.inr hn)).mp hkept
      by_cases hn1 : n ∈ g1.nodes
      · exact Or.inl ⟨hn1, (hp n hn1).mpr hkept⟩
      · refine Or.inr ⟨hn, (hq n hn).mpr fun out hout => ⟨hkept out hout, ?_⟩⟩
        intro m hm _ hout'
        exact hn1 (h.producers g1 h1 g2 h2 m hm n hn out hout' hout ▸ hm)

theorem mergeGraphs_defined (x : String) : x ∈ g.definedNames ↔ MergedMakes g1 g2 x := by
  rw [mem_definedNames, h.mergeGraphs_inputs h1 h2 hmerge, MergedMakes]
  simp only [h.mergeGraphs_nodes h1 h2 hmerge]
  grind

theorem mergeGraphs_gives (x : String) :
    x ∈ g.output_names ∧ x ∈ g.definedNames ↔ MergedGives g1 g2 required_inputs x :=
  and_congr ((h.joined h1 h2 hmerge).outputs x) (h.mergeGraphs_defined h1 h2 hmerge x)

theorem mergeGraphs_isParam {x : String} (hx : x ∈ g.input_names) :
    g.isParam x = true ↔ ∃ g' ∈ gs, g'.isParam x = true := by
  have hsource : ∃ g' ∈ gs, x ∈ g'.definedNames ∧ g.getValue x = g'.getValue x := by
    have hinput := (h.mergeGraphs_inputs h1 h2 hmerge x).mp hx
    unfold getValue
    rw [(h.joined h1 h2 hmerge).values, List.lookup_append]
    cases hx1 : g1.values.lookup x with
    | some value =>
      rcases hinput with hin1 | ⟨hin2, -⟩
      · exact ⟨g1, h1, mem_definedNames.mpr (Or.inl hin1), hx1.symm⟩
      · have hdefined := mem_definedNames.mpr (Or.inl hin2)
        refine ⟨g2, h2, hdefined, ?_⟩
        exact hx1.symm.trans (h.getValue_eq h2 h1 hdefined (Option.isSome_of_eq_some hx1)).symm
    | none =>
      have hnot : x ∉ g1.input_names := by
        intro hin1
        have hvalue := (h.verified g1 h1).input_value (mem_definedNames.mpr (Or.inl hin1))
        simp [hx1] at hvalue
      have hkey : (!g1.hasValue x) = true := by simp [hasValue, getValue, hx1]
      refine ⟨g2, h2, mem_definedNames.mpr (Or.inl (hinput.resolve_left hnot).1), ?_⟩
      rw [lookup_filter (p := fun name => !g1.hasValue name) hkey, Option.none_or]
  obtain ⟨g', hg', hdefined, hvalue⟩ := hsource
  have hsame : g.isParam x = g'.isParam x := by
    unfold isParam
    rw [hvalue]
  rw [hsame]
  exact h.isParam_iff hg' hdefined

theorem mergeGraphs_reads {x : String} :
    x ∈ g.input_names ∧ g.isParam x = false ↔ ReadsMerged g1 g2 x := by
  have hdefined {g' : IRGraph} (hx : x ∈ g'.input_names) : x ∈ g'.definedNames :=
    mem_definedNames.mpr (Or.inl hx)
  have hparam (hx : x ∈ g.input_names) {g' : IRGraph} (hg' : g' ∈ gs) (hx' : x ∈ g'.input_names) :
      g.isParam x = g'.isParam x := by
    rw [Bool.eq_iff_iff, h.mergeGraphs_isParam h1 h2 hmerge hx, h.isParam_iff hg' (hdefined hx')]
  have hinputs := h.mergeGraphs_inputs h1 h2 hmerge x
  unfold MergedInput at hinputs
  unfold ReadsMerged
  constructor
  · rintro ⟨hx, hx_param⟩
    rcases hinputs.mp hx with hin1 | ⟨hin2, hcase⟩
    · exact Or.inl ⟨hin1, (hparam hx h1 hin1).symm.trans hx_param⟩
    · have hparam2 := (hparam hx h2 hin2).symm.trans hx_param
      rw [hparam2, or_iff_right Bool.false_ne_true] at hcase
      exact Or.inr ⟨⟨hin2, hparam2⟩, hcase⟩
  · rintro (⟨hin1, hparam1⟩ | ⟨⟨hin2, hparam2⟩, hnot⟩)
    · have hx := hinputs.mpr (Or.inl hin1)
      exact ⟨hx, (hparam hx h1 hin1).trans hparam1⟩
    · have hx := hinputs.mpr (Or.inr ⟨hin2, Or.inr hnot⟩)
      exact ⟨hx, (hparam hx h2 hin2).trans hparam2⟩

theorem mergeGraphs_madeOf : MadeOf gs g where
  nodes := by
    intro n hn
    cases List.mem_append.mp ((h.mergeGraphs_nodes h1 h2 hmerge n).mp hn).1 with
    | inl hn1 => exact ⟨g1, h1, hn1⟩
    | inr hn2 => exact ⟨g2, h2, hn2⟩
  params := fun _ hname => (h.mergeGraphs_isParam h1 h2 hmerge hname).mp

end OneProgram

end Rannc
