import Rannc.Graph.Evaluation

/-!
# Removing unused nodes

A node is removed when it has some output that nothing reads, also when its other outputs are
read. What is left is a graph exactly when all outputs of each node that the result depends on
are used.
-/
namespace Rannc.IRGraph

open Dataflow

variable (g : IRGraph)

/-- The result depends on the node: it leads to an output or to a node that writes nothing. -/
inductive Live : IRNode → Prop
  | output {n out} : n ∈ g.nodes → out ∈ n.output_names → out ∈ g.output_names → Live n
  | sink {n} : n ∈ g.nodes → n.output_names = [] → Live n
  | read {n m out} : n ∈ g.nodes → out ∈ n.output_names → Live m → out ∈ m.input_names → Live n

/-- All outputs of the live nodes are used. -/
def LiveUsed : Prop :=
  ∀ n, g.Live n → ∀ out ∈ n.output_names,
    out ∈ g.output_names ∨ ∃ m, g.Live m ∧ out ∈ m.input_names

/-- The passes over the nodes come to an end. -/
def RemovalEnds : Prop :=
  ∃ res, g.removeUnusedLoop g.nodes.length g = some res ∧ res.detectUnusedNodes = []

/-- A graph with less nodes means the same. -/
structure Reduces (new_g : IRGraph) : Prop where
  node_inputs : new_g.verifyNodeInputs = true
  outputs : new_g.output_names = g.output_names
  producers : ∀ n ∈ g.nodes, ∀ out ∈ n.output_names, out ∈ g.output_names → n ∈ new_g.nodes
  meaning : ∀ (V : Type) (I : Interp String V) (vals : String → V),
    new_g.eval I vals = g.eval I vals
  used : ∀ n ∈ new_g.nodes, n.output_names ≠ [] →
    ∃ out ∈ n.output_names, out ∈ new_g.getRequiredValues

def SoundRemoval : Prop :=
  g.RemovalEnds ∧ ∃ new_g, g.removeUnusedNodes = some new_g ∧ g.Reduces new_g

variable {g}

theorem Live.mem {n : IRNode} (h : g.Live n) : n ∈ g.nodes := by
  cases h with
  | output hn => exact hn
  | sink hn => exact hn
  | read hn => exact hn

/-- The graph with some of its nodes. -/
structure PartOf (g new_g : IRGraph) : Prop where
  inputs : new_g.input_names = g.input_names
  outputs : new_g.output_names = g.output_names
  values : new_g.values = g.values
  nodes : ∃ p : IRNode → Bool, new_g.nodes = g.nodes.filter p

theorem PartOf.mem {new_g : IRGraph} (h : PartOf g new_g) {n : IRNode} (hn : n ∈ new_g.nodes) :
    n ∈ g.nodes := by
  obtain ⟨p, hp⟩ := h.nodes
  rw [hp] at hn
  exact List.mem_of_mem_filter hn

theorem partOf_self (g : IRGraph) : PartOf g g :=
  ⟨rfl, rfl, rfl, fun _ => true, (List.filter_eq_self.mpr fun _ _ => rfl).symm⟩

theorem mem_getRequiredValues {name : String} :
    name ∈ g.getRequiredValues ↔ name ∈ g.output_names ∨ ∃ n ∈ g.nodes, name ∈ n.input_names := by
  unfold getRequiredValues
  rw [List.mem_append, List.mem_flatMap]

theorem detectUnusedNodes_eq_nil : g.detectUnusedNodes = [] ↔
    ∀ n ∈ g.nodes, ∀ out ∈ n.output_names, out ∈ g.getRequiredValues := by
  unfold detectUnusedNodes
  rw [List.filter_eq_nil_iff]
  simp

/-- Nodes whose outputs are all used by nodes of the same set. -/
def Supported (g : IRGraph) (S : IRNode → Prop) : Prop :=
  ∀ n, S n → n ∈ g.nodes ∧
    ∀ out ∈ n.output_names, out ∈ g.output_names ∨ ∃ m, S m ∧ out ∈ m.input_names

/-- The passes end and keep what is supported. -/
theorem Verified.removeUnusedLoop_spec (hg : g.Verified) {S : IRNode → Prop}
    (hS : g.Supported S) (fuel : ℕ) {new_g : IRGraph} (hpart : PartOf g new_g)
    (hkept : ∀ n, S n → n ∈ new_g.nodes) :
    ∃ res, g.removeUnusedLoop fuel new_g = some res ∧ PartOf g res ∧
      ∀ n, S n → n ∈ res.nodes := by
  induction fuel generalizing new_g with
  | zero => exact ⟨new_g, rfl, hpart, hkept⟩
  | succ fuel ih =>
    rw [removeUnusedLoop]
    split_ifs with hunused
    · exact ⟨new_g, rfl, hpart, hkept⟩
    · obtain ⟨is_replicable, hcreate⟩ := exists_create g.name
        (new_g.nodes.filter fun n => n.id ∉ new_g.detectUnusedNodes.map IRNode.id)
        g.output_names fun name hname => hg.input_value (mem_definedNames.mpr (Or.inl hname))
      dsimp only
      rw [hcreate]
      apply ih
      · obtain ⟨p, hp⟩ := hpart.nodes
        refine ⟨rfl, rfl, rfl, fun n => n.id ∉ new_g.detectUnusedNodes.map IRNode.id && p n, ?_⟩
        dsimp only
        rw [hp, List.filter_filter]
      · intro n hn
        refine List.mem_filter.mpr ⟨hkept n hn, decide_eq_true fun hid => ?_⟩
        obtain ⟨m, hm, hidm⟩ := List.mem_map.mp hid
        obtain ⟨hm, hout⟩ := List.mem_filter.mp hm
        obtain rfl := hg.eq_of_id (hpart.mem hm) (hS n hn).1 hidm
        obtain ⟨out, hout, hnot⟩ := of_decide_eq_true hout
        apply hnot
        rw [mem_getRequiredValues, hpart.outputs]
        cases (hS m hn).2 out hout with
        | inl houtput => exact Or.inl houtput
        | inr hread =>
          obtain ⟨m', hm', hin⟩ := hread
          exact Or.inr ⟨m', hkept m' hm', hin⟩

/-- Nodes that stay when no node has an unused output are live. -/
theorem Verified.live_of_detect (hg : g.Verified) {res : IRGraph} (hpart : PartOf g res)
    (hdetect : res.detectUnusedNodes = []) {n : IRNode} (hn : n ∈ res.nodes) : g.Live n := by
  by_cases hsink : n.output_names = []
  · exact Live.sink (hpart.mem hn) hsink
  · obtain ⟨out, hout⟩ := List.exists_mem_of_ne_nil _ hsink
    have hrequired := detectUnusedNodes_eq_nil.mp hdetect n hn out hout
    rw [mem_getRequiredValues, hpart.outputs] at hrequired
    cases hrequired with
    | inl houtput => exact Live.output (hpart.mem hn) hout houtput
    | inr hread =>
      obtain ⟨m, hm, hin⟩ := hread
      have hlt := hg.idxOf_lt (hpart.mem hn) (hpart.mem hm) hout hin
      exact Live.read (hpart.mem hn) hout (live_of_detect hg hpart hdetect hm) hin
termination_by g.nodes.length - g.nodes.idxOf n
decreasing_by
  have hlast := List.idxOf_lt_length_of_mem (hpart.mem hm)
  omega

theorem Verified.removalEnds (hg : g.Verified) : g.RemovalEnds := by
  obtain ⟨res, hloop, -⟩ := hg.removeUnusedLoop_spec (S := fun _ => False) (fun _ h => h.elim)
    g.nodes.length (partOf_self g) (fun _ h => h.elim)
  exact ⟨res, hloop, removeUnusedLoop_unused le_rfl hloop⟩

/-- What is returned has the nodes that are left, the inputs that they need, and all outputs. -/
theorem Verified.removeUnusedNodes_eq (hg : g.Verified) {res : IRGraph} (hpart : PartOf g res)
    (hloop : g.removeUnusedLoop g.nodes.length g = some res) :
    ∃ new_g, g.removeUnusedNodes = some new_g ∧ new_g.nodes = res.nodes ∧
      new_g.output_names = g.output_names ∧
      new_g.input_names = g.input_names.filter (· ∈ res.getRequiredValues) := by
  have hvalues : ∀ in_name ∈ res.input_names.filter (· ∈ res.getRequiredValues),
      ((res.values.filter fun it => it.1 ∈ res.getRequiredValues).lookup in_name).isSome := by
    intro in_name hin_name
    obtain ⟨hinput, hrequired⟩ := List.mem_filter.mp hin_name
    rw [lookup_filter (p := fun name => name ∈ res.getRequiredValues) hrequired, hpart.values]
    rw [hpart.inputs] at hinput
    exact hg.input_value (mem_definedNames.mpr (Or.inl hinput))
  obtain ⟨is_replicable, hcreate⟩ := exists_create g.name res.nodes
    (res.output_names.filter (· ∈ res.getRequiredValues)) hvalues
  refine ⟨_, Option.bind_eq_some_iff.mpr ⟨res, hloop, hcreate⟩, rfl, ?_, ?_⟩
  · dsimp only
    rw [← hpart.outputs]
    apply List.filter_eq_self.mpr
    exact fun out hout => decide_eq_true (mem_getRequiredValues.mpr (Or.inl hout))
  · dsimp only
    rw [hpart.inputs]

/-- If all nodes stay that what is left reads and that the outputs come from, it means the same. -/
theorem Verified.reduces (hg : g.Verified) {res new_g : IRGraph} (hpart : PartOf g res)
    (hdetect : res.detectUnusedNodes = []) (hlive : ∀ n, g.Live n → n ∈ res.nodes)
    (hnodes : new_g.nodes = res.nodes) (houtputs : new_g.output_names = g.output_names)
    (hinputs : new_g.input_names = g.input_names.filter (· ∈ res.getRequiredValues)) :
    g.Reduces new_g := by
  have hmem : ∀ name, name ∈ new_g.input_names ↔
      name ∈ g.input_names ∧ name ∈ res.getRequiredValues := by
    intro name
    rw [hinputs, List.mem_filter, decide_eq_true_iff]
  obtain ⟨p, hp⟩ := hpart.nodes
  have hp' : new_g.nodes = g.nodes.filter p := hnodes.trans hp
  have hkept : ∀ n ∈ g.nodes, p n → n ∈ res.nodes := by
    intro n hn hpn
    rw [hp]
    exact List.mem_filter.mpr ⟨hn, hpn⟩
  have hreads : new_g.verifyNodeInputs = true := by
    rw [verifyNodeInputs_iff, instrs, hp']
    apply (verifyNodeInputs_iff.mp hg.node_inputs).filter
    · intro n hn hpn name hin hinput
      exact (hmem name).mpr ⟨hinput, mem_getRequiredValues.mpr (Or.inr ⟨n, hkept n hn hpn, hin⟩)⟩
    · intro n hn hpn m hm hpm name hout hin
      have hmlive := Live.read hm hout (hg.live_of_detect hpart hdetect (hkept n hn hpn)) hin
      have hmres := hlive m hmlive
      rw [hp] at hmres
      exact absurd (List.mem_filter.mp hmres).2 hpm
  have hdup : new_g.verifyNoDuplicatedOutputs = true := by
    refine decide_eq_true (List.Nodup.append ?_ ?_ ?_)
    · rw [hinputs]
      exact (List.nodup_append.mp hg.nodup).1.filter _
    · have hsub : new_g.nodes.Sublist g.nodes := hp' ▸ List.filter_sublist
      exact (List.nodup_append.mp hg.nodup).2.1.sublist (hsub.flatMap IRNode.output_names)
    · intro name hinput hwritten
      obtain ⟨n, hn, hout⟩ := List.mem_flatMap.mp hwritten
      rw [hnodes] at hn
      exact hg.input_not_written (hpart.mem hn) ((hmem name).mp hinput).1 hout
  refine ⟨hreads, houtputs, ?_, ?_, ?_⟩
  · intro n hn out hout houtput
    rw [hnodes]
    exact hlive n (Live.output hn hout houtput)
  · intro V I vals
    obtain ⟨env, henv⟩ := hg.exists_evalValues I vals
    obtain ⟨env', henv', hsame⟩ := evalValues_eq hreads hdup I vals (ρ := env)
      (fun name hname => evalValues_input henv ((hmem name).mp hname).1)
      (fun n hn => evalValues_holds henv n (hpart.mem (hnodes ▸ hn)))
    apply eval_congr henv henv'
    rw [houtputs]
    apply List.map_congr_left
    intro out hout
    apply hsame
    rw [mem_definedNames]
    cases mem_definedNames.mp (hg.outputs hout) with
    | inl hinput =>
      left
      rw [hmem, mem_getRequiredValues, hpart.outputs]
      exact ⟨hinput, Or.inl hout⟩
    | inr hwritten =>
      obtain ⟨n, hn, hwrite⟩ := hwritten
      refine Or.inr ⟨n, ?_, hwrite⟩
      rw [hnodes]
      exact hlive n (Live.output hn hwrite hout)
  · intro n hn hne
    obtain ⟨out, hout⟩ := List.exists_mem_of_ne_nil _ hne
    refine ⟨out, hout, ?_⟩
    have hrequired := detectUnusedNodes_eq_nil.mp hdetect n (hnodes ▸ hn) out hout
    rwa [getRequiredValues, houtputs, hnodes, ← hpart.outputs]

theorem Verified.live_mem (hg : g.Verified) {res new_g : IRGraph} (hpart : PartOf g res)
    (hsinks : ∀ n ∈ g.nodes, n.output_names = [] → n ∈ res.nodes)
    (hnodes : new_g.nodes = res.nodes)
    (hinputs : new_g.input_names = g.input_names.filter (· ∈ res.getRequiredValues))
    (hreduces : g.Reduces new_g) {n : IRNode} (hn : g.Live n) : n ∈ res.nodes := by
  induction hn with
  | output hn hout houtput => exact hnodes ▸ hreduces.producers _ hn _ hout houtput
  | sink hn hempty => exact hsinks _ hn hempty
  | @read n m out hn hout hm hin ih =>
    obtain ⟨before, after, hsplit⟩ := List.append_of_mem (hnodes ▸ ih : m ∈ new_g.nodes)
    have hreads := verifyNodeInputs_iff.mp hreduces.node_inputs
    unfold instrs at hreads
    rw [hsplit, List.map_append, List.map_cons] at hreads
    cases hreads.mem (i := m.instr) hin with
    | inl hinput =>
      rw [hinputs] at hinput
      exact absurd hout (hg.input_not_written hn (List.mem_of_mem_filter hinput))
    | inr hwritten =>
      rw [writes_instrs] at hwritten
      obtain ⟨n', hn', hout'⟩ := List.mem_flatMap.mp hwritten
      have hres : n' ∈ res.nodes := by
        rw [← hnodes, hsplit]
        exact List.mem_append_left _ hn'
      rwa [hg.producer_unique hn (hpart.mem hres) hout hout']

/-- Removing nodes with an unused output leaves a graph that means the same exactly when live
nodes have no unused outputs. -/
theorem Verified.soundRemoval_iff (hg : g.Verified) : g.SoundRemoval ↔ g.LiveUsed := by
  constructor
  · intro hsound
    obtain ⟨-, new_g, hnew, hreduces⟩ := hsound
    have hsinks : g.Supported fun n => n ∈ g.nodes ∧ n.output_names = [] := by
      intro n hn
      refine ⟨hn.1, fun out hout => ?_⟩
      rw [hn.2] at hout
      cases hout
    obtain ⟨res, hloop, hpart, hkept⟩ :=
      hg.removeUnusedLoop_spec hsinks g.nodes.length (partOf_self g) fun n hn => hn.1
    have hdetect := removeUnusedLoop_unused le_rfl hloop
    obtain ⟨new_g', hnew', hnodes, houtputs, hinputs⟩ := hg.removeUnusedNodes_eq hpart hloop
    obtain rfl := Option.some.inj (hnew.symm.trans hnew')
    have hlive : ∀ n, g.Live n → n ∈ res.nodes := fun n hn =>
      hg.live_mem hpart (fun n hn hempty => hkept n ⟨hn, hempty⟩) hnodes hinputs hreduces hn
    intro n hn out hout
    have hrequired := detectUnusedNodes_eq_nil.mp hdetect n (hlive n hn) out hout
    rw [mem_getRequiredValues, hpart.outputs] at hrequired
    cases hrequired with
    | inl houtput => exact Or.inl houtput
    | inr hread =>
      obtain ⟨m, hm, hin⟩ := hread
      exact Or.inr ⟨m, hg.live_of_detect hpart hdetect hm, hin⟩
  · intro hused
    have hsupported : g.Supported g.Live := fun n hn => ⟨hn.mem, hused n hn⟩
    obtain ⟨res, hloop, hpart, hlive⟩ :=
      hg.removeUnusedLoop_spec hsupported g.nodes.length (partOf_self g) fun n hn => hn.mem
    have hdetect := removeUnusedLoop_unused le_rfl hloop
    obtain ⟨new_g, hnew, hnodes, houtputs, hinputs⟩ := hg.removeUnusedNodes_eq hpart hloop
    exact ⟨⟨res, hloop, hdetect⟩, new_g, hnew,
      hg.reduces hpart hdetect hlive hnodes houtputs hinputs⟩

theorem liveUsed_of_single (h : ∀ n ∈ g.nodes, n.output_names.length ≤ 1) : g.LiveUsed := by
  have heq : ∀ n ∈ g.nodes, ∀ out ∈ n.output_names, ∀ out' ∈ n.output_names, out' = out := by
    intro n hn out hout out' hout'
    cases hnames : n.output_names with
    | nil => simp [hnames] at hout
    | cons name rest =>
      have hlen := h n hn
      rw [hnames] at hlen hout hout'
      obtain rfl : rest = [] := List.length_eq_zero_iff.mp (by simpa using hlen)
      rw [List.mem_singleton.mp hout, List.mem_singleton.mp hout']
  intro n hn out' hout'
  cases hn with
  | output hn hout houtput =>
    rw [heq n hn _ hout out' hout']
    exact Or.inl houtput
  | sink hn hempty =>
    rw [hempty] at hout'
    cases hout'
  | @read _ m _ hn hout hm hin =>
    rw [heq n hn _ hout out' hout']
    exact Or.inr ⟨m, hm, hin⟩

def topkNode : IRNode := ⟨"aten::topk", ["x"], ["values", "indices"], "n0", false, false⟩

def reluNode : IRNode := ⟨"aten::relu", ["values"], ["y"], "n1", false, false⟩

/-- The indices are not used. -/
def topkGraph : IRGraph where
  name := "topk"
  nodes := [topkNode, reluNode]
  values := vectorValues ["x", "values", "indices", "y"]
  input_names := ["x"]
  output_names := ["y"]

theorem topkGraph_verified : topkGraph.Verified :=
  verified_of_vectors rfl (by decide) (by decide) (by decide) (by decide) (by decide)

/-- The operator is removed although its values are read. -/
theorem not_soundRemoval : ¬∀ g : IRGraph, g.Verified → g.SoundRemoval := by
  intro h
  obtain ⟨-, new_g, hnew, hreduces⟩ := h topkGraph topkGraph_verified
  have hinputs : (topkGraph.removeUnusedNodes.map verifyNodeInputs) = some false := by decide
  rw [hnew, Option.map_some, hreduces.node_inputs] at hinputs
  cases hinputs

/-- Both outputs of the operator are returned, and two operators after it lead nowhere. -/
def topkChain : IRGraph where
  name := "topk"
  nodes := [topkNode, ⟨"aten::exp", ["values"], ["e"], "n1", false, false⟩,
    ⟨"aten::log", ["e"], ["l"], "n2", false, false⟩]
  values := vectorValues ["x", "values", "indices", "e", "l"]
  input_names := ["x"]
  output_names := ["values", "indices"]

theorem topkChain_live {n : IRNode} (h : topkChain.Live n) : n = topkNode := by
  induction h with
  | output hn hout houtput =>
    have hwriter : ∀ n ∈ topkChain.nodes, ∀ out ∈ n.output_names,
        out ∈ topkChain.output_names → n = topkNode := by
      decide
    exact hwriter _ hn _ hout houtput
  | sink hn hempty =>
    have hwrites : ∀ n ∈ topkChain.nodes, n.output_names ≠ [] := by decide
    exact absurd hempty (hwrites _ hn)
  | read hn hout _ hin ih =>
    have hreader : ∀ n ∈ topkChain.nodes, ∀ out ∈ n.output_names,
        out ∉ topkNode.input_names := by
      decide
    exact absurd (ih ▸ hin) (hreader _ hn _ hout)

/-- The last operator is removed first, and the one before it then. -/
theorem soundRemoval_topk : topkChain.SoundRemoval ∧
    topkChain.detectUnusedNodes.map IRNode.id = ["n2"] ∧
    topkChain.removeUnusedNodes.map IRGraph.nodes = some [topkNode] := by
  have hg : topkChain.Verified :=
    verified_of_vectors rfl (by decide) (by decide) (by decide) (by decide) (by decide)
  refine ⟨(Verified.soundRemoval_iff hg).mpr fun n hn out hout => ?_, by decide, by decide⟩
  rw [topkChain_live hn] at hout
  exact Or.inl hout

end Rannc.IRGraph
