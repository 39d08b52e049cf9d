import Rannc.Lib.Dataflow
import Rannc.Lib.Dict
import Rannc.Graph.BGraph

/-!
# The meaning of a graph

A graph is a dataflow program: its inputs are bound at the start and each node binds its outputs.
A graph that binds a name twice has no meaning.
-/
namespace Rannc

open Dataflow

variable {V : Type}

/-- What a node does depends on its name and on what it reads. -/
def IRNode.instr (n : IRNode) : Instr String String := ⟨n.name, n.input_names, n.output_names⟩

namespace IRGraph

variable (g : IRGraph)

def instrs : List (Instr String String) := g.nodes.map IRNode.instr

def verifyNoDuplicatedOutputs : Bool := decide g.definedNames.Nodup

def verifyNodeInputs : Bool := readsBefore g.input_names g.nodes

/-- The checks of the code on a graph that was built, and that its values are known by their names
and its nodes by their ids. -/
structure Verified : Prop where
  node_inputs : g.verifyNodeInputs = true
  no_duplicated : g.verifyNoDuplicatedOutputs = true
  outputs : g.output_names ⊆ g.definedNames
  values : ∀ name ∈ g.definedNames, ∃ value, g.getValue name = some value ∧ value.name = name
  ids : (g.nodes.map IRNode.id).Nodup

def inputEnv (vals : String → V) : Env String V :=
  fun name => if name ∈ g.input_names then some (vals name) else none

/-- All values of a graph, from values for its inputs. -/
def evalValues (I : Interp String V) (vals : String → V) : Option (Env String V) := do
  guard (g.verifyNoDuplicatedOutputs = true)
  run I (g.inputEnv vals) g.instrs

def eval (I : Interp String V) (vals : String → V) : Option (List V) := do
  let env ← g.evalValues I vals
  g.output_names.mapM env

variable {g}

theorem writes_instrs (nodes : List IRNode) :
    writes (nodes.map IRNode.instr) = nodes.flatMap IRNode.output_names := by
  unfold writes
  rw [List.flatMap_map]
  rfl

theorem readsBefore_iff {val_names : List String} {nodes : List IRNode} :
    readsBefore val_names nodes = true ↔ ReadsBound val_names (nodes.map IRNode.instr) := by
  induction nodes generalizing val_names with
  | nil => simp [readsBefore, ReadsBound]
  | cons n nodes ih =>
    unfold readsBefore
    rw [Bool.and_eq_true, List.all_eq_true, ih]
    simp [ReadsBound, IRNode.instr]

theorem verifyNodeInputs_iff : g.verifyNodeInputs = true ↔ ReadsBound g.input_names g.instrs :=
  readsBefore_iff

theorem verifyNoDuplicatedOutputs_iff :
    g.verifyNoDuplicatedOutputs = true ↔ (g.input_names ++ writes g.instrs).Nodup := by
  unfold verifyNoDuplicatedOutputs definedNames instrs
  rw [writes_instrs, decide_eq_true_iff]

/-- A graph can be built when its inputs have values. -/
theorem exists_create (name : String) (nodes : List IRNode) {values : List (String × IRValue)}
    {input_names : List String} (output_names : List String)
    (h : ∀ in_name ∈ input_names, (values.lookup in_name).isSome) :
    ∃ is_replicable, create name nodes values input_names output_names =
      some ⟨name, nodes, values, input_names, output_names, is_replicable⟩ := by
  have hcheck : ∀ (g : IRGraph) (names : List String),
      (∀ in_name ∈ names, (g.values.lookup in_name).isSome) →
      ∃ is_replicable, g.checkReplicable names = some is_replicable := by
    intro g names
    induction names with
    | nil => exact fun _ => ⟨false, rfl⟩
    | cons in_name names ih =>
      intro h
      obtain ⟨in_v, hin_v⟩ := Option.isSome_iff_exists.mp (h in_name List.mem_cons_self)
      obtain ⟨is_replicable, hrest⟩ := ih fun name hname => h name (List.mem_cons_of_mem _ hname)
      have hget : g.getValue in_name = some in_v := hin_v
      unfold checkReplicable
      rw [hget]
      by_cases hbatch : in_v.is_batch
      · exact ⟨true, if_pos hbatch⟩
      · exact ⟨is_replicable, (if_neg hbatch).trans hrest⟩
  obtain ⟨is_replicable, hcheck⟩ := hcheck ⟨name, nodes, values, input_names, output_names, false⟩
    input_names h
  refine ⟨is_replicable, ?_⟩
  unfold create
  dsimp only
  rw [hcheck]
  rfl

theorem lookup_filter {α : Type} {p : String → Bool} {name : String} (hname : p name)
    (l : List (String × α)) : (l.filter fun it => p it.1).lookup name = l.lookup name :=
  (Dict.lookup_filter_key p l).trans (if_pos hname)

theorem mem_definedNames {name : String} :
    name ∈ g.definedNames ↔ name ∈ g.input_names ∨ ∃ n ∈ g.nodes, name ∈ n.output_names := by
  unfold definedNames
  rw [List.mem_append, List.mem_flatMap]

/-- What a node reads is bound. -/
theorem read_mem_definedNames (hinputs : g.verifyNodeInputs = true) {n : IRNode}
    (hn : n ∈ g.nodes) {name : String} (hin : name ∈ n.input_names) : name ∈ g.definedNames := by
  obtain ⟨before, after, hnodes⟩ := List.append_of_mem hn
  have hreads := verifyNodeInputs_iff.mp hinputs
  unfold instrs at hreads
  rw [hnodes, List.map_append, List.map_cons] at hreads
  rw [mem_definedNames]
  cases hreads.mem (i := n.instr) hin with
  | inl hinput => exact Or.inl hinput
  | inr hwritten =>
    rw [writes_instrs] at hwritten
    obtain ⟨m, hm, hout⟩ := List.mem_flatMap.mp hwritten
    exact Or.inr ⟨m, hnodes ▸ List.mem_append_left _ hm, hout⟩

section Verified

variable (hg : g.Verified)
include hg

theorem Verified.nodup : g.definedNames.Nodup := of_decide_eq_true hg.no_duplicated

theorem Verified.input_not_written {n : IRNode} (hn : n ∈ g.nodes) {name : String}
    (hinput : name ∈ g.input_names) : name ∉ n.output_names := by
  intro hout
  exact List.disjoint_of_nodup_append hg.nodup hinput (List.mem_flatMap.mpr ⟨n, hn, hout⟩)

theorem Verified.producer_unique {n m : IRNode} (hn : n ∈ g.nodes) (hm : m ∈ g.nodes)
    {name : String} (hout : name ∈ n.output_names) (hout' : name ∈ m.output_names) : n = m := by
  have hnodup := (List.nodup_append.mp hg.nodup).2.1
  by_contra hne
  have : Std.Symm (Function.onFun List.Disjoint IRNode.output_names) := ⟨fun _ _ h => h.symm⟩
  have hdisjoint := (List.nodup_flatMap.mp hnodup).2.forall hn hm hne
  exact hdisjoint hout hout'

theorem Verified.eq_of_id {n m : IRNode} (hn : n ∈ g.nodes) (hm : m ∈ g.nodes)
    (hid : n.id = m.id) : n = m :=
  List.inj_on_of_nodup_map hg.ids hn hm hid

theorem Verified.idxOf_lt {n m : IRNode} (hn : n ∈ g.nodes) (hm : m ∈ g.nodes)
    {name : String} (hout : name ∈ n.output_names) (hin : name ∈ m.input_names) :
    g.nodes.idxOf n < g.nodes.idxOf m := by
  obtain ⟨before, after, hnodes, hfirst⟩ := List.eq_append_cons_of_mem hm
  have hreads := verifyNodeInputs_iff.mp hg.node_inputs
  unfold instrs at hreads
  rw [hnodes, List.map_append, List.map_cons] at hreads
  have hproducer : n ∈ before := by
    cases hreads.mem (i := m.instr) hin with
    | inl hinput => exact absurd hout (hg.input_not_written hn hinput)
    | inr hwritten =>
      rw [writes_instrs] at hwritten
      obtain ⟨n', hn', hout'⟩ := List.mem_flatMap.mp hwritten
      have hmem : n' ∈ g.nodes := hnodes ▸ List.mem_append_left _ hn'
      rwa [hg.producer_unique hn hmem hout hout']
  rw [hnodes, List.idxOf_append_of_mem hproducer, List.idxOf_append_of_notMem hfirst,
    List.idxOf_cons_self]
  exact Nat.lt_of_lt_of_le (List.idxOf_lt_length_of_mem hproducer) (Nat.le_add_right _ _)

theorem Verified.read_bound {n : IRNode} (hn : n ∈ g.nodes) {name : String}
    (hin : name ∈ n.input_names) : name ∈ g.definedNames :=
  read_mem_definedNames hg.node_inputs hn hin

theorem Verified.input_value {name : String} (hname : name ∈ g.definedNames) :
    (g.values.lookup name).isSome := by
  obtain ⟨value, hvalue, -⟩ := hg.values name hname
  exact Option.isSome_of_eq_some hvalue

end Verified

theorem isSome_inputEnv {vals : String → V} {name : String} :
    (g.inputEnv vals name).isSome ↔ name ∈ g.input_names := by
  unfold inputEnv
  split_ifs with h
  · simp [h]
  · simp [h]

/-- A graph evaluates to a valuation under which all its nodes hold. -/
theorem evalValues_eq (hinputs : g.verifyNodeInputs = true)
    (hnodup : g.verifyNoDuplicatedOutputs = true) (I : Interp String V) (vals : String → V)
    {ρ : Env String V} (hρ : ∀ name ∈ g.input_names, ρ name = some (vals name))
    (hholds : ∀ n ∈ g.nodes, Holds I ρ n.instr) :
    ∃ env, g.evalValues I vals = some env ∧ ∀ name ∈ g.definedNames, env name = ρ name := by
  have hstart : ∀ name, (g.inputEnv vals name).isSome → g.inputEnv vals name = ρ name := by
    intro name hname
    have hmem := isSome_inputEnv.mp hname
    rw [hρ name hmem]
    exact if_pos hmem
  obtain ⟨env, hrun, henv⟩ := (verifyNodeInputs_iff.mp hinputs).run_eq (I := I)
    (fun name hname => isSome_inputEnv.mpr hname) hstart
    (by
      intro i hi
      obtain ⟨n, hn, rfl⟩ := List.mem_map.mp hi
      exact hholds n hn)
  refine ⟨env, ?_, ?_⟩
  · unfold evalValues
    rw [hnodup]
    exact hrun
  · intro name hname
    unfold definedNames at hname
    rw [List.mem_append, ← writes_instrs] at hname
    exact henv name hname

theorem Verified.exists_evalValues (h : g.Verified) (I : Interp String V) (vals : String → V) :
    ∃ env, g.evalValues I vals = some env := by
  have hstart : ∀ name ∈ g.input_names, (g.inputEnv vals name).isSome :=
    fun name hname => isSome_inputEnv.mpr hname
  obtain ⟨env, hrun⟩ := (verifyNodeInputs_iff.mp h.node_inputs).exists_run (I := I) hstart
  refine ⟨env, ?_⟩
  unfold evalValues
  rw [h.no_duplicated]
  exact hrun

section Values

variable {I : Interp String V} {vals : String → V} {env : Env String V}

theorem evalValues_run (h : g.evalValues I vals = some env) :
    g.verifyNoDuplicatedOutputs = true ∧ run I (g.inputEnv vals) g.instrs = some env :=
  of_guard_bind h

theorem evalValues_holds (h : g.evalValues I vals = some env) :
    ∀ n ∈ g.nodes, Holds I env n.instr := by
  obtain ⟨hnodup, hrun⟩ := evalValues_run h
  intro n hn
  exact holds_of_run hrun (fun name hname => isSome_inputEnv.mp hname)
    (verifyNoDuplicatedOutputs_iff.mp hnodup) _ (List.mem_map_of_mem hn)

theorem evalValues_input (h : g.evalValues I vals = some env) {name : String}
    (hname : name ∈ g.input_names) : env name = some (vals name) := by
  obtain ⟨hnodup, hrun⟩ := evalValues_run h
  have hnot : name ∉ writes g.instrs :=
    List.disjoint_of_nodup_append (verifyNoDuplicatedOutputs_iff.mp hnodup) hname
  rw [run_of_not_mem hrun hnot]
  exact if_pos hname

theorem evalValues_isSome_iff (h : g.evalValues I vals = some env) (name : String) :
    (env name).isSome ↔ name ∈ g.definedNames := by
  rw [run_isSome_iff (evalValues_run h).2, isSome_inputEnv]
  unfold definedNames instrs
  rw [writes_instrs, List.mem_append]

end Values

/-- Outputs with the same values. -/
theorem eval_congr {g g' : IRGraph} {I : Interp String V} {vals vals' : String → V}
    {env env' : Env String V} (h : g.evalValues I vals = some env)
    (h' : g'.evalValues I vals' = some env')
    (houtputs : g'.output_names.map env' = g.output_names.map env) :
    g'.eval I vals' = g.eval I vals := by
  have hmapM : ∀ (names : List String) (env : Env String V),
      names.mapM env = (names.map env).mapM id := by
    intro names env
    rw [List.mapM_map]
    rfl
  unfold eval
  rw [h, h']
  change g'.output_names.mapM env' = g.output_names.mapM env
  rw [hmapM, hmapM, houtputs]

def vectorValue (name : String) : IRValue := { name := name, type := .tensor .FLOAT [4] true }

def vectorValues (names : List String) : List (String × IRValue) :=
  names.map fun name => (name, vectorValue name)

theorem lookup_vectorValues {names : List String} {name : String} (h : name ∈ names) :
    (vectorValues names).lookup name = some (vectorValue name) := by
  induction names with
  | nil => cases h
  | cons head names ih =>
    unfold vectorValues
    rw [List.map_cons, List.lookup_cons]
    by_cases heq : name = head
    · subst heq
      rw [beq_self_eq_true]
    · rw [beq_eq_false_iff_ne.mpr heq]
      exact ih ((List.mem_cons.mp h).resolve_left heq)

theorem verified_of_vectors {g : IRGraph} {names : List String}
    (hvalues : g.values = vectorValues names) (hinputs : g.verifyNodeInputs = true)
    (hnodup : g.verifyNoDuplicatedOutputs = true)
    (houtputs : g.output_names ⊆ g.definedNames) (hnames : g.definedNames ⊆ names)
    (hids : (g.nodes.map IRNode.id).Nodup) : g.Verified where
  node_inputs := hinputs
  no_duplicated := hnodup
  outputs := houtputs
  values := by
    intro name hname
    refine ⟨vectorValue name, ?_, rfl⟩
    unfold getValue
    rw [hvalues]
    exact lookup_vectorValues (hnames hname)
  ids := hids

end IRGraph

end Rannc
