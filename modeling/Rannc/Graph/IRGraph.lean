import Rannc.Graph.IRType

/-!
# Graphs of operators

A graph names its values; a node reads some of them and writes others. A graph that is built reads
the values of its inputs, which have to be there. Nodes with an unused output are removed until
none is left.
-/
namespace Rannc

structure IRValue where
  name : String
  type : IRType
  is_param : Bool := false
  is_batch : Bool := false
  is_loss : Bool := false
  deriving Repr, Inhabited

def IRValue.getSizeInByte (value : IRValue) : Option ℕ := value.type.getSizeInByte

structure IRNode where
  name : String
  input_names : List String
  output_names : List String
  id : String
  is_criterion : Bool := false
  is_batch : Bool := false
  deriving DecidableEq, Repr, Inhabited

structure IRGraph where
  name : String
  nodes : List IRNode
  values : List (String × IRValue)
  input_names : List String
  output_names : List String
  is_replicable : Bool := false
  deriving Repr

theorem toDigits_inj {i j : ℕ} (h : Nat.toDigits 10 i = Nat.toDigits 10 j) : i = j := by
  have hnum := congrArg (fun l => Nat.ofDigitChars 10 l 0) h
  simpa using hnum

theorem append_repr_inj {name : String} {i j : ℕ} :
    name ++ Nat.repr i = name ++ Nat.repr j ↔ i = j := by
  constructor
  · intro h
    have hrepr : Nat.repr i = Nat.repr j := (String.append_right_inj _).mp h
    exact toDigits_inj (String.ofList_injective hrepr)
  · intro h
    rw [h]

/-- What profiling finds out about a graph. -/
structure GraphProfile where
  fwd_time : ℤ
  bwd_time : ℤ
  max_allocated_mem : ℤ
  deriving DecidableEq, Repr

namespace IRGraph

variable (g : IRGraph)

def getValue (name : String) : Option IRValue := g.values.lookup name

def hasValue (name : String) : Bool := (g.getValue name).isSome

/-- Inputs are read up to the first that is a batch. -/
def checkReplicable : List String → Option Bool
  | [] => some false
  | in_name :: input_names => do
    let in_v ← g.getValue in_name
    if in_v.is_batch then return true else checkReplicable input_names

/-- The constructor of a graph. -/
def create (name : String) (nodes : List IRNode) (values : List (String × IRValue))
    (input_names output_names : List String) : Option IRGraph := do
  let g : IRGraph := ⟨name, nodes, values, input_names, output_names, false⟩
  let is_replicable ← g.checkReplicable input_names
  return { g with is_replicable := is_replicable }

/-- A copy under another name. -/
def rename (name : String) : IRGraph := { g with name := name }

def getNonParamInputNames : Option (List String) :=
  g.input_names.filterM fun name => (g.getValue name).map fun value => !value.is_param

def getParamInputNames : Option (List String) :=
  g.input_names.filterM fun name => (g.getValue name).map fun value => value.is_param

/-- Graph outputs and node inputs are required. -/
def getRequiredValues : List String := g.output_names ++ g.nodes.flatMap IRNode.input_names

/-- The nodes with an output that nothing reads. -/
def detectUnusedNodes : List IRNode :=
  g.nodes.filter fun n => ∃ out ∈ n.output_names, out ∉ g.getRequiredValues

/-- One pass over the nodes, which goes on to the next while there are unused ones. -/
def removeUnusedLoop : ℕ → IRGraph → Option IRGraph
  | 0, new_g => some new_g
  | fuel + 1, new_g =>
    if new_g.detectUnusedNodes = [] then some new_g
    else do
      let unused_ids := new_g.detectUnusedNodes.map IRNode.id
      let new_nodes := new_g.nodes.filter fun n => n.id ∉ unused_ids
      let new_g ← create g.name new_nodes g.values g.input_names g.output_names
      removeUnusedLoop fuel new_g

def removeUnusedNodes : Option IRGraph := do
  let new_g ← g.removeUnusedLoop g.nodes.length g
  let required_vals := new_g.getRequiredValues
  let new_vals := new_g.values.filter fun it => it.1 ∈ required_vals
  let new_inputs := new_g.input_names.filter fun in_name => in_name ∈ required_vals
  let new_outputs := new_g.output_names.filter fun out_name => out_name ∈ required_vals
  create g.name new_g.nodes new_vals new_inputs new_outputs

variable {g}

theorem create_eq {name : String} {nodes : List IRNode} {values : List (String × IRValue)}
    {input_names output_names : List String}
    (h : create name nodes values input_names output_names = some g) :
    ∃ is_replicable, g = ⟨name, nodes, values, input_names, output_names, is_replicable⟩ := by
  simp only [create, Option.bind_eq_bind, Option.bind_eq_some_iff, Option.pure_def,
    Option.some.injEq] at h
  obtain ⟨is_replicable, -, rfl⟩ := h
  exact ⟨is_replicable, rfl⟩

theorem length_filter_lt {new_g : IRGraph} (h : new_g.detectUnusedNodes ≠ []) :
    (new_g.nodes.filter fun n => n.id ∉ new_g.detectUnusedNodes.map IRNode.id).length <
      new_g.nodes.length := by
  obtain ⟨n, hn⟩ := List.exists_mem_of_ne_nil _ h
  rw [List.length_filter_lt_length_iff_exists]
  exact ⟨n, List.mem_of_mem_filter hn, by simpa using ⟨n, hn, rfl⟩⟩

theorem removeUnusedLoop_unused {fuel : ℕ} {new_g res : IRGraph}
    (hfuel : new_g.nodes.length ≤ fuel) (h : g.removeUnusedLoop fuel new_g = some res) :
    res.detectUnusedNodes = [] := by
  induction fuel generalizing new_g with
  | zero =>
    rw [removeUnusedLoop, Option.some.injEq] at h
    subst h
    have hnil : new_g.nodes = [] := List.length_eq_zero_iff.mp (Nat.le_zero.mp hfuel)
    rw [detectUnusedNodes, hnil, List.filter_nil]
  | succ fuel ih =>
    rw [removeUnusedLoop] at h
    split_ifs at h with hunused
    · rwa [← Option.some.inj h]
    · obtain ⟨new_g', hcreate, hloop⟩ := Option.bind_eq_some_iff.mp h
      obtain ⟨is_replicable, rfl⟩ := create_eq hcreate
      have hlt := length_filter_lt hunused
      exact ih (by simp only; omega) hloop

theorem removeUnusedNodes_name {new_g : IRGraph} (h : g.removeUnusedNodes = some new_g) :
    new_g.name = g.name := by
  obtain ⟨_, _, hcreate⟩ := Option.bind_eq_some_iff.mp h
  obtain ⟨is_replicable, rfl⟩ := create_eq hcreate
  rfl

theorem removeUnusedLoop_ends {fuel : ℕ} {new_g res : IRGraph}
    (hinputs : new_g.input_names = g.input_names) (houtputs : new_g.output_names = g.output_names)
    (h : g.removeUnusedLoop fuel new_g = some res) :
    res.input_names = g.input_names ∧ res.output_names = g.output_names := by
  induction fuel generalizing new_g with
  | zero =>
    obtain rfl := Option.some.inj h
    exact ⟨hinputs, houtputs⟩
  | succ fuel ih =>
    rw [removeUnusedLoop] at h
    split_ifs at h
    · obtain rfl := Option.some.inj h
      exact ⟨hinputs, houtputs⟩
    · obtain ⟨new_g', hcreate, hloop⟩ := Option.bind_eq_some_iff.mp h
      obtain ⟨is_replicable, rfl⟩ := create_eq hcreate
      apply ih ?_ ?_ hloop <;> rfl

theorem removeUnusedNodes_output_names {new_g : IRGraph} (h : g.removeUnusedNodes = some new_g) :
    new_g.output_names = g.output_names := by
  obtain ⟨res, hloop, hcreate⟩ := Option.bind_eq_some_iff.mp h
  obtain ⟨is_replicable, rfl⟩ := create_eq hcreate
  rw [← (removeUnusedLoop_ends rfl rfl hloop).2]
  apply List.filter_eq_self.mpr
  intro out hout
  exact decide_eq_true (List.mem_append_left _ hout)

theorem removeUnusedNodes_input_names {new_g : IRGraph} (h : g.removeUnusedNodes = some new_g) :
    new_g.input_names ⊆ g.input_names := by
  obtain ⟨res, hloop, hcreate⟩ := Option.bind_eq_some_iff.mp h
  obtain ⟨is_replicable, rfl⟩ := create_eq hcreate
  rw [← (removeUnusedLoop_ends rfl rfl hloop).1]
  exact List.filter_subset_self _

end IRGraph

end Rannc
