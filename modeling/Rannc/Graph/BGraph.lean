import Rannc.Lib.TopologicalSort
import Rannc.Graph.IRGraph

/-!
# Graphs of values and operators

A graph of operators as a graph whose vertices are the operators and the values, with edges from a
value to the operators that read it and from an operator to the values that it writes. Vertices are
numbered in the order in which they are added, so an edge leads to a higher number.
-/
namespace Rannc

inductive VertexType
  | VALUE
  | NODE
  deriving DecidableEq, Repr, Inhabited

structure VertexInfo where
  name : String
  value : IRValue := default
  node : IRNode := default
  type : VertexType
  is_param : Bool := false
  is_criterion : Bool := false
  is_loss : Bool := false
  is_input : Bool := false
  is_orig_input : Bool := false
  is_output : Bool := false
  is_orig_output : Bool := false
  id : String
  ranks : Finset ℕ := ∅
  deriving Inhabited

namespace VertexInfo

def ofValue (value : IRValue) : VertexInfo where
  name := value.name
  value := value
  type := .VALUE
  is_param := value.is_param
  id := "v_" ++ value.name
  is_loss := value.is_loss

def ofNode (node : IRNode) : VertexInfo where
  name := node.name
  node := node
  type := .NODE
  id := node.id
  is_criterion := node.is_criterion

/-- Whether the operator or the value is a batch. -/
def isBatch (vi : VertexInfo) : Bool :=
  match vi.type with
  | .VALUE => vi.value.is_batch
  | .NODE => vi.node.is_batch

end VertexInfo

structure BGraph where
  id : String := ""
  vertices : List VertexInfo := []
  edges : List (ℕ × ℕ) := []
  deriving Inhabited

namespace BGraph

variable (g : BGraph)

def info (v : ℕ) : VertexInfo := g.vertices.getD v default

def all_nodes : List ℕ := List.range g.vertices.length

def target_nodes (v : ℕ) : List ℕ := (g.edges.filter fun e => e.1 = v).map Prod.snd

def source_nodes (v : ℕ) : List ℕ := (g.edges.filter fun e => e.2 = v).map Prod.fst

def add_vertex (vi : VertexInfo) : BGraph := { g with vertices := g.vertices ++ [vi] }

def add_edge (v w : ℕ) : BGraph := { g with edges := g.edges ++ [(v, w)] }

def ranks (v : ℕ) : Finset ℕ := (g.info v).ranks

def set_ranks (v : ℕ) (ranks : Finset ℕ) : BGraph :=
  { g with vertices := g.vertices.modify v fun vi => { vi with ranks := ranks } }

/-- The values without a producer that are not parameters. -/
def graph_regular_input_nodes : List ℕ :=
  g.all_nodes.filter fun v =>
    g.source_nodes v = [] ∧ (g.info v).type = .VALUE ∧ !(g.info v).is_param

variable {g}

theorem info_of_ge {v : ℕ} (hv : g.vertices.length ≤ v) : g.info v = default := by
  simp [info, List.getElem?_eq_none hv]

@[simp] theorem mem_target_nodes {v w : ℕ} : w ∈ g.target_nodes v ↔ (v, w) ∈ g.edges := by
  simp [target_nodes]

@[simp] theorem mem_source_nodes {v w : ℕ} : v ∈ g.source_nodes w ↔ (v, w) ∈ g.edges := by
  simp [source_nodes]

@[simp] theorem edges_add_vertex (vi : VertexInfo) : (g.add_vertex vi).edges = g.edges := rfl

@[simp] theorem vertices_add_edge (v w : ℕ) : (g.add_edge v w).vertices = g.vertices := rfl

@[simp] theorem info_add_edge (v w x : ℕ) : (g.add_edge v w).info x = g.info x := rfl

@[simp] theorem mem_edges_add_edge {v w : ℕ} {e : ℕ × ℕ} :
    e ∈ (g.add_edge v w).edges ↔ e ∈ g.edges ∨ e = (v, w) := by
  simp [add_edge]

@[simp] theorem length_add_vertex (vi : VertexInfo) :
    (g.add_vertex vi).vertices.length = g.vertices.length + 1 := by
  simp [add_vertex]

theorem info_add_vertex_of_lt {v : ℕ} (hv : v < g.vertices.length) (vi : VertexInfo) :
    (g.add_vertex vi).info v = g.info v := by
  simp [info, add_vertex, List.getElem?_append_left hv]

@[simp] theorem info_add_vertex_self (vi : VertexInfo) :
    (g.add_vertex vi).info g.vertices.length = vi := by
  simp [info, add_vertex]

@[simp] theorem edges_set_ranks (v : ℕ) (s : Finset ℕ) : (g.set_ranks v s).edges = g.edges := rfl

@[simp] theorem length_set_ranks (v : ℕ) (s : Finset ℕ) :
    (g.set_ranks v s).vertices.length = g.vertices.length := by
  simp [set_ranks]

theorem info_set_ranks {v : ℕ} (hv : v < g.vertices.length) (s : Finset ℕ) (w : ℕ) :
    (g.set_ranks v s).info w = if w = v then { g.info v with ranks := s } else g.info w := by
  by_cases hw : w = v
  · subst hw
    simp [info, set_ranks, hv]
  · have hvw : v ≠ w := Ne.symm hw
    simp [info, set_ranks, hw, hvw]

end BGraph

/-- The graph so far and the vertices of the values. -/
structure BGraphBuilder where
  graph : BGraph
  values : List (String × ℕ)

section Conversion

variable (ir_graph : IRGraph)

def addInput (st : BGraphBuilder) (input_name : String) : Option BGraphBuilder := do
  let value ← ir_graph.getValue input_name
  let v := st.graph.vertices.length
  let vi := { VertexInfo.ofValue value with is_input := true, is_orig_input := true }
  return ⟨st.graph.add_vertex vi, (input_name, v) :: st.values⟩

/-- An edge from the vertex of the value, which is the first one if the value is not known. -/
def addNodeInput (v : ℕ) (st : BGraphBuilder) (input_name : String) : BGraphBuilder :=
  { st with graph := st.graph.add_edge ((st.values.lookup input_name).getD 0) v }

def addNodeOutput (v : ℕ) (st : BGraphBuilder) (output_name : String) : Option BGraphBuilder := do
  let value ← ir_graph.getValue output_name
  let out_v := st.graph.vertices.length
  let is_output : Bool := output_name ∈ ir_graph.output_names
  let vi := { VertexInfo.ofValue value with is_output := is_output, is_orig_output := is_output }
  return ⟨(st.graph.add_vertex vi).add_edge v out_v, (output_name, out_v) :: st.values⟩

def addNode (st : BGraphBuilder) (in_node : IRNode) : Option BGraphBuilder :=
  let v := st.graph.vertices.length
  let st := { st with graph := st.graph.add_vertex (.ofNode in_node) }
  let st := in_node.input_names.foldl (addNodeInput v) st
  in_node.output_names.foldlM (addNodeOutput ir_graph v) st

/-- The nodes are assumed to be topologically sorted. -/
def IRGraph.toBGL : Option BGraph := do
  let st ← ir_graph.input_names.foldlM (addInput ir_graph) ⟨{ id := ir_graph.name }, []⟩
  let st ← ir_graph.nodes.foldlM (addNode ir_graph) st
  return st.graph

end Conversion

namespace IRGraph

/-- The values a graph defines: its inputs and the outputs of its nodes. -/
def definedNames (g : IRGraph) : List String := g.input_names ++ g.nodes.flatMap IRNode.output_names

/-- Every value has one definition, before the nodes that read it, and its own record. -/
structure WellFormed (g : IRGraph) : Prop where
  values : ∀ name ∈ g.definedNames, ∃ value, g.getValue name = some value ∧ value.name = name
  defined_nodup : g.definedNames.Nodup
  sorted : ∀ before n after, g.nodes = before ++ n :: after →
    ∀ name ∈ n.input_names, name ∈ g.input_names ++ before.flatMap IRNode.output_names
  ids_nodup : (g.definedNames.map ("v_" ++ ·) ++ g.nodes.map IRNode.id).Nodup

/-- Whether the nodes read what is available or was written by a node before. -/
def readsBefore : List String → List IRNode → Bool
  | _, [] => true
  | avail, n :: nodes =>
    n.input_names.all (· ∈ avail) && readsBefore (avail ++ n.output_names) nodes

theorem sorted_of_readsBefore {avail : List String} {nodes : List IRNode}
    (h : readsBefore avail nodes = true) : ∀ before n after, nodes = before ++ n :: after →
      ∀ name ∈ n.input_names, name ∈ avail ++ before.flatMap IRNode.output_names := by
  induction nodes generalizing avail with
  | nil => simp
  | cons node nodes ih =>
    simp only [readsBefore, Bool.and_eq_true, List.all_eq_true, decide_eq_true_eq] at h
    intro before n after heq name hname
    cases before with
    | nil =>
      obtain ⟨rfl, -⟩ := List.cons.inj heq
      simpa using h.1 name hname
    | cons b before =>
      obtain ⟨rfl, hrest⟩ := List.cons.inj heq
      simpa using ih h.2 before n after hrest name hname

/-- The marks of the inference: a node is a batch if its outputs are, an input is a parameter or
else a batch. -/
structure Typed (g : IRGraph) : Prop where
  outputs : ∀ n ∈ g.nodes, ∀ name ∈ n.output_names, ∀ value, g.getValue name = some value →
    value.is_batch = n.is_batch ∧ value.is_param = false
  inputs : ∀ name ∈ g.input_names, ∀ value, g.getValue name = some value →
    value.is_batch = !value.is_param

theorem WellFormed.of_checks {g : IRGraph}
    (hvalues : ∀ name ∈ g.definedNames, (g.getValue name).map IRValue.name = some name)
    (hdefined : g.definedNames.Nodup) (hreads : readsBefore g.input_names g.nodes = true)
    (hids : (g.definedNames.map ("v_" ++ ·) ++ g.nodes.map IRNode.id).Nodup) : g.WellFormed :=
  ⟨fun name hname => Option.map_eq_some_iff.mp (hvalues name hname), hdefined,
    sorted_of_readsBefore hreads, hids⟩

theorem Typed.of_checks {g : IRGraph}
    (houtputs : ∀ n ∈ g.nodes, ∀ name ∈ n.output_names, (g.getValue name).all
      fun value => value.is_batch = n.is_batch ∧ value.is_param = false)
    (hinputs : ∀ name ∈ g.input_names, (g.getValue name).all
      fun value => value.is_batch = !value.is_param) : g.Typed := by
  constructor
  · intro n hn name hname value hvalue
    simpa [hvalue] using houtputs n hn name hname
  · intro name hname value hvalue
    simpa [hvalue] using hinputs name hname

end IRGraph

/-- An edge of the graph goes from a value to a node that reads it, or from a node to a value that
it writes. -/
inductive EdgeOk (x y : VertexInfo) : Prop
  | read (hx : x.type = .VALUE) (hy : y.type = .NODE) (hread : x.name ∈ y.node.input_names)
  | write (hx : x.type = .NODE) (hy : y.type = .VALUE) (hwrite : y.name ∈ x.node.output_names)
    (hbatch : y.isBatch = x.isBatch) (hparam : y.is_param = false)

/-- What holds while the graph is built: `pending` are the outputs that are still to be added. -/
structure BuildOk (avail : List String) (done : List IRNode) (pending : List (ℕ × String))
    (st : BGraphBuilder) : Prop where
  lookup : ∀ {name v}, st.values.lookup name = some v → v < st.graph.vertices.length ∧
    (st.graph.info v).type = .VALUE ∧ (st.graph.info v).name = name
  known : ∀ name ∈ avail, ∃ v, st.values.lookup name = some v
  edge : ∀ {v w}, (v, w) ∈ st.graph.edges → v < w ∧ w < st.graph.vertices.length ∧
    EdgeOk (st.graph.info v) (st.graph.info w)
  input : ∀ {w}, w < st.graph.vertices.length → (st.graph.info w).type = .NODE →
    ∀ name ∈ (st.graph.info w).node.input_names,
      ∃ v, (v, w) ∈ st.graph.edges ∧ (st.graph.info v).name = name
  output : ∀ {v}, v < st.graph.vertices.length → (st.graph.info v).type = .NODE →
    ∀ name ∈ (st.graph.info v).node.output_names, (v, name) ∈ pending ∨
      ∃ w, (v, w) ∈ st.graph.edges ∧ (st.graph.info w).name = name
  source : ∀ {w}, w < st.graph.vertices.length → (st.graph.info w).type = .VALUE →
    (∃ v, (v, w) ∈ st.graph.edges) ∨ (st.graph.info w).isBatch = !(st.graph.info w).is_param
  unique : ∀ {v v' w}, (v, w) ∈ st.graph.edges → (v', w) ∈ st.graph.edges →
    (st.graph.info w).type = .VALUE → v = v'
  ids : (st.graph.vertices.map VertexInfo.id).Perm (avail.map ("v_" ++ ·) ++ done.map IRNode.id)
  value_id : ∀ {v}, v < st.graph.vertices.length → (st.graph.info v).type = .VALUE →
    (st.graph.info v).id = "v_" ++ (st.graph.info v).name
  value_name : ∀ {v}, v < st.graph.vertices.length → (st.graph.info v).type = .VALUE →
    (st.graph.info v).name ∈ avail
  node_name : ∀ {v}, v < st.graph.vertices.length → (st.graph.info v).type = .NODE →
    ∃ n ∈ done, (st.graph.info v).name = n.name
  ranks : ∀ {v}, v < st.graph.vertices.length → st.graph.ranks v = ∅
  pending : ∀ q ∈ pending, q.1 < st.graph.vertices.length ∧ (st.graph.info q.1).type = .NODE

section Steps

variable {g : IRGraph} {avail : List String} {done : List IRNode} {st st' : BGraphBuilder}

theorem EdgeOk.type_ne {x y : VertexInfo} (h : EdgeOk x y) : x.type ≠ y.type := by
  cases h with
  | read hx hy _ => simp [hx, hy]
  | write hx hy _ _ _ => simp [hx, hy]

theorem BuildOk.edge_lt {pending : List (ℕ × String)} (h : BuildOk avail done pending st) {v w : ℕ}
    (hvw : (v, w) ∈ st.graph.edges) :
    v < st.graph.vertices.length ∧ w < st.graph.vertices.length := by
  obtain ⟨hlt, hw, -⟩ := h.edge hvw
  exact ⟨hlt.trans hw, hw⟩

theorem buildOk_nil (name : String) : BuildOk [] [] [] ⟨{ id := name }, []⟩ := by
  constructor <;> simp

section NewVertex

variable {graph g : BGraph} {vi : VertexInfo} (hvertices : graph.vertices = g.vertices ++ [vi])
include hvertices

theorem BGraph.info_old {v : ℕ} (hv : v < g.vertices.length) : graph.info v = g.info v := by
  rw [BGraph.info, hvertices]
  exact BGraph.info_add_vertex_of_lt hv vi

theorem BGraph.info_new : graph.info g.vertices.length = vi := by
  rw [BGraph.info, hvertices]
  exact BGraph.info_add_vertex_self vi

theorem BGraph.lt_or_eq_of_new {v : ℕ} (hv : v < graph.vertices.length) :
    v < g.vertices.length ∨ v = g.vertices.length := by
  rw [hvertices, List.length_append, List.length_singleton] at hv
  omega

theorem BGraph.forall_info (P : VertexInfo → Prop) (hold : ∀ v < g.vertices.length, P (g.info v))
    (hnew : P vi) {v : ℕ} (hv : v < graph.vertices.length) : P (graph.info v) := by
  rcases BGraph.lt_or_eq_of_new hvertices hv with hv | rfl
  · rw [BGraph.info_old hvertices hv]
    exact hold v hv
  · rw [BGraph.info_new hvertices]
    exact hnew

theorem BGraph.lookup_old {values : List (String × ℕ)}
    (hvalues : ∀ {name v}, values.lookup name = some v →
      v < g.vertices.length ∧ (g.info v).type = .VALUE ∧ (g.info v).name = name)
    {name : String} {v : ℕ} (hv : values.lookup name = some v) :
    v < graph.vertices.length ∧ (graph.info v).type = .VALUE ∧ (graph.info v).name = name := by
  obtain ⟨hlt, hinfo⟩ := hvalues hv
  rw [BGraph.info_old hvertices hlt, hvertices, List.length_append]
  exact ⟨Nat.lt_add_right _ hlt, hinfo⟩

theorem BGraph.lookup_new (htype : vi.type = .VALUE) {values : List (String × ℕ)}
    (hvalues : ∀ {name v}, values.lookup name = some v →
      v < g.vertices.length ∧ (g.info v).type = .VALUE ∧ (g.info v).name = name)
    {name : String} {v : ℕ}
    (hv : ((vi.name, g.vertices.length) :: values).lookup name = some v) :
    v < graph.vertices.length ∧ (graph.info v).type = .VALUE ∧ (graph.info v).name = name := by
  rw [List.lookup_cons] at hv
  by_cases hname : name = vi.name
  · obtain rfl : g.vertices.length = v := by simpa [hname] using hv
    rw [BGraph.info_new hvertices]
    exact ⟨by simp [hvertices], htype, hname.symm⟩
  · rw [beq_false_of_ne hname] at hv
    exact BGraph.lookup_old hvertices hvalues hv

section NewEdges

/-! New edges lead to the new vertex only. -/

variable {Q : ℕ → Prop}
  (hedges : ∀ {v w}, (v, w) ∈ graph.edges → (v, w) ∈ g.edges ∨ Q v ∧ w = g.vertices.length)
include hedges

theorem BGraph.edge_new {E : VertexInfo → VertexInfo → Prop}
    (hold : ∀ {v w}, (v, w) ∈ g.edges →
      v < w ∧ w < g.vertices.length ∧ E (g.info v) (g.info w))
    (hnew : ∀ {v}, Q v → v < g.vertices.length ∧ E (g.info v) vi) {v w : ℕ}
    (hvw : (v, w) ∈ graph.edges) :
    v < w ∧ w < graph.vertices.length ∧ E (graph.info v) (graph.info w) := by
  have hn : g.vertices.length < graph.vertices.length := by simp [hvertices]
  rcases hedges hvw with hvw | ⟨hv, rfl⟩
  · obtain ⟨hlt, hw, hE⟩ := hold hvw
    refine ⟨hlt, hw.trans hn, ?_⟩
    rwa [BGraph.info_old hvertices (hlt.trans hw), BGraph.info_old hvertices hw]
  · obtain ⟨hlt, hE⟩ := hnew hv
    refine ⟨hlt, hn, ?_⟩
    rwa [BGraph.info_old hvertices hlt, BGraph.info_new hvertices]

theorem BGraph.unique_new (hlt : ∀ {v w}, (v, w) ∈ g.edges → w < g.vertices.length)
    (hunique : ∀ {v v' w}, (v, w) ∈ g.edges → (v', w) ∈ g.edges →
      (g.info w).type = .VALUE → v = v')
    (hQ : vi.type = .VALUE → ∀ {v v'}, Q v → Q v' → v = v') {v v' w : ℕ}
    (hvw : (v, w) ∈ graph.edges) (hvw' : (v', w) ∈ graph.edges)
    (hvalue : (graph.info w).type = .VALUE) : v = v' := by
  rcases hedges hvw with hvw | ⟨hv, rfl⟩
  · rcases hedges hvw' with hvw' | ⟨-, rfl⟩
    · rw [BGraph.info_old hvertices (hlt hvw)] at hvalue
      exact hunique hvw hvw' hvalue
    · exact absurd (hlt hvw) (lt_irrefl _)
  · rcases hedges hvw' with hvw' | ⟨hv', -⟩
    · exact absurd (hlt hvw') (lt_irrefl _)
    · rw [BGraph.info_new hvertices] at hvalue
      exact hQ hvalue hv hv'

end NewEdges

end NewVertex

theorem exists_lookup_cons {avail : List String} {values : List (String × ℕ)}
    (hvalues : ∀ name ∈ avail, ∃ v, values.lookup name = some v) (new_name : String) (n : ℕ) :
    ∀ name ∈ avail ++ [new_name], ∃ v, ((new_name, n) :: values).lookup name = some v := by
  intro name hname
  rw [List.lookup_cons]
  by_cases heq : name = new_name
  · exact ⟨n, by simp [heq]⟩
  · rw [beq_false_of_ne heq]
    have hmem : name ∈ avail := by simpa [heq] using hname
    exact hvalues name hmem

/-- A new value, which may have a producer. -/
theorem BuildOk.addValue {pending pending' : List (ℕ × String)}
    (h : BuildOk avail done pending st) (vi : VertexInfo) (producer : Option ℕ) (graph : BGraph)
    (htype : vi.type = .VALUE) (hid : vi.id = "v_" ++ vi.name) (hranks : vi.ranks = ∅)
    (hvertices : graph.vertices = st.graph.vertices ++ [vi])
    (hedges : ∀ {v w}, (v, w) ∈ graph.edges ↔
      (v, w) ∈ st.graph.edges ∨ v ∈ producer ∧ w = st.graph.vertices.length)
    (hproducer : ∀ v ∈ producer, v < st.graph.vertices.length ∧ EdgeOk (st.graph.info v) vi)
    (hsource : producer = none → vi.isBatch = !vi.is_param)
    (hpending : ∀ q ∈ pending, q ∈ pending' ∨ q.1 ∈ producer ∧ q.2 = vi.name)
    (hpending' : ∀ q ∈ pending', q ∈ pending) :
    BuildOk (avail ++ [vi.name]) done pending'
      ⟨graph, (vi.name, st.graph.vertices.length) :: st.values⟩ := by
  set n := st.graph.vertices.length
  have hn : n < graph.vertices.length := by simp [hvertices, n]
  have hold := fun {v} => BGraph.info_old hvertices (v := v)
  have hnew := BGraph.info_new hvertices
  have hcases := fun {v} => BGraph.lt_or_eq_of_new hvertices (v := v)
  constructor
  case lookup => exact BGraph.lookup_new hvertices htype h.lookup
  case known => exact exists_lookup_cons h.known vi.name n
  case edge =>
    intro v w
    exact BGraph.edge_new hvertices hedges.mp h.edge fun {v} hv => hproducer v hv
  case input =>
    intro w hw hnode name hname
    rcases hcases hw with hw | rfl
    · rw [hold hw] at hnode hname
      obtain ⟨v, hvw, hv⟩ := h.input hw hnode name hname
      exact ⟨v, hedges.mpr (Or.inl hvw), by rwa [hold (h.edge_lt hvw).1]⟩
    · rw [hnew, htype] at hnode
      exact absurd hnode nofun
  case output =>
    intro v hv hnode name hname
    rcases hcases hv with hv | rfl
    · rw [hold hv] at hnode hname
      rcases h.output hv hnode name hname with hmem | ⟨w, hvw, hw⟩
      · rcases hpending _ hmem with hmem | ⟨hmem, heq⟩
        · exact Or.inl hmem
        · exact Or.inr ⟨n, hedges.mpr (Or.inr ⟨hmem, rfl⟩), by rw [hnew]; exact heq.symm⟩
      · exact Or.inr ⟨w, hedges.mpr (Or.inl hvw), by rwa [hold (h.edge_lt hvw).2]⟩
    · rw [hnew, htype] at hnode
      exact absurd hnode nofun
  case source =>
    intro w hw hvalue
    rcases hcases hw with hw | rfl
    · rw [hold hw] at hvalue ⊢
      exact (h.source hw hvalue).imp_left fun ⟨v, hvw⟩ => ⟨v, hedges.mpr (Or.inl hvw)⟩
    · rw [hnew]
      cases hp : producer with
      | none => exact Or.inr (hsource hp)
      | some v => exact Or.inl ⟨v, hedges.mpr (Or.inr ⟨hp, rfl⟩)⟩
  case unique =>
    intro v v' w
    exact BGraph.unique_new hvertices hedges.mp (fun hvw => (h.edge_lt hvw).2) h.unique
      fun _ {_ _} => Option.mem_unique
  case ids =>
    rw [hvertices, List.map_append, List.map_append, List.append_assoc]
    have hperm := h.ids.append_right [vi.id]
    rw [List.append_assoc] at hperm
    refine hperm.trans (List.Perm.append_left _ ?_)
    rw [hid]
    exact List.perm_append_comm
  case value_id =>
    exact BGraph.forall_info hvertices (fun x => x.type = .VALUE → x.id = "v_" ++ x.name)
      (fun _ => h.value_id) fun _ => hid
  case value_name =>
    exact BGraph.forall_info hvertices (fun x => x.type = .VALUE → x.name ∈ avail ++ [vi.name])
      (fun _ hv hvalue => List.mem_append_left _ (h.value_name hv hvalue))
      fun _ => List.mem_append_right _ List.mem_cons_self
  case node_name =>
    exact BGraph.forall_info hvertices (fun x => x.type = .NODE → ∃ n ∈ done, x.name = n.name)
      (fun _ => h.node_name) fun hnode => absurd (htype.symm.trans hnode) nofun
  case ranks => exact BGraph.forall_info hvertices (·.ranks = ∅) (fun _ => h.ranks) hranks
  case pending =>
    intro q hq
    obtain ⟨hlt, hnode⟩ := h.pending q (hpending' q hq)
    exact ⟨hlt.trans hn, by rwa [hold hlt]⟩

theorem addInput_ok {name : String} {value : IRValue} (h : BuildOk avail [] [] st)
    (hvalue : g.getValue name = some value) (hname : value.name = name)
    (htyped : value.is_batch = !value.is_param) (hstep : addInput g st name = some st') :
    BuildOk (avail ++ [name]) [] [] st' := by
  rw [addInput, hvalue] at hstep
  obtain rfl := Option.some.inj hstep
  subst hname
  refine h.addValue { VertexInfo.ofValue value with is_input := true, is_orig_input := true } none
    (st.graph.add_vertex _) rfl rfl rfl rfl ?_ ?_ ?_ ?_ ?_
  · simp
  · simp
  · exact fun _ => htyped
  · simp
  · simp

theorem addNodeOutput_ok {pending : List (ℕ × String)} {v : ℕ} {name : String} {value : IRValue}
    (h : BuildOk avail done ((v, name) :: pending) st) (hvalue : g.getValue name = some value)
    (hname : value.name = name) (hwrite : name ∈ (st.graph.info v).node.output_names)
    (htyped : value.is_batch = (st.graph.info v).node.is_batch ∧ value.is_param = false)
    (hstep : addNodeOutput g v st name = some st') :
    BuildOk (avail ++ [name]) done pending st' := by
  rw [addNodeOutput, hvalue] at hstep
  obtain rfl := Option.some.inj hstep
  subst hname
  obtain ⟨hv, hnode⟩ := h.pending (v, value.name) List.mem_cons_self
  set vi : VertexInfo := { VertexInfo.ofValue value with
    is_output := decide (value.name ∈ g.output_names)
    is_orig_output := decide (value.name ∈ g.output_names) }
  refine h.addValue vi (some v) ((st.graph.add_vertex vi).add_edge v _) rfl rfl rfl rfl
    ?_ ?_ nofun ?_ ?_
  · intro v' w
    simp [eq_comm]
  · intro v' hv'
    obtain rfl := Option.some.inj hv'
    refine ⟨hv, .write hnode rfl hwrite ?_ htyped.2⟩
    rw [VertexInfo.isBatch, VertexInfo.isBatch, hnode]
    exact htyped.1
  · intro q hq
    rcases List.mem_cons.mp hq with rfl | hq
    · exact Or.inr ⟨rfl, rfl⟩
    · exact Or.inl hq
  · exact fun q hq => List.mem_cons_of_mem _ hq

theorem foldl_addNodeInput (v : ℕ) (names : List String) (st : BGraphBuilder) :
    names.foldl (addNodeInput v) st = ⟨{ st.graph with
      edges := st.graph.edges ++ names.map fun name => ((st.values.lookup name).getD 0, v) },
      st.values⟩ := by
  induction names generalizing st with
  | nil => simp
  | cons name names ih =>
    rw [List.foldl_cons, ih]
    simp [addNodeInput, BGraph.add_edge]

/-- A new node, which reads values that are there. -/
theorem BuildOk.addNode (h : BuildOk avail done [] st) (node : IRNode) (graph : BGraph)
    (hvertices : graph.vertices = st.graph.vertices ++ [.ofNode node])
    (hedges : ∀ {v w}, (v, w) ∈ graph.edges ↔ (v, w) ∈ st.graph.edges ∨
      ∃ name ∈ node.input_names, st.values.lookup name = some v ∧ w = st.graph.vertices.length)
    (hinputs : ∀ name ∈ node.input_names, name ∈ avail) :
    BuildOk avail (done ++ [node]) (node.output_names.map (st.graph.vertices.length, ·))
      ⟨graph, st.values⟩ := by
  set n := st.graph.vertices.length
  have hn : n < graph.vertices.length := by simp [hvertices, n]
  have hold := fun {v} => BGraph.info_old hvertices (v := v)
  have hnew := BGraph.info_new hvertices
  have hcases := fun {v} => BGraph.lt_or_eq_of_new hvertices (v := v)
  have hends : ∀ {v w}, (v, w) ∈ graph.edges → (v, w) ∈ st.graph.edges ∨
      (∃ name ∈ node.input_names, st.values.lookup name = some v) ∧ w = n := fun hvw =>
    (hedges.mp hvw).imp_right fun ⟨name, hname, hv, hw⟩ => ⟨⟨name, hname, hv⟩, hw⟩
  constructor
  case lookup => exact BGraph.lookup_old hvertices h.lookup
  case known => exact h.known
  case edge =>
    intro v w
    apply BGraph.edge_new hvertices hends h.edge
    rintro v ⟨name, hname, hv⟩
    obtain ⟨hlt, htype, hvname⟩ := h.lookup hv
    exact ⟨hlt, .read htype rfl (hvname ▸ hname)⟩
  case input =>
    intro w hw hnode name hname
    rcases hcases hw with hw | rfl
    · rw [hold hw] at hnode hname
      obtain ⟨v, hvw, hv⟩ := h.input hw hnode name hname
      exact ⟨v, hedges.mpr (Or.inl hvw), by rwa [hold (h.edge_lt hvw).1]⟩
    · rw [hnew] at hname
      obtain ⟨v, hv⟩ := h.known name (hinputs name hname)
      obtain ⟨hlt, -, hvname⟩ := h.lookup hv
      exact ⟨v, hedges.mpr (Or.inr ⟨name, hname, hv, rfl⟩), by rwa [hold hlt]⟩
  case output =>
    intro v hv hnode name hname
    rcases hcases hv with hv | rfl
    · rw [hold hv] at hnode hname
      obtain ⟨w, hvw, hw⟩ := (h.output hv hnode name hname).resolve_left List.not_mem_nil
      exact Or.inr ⟨w, hedges.mpr (Or.inl hvw), by rwa [hold (h.edge_lt hvw).2]⟩
    · rw [hnew] at hname
      exact Or.inl (List.mem_map_of_mem hname)
  case source =>
    intro w hw hvalue
    rcases hcases hw with hw | rfl
    · rw [hold hw] at hvalue ⊢
      exact (h.source hw hvalue).imp_left fun ⟨v, hvw⟩ => ⟨v, hedges.mpr (Or.inl hvw)⟩
    · rw [hnew] at hvalue
      exact absurd hvalue nofun
  case unique =>
    intro v v' w
    exact BGraph.unique_new hvertices hends (fun hvw => (h.edge_lt hvw).2) h.unique
      fun hvalue => absurd hvalue nofun
  case ids =>
    rw [hvertices, List.map_append, List.map_append, ← List.append_assoc]
    exact h.ids.append_right _
  case value_id =>
    exact BGraph.forall_info hvertices (fun x => x.type = .VALUE → x.id = "v_" ++ x.name)
      (fun _ => h.value_id) nofun
  case value_name =>
    exact BGraph.forall_info hvertices (fun x => x.type = .VALUE → x.name ∈ avail)
      (fun _ => h.value_name) nofun
  case node_name =>
    apply BGraph.forall_info hvertices fun x => x.type = .NODE → ∃ n ∈ done ++ [node],
      x.name = n.name
    · intro v hv hnode
      obtain ⟨n, hn, hname⟩ := h.node_name hv hnode
      exact ⟨n, List.mem_append_left _ hn, hname⟩
    · exact fun _ => ⟨node, List.mem_append_right _ List.mem_cons_self, rfl⟩
  case ranks => exact BGraph.forall_info hvertices (·.ranks = ∅) (fun _ => h.ranks) rfl
  case pending =>
    intro q hq
    obtain ⟨name, -, rfl⟩ := List.mem_map.mp hq
    exact ⟨hn, by rw [hnew]; rfl⟩

end Steps

section Whole

variable {g : IRGraph} {avail : List String} {done : List IRNode} {st st' : BGraphBuilder}

theorem addNodeOutput_info {v : ℕ} {name : String} (hstep : addNodeOutput g v st name = some st')
    {w : ℕ} (hw : w < st.graph.vertices.length) :
    w < st'.graph.vertices.length ∧ st'.graph.info w = st.graph.info w := by
  obtain ⟨value, -, hst'⟩ := Option.bind_eq_some_iff.mp hstep
  obtain rfl := Option.some.inj hst'
  refine ⟨?_, ?_⟩
  · simp only [BGraph.vertices_add_edge, BGraph.length_add_vertex]
    omega
  · rw [BGraph.info_add_edge]
    exact BGraph.info_add_vertex_of_lt hw _

theorem addNodeOutputs_ok {v : ℕ} {node : IRNode} {names : List String}
    (h : BuildOk avail done (names.map (v, ·)) st) (hv : v < st.graph.vertices.length)
    (hnode : (st.graph.info v).node = node) (hnames : ∀ name ∈ names, name ∈ node.output_names)
    (hvalues : ∀ name ∈ names, ∃ value, g.getValue name = some value ∧ value.name = name ∧
      value.is_batch = node.is_batch ∧ value.is_param = false)
    (hsteps : names.foldlM (addNodeOutput g v) st = some st') :
    BuildOk (avail ++ names) done [] st' := by
  induction names generalizing st avail with
  | nil =>
    obtain rfl := Option.some.inj hsteps
    simpa using h
  | cons name names ih =>
    rw [List.foldlM_cons] at hsteps
    obtain ⟨st₁, hstep, hrest⟩ := Option.bind_eq_some_iff.mp hsteps
    obtain ⟨value, hvalue, hname, htyped⟩ := hvalues name List.mem_cons_self
    obtain ⟨hv₁, hinfo₁⟩ := addNodeOutput_info hstep hv
    have hst₁ := addNodeOutput_ok h hvalue hname
      (hnode ▸ hnames name List.mem_cons_self) (hnode ▸ htyped) hstep
    have hst' := ih hst₁ hv₁ (hinfo₁ ▸ hnode) (fun name hname => hnames name
      (List.mem_cons_of_mem _ hname)) (fun name hname => hvalues name
      (List.mem_cons_of_mem _ hname)) hrest
    simpa using hst'

theorem addNode_ok {node : IRNode} (h : BuildOk avail done [] st)
    (hinputs : ∀ name ∈ node.input_names, name ∈ avail)
    (hvalues : ∀ name ∈ node.output_names, ∃ value, g.getValue name = some value ∧
      value.name = name ∧ value.is_batch = node.is_batch ∧ value.is_param = false)
    (hstep : addNode g st node = some st') :
    BuildOk (avail ++ node.output_names) (done ++ [node]) [] st' := by
  rw [addNode, foldl_addNodeInput] at hstep
  refine addNodeOutputs_ok (h.addNode node _ rfl ?_ hinputs) ?_ ?_ (fun _ hname => hname) hvalues
    hstep
  · intro v w
    rw [List.mem_append]
    refine or_congr_right ?_
    constructor
    · intro hmem
      obtain ⟨name, hname, heq⟩ := List.mem_map.mp hmem
      obtain ⟨u, hu⟩ := h.known name (hinputs name hname)
      obtain ⟨rfl, rfl⟩ := Prod.mk.inj heq
      exact ⟨name, hname, by simp [hu], rfl⟩
    · rintro ⟨name, hname, hv, rfl⟩
      exact List.mem_map.mpr ⟨name, hname, by simp [hv]⟩
  · simp [BGraph.add_vertex]
  · exact congrArg VertexInfo.node (BGraph.info_add_vertex_self (.ofNode node))

theorem addInputs_ok {names : List String} (h : BuildOk avail [] [] st)
    (hvalues : ∀ name ∈ names, ∃ value, g.getValue name = some value ∧ value.name = name ∧
      value.is_batch = !value.is_param)
    (hsteps : names.foldlM (addInput g) st = some st') : BuildOk (avail ++ names) [] [] st' := by
  induction names generalizing st avail with
  | nil =>
    obtain rfl := Option.some.inj hsteps
    simpa using h
  | cons name names ih =>
    rw [List.foldlM_cons] at hsteps
    obtain ⟨st₁, hstep, hrest⟩ := Option.bind_eq_some_iff.mp hsteps
    obtain ⟨value, hvalue, hname, htyped⟩ := hvalues name List.mem_cons_self
    have hst₁ := addInput_ok h hvalue hname htyped hstep
    have hst' := ih hst₁ (fun name hname => hvalues name (List.mem_cons_of_mem _ hname)) hrest
    simpa using hst'

theorem addNodes_ok {nodes : List IRNode} (h : BuildOk avail done [] st)
    (hinputs : ∀ before n after, nodes = before ++ n :: after →
      ∀ name ∈ n.input_names, name ∈ avail ++ before.flatMap IRNode.output_names)
    (hvalues : ∀ n ∈ nodes, ∀ name ∈ n.output_names, ∃ value, g.getValue name = some value ∧
      value.name = name ∧ value.is_batch = n.is_batch ∧ value.is_param = false)
    (hsteps : nodes.foldlM (addNode g) st = some st') :
    BuildOk (avail ++ nodes.flatMap IRNode.output_names) (done ++ nodes) [] st' := by
  induction nodes generalizing st avail done with
  | nil =>
    obtain rfl := Option.some.inj hsteps
    simpa using h
  | cons node nodes ih =>
    rw [List.foldlM_cons] at hsteps
    obtain ⟨st₁, hstep, hrest⟩ := Option.bind_eq_some_iff.mp hsteps
    have hin : ∀ name ∈ node.input_names, name ∈ avail := by
      simpa using hinputs [] node nodes rfl
    have hst₁ := addNode_ok h hin (hvalues node List.mem_cons_self) hstep
    have hst' := ih hst₁ (fun before n after heq name hname => by
      simpa using hinputs (node :: before) n after (by rw [heq]; rfl) name hname)
      (fun n hn => hvalues n (List.mem_cons_of_mem _ hn)) hrest
    simpa using hst'

end Whole

/-- A graph of values and operators: what is read and written has an edge, and nothing else. -/
structure BGraph.Flow (g : BGraph) : Prop where
  edge : ∀ {v w}, (v, w) ∈ g.edges → v < w ∧ w < g.vertices.length ∧ EdgeOk (g.info v) (g.info w)
  input : ∀ {w}, w < g.vertices.length → (g.info w).type = .NODE →
    ∀ name ∈ (g.info w).node.input_names, ∃ v, (v, w) ∈ g.edges ∧ (g.info v).name = name
  output : ∀ {v}, v < g.vertices.length → (g.info v).type = .NODE →
    ∀ name ∈ (g.info v).node.output_names, ∃ w, (v, w) ∈ g.edges ∧ (g.info w).name = name
  source : ∀ {w}, w < g.vertices.length → (g.info w).type = .VALUE →
    (∃ v, (v, w) ∈ g.edges) ∨ (g.info w).isBatch = !(g.info w).is_param
  unique : ∀ {v v' w}, (v, w) ∈ g.edges → (v', w) ∈ g.edges →
    (g.info w).type = .VALUE → v = v'
  value_id : ∀ {v}, v < g.vertices.length → (g.info v).type = .VALUE →
    (g.info v).id = "v_" ++ (g.info v).name
  ids : (g.vertices.map VertexInfo.id).Nodup

theorem toBGL_ok {ir_graph : IRGraph} (hwf : ir_graph.WellFormed) (htyped : ir_graph.Typed)
    {g : BGraph} (h : ir_graph.toBGL = some g) :
    ∃ values, BuildOk ir_graph.definedNames ir_graph.nodes [] ⟨g, values⟩ := by
  obtain ⟨st, hinputs, h⟩ := Option.bind_eq_some_iff.mp h
  obtain ⟨st', hnodes, h⟩ := Option.bind_eq_some_iff.mp h
  obtain rfl := Option.some.inj h
  have hst := addInputs_ok (buildOk_nil ir_graph.name) (fun name hname => by
    obtain ⟨value, hvalue, hvname⟩ := hwf.values name (List.mem_append_left _ hname)
    exact ⟨value, hvalue, hvname, htyped.inputs name hname value hvalue⟩) hinputs
  have hst' := addNodes_ok hst (by simpa using hwf.sorted) (fun n hn name hname => by
    have hmem : name ∈ ir_graph.definedNames :=
      List.mem_append_right _ (List.mem_flatMap.mpr ⟨n, hn, hname⟩)
    obtain ⟨value, hvalue, hvname⟩ := hwf.values name hmem
    exact ⟨value, hvalue, hvname, htyped.outputs n hn name hname value hvalue⟩) hnodes
  exact ⟨st'.values, by simpa [IRGraph.definedNames] using hst'⟩

theorem toBGL_flow {ir_graph : IRGraph} (hwf : ir_graph.WellFormed) (htyped : ir_graph.Typed)
    {g : BGraph} (h : ir_graph.toBGL = some g) :
    g.Flow ∧ ∀ v < g.vertices.length, g.ranks v = ∅ := by
  obtain ⟨values, hok⟩ := toBGL_ok hwf htyped h
  refine ⟨⟨hok.edge, hok.input, ?_, hok.source, hok.unique, hok.value_id, ?_⟩,
    fun v hv => hok.ranks hv⟩
  · intro v hv hnode name hname
    exact (hok.output hv hnode name hname).resolve_left List.not_mem_nil
  · exact (hok.ids.nodup_iff).mpr hwf.ids_nodup

end Rannc
