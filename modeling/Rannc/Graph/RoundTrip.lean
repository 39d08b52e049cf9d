import Rannc.Graph.Links
import Rannc.Graph.SubGraphFlow

/-!
# There and back again

A graph of operators becomes a graph of values and operators and is read back from its vertices, in
a topological order. Nodes, inputs and the values that are defined come back. An output comes back
if a node writes it; an input that is an output of the graph as well is not marked as an output.
-/
namespace Rannc

open Rannc.Digraph

namespace IRGraph

/-- The same nodes in a topological order, and the same values, inputs and outputs. -/
structure SameGraph (g g' : IRGraph) : Prop where
  nodes : g'.nodes.Perm g.nodes
  sorted : ∀ before n after, g'.nodes = before ++ n :: after →
    ∀ name ∈ n.input_names, name ∈ g'.input_names ++ before.flatMap IRNode.output_names
  values : ∀ name, g'.getValue name = g.getValue name
  inputs : ∀ name, name ∈ g'.input_names ↔ name ∈ g.input_names
  outputs : ∀ name, name ∈ g'.output_names ↔ name ∈ g.output_names

/-- Converting a graph and converting it back gives the same graph. -/
def RoundTrips (sort : TopologicalSort) (g : IRGraph) : Prop :=
  ∃ b_graph g', g.toBGL = some b_graph ∧ fromBGL sort b_graph = some g' ∧ g.SameGraph g'

variable {g g' : IRGraph} {avail : List String} {pending : List (ℕ × String)}

variable {sort : TopologicalSort} {b_graph : BGraph}

theorem exists_vertex_of_nodes {vs : List ℕ} {before after : List IRNode} {n : IRNode}
    (h : ((vs.map b_graph.info).filter fun vi => vi.type = .NODE).map VertexInfo.node =
      before ++ n :: after) :
    ∃ pre w post, vs = pre ++ w :: post ∧ (b_graph.info w).type = .NODE ∧
      (b_graph.info w).node = n ∧
      before = ((pre.map b_graph.info).filter fun vi => vi.type = .NODE).map VertexInfo.node := by
  obtain ⟨ns, ns', hns, rfl, hns'⟩ := List.map_eq_append_iff.mp h
  obtain ⟨vi, ns'', rfl, rfl, -⟩ := List.map_eq_cons_iff.mp hns'
  obtain ⟨l, l', hl, rfl, hl'⟩ := List.filter_eq_append_iff.mp hns
  obtain ⟨l₁, l₂, rfl, hskip, hvi, -⟩ := List.filter_eq_cons_iff.mp hl'
  rw [← List.append_assoc] at hl
  obtain ⟨pre, vs', rfl, hpre, hvs'⟩ := List.map_eq_append_iff.mp hl
  obtain ⟨w, post, rfl, rfl, -⟩ := List.map_eq_cons_iff.mp hvs'
  refine ⟨pre, w, post, rfl, of_decide_eq_true hvi, rfl, ?_⟩
  rw [hpre, List.filter_append, List.filter_eq_nil_iff.mpr hskip, List.append_nil]

theorem fromBGL_input_names (hacyclic : Acyclic (Edge b_graph.edges))
    (h : fromBGL sort b_graph = some g') {name : String} : name ∈ g'.input_names ↔
      ∃ vi ∈ b_graph.vertices, vi.type = .VALUE ∧ vi.is_input = true ∧ vi.name = name := by
  constructor
  · exact (fromBGL_spec hacyclic h).2.2.1 name
  · rintro ⟨vi, hvi, hvalue, hinput, rfl⟩
    obtain ⟨is_replicable, rfl⟩ := create_eq h
    simp only [List.mem_append, List.mem_map, List.mem_filter, mem_all_nodes_topo hacyclic,
      decide_eq_true_eq, Bool.and_eq_true]
    cases hparam : vi.is_param with
    | false => exact Or.inl ⟨vi, ⟨⟨hvi, hvalue⟩, hinput, by simp [hparam]⟩, rfl⟩
    | true => exact Or.inr ⟨vi, ⟨⟨hvi, hvalue⟩, hinput, hparam⟩, rfl⟩

/-- The nodes come back in a topological order. -/
theorem fromBGL_sorted {values : List (String × ℕ)} (hok : LinkOk avail pending ⟨b_graph, values⟩)
    (h : fromBGL sort b_graph = some g') : ∀ before n after, g'.nodes = before ++ n :: after →
      ∀ name ∈ n.input_names, name ∈ g'.input_names ++ before.flatMap IRNode.output_names := by
  have hacyclic : Acyclic (Edge b_graph.edges) := acyclic_of_rank id fun hvw => (hok.edge hvw).1
  intro before n after hnodes name hname
  have htopo_nodes : ((all_nodes_topo sort b_graph).map b_graph.info |>.filter
      fun vi => vi.type = .NODE).map VertexInfo.node = before ++ n :: after := by
    obtain ⟨is_replicable, rfl⟩ := create_eq h
    exact hnodes
  obtain ⟨pre, w, post, htopo, hnode, rfl, rfl⟩ := exists_vertex_of_nodes htopo_nodes
  have hperm : (all_nodes_topo sort b_graph).Perm (List.range b_graph.vertices.length) :=
    (List.reverse_perm _).trans (sort.perm hacyclic)
  have hw : w < b_graph.vertices.length := by
    rw [← List.mem_range, ← hperm.mem_iff, htopo]
    simp
  obtain ⟨v, hvw, hvalue, rfl⟩ := hok.read hw hnode name hname
  have hv : v < b_graph.vertices.length := (hok.edge hvw).1.trans hw
  rw [List.mem_append]
  rcases hok.source hv hvalue with hinput | ⟨u, huv, hwriter, hwrite⟩
  · exact Or.inl ((fromBGL_input_names hacyclic h).mpr
      ⟨b_graph.info v, BGraph.info_mem hv, hvalue, hinput, rfl⟩)
  · -- the writer comes before the value, and the value before its reader
    have hu : u < b_graph.vertices.length := (hok.edge huv).1.trans hv
    have hmem : v ∈ pre := mem_before_of_edge hacyclic htopo hv hvw
    obtain ⟨pre₁, pre₂, rfl⟩ := List.append_of_mem hmem
    rw [List.append_assoc, List.cons_append] at htopo
    have humem := mem_before_of_edge hacyclic htopo hu huv
    refine Or.inr (List.mem_flatMap.mpr ⟨(b_graph.info u).node, ?_, hwrite⟩)
    refine List.mem_map_of_mem (List.mem_filter.mpr ⟨?_, decide_eq_true hwriter⟩)
    exact List.mem_map_of_mem (List.mem_append_left _ humem)

section Back

variable (hwf : g.WellFormed) (h : g.toBGL = some b_graph) (h' : fromBGL sort b_graph = some g')
include hwf h

theorem toBGL_acyclic : Acyclic (Edge b_graph.edges) := by
  obtain ⟨values, hok⟩ := toBGL_linkOk hwf h
  exact acyclic_of_rank id fun hvw => (hok.edge hvw).1

theorem exists_fromBGL (sort : TopologicalSort) : ∃ g', fromBGL sort b_graph = some g' := by
  have hacyclic := toBGL_acyclic hwf h
  refine (exists_create b_graph.id _ _ fun name hname => ?_).imp' _ fun _ hcreate => hcreate
  simp only [List.mem_append, List.mem_map, List.mem_filter, mem_all_nodes_topo hacyclic,
    decide_eq_true_eq] at hname
  rw [List.lookup_isSome_iff]
  simp only [List.mem_map, List.mem_reverse, List.mem_filter, mem_all_nodes_topo hacyclic,
    decide_eq_true_eq]
  rcases hname with ⟨vi, ⟨hvi, -⟩, rfl⟩ | ⟨vi, ⟨hvi, -⟩, rfl⟩
  · exact ⟨_, ⟨vi, hvi, rfl⟩, decide_eq_true rfl⟩
  · exact ⟨_, ⟨vi, hvi, rfl⟩, decide_eq_true rfl⟩

include h'

theorem roundTrip_nodes : g'.nodes.Perm g.nodes := by
  obtain ⟨is_replicable, rfl⟩ := create_eq h'
  have hperm : ((all_nodes_topo sort b_graph).map b_graph.info).Perm b_graph.vertices :=
    map_info_perm (toBGL_acyclic hwf h)
  rw [← toBGL_nodes h]
  exact (hperm.filter _).map _

theorem roundTrip_getValue (name : String) :
    g'.getValue name = if name ∈ g.definedNames then g.getValue name else none := by
  have hacyclic := toBGL_acyclic hwf h
  have hmem : ∀ value, (name, value) ∈ g'.values ↔
      name ∈ g.definedNames ∧ g.getValue name = some value := by
    intro value
    obtain ⟨is_replicable, rfl⟩ := create_eq h'
    rw [← mem_toBGL_names h hwf]
    simp only [List.mem_map, List.mem_reverse, List.mem_filter, mem_all_nodes_topo hacyclic,
      decide_eq_true_eq, and_assoc]
  have hsome : ∀ value, g'.getValue name = some value →
      name ∈ g.definedNames ∧ g.getValue name = some value := by
    intro value hvalue
    obtain ⟨l₁, l₂, hsplit, -⟩ := List.lookup_eq_some_iff.mp hvalue
    exact (hmem value).mp (hsplit ▸ by simp)
  cases hget : g'.getValue name with
  | some value =>
    obtain ⟨hdefined, hvalue⟩ := hsome value hget
    rw [if_pos hdefined, hvalue]
  | none =>
    by_cases hdefined : name ∈ g.definedNames
    · obtain ⟨value, hvalue, -⟩ := hwf.values name hdefined
      have hentry := (hmem value).mpr ⟨hdefined, hvalue⟩
      simpa using List.lookup_eq_none_iff.mp hget (name, value) hentry
    · rw [if_neg hdefined]

theorem roundTrip_input_names (name : String) :
    name ∈ g'.input_names ↔ name ∈ g.input_names := by
  rw [fromBGL_input_names (toBGL_acyclic hwf h) h']
  constructor
  · rintro ⟨vi, hvi, hvalue, hinput, rfl⟩
    rcases (mem_toBGL_values h).mp ⟨hvi, hvalue⟩ with
      ⟨name, hname, rfl⟩ | ⟨n, hn, name, hname, rfl⟩
    · rwa [inputVertex_name hwf (List.mem_append_left _ hname)]
    · exact absurd hinput nofun
  · intro hname
    obtain ⟨hvi, hvalue⟩ := (mem_toBGL_values h).mpr (Or.inl ⟨name, hname, rfl⟩)
    exact ⟨_, hvi, hvalue, rfl, inputVertex_name hwf (List.mem_append_left _ hname)⟩

theorem roundTrip_output_names (name : String) :
    name ∈ g'.output_names ↔ name ∈ g.output_names ∧ ∃ n ∈ g.nodes, name ∈ n.output_names := by
  rw [(fromBGL_spec (toBGL_acyclic hwf h) h').2.1]
  constructor
  · rintro ⟨vi, hvi, hvalue, houtput, rfl⟩
    rcases (mem_toBGL_values h).mp ⟨hvi, hvalue⟩ with
      ⟨name, hname, rfl⟩ | ⟨n, hn, name, hname, rfl⟩
    · exact absurd houtput nofun
    · rw [outputVertex_name hwf (mem_definedNames.mpr (Or.inr ⟨n, hn, hname⟩))]
      exact ⟨of_decide_eq_true houtput, n, hn, hname⟩
  · rintro ⟨hout, n, hn, hname⟩
    obtain ⟨hvi, hvalue⟩ := (mem_toBGL_values h).mpr (Or.inr ⟨n, hn, name, hname, rfl⟩)
    exact ⟨_, hvi, hvalue, decide_eq_true hout,
      outputVertex_name hwf (mem_definedNames.mpr (Or.inr ⟨n, hn, hname⟩))⟩

end Back

/-- A graph comes back unless one of its outputs is not written by a node or it has a value that is
neither an input nor written by a node. -/
theorem roundTrips_iff (sort : TopologicalSort) (g : IRGraph) (hwf : g.WellFormed) :
    g.RoundTrips sort ↔ (∀ out ∈ g.output_names, ∃ n ∈ g.nodes, out ∈ n.output_names) ∧
      ∀ name, g.hasValue name = true → name ∈ g.definedNames := by
  constructor
  · rintro ⟨b_graph, g', h, h', hsame⟩
    constructor
    · intro out hout
      exact ((roundTrip_output_names hwf h h' out).mp ((hsame.outputs out).mpr hout)).2
    · intro name hname
      by_contra hdefined
      rw [hasValue, ← hsame.values, roundTrip_getValue hwf h h', if_neg hdefined] at hname
      simp at hname
  · rintro ⟨houtputs, hvalues⟩
    obtain ⟨b_graph, h⟩ := exists_toBGL fun name hname => by
      obtain ⟨value, hvalue, -⟩ := hwf.values name hname
      simp [hvalue]
    obtain ⟨g', h'⟩ := exists_fromBGL hwf h sort
    obtain ⟨values, hok⟩ := toBGL_linkOk hwf h
    refine ⟨b_graph, g', h, h', ⟨roundTrip_nodes hwf h h', fromBGL_sorted hok h', ?_,
      roundTrip_input_names hwf h h', ?_⟩⟩
    · intro name
      rw [roundTrip_getValue hwf h h']
      split_ifs with hdefined
      · rfl
      · cases hget : g.getValue name with
        | none => rfl
        | some value => exact absurd (hvalues name (by simp [hasValue, hget])) hdefined
    · intro name
      rw [roundTrip_output_names hwf h h']
      exact ⟨And.left, fun hout => ⟨hout, houtputs name hout⟩⟩

/-- A node that reads an input twice, and an input that nothing reads. -/
def addTwice (output_names : List String) : IRGraph where
  name := "g"
  nodes := [{ name := "add", input_names := ["x", "x"], output_names := ["y"], id := "n0" }]
  values := ["x", "u", "y"].map fun name => (name, { name := name, type := .tensor .FLOAT [] true })
  input_names := ["x", "u"]
  output_names := output_names

theorem addTwice_wellFormed (output_names : List String) :
    (addTwice output_names).WellFormed := by
  apply WellFormed.of_checks <;> simp only [definedNames, getValue, addTwice] <;> decide

theorem roundTrips_iff_addTwice : (addTwice ["y"]).RoundTrips .sinksFirst := by
  apply (roundTrips_iff .sinksFirst _ (addTwice_wellFormed _)).mpr
  refine ⟨by decide, fun name hname => ?_⟩
  obtain ⟨it, hit, heq⟩ := List.lookup_isSome_iff.mp hname
  obtain rfl := of_decide_eq_true heq
  revert it
  decide

/-- The input is an output as well, and is not one any more. -/
theorem not_roundTrips : (addTwice ["y", "x"]).WellFormed ∧
    (∀ out ∈ (addTwice ["y", "x"]).output_names, out ∈ (addTwice ["y", "x"]).definedNames) ∧
    (∀ it ∈ (addTwice ["y", "x"]).values, it.1 ∈ (addTwice ["y", "x"]).definedNames) ∧
    ¬ (addTwice ["y", "x"]).RoundTrips .sinksFirst := by
  refine ⟨addTwice_wellFormed _, by decide, by decide, ?_⟩
  rintro ⟨b_graph, g', h, h', hsame⟩
  have hout : ((addTwice ["y", "x"]).toBGL.bind (fromBGL .sinksFirst)).map output_names =
      some ["y"] := by decide +kernel
  rw [h, Option.bind_some, h'] at hout
  have hx := (hsame.outputs "x").mpr (by decide)
  rw [Option.some.inj hout] at hx
  exact absurd hx (by decide)

end IRGraph

end Rannc
