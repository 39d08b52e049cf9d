import Rannc.Graph.Evaluation

/-!
# How a graph is linked

What is known of the vertices and edges that a graph of operators becomes, whatever the marks of its
values and nodes are: which vertices there are, and how nodes and values are linked.
-/
namespace Rannc

open Rannc.Digraph

theorem BGraph.info_mem {g : BGraph} {v : ℕ} (hv : v < g.vertices.length) :
    g.info v ∈ g.vertices := by
  rw [info, List.getD_eq_getElem?_getD, List.getElem?_eq_getElem hv]
  exact List.getElem_mem hv

namespace IRGraph

variable (g : IRGraph)

def inputVertex (name : String) : VertexInfo :=
  { VertexInfo.ofValue ((g.getValue name).getD default) with
    is_input := true
    is_orig_input := true }

def outputVertex (name : String) : VertexInfo :=
  { VertexInfo.ofValue ((g.getValue name).getD default) with
    is_output := name ∈ g.output_names
    is_orig_output := name ∈ g.output_names }

def nodeVertices (n : IRNode) : List VertexInfo :=
  .ofNode n :: n.output_names.map g.outputVertex

variable {g} {st st' : BGraphBuilder}

theorem addInputs_vertices {names : List String}
    (h : names.foldlM (addInput g) st = some st') :
    st'.graph.vertices = st.graph.vertices ++ names.map g.inputVertex := by
  induction names generalizing st with
  | nil =>
    obtain rfl := Option.some.inj h
    simp
  | cons name names ih =>
    obtain ⟨st₁, hstep, hrest⟩ := Option.bind_eq_some_iff.mp (List.foldlM_cons.symm.trans h)
    obtain ⟨value, hvalue, hst₁⟩ := Option.bind_eq_some_iff.mp hstep
    obtain rfl := Option.some.inj hst₁
    rw [ih hrest, List.map_cons, inputVertex, hvalue]
    simp [BGraph.add_vertex]

theorem addNodeOutputs_vertices {v : ℕ} {names : List String}
    (h : names.foldlM (addNodeOutput g v) st = some st') :
    st'.graph.vertices = st.graph.vertices ++ names.map g.outputVertex := by
  induction names generalizing st with
  | nil =>
    obtain rfl := Option.some.inj h
    simp
  | cons name names ih =>
    obtain ⟨st₁, hstep, hrest⟩ := Option.bind_eq_some_iff.mp (List.foldlM_cons.symm.trans h)
    obtain ⟨value, hvalue, hst₁⟩ := Option.bind_eq_some_iff.mp hstep
    obtain rfl := Option.some.inj hst₁
    rw [ih hrest, List.map_cons, outputVertex, hvalue]
    simp [BGraph.add_vertex]

theorem addNode_vertices {n : IRNode} (h : addNode g st n = some st') :
    st'.graph.vertices = st.graph.vertices ++ g.nodeVertices n := by
  rw [addNode, foldl_addNodeInput] at h
  rw [addNodeOutputs_vertices h, nodeVertices]
  simp [BGraph.add_vertex]

theorem addNodes_vertices {nodes : List IRNode} (h : nodes.foldlM (addNode g) st = some st') :
    st'.graph.vertices = st.graph.vertices ++ nodes.flatMap g.nodeVertices := by
  induction nodes generalizing st with
  | nil =>
    obtain rfl := Option.some.inj h
    simp
  | cons n nodes ih =>
    obtain ⟨st₁, hstep, hrest⟩ := Option.bind_eq_some_iff.mp (List.foldlM_cons.symm.trans h)
    rw [ih hrest, addNode_vertices hstep, List.flatMap_cons, List.append_assoc]

theorem toBGL_vertices {b_graph : BGraph} (h : g.toBGL = some b_graph) :
    b_graph.vertices = g.input_names.map g.inputVertex ++ g.nodes.flatMap g.nodeVertices := by
  obtain ⟨st, hinputs, h⟩ := Option.bind_eq_some_iff.mp h
  obtain ⟨st', hnodes, h⟩ := Option.bind_eq_some_iff.mp h
  obtain rfl := Option.some.inj h
  rw [addNodes_vertices hnodes, addInputs_vertices hinputs]
  rfl

theorem mem_nodeVertices {n : IRNode} {vi : VertexInfo} :
    vi ∈ g.nodeVertices n ↔ vi = .ofNode n ∨ ∃ name ∈ n.output_names, g.outputVertex name = vi := by
  rw [nodeVertices, List.mem_cons, List.mem_map]

section Names

variable (hwf : g.WellFormed) {name : String} (hname : name ∈ g.definedNames)
include hwf hname

theorem inputVertex_name : (g.inputVertex name).name = name := by
  obtain ⟨value, hvalue, hvname⟩ := hwf.values name hname
  rw [inputVertex, hvalue]
  exact hvname

theorem outputVertex_name : (g.outputVertex name).name = name := by
  obtain ⟨value, hvalue, hvname⟩ := hwf.values name hname
  rw [outputVertex, hvalue]
  exact hvname

end Names

/-- The conversion only fails at a name without a value. -/
theorem exists_toBGL (hvalues : ∀ name ∈ g.definedNames, (g.getValue name).isSome) :
    ∃ b_graph, g.toBGL = some b_graph := by
  have hinputs : (g.input_names.foldlM (addInput g) ⟨{ id := g.name }, []⟩).isSome := by
    refine foldlM_isSome (fun st name hname => ?_) _
    obtain ⟨value, hvalue⟩ := Option.isSome_iff_exists.mp
      (hvalues name (List.mem_append_left _ hname))
    simp [addInput, hvalue]
  obtain ⟨st, hst⟩ := Option.isSome_iff_exists.mp hinputs
  have hnodes : (g.nodes.foldlM (addNode g) st).isSome := by
    refine foldlM_isSome (fun st n hn => ?_) _
    refine foldlM_isSome (fun st name hname => ?_) _
    obtain ⟨value, hvalue⟩ := Option.isSome_iff_exists.mp
      (hvalues name (mem_definedNames.mpr (Or.inr ⟨n, hn, hname⟩)))
    simp [addNodeOutput, hvalue]
  obtain ⟨st', hst'⟩ := Option.isSome_iff_exists.mp hnodes
  exact ⟨st'.graph, by simp [toBGL, hst, hst']⟩

/-- What holds while the graph is built: a node reads the vertices of its inputs, a value that is
not an input is written by a node, and a node writes its outputs in turn; `pending` are those that
are still to be added. -/
structure LinkOk (avail : List String) (pending : List (ℕ × String)) (st : BGraphBuilder) :
    Prop where
  lookup : ∀ {name v}, st.values.lookup name = some v → v < st.graph.vertices.length ∧
    (st.graph.info v).type = .VALUE ∧ (st.graph.info v).name = name
  known : ∀ name ∈ avail, ∃ v, st.values.lookup name = some v
  edge : ∀ {v w}, (v, w) ∈ st.graph.edges → v < w ∧ w < st.graph.vertices.length
  type_ne : ∀ {v w}, (v, w) ∈ st.graph.edges → (st.graph.info v).type ≠ (st.graph.info w).type
  read : ∀ {w}, w < st.graph.vertices.length → (st.graph.info w).type = .NODE →
    ∀ name ∈ (st.graph.info w).node.input_names, ∃ v, (v, w) ∈ st.graph.edges ∧
      (st.graph.info v).type = .VALUE ∧ (st.graph.info v).name = name
  source : ∀ {w}, w < st.graph.vertices.length → (st.graph.info w).type = .VALUE →
    (st.graph.info w).is_input = true ∨ ∃ v, (v, w) ∈ st.graph.edges ∧
      (st.graph.info v).type = .NODE ∧ (st.graph.info w).name ∈ (st.graph.info v).node.output_names
  unique : ∀ {v v' w}, (v, w) ∈ st.graph.edges → (v', w) ∈ st.graph.edges →
    (st.graph.info w).type = .VALUE → v = v'
  targets : ∀ {v}, v < st.graph.vertices.length → (st.graph.info v).type = .NODE →
    (st.graph.target_nodes v).map (fun w => (st.graph.info w).name) ++
      (pending.filter fun q => q.1 = v).map Prod.snd = (st.graph.info v).node.output_names

variable {avail : List String} {pending : List (ℕ × String)}

theorem linkOk_nil (name : String) : LinkOk [] [] ⟨{ id := name }, []⟩ := by
  constructor <;> simp

theorem LinkOk.edge_lt (h : LinkOk avail pending st) {v w : ℕ} (hvw : (v, w) ∈ st.graph.edges) :
    v < st.graph.vertices.length ∧ w < st.graph.vertices.length := by
  obtain ⟨hlt, hw⟩ := h.edge hvw
  exact ⟨hlt.trans hw, hw⟩

theorem target_nodes_append {graph graph' : BGraph} {edges : List (ℕ × ℕ)}
    (h : graph'.edges = graph.edges ++ edges) (v : ℕ) : graph'.target_nodes v =
      graph.target_nodes v ++ (edges.filter fun e => e.1 = v).map Prod.snd := by
  rw [BGraph.target_nodes, h, List.filter_append, List.map_append]
  rfl

theorem LinkOk.edge_ok (h : LinkOk avail pending st) {v w : ℕ} (hvw : (v, w) ∈ st.graph.edges) :
    v < w ∧ w < st.graph.vertices.length ∧ (st.graph.info v).type ≠ (st.graph.info w).type :=
  ⟨(h.edge hvw).1, (h.edge hvw).2, h.type_ne hvw⟩

theorem LinkOk.map_target_names (h : LinkOk avail pending st) {graph : BGraph} {vi : VertexInfo}
    (hvertices : graph.vertices = st.graph.vertices ++ [vi]) (v : ℕ) :
    (st.graph.target_nodes v).map (fun w => (graph.info w).name) =
      (st.graph.target_nodes v).map fun w => (st.graph.info w).name := by
  apply List.map_congr_left
  intro w hw
  rw [BGraph.info_old hvertices (h.edge_lt (BGraph.mem_target_nodes.mp hw)).2]

/-- A new value, which is an input or the next output of its producer. -/
theorem LinkOk.addValue {producer : Option ℕ} (vi : VertexInfo)
    (h : LinkOk avail (producer.toList.map (·, vi.name) ++ pending) st) (graph : BGraph)
    (htype : vi.type = .VALUE) (hvertices : graph.vertices = st.graph.vertices ++ [vi])
    (hedges : graph.edges =
      st.graph.edges ++ producer.toList.map (·, st.graph.vertices.length))
    (hproducer : ∀ v ∈ producer, v < st.graph.vertices.length ∧
      (st.graph.info v).type = .NODE ∧ vi.name ∈ (st.graph.info v).node.output_names)
    (hsource : producer = none → vi.is_input = true) :
    LinkOk (avail ++ [vi.name]) pending
      ⟨graph, (vi.name, st.graph.vertices.length) :: st.values⟩ := by
  set n := st.graph.vertices.length
  have hn : n < graph.vertices.length := by simp [hvertices, n]
  have hold := fun {v} => BGraph.info_old hvertices (v := v)
  have hnew := BGraph.info_new hvertices
  have hmem : ∀ {v w}, (v, w) ∈ graph.edges ↔
      (v, w) ∈ st.graph.edges ∨ v ∈ producer ∧ w = n := by
    intro v w
    rw [hedges, List.mem_append, List.mem_map]
    simp [eq_comm]
  have hedge : ∀ {v w}, (v, w) ∈ graph.edges → v < w ∧ w < graph.vertices.length ∧
      (graph.info v).type ≠ (graph.info w).type := by
    intro v w
    apply BGraph.edge_new (E := fun x y => x.type ≠ y.type) hvertices hmem.mp h.edge_ok
    intro v hv
    obtain ⟨hlt, hnode, -⟩ := hproducer v hv
    exact ⟨hlt, by simp [hnode, htype]⟩
  constructor
  case lookup => exact BGraph.lookup_new hvertices htype h.lookup
  case known => exact exists_lookup_cons h.known vi.name n
  case edge => exact fun hvw => ⟨(hedge hvw).1, (hedge hvw).2.1⟩
  case type_ne => exact fun hvw => (hedge hvw).2.2
  case read =>
    intro w hw hnode name hname
    rcases BGraph.lt_or_eq_of_new hvertices hw with hw | rfl
    · rw [hold hw] at hnode hname
      obtain ⟨v, hvw, hv⟩ := h.read hw hnode name hname
      exact ⟨v, hmem.mpr (Or.inl hvw), by rwa [hold (h.edge_lt hvw).1]⟩
    · rw [hnew, htype] at hnode
      exact absurd hnode nofun
  case source =>
    intro w hw hvalue
    rcases BGraph.lt_or_eq_of_new hvertices hw with hw | rfl
    · rw [hold hw] at hvalue ⊢
      refine (h.source hw hvalue).imp_right fun ⟨v, hvw, hv⟩ => ?_
      exact ⟨v, hmem.mpr (Or.inl hvw), by rwa [hold (h.edge_lt hvw).1]⟩
    · rw [hnew]
      cases producer with
      | none => exact Or.inl (hsource rfl)
      | some v =>
        obtain ⟨hv, hwrite⟩ := hproducer v rfl
        exact Or.inr ⟨v, hmem.mpr (Or.inr ⟨rfl, rfl⟩), by rwa [hold hv]⟩
  case unique =>
    intro v v' w
    exact BGraph.unique_new hvertices hmem.mp (fun hvw => (h.edge_lt hvw).2) h.unique
      fun _ {_ _} => Option.mem_unique
  case targets =>
    intro v hv hnode
    rcases BGraph.lt_or_eq_of_new hvertices hv with hv | rfl
    · dsimp only at hnode ⊢
      rw [hold hv] at hnode ⊢
      rw [← h.targets hv hnode, target_nodes_append hedges, List.map_append,
        h.map_target_names hvertices, List.filter_append, List.map_append, List.append_assoc]
      congr 2
      cases producer with
      | none => rfl
      | some u =>
        by_cases huv : u = v
        · have hname : (graph.info n).name = vi.name := congrArg VertexInfo.name hnew
          simp [huv, hname]
        · simp [huv]
    · rw [hnew, htype] at hnode
      exact absurd hnode nofun

/-- A new node, which reads values that are there and is about to write its outputs. -/
theorem LinkOk.readInputs (h : LinkOk avail [] st) (n : IRNode) (graph : BGraph)
    (hvertices : graph.vertices = st.graph.vertices ++ [.ofNode n])
    (hedges : graph.edges = st.graph.edges ++ n.input_names.map fun name =>
      ((st.values.lookup name).getD 0, st.graph.vertices.length))
    (hinputs : ∀ name ∈ n.input_names, name ∈ avail) :
    LinkOk avail (n.output_names.map (st.graph.vertices.length, ·)) ⟨graph, st.values⟩ := by
  set m := st.graph.vertices.length
  have hm : m < graph.vertices.length := by simp [hvertices, m]
  have hold := fun {v} => BGraph.info_old hvertices (v := v)
  have hnew := BGraph.info_new hvertices
  have hadded : ∀ {v w}, (v, w) ∈ n.input_names.map (fun name =>
      ((st.values.lookup name).getD 0, m)) ↔
        ∃ name ∈ n.input_names, st.values.lookup name = some v ∧ w = m := by
    intro v w
    rw [List.mem_map]
    refine exists_congr fun name => and_congr_right fun hname => ?_
    obtain ⟨u, hu⟩ := h.known name (hinputs name hname)
    simp [hu, eq_comm]
  have hmem : ∀ {v w}, (v, w) ∈ graph.edges ↔ (v, w) ∈ st.graph.edges ∨
      ∃ name ∈ n.input_names, st.values.lookup name = some v ∧ w = m := by
    intro v w
    rw [hedges, List.mem_append, hadded]
  have hends : ∀ {v w}, (v, w) ∈ graph.edges → (v, w) ∈ st.graph.edges ∨
      (∃ name ∈ n.input_names, st.values.lookup name = some v) ∧ w = m := fun hvw =>
    (hmem.mp hvw).imp_right fun ⟨name, hname, hv, hw⟩ => ⟨⟨name, hname, hv⟩, hw⟩
  have hedge : ∀ {v w}, (v, w) ∈ graph.edges → v < w ∧ w < graph.vertices.length ∧
      (graph.info v).type ≠ (graph.info w).type := by
    intro v w
    apply BGraph.edge_new (E := fun x y => x.type ≠ y.type) hvertices hends h.edge_ok
    rintro v ⟨name, -, hv⟩
    obtain ⟨hlt, hvalue, -⟩ := h.lookup hv
    exact ⟨hlt, by simp [hvalue, VertexInfo.ofNode]⟩
  constructor
  case lookup => exact BGraph.lookup_old hvertices h.lookup
  case known => exact h.known
  case edge => exact fun hvw => ⟨(hedge hvw).1, (hedge hvw).2.1⟩
  case type_ne => exact fun hvw => (hedge hvw).2.2
  case read =>
    intro w hw hnode name hname
    rcases BGraph.lt_or_eq_of_new hvertices hw with hw | rfl
    · rw [hold hw] at hnode hname
      obtain ⟨v, hvw, hv⟩ := h.read hw hnode name hname
      exact ⟨v, hmem.mpr (Or.inl hvw), by rwa [hold (h.edge_lt hvw).1]⟩
    · rw [hnew] at hname
      obtain ⟨v, hv⟩ := h.known name (hinputs name hname)
      obtain ⟨hlt, hinfo⟩ := h.lookup hv
      exact ⟨v, hmem.mpr (Or.inr ⟨name, hname, hv, rfl⟩), by rwa [hold hlt]⟩
  case source =>
    intro w hw hvalue
    rcases BGraph.lt_or_eq_of_new hvertices hw with hw | rfl
    · rw [hold hw] at hvalue ⊢
      refine (h.source hw hvalue).imp_right fun ⟨v, hvw, hv⟩ => ?_
      exact ⟨v, hmem.mpr (Or.inl hvw), by rwa [hold (h.edge_lt hvw).1]⟩
    · rw [hnew] at hvalue
      exact absurd hvalue nofun
  case unique =>
    intro v v' w
    exact BGraph.unique_new hvertices hends (fun hvw => (h.edge_lt hvw).2) h.unique
      fun hvalue => absurd hvalue nofun
  case targets =>
    intro v hv hnode
    have hskip : ∀ e ∈ n.input_names.map (fun name => ((st.values.lookup name).getD 0, m)),
        ¬decide (e.1 = v) = true := by
      intro e he heq
      obtain ⟨name, hname, hlookup, -⟩ := hadded.mp he
      obtain ⟨hlt, hvalue, -⟩ := h.lookup hlookup
      rw [← of_decide_eq_true heq, hold hlt, hvalue] at hnode
      exact absurd hnode nofun
    rw [target_nodes_append hedges, List.filter_eq_nil_iff.mpr hskip, List.map_nil,
      List.append_nil]
    change (st.graph.target_nodes v).map _ ++ _ = _
    rcases BGraph.lt_or_eq_of_new hvertices hv with hv | rfl
    · rw [hold hv] at hnode ⊢
      have hpending : (n.output_names.map (m, ·)).filter (fun q => q.1 = v) = [] := by
        rw [List.filter_eq_nil_iff]
        simp only [List.mem_map, decide_eq_true_eq]
        rintro q ⟨name, -, rfl⟩
        exact Nat.ne_of_gt hv
      rw [← h.targets hv hnode, h.map_target_names hvertices, hpending]
      rfl
    · have hnone : st.graph.target_nodes m = [] := by
        rw [List.eq_nil_iff_forall_not_mem]
        intro w hw
        exact lt_irrefl _ (h.edge_lt (BGraph.mem_target_nodes.mp hw)).1
      have hpending : (n.output_names.map (m, ·)).filter (fun q => q.1 = m) =
          n.output_names.map (m, ·) := by
        rw [List.filter_eq_self]
        simp
      rw [hnone, hnew, hpending, List.map_map]
      exact List.map_id _

theorem LinkOk.addInputs {names : List String} (h : LinkOk avail [] st)
    (hvalues : ∀ name ∈ names, ∃ value, g.getValue name = some value ∧ value.name = name)
    (hsteps : names.foldlM (addInput g) st = some st') : LinkOk (avail ++ names) [] st' := by
  induction names generalizing st avail with
  | nil =>
    obtain rfl := Option.some.inj hsteps
    simpa using h
  | cons name names ih =>
    obtain ⟨st₁, hstep, hrest⟩ := Option.bind_eq_some_iff.mp (List.foldlM_cons.symm.trans hsteps)
    obtain ⟨value, hvalue, hname⟩ := hvalues name List.mem_cons_self
    rw [addInput, hvalue] at hstep
    obtain rfl := Option.some.inj hstep
    subst hname
    have hst₁ : LinkOk (avail ++ [value.name]) [] _ := LinkOk.addValue
      { VertexInfo.ofValue value with is_input := true, is_orig_input := true }
      (show LinkOk avail (none.toList.map (·, value.name) ++ []) st from h)
      (st.graph.add_vertex _) rfl rfl (List.append_nil _).symm (by simp) fun _ => rfl
    have hst' := ih hst₁ (fun name hname => hvalues name (List.mem_cons_of_mem _ hname)) hrest
    simpa using hst'

theorem LinkOk.addNodeOutputs {v : ℕ} {names : List String}
    (h : LinkOk avail (names.map (v, ·)) st)
    (hv : v < st.graph.vertices.length) (hnode : (st.graph.info v).type = .NODE)
    (hnames : ∀ name ∈ names, name ∈ (st.graph.info v).node.output_names)
    (hvalues : ∀ name ∈ names, ∃ value, g.getValue name = some value ∧ value.name = name)
    (hsteps : names.foldlM (addNodeOutput g v) st = some st') :
    LinkOk (avail ++ names) [] st' := by
  induction names generalizing st avail with
  | nil =>
    obtain rfl := Option.some.inj hsteps
    simpa using h
  | cons name names ih =>
    obtain ⟨st₁, hstep, hrest⟩ := Option.bind_eq_some_iff.mp (List.foldlM_cons.symm.trans hsteps)
    obtain ⟨hv₁, hinfo⟩ := addNodeOutput_info hstep hv
    obtain ⟨value, hvalue, hname⟩ := hvalues name List.mem_cons_self
    rw [addNodeOutput, hvalue] at hstep
    obtain rfl := Option.some.inj hstep
    subst hname
    set vi : VertexInfo := { VertexInfo.ofValue value with
      is_output := decide (value.name ∈ g.output_names)
      is_orig_output := decide (value.name ∈ g.output_names) }
    have hproducer : ∀ v' ∈ some v, v' < st.graph.vertices.length ∧
        (st.graph.info v').type = .NODE ∧ vi.name ∈ (st.graph.info v').node.output_names := by
      intro v' hv'
      obtain rfl := Option.some.inj hv'
      exact ⟨hv, hnode, hnames _ List.mem_cons_self⟩
    have hst₁ : LinkOk (avail ++ [value.name]) (names.map (v, ·)) _ := LinkOk.addValue vi
      (show LinkOk avail ((some v).toList.map (·, value.name) ++ _) st from h)
      ((st.graph.add_vertex vi).add_edge v st.graph.vertices.length) rfl rfl rfl hproducer
      (by simp)
    have hst' := ih hst₁ hv₁ (hinfo ▸ hnode)
      (fun name hname => hinfo ▸ hnames name (List.mem_cons_of_mem _ hname))
      (fun name hname => hvalues name (List.mem_cons_of_mem _ hname)) hrest
    simpa using hst'

theorem LinkOk.addNodes {nodes : List IRNode} (h : LinkOk avail [] st)
    (hinputs : ∀ before n after, nodes = before ++ n :: after →
      ∀ name ∈ n.input_names, name ∈ avail ++ before.flatMap IRNode.output_names)
    (hvalues : ∀ n ∈ nodes, ∀ name ∈ n.output_names,
      ∃ value, g.getValue name = some value ∧ value.name = name)
    (hsteps : nodes.foldlM (addNode g) st = some st') :
    LinkOk (avail ++ nodes.flatMap IRNode.output_names) [] st' := by
  induction nodes generalizing st avail with
  | nil =>
    obtain rfl := Option.some.inj hsteps
    simpa using h
  | cons n nodes ih =>
    obtain ⟨st₁, hstep, hrest⟩ := Option.bind_eq_some_iff.mp (List.foldlM_cons.symm.trans hsteps)
    have hin : ∀ name ∈ n.input_names, name ∈ avail := by
      simpa using hinputs [] n nodes rfl
    have hnode := h.readInputs n { st.graph.add_vertex (.ofNode n) with
      edges := st.graph.edges ++ n.input_names.map fun name =>
        ((st.values.lookup name).getD 0, st.graph.vertices.length) } rfl rfl hin
    rw [addNode, foldl_addNodeInput] at hstep
    have hinfo : (st.graph.add_vertex (.ofNode n)).info st.graph.vertices.length = .ofNode n :=
      BGraph.info_add_vertex_self _
    have hst₁ : LinkOk (avail ++ n.output_names) [] st₁ :=
      hnode.addNodeOutputs (by simp) (congrArg VertexInfo.type hinfo)
        (fun name hname => (congrArg (fun vi => vi.node.output_names) hinfo).symm ▸ hname)
        (hvalues n List.mem_cons_self) hstep
    have hst' := ih hst₁ (fun before m after heq name hname => by
      simpa using hinputs (n :: before) m after (by rw [heq]; rfl) name hname)
      (fun m hm => hvalues m (List.mem_cons_of_mem _ hm)) hrest
    simpa using hst'

theorem toBGL_linkOk (hwf : g.WellFormed) {b_graph : BGraph} (h : g.toBGL = some b_graph) :
    ∃ values, LinkOk g.definedNames [] ⟨b_graph, values⟩ := by
  obtain ⟨st, hinputs, h⟩ := Option.bind_eq_some_iff.mp h
  obtain ⟨st', hnodes, h⟩ := Option.bind_eq_some_iff.mp h
  obtain rfl := Option.some.inj h
  have hst := (linkOk_nil g.name).addInputs
    (fun name hname => hwf.values name (List.mem_append_left _ hname)) hinputs
  have hst' := hst.addNodes (by simpa using hwf.sorted) (fun n hn name hname =>
    hwf.values name (mem_definedNames.mpr (Or.inr ⟨n, hn, hname⟩))) hnodes
  exact ⟨st'.values, by simpa [definedNames] using hst'⟩

variable {b_graph : BGraph}

section Vertices

variable (h : g.toBGL = some b_graph)
include h

theorem toBGL_nodes :
    (b_graph.vertices.filter fun vi => vi.type = .NODE).map VertexInfo.node = g.nodes := by
  have hnode : ∀ n, ((g.nodeVertices n).filter fun vi => vi.type = .NODE).map VertexInfo.node =
      [n] := by
    intro n
    have hnone : (n.output_names.map g.outputVertex).filter (fun vi => vi.type = .NODE) = [] := by
      rw [List.filter_eq_nil_iff]
      simp [outputVertex, VertexInfo.ofValue]
    rw [nodeVertices, List.filter_cons_of_pos (by rfl), hnone]
    rfl
  have hinputs : (g.input_names.map g.inputVertex).filter (fun vi => vi.type = .NODE) = [] := by
    rw [List.filter_eq_nil_iff]
    simp [inputVertex, VertexInfo.ofValue]
  rw [toBGL_vertices h, List.filter_append, hinputs, List.nil_append, List.filter_flatMap,
    List.map_flatMap, funext hnode, List.flatMap_singleton']

theorem mem_toBGL_values {vi : VertexInfo} : vi ∈ b_graph.vertices ∧ vi.type = .VALUE ↔
    (∃ name ∈ g.input_names, g.inputVertex name = vi) ∨
      ∃ n ∈ g.nodes, ∃ name ∈ n.output_names, g.outputVertex name = vi := by
  rw [toBGL_vertices h, List.mem_append, List.mem_map, List.mem_flatMap]
  constructor
  · rintro ⟨hinput | ⟨n, hn, hvi⟩, hvalue⟩
    · exact Or.inl hinput
    · rcases mem_nodeVertices.mp hvi with rfl | hout
      · exact absurd hvalue nofun
      · exact Or.inr ⟨n, hn, hout⟩
  · rintro (⟨name, hname, rfl⟩ | ⟨n, hn, name, hname, rfl⟩)
    · exact ⟨Or.inl ⟨name, hname, rfl⟩, rfl⟩
    · exact ⟨Or.inr ⟨n, hn, mem_nodeVertices.mpr (Or.inr ⟨name, hname, rfl⟩)⟩, rfl⟩

variable (hwf : g.WellFormed)
include hwf

/-- The values that are there again are those that the graph defines. -/
theorem mem_toBGL_names {name : String} {value : IRValue} :
    (∃ vi ∈ b_graph.vertices, vi.type = .VALUE ∧ (vi.name, vi.value) = (name, value)) ↔
      name ∈ g.definedNames ∧ g.getValue name = some value := by
  have hentry : ∀ n ∈ g.definedNames, ∃ v, g.getValue n = some v ∧
      ((g.inputVertex n).name, (g.inputVertex n).value) = (n, v) ∧
      ((g.outputVertex n).name, (g.outputVertex n).value) = (n, v) := by
    intro n hn
    obtain ⟨v, hv, -⟩ := hwf.values n hn
    rw [inputVertex_name hwf hn, outputVertex_name hwf hn]
    simp [inputVertex, outputVertex, VertexInfo.ofValue, hv]
  simp only [← and_assoc, mem_toBGL_values h]
  constructor
  · rintro ⟨vi, ⟨n, hn, rfl⟩ | ⟨m, hm, n, hn, rfl⟩, heq⟩
    · have hdefined : n ∈ g.definedNames := List.mem_append_left _ hn
      obtain ⟨v, hv, hin, -⟩ := hentry n hdefined
      obtain ⟨rfl, rfl⟩ := Prod.mk.inj (hin.symm.trans heq)
      exact ⟨hdefined, hv⟩
    · have hdefined : n ∈ g.definedNames := mem_definedNames.mpr (Or.inr ⟨m, hm, hn⟩)
      obtain ⟨v, hv, -, hout⟩ := hentry n hdefined
      obtain ⟨rfl, rfl⟩ := Prod.mk.inj (hout.symm.trans heq)
      exact ⟨hdefined, hv⟩
  · rintro ⟨hdefined, hvalue⟩
    obtain ⟨v, hv, hin, hout⟩ := hentry name hdefined
    obtain rfl := Option.some.inj (hvalue.symm.trans hv)
    rcases mem_definedNames.mp hdefined with hname | ⟨m, hm, hname⟩
    · exact ⟨_, Or.inl ⟨name, hname, rfl⟩, hin⟩
    · exact ⟨_, Or.inr ⟨m, hm, name, hname, rfl⟩, hout⟩

end Vertices

end IRGraph

/-- What is known of the graph: vertices have different ids and edges lead forward. -/
structure BGraph.Linked (g : IRGraph) (bg : BGraph) : Prop where
  ids : (bg.vertices.map VertexInfo.id).Nodup
  edge : ∀ {v w}, (v, w) ∈ bg.edges → v < w ∧ w < bg.vertices.length
  type_ne : ∀ {v w}, (v, w) ∈ bg.edges → (bg.info v).type ≠ (bg.info w).type
  unique : ∀ {v v' w}, (v, w) ∈ bg.edges → (v', w) ∈ bg.edges → (bg.info w).type = .VALUE → v = v'
  targets : ∀ {v}, v < bg.vertices.length → (bg.info v).type = .NODE →
    (bg.target_nodes v).map (fun w => (bg.info w).name) = (bg.info v).node.output_names
  value_id : ∀ {v}, v < bg.vertices.length → (bg.info v).type = .VALUE →
    (bg.info v).id = "v_" ++ (bg.info v).name
  value : ∀ {v}, v < bg.vertices.length → (bg.info v).type = .VALUE →
    (bg.info v).name ∈ g.definedNames ∧ g.getValue (bg.info v).name = some (bg.info v).value ∧
      (bg.info v).is_param = (bg.info v).value.is_param
  node : ∀ {v}, v < bg.vertices.length → (bg.info v).type = .NODE → (bg.info v).node ∈ g.nodes

theorem BGraph.Linked.acyclic {g : IRGraph} {bg : BGraph} (hlinked : bg.Linked g) :
    Acyclic (Edge bg.edges) :=
  acyclic_of_rank (fun v => v) fun hvw => (hlinked.edge hvw).1

section Linked

open IRGraph

variable {g : IRGraph} {bg : BGraph}

theorem nodeVertices_ids (hwf : g.WellFormed) {nodes : List IRNode} (hnodes : nodes ⊆ g.nodes) :
    ((nodes.flatMap g.nodeVertices).map VertexInfo.id).Perm
      ((nodes.flatMap IRNode.output_names).map ("v_" ++ ·) ++ nodes.map IRNode.id) := by
  induction nodes with
  | nil => exact .nil
  | cons n nodes ih =>
    obtain ⟨hn, hnodes⟩ := List.cons_subset.mp hnodes
    have houts : (n.output_names.map g.outputVertex).map VertexInfo.id =
        n.output_names.map ("v_" ++ ·) := by
      rw [List.map_map]
      refine List.map_congr_left fun name hname => ?_
      have hdefined : name ∈ g.definedNames := mem_definedNames.mpr (Or.inr ⟨n, hn, hname⟩)
      exact congrArg ("v_" ++ ·) (outputVertex_name hwf hdefined)
    rw [List.flatMap_cons, List.map_append, nodeVertices, List.map_cons, houts, List.flatMap_cons,
      List.map_append, List.map_cons, List.append_assoc]
    refine ((ih hnodes).append_left _).trans ?_
    refine List.Perm.trans ?_ (List.Perm.append_left _ List.perm_middle.symm)
    exact List.perm_middle.symm

theorem toBGL_linked (hwf : g.WellFormed) (h : g.toBGL = some bg) : bg.Linked g := by
  obtain ⟨values, hok⟩ := toBGL_linkOk hwf h
  have hinfo : ∀ {v}, v < bg.vertices.length → (bg.info v).type = .VALUE →
      ∃ name ∈ g.definedNames,
        bg.info v = g.inputVertex name ∨ bg.info v = g.outputVertex name := by
    intro v hv hvalue
    rcases (mem_toBGL_values h).mp ⟨BGraph.info_mem hv, hvalue⟩ with
      ⟨name, hname, heq⟩ | ⟨n, hn, name, hname, heq⟩
    · exact ⟨name, List.mem_append_left _ hname, Or.inl heq.symm⟩
    · exact ⟨name, mem_definedNames.mpr (Or.inr ⟨n, hn, hname⟩), Or.inr heq.symm⟩
  constructor
  case ids =>
    have hinputs : (g.input_names.map g.inputVertex).map VertexInfo.id =
        g.input_names.map ("v_" ++ ·) := by
      rw [List.map_map]
      refine List.map_congr_left fun name hname => ?_
      exact congrArg ("v_" ++ ·) (inputVertex_name hwf (List.mem_append_left _ hname))
    rw [toBGL_vertices h, List.map_append, hinputs]
    have hperm := (nodeVertices_ids hwf (List.Subset.refl g.nodes)).append_left
      (g.input_names.map ("v_" ++ ·))
    rw [← List.append_assoc, ← List.map_append] at hperm
    exact hperm.nodup_iff.mpr hwf.ids_nodup
  case edge => exact hok.edge
  case type_ne => exact hok.type_ne
  case unique => exact hok.unique
  case targets =>
    intro v hv hnode
    simpa using hok.targets hv hnode
  case value_id =>
    intro v hv hvalue
    obtain ⟨name, -, heq | heq⟩ := hinfo hv hvalue <;> rw [heq] <;> rfl
  case value =>
    intro v hv hvalue
    obtain ⟨name, hname, heq⟩ := hinfo hv hvalue
    obtain ⟨value, hget, rfl⟩ := hwf.values name hname
    have hvertex : (bg.info v).name = value.name ∧ (bg.info v).value = value ∧
        (bg.info v).is_param = value.is_param := by
      rcases heq with heq | heq <;> rw [heq] <;>
        simp [inputVertex, outputVertex, VertexInfo.ofValue, hget]
    obtain ⟨hvname, hvvalue, hvparam⟩ := hvertex
    rw [hvname, hvvalue]
    exact ⟨hname, hget, hvparam⟩
  case node =>
    intro v hv hnode
    rw [← toBGL_nodes h]
    exact List.mem_map_of_mem
      (List.mem_filter.mpr ⟨BGraph.info_mem hv, decide_eq_true hnode⟩)

end Linked

end Rannc
