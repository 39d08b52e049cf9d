import Rannc.Graph.RoundTrip

/-!
# Guessing which values are batches

The inputs are batches or parameters. In topological order a node is a loss, a batch, a parameter or
a constant after what it reads and after the types of its outputs, by the first rule that matches,
and a value is what its node is. Batches and losses are marked. Assertions are left out, as in a
release build.
-/
namespace Rannc

open Rannc.Digraph

inductive ValueType
  | BATCH
  | PARAM
  | CONST
  | LOSS
  | UNKNOWN
  deriving DecidableEq, Repr

namespace IRType

mutual

/-- The code has no case for a function. -/
def isTensorOrTensorList : IRType → Bool
  | scalar _ => false
  | tensor _ _ _ => true
  | list list_type _ => list_type = .TENSOR
  | tuple compound_types => allTensorOrTensorList compound_types
  | string => false
  | optional _ => false
  | none => false
  | function _ => false

def allTensorOrTensorList : List IRType → Bool
  | [] => true
  | type :: types => isTensorOrTensorList type && allTensorOrTensorList types

end

end IRType

/-- A scalar that combines two batches, or that is made of losses. -/
def matchLossRule (src_types : List ValueType) (tgt_ir_types : List IRType) : Bool :=
  match tgt_ir_types with
  | [tgt_ir_type] =>
    let batch_count := src_types.count .BATCH
    let loss_count := src_types.count .LOSS
    tgt_ir_type.getBaseType = .TENSOR && tgt_ir_type.getTensorDim = [] &&
      (0 < loss_count && batch_count = 0 || batch_count = 2)
  | _ => false

def matchBatchRule (src_types : List ValueType) (tgt_ir_types : List IRType) : Bool :=
  src_types.count .BATCH ≠ 0 && 0 < tgt_ir_types.countP IRType.isTensorOrTensorList

def matchParamRule (src_types : List ValueType) : Bool := src_types.count .PARAM = 1

/-- This matches always. -/
def matchConstRule (src_types : List ValueType) : Bool := 0 ≤ src_types.count .CONST

/-- The first rule that matches. -/
def guessNodeType (src_types : List ValueType) (tgt_ir_types : List IRType) : Option ValueType :=
  if matchLossRule src_types tgt_ir_types then some .LOSS
  else if matchBatchRule src_types tgt_ir_types then some .BATCH
  else if matchParamRule src_types then some .PARAM
  else if matchConstRule src_types then some .CONST
  else none

def IRValue.mark (value : IRValue) : ValueType → IRValue
  | .BATCH => { value with is_batch := true }
  | .LOSS => { value with is_loss := true }
  | .PARAM | .CONST | .UNKNOWN => value

def IRNode.mark (node : IRNode) : ValueType → IRNode
  | .BATCH => { node with is_batch := true }
  | .LOSS => { node with is_criterion := true }
  | .PARAM | .CONST | .UNKNOWN => node

/-- The tables while the types are guessed. -/
structure GuessState where
  types : Dict String ValueType
  values : List (String × IRValue)
  node_map : Dict String IRNode

/-- Change the value with a name, which has to be there. -/
def updateValue (values : List (String × IRValue)) (name : String) (f : IRValue → IRValue) :
    Option (List (String × IRValue)) := do
  let value ← values.lookup name
  return values.map fun it => if it.1 = name then (name, f value) else it

namespace BGraph

variable (bg : BGraph)

def graph_input_nodes : List ℕ := bg.all_nodes.filter fun v => bg.source_nodes v = []

def graph_param_input_nodes : List ℕ :=
  bg.all_nodes.filter fun v =>
    bg.source_nodes v = [] ∧ (bg.info v).type = .VALUE ∧ (bg.info v).is_param

def toValueTypes (vertices : List ℕ) (types : Dict String ValueType) : Option (List ValueType) :=
  vertices.mapM fun v => types.get (bg.info v).id

def toIRTypes (vertices : List ℕ) : List IRType := vertices.map fun v => (bg.info v).value.type

def guessRegularInput (st : GuessState) (v : ℕ) : Option GuessState := do
  let values ← updateValue st.values (bg.info v).name fun in_val => { in_val with is_batch := true }
  return { st with values := values, types := st.types.set (bg.info v).id .BATCH }

def guessParamInput (st : GuessState) (v : ℕ) : Option GuessState := do
  let values ← updateValue st.values (bg.info v).name fun param_val =>
    { param_val with is_param := true }
  return { st with values := values, types := st.types.set (bg.info v).id .PARAM }

/-- What is left without a source is a node. -/
def guessConstInput (st : GuessState) (v : ℕ) : GuessState :=
  if (st.types.get (bg.info v).id).isSome then st
  else { st with types := st.types.set (bg.info v).id .CONST }

/-- A value is what its node is. -/
def guessValue (st : GuessState) (v : ℕ) (src_types : List ValueType) : Option GuessState := do
  let src_type ← src_types.head?
  let types := st.types.set (bg.info v).id src_type
  match src_type with
  | .BATCH | .LOSS =>
    let values ← updateValue st.values (bg.info v).name (·.mark src_type)
    return { st with types := types, values := values }
  | .PARAM | .CONST | .UNKNOWN => return { st with types := types }

def guessNode (st : GuessState) (v : ℕ) (src_types : List ValueType) : Option GuessState := do
  let type ← guessNodeType src_types (bg.toIRTypes (bg.target_nodes v))
  let types := st.types.set (bg.info v).id type
  match type with
  | .BATCH | .LOSS =>
    let ir_node ← st.node_map.get (bg.info v).id
    let node_map := st.node_map.set (bg.info v).id (ir_node.mark type)
    return { st with types := types, node_map := node_map }
  | .PARAM | .CONST | .UNKNOWN => return { st with types := types }

def guessVertex (st : GuessState) (v : ℕ) : Option GuessState :=
  if (st.types.get (bg.info v).id).isSome then some st
  else do
    let src_types ← bg.toValueTypes (bg.source_nodes v) st.types
    match (bg.info v).type with
    | .VALUE => bg.guessValue st v src_types
    | .NODE => bg.guessNode st v src_types

/-- The nodes by their ids. -/
def nodeMap (vertices : List ℕ) : Dict String IRNode :=
  Dict.ofList ((vertices.filter fun v => (bg.info v).type = .NODE).map fun v =>
    ((bg.info v).id, (bg.info v).node))

end BGraph

def guessValueTypes (sort : TopologicalSort) (g : IRGraph) : Option IRGraph := do
  let bg ← g.toBGL
  let topo_vertices := all_nodes_topo sort bg
  let st ← bg.graph_regular_input_nodes.foldlM bg.guessRegularInput
    ⟨.empty, g.values, bg.nodeMap topo_vertices⟩
  let st ← bg.graph_param_input_nodes.foldlM bg.guessParamInput st
  let st := bg.graph_input_nodes.foldl bg.guessConstInput st
  let st ← topo_vertices.foldlM bg.guessVertex st
  let nodes ← (topo_vertices.filter fun v => (bg.info v).type = .NODE).mapM fun v =>
    st.node_map.get (bg.info v).id
  IRGraph.create g.name nodes st.values g.input_names g.output_names

namespace IRGraph

/-- Nothing is a batch or a loss yet, and what a node writes is not a parameter. -/
structure Unmarked (g : IRGraph) : Prop where
  values : ∀ name value, g.getValue name = some value →
    value.is_batch = false ∧ value.is_loss = false
  nodes : ∀ n ∈ g.nodes, n.is_batch = false ∧ n.is_criterion = false
  written : ∀ n ∈ g.nodes, ∀ out ∈ n.output_names, ∀ value, g.getValue out = some value →
    value.is_param = false

theorem Unmarked.of_checks {g : IRGraph}
    (hvalues : ∀ it ∈ g.values, it.2.is_batch = false ∧ it.2.is_loss = false)
    (hnodes : ∀ n ∈ g.nodes, n.is_batch = false ∧ n.is_criterion = false)
    (hwritten : ∀ n ∈ g.nodes, ∀ out ∈ n.output_names,
      (g.getValue out).all fun value => value.is_param = false) : g.Unmarked := by
  refine ⟨fun name value hvalue => ?_, hnodes, fun n hn out hout value hvalue => ?_⟩
  · obtain ⟨l₁, l₂, hsplit, -⟩ := List.lookup_eq_some_iff.mp hvalue
    exact hvalues (name, value) (hsplit ▸ by simp)
  · simpa [hvalue] using hwritten n hn out hout

/-- The value is marked as a batch. -/
def IsBatch (g : IRGraph) (name : String) : Prop :=
  ∃ value, g.getValue name = some value ∧ value.is_batch = true

/-- The value is a tensor without dimensions that is marked as a loss. -/
def IsScalarLoss (g : IRGraph) (name : String) : Prop :=
  ∃ value, g.getValue name = some value ∧ value.type.getBaseType = .TENSOR ∧
    value.type.getTensorDim = [] ∧ value.is_loss = true

/-- The marks of nodes and values agree. -/
structure MarksAgree (g : IRGraph) : Prop where
  batch_all : ∀ n ∈ g.nodes, n.output_names ≠ [] →
    (n.is_batch = true ↔ ∀ out ∈ n.output_names, g.IsBatch out)
  batch_some : ∀ n ∈ g.nodes, n.output_names ≠ [] →
    (n.is_batch = true ↔ ∃ out ∈ n.output_names, g.IsBatch out)
  criterion : ∀ n ∈ g.nodes, n.is_criterion = true ↔
    ∃ out, n.output_names = [out] ∧ g.IsScalarLoss out
  one_mark : ∀ name value, g.getValue name = some value →
    ¬(value.is_param = true ∧ value.is_batch = true) ∧
      ¬(value.is_param = true ∧ value.is_loss = true) ∧
      ¬(value.is_batch = true ∧ value.is_loss = true)

end IRGraph

/-- The type of a single tensor without dimensions. -/
def ScalarTarget (tgt_ir_types : List IRType) : Prop :=
  ∃ type, tgt_ir_types = [type] ∧ type.getBaseType = .TENSOR ∧ type.getTensorDim = []

theorem exists_guessNodeType (src_types : List ValueType) (tgt_ir_types : List IRType) :
    ∃ type, guessNodeType src_types tgt_ir_types = some type ∧
      (type = .LOSS → ScalarTarget tgt_ir_types) := by
  unfold guessNodeType
  split_ifs with hloss hbatch hparam hconst
  · refine ⟨.LOSS, rfl, fun _ => ?_⟩
    unfold matchLossRule at hloss
    split at hloss
    case h_1 type =>
      simp only [Bool.and_eq_true, decide_eq_true_eq] at hloss
      exact ⟨type, rfl, hloss.1.1, hloss.1.2⟩
    case h_2 => exact absurd hloss nofun
  · exact ⟨.BATCH, rfl, nofun⟩
  · exact ⟨.PARAM, rfl, nofun⟩
  · exact ⟨.CONST, rfl, nofun⟩
  · exact absurd (decide_eq_true (Nat.zero_le _)) hconst

theorem lookup_updateValue {values values' : List (String × IRValue)} {name : String}
    {f : IRValue → IRValue} {value : IRValue} (hvalue : values.lookup name = some value)
    (h : updateValue values name f = some values') (k : String) :
    values'.lookup k = if k = name then some (f value) else values.lookup k := by
  rw [updateValue, hvalue] at h
  obtain rfl := Option.some.inj h
  rw [Dict.lookup_map_set]
  have hmem : name ∈ values.map Prod.fst := by
    obtain ⟨l₁, l₂, rfl, -⟩ := List.lookup_eq_some_iff.mp hvalue
    simp
  simp [hmem]

theorem exists_updateValue {values : List (String × IRValue)} {name : String} {value : IRValue}
    (hvalue : values.lookup name = some value) (f : IRValue → IRValue) :
    ∃ values', updateValue values name f = some values' := by
  rw [updateValue, hvalue]
  exact ⟨_, rfl⟩

section Guessed

variable (g : IRGraph) (bg : BGraph)

/-- The marks are those of the types that are known; a value is what its node is, and a loss has a
scalar output. -/
structure Guessed (st : GuessState) : Prop where
  value : ∀ {v}, v < bg.vertices.length → (bg.info v).type = .VALUE →
    st.values.lookup (bg.info v).name =
      some ((st.types.get (bg.info v).id).elim (bg.info v).value (bg.info v).value.mark)
  other : ∀ name ∉ g.definedNames, st.values.lookup name = g.getValue name
  node : ∀ {v}, v < bg.vertices.length → (bg.info v).type = .NODE →
    st.node_map.get (bg.info v).id =
      some ((st.types.get (bg.info v).id).elim (bg.info v).node (bg.info v).node.mark)
  follows : ∀ {v w type}, (v, w) ∈ bg.edges → (bg.info w).type = .VALUE →
    st.types.get (bg.info w).id = some type → st.types.get (bg.info v).id = some type
  loss : ∀ {v}, v < bg.vertices.length → (bg.info v).type = .NODE →
    st.types.get (bg.info v).id = some .LOSS → ScalarTarget (bg.toIRTypes (bg.target_nodes v))
  param : ∀ {v type}, v < bg.vertices.length → (bg.info v).type = .VALUE →
    (bg.info v).is_param = true → st.types.get (bg.info v).id = some type → type = .PARAM

end Guessed

section Steps

variable {g : IRGraph} {bg : BGraph} (hlinked : bg.Linked g) {st : GuessState} {v : ℕ}
include hlinked

theorem BGraph.Linked.edge_lt {v w : ℕ} (hvw : (v, w) ∈ bg.edges) :
    v < bg.vertices.length ∧ w < bg.vertices.length := by
  obtain ⟨hlt, hw⟩ := hlinked.edge hvw
  exact ⟨hlt.trans hw, hw⟩

/-- Giving a type to a vertex that has none, and the mark of the type. -/
theorem Guessed.set (h : Guessed g bg st) (hv : v < bg.vertices.length)
    (hnone : st.types.get (bg.info v).id = none) (type : ValueType)
    {values : List (String × IRValue)} {node_map : Dict String IRNode}
    (hvalues : ∀ name, values.lookup name =
      if (bg.info v).type = .VALUE ∧ name = (bg.info v).name then
        some ((bg.info v).value.mark type) else st.values.lookup name)
    (hnodes : ∀ id, node_map.get id =
      if (bg.info v).type = .NODE ∧ id = (bg.info v).id then
        some ((bg.info v).node.mark type) else st.node_map.get id)
    (hfollows : (bg.info v).type = .VALUE → ∀ u, (u, v) ∈ bg.edges →
      st.types.get (bg.info u).id = some type)
    (hloss : (bg.info v).type = .NODE → type = .LOSS →
      ScalarTarget (bg.toIRTypes (bg.target_nodes v)))
    (hparam : (bg.info v).type = .VALUE → (bg.info v).is_param = true → type = .PARAM) :
    Guessed g bg ⟨st.types.set (bg.info v).id type, values, node_map⟩ := by
  have hid : ∀ {w}, w < bg.vertices.length → w ≠ v → (bg.info w).id ≠ (bg.info v).id :=
    fun hw hne heq => hne (BGraph.id_inj hlinked.ids hw hv heq)
  have hself : (st.types.set (bg.info v).id type).get (bg.info v).id = some type := by
    rw [Dict.get_set, if_pos rfl]
  have hother : ∀ {w}, w < bg.vertices.length → w ≠ v →
      (st.types.set (bg.info v).id type).get (bg.info w).id = st.types.get (bg.info w).id :=
    fun hw hne => by rw [Dict.get_set, if_neg (hid hw hne)]
  constructor
  case value =>
    intro w hw hvalue
    rw [hvalues]
    by_cases hwv : w = v
    · subst hwv
      rw [if_pos ⟨hvalue, rfl⟩, hself]
      rfl
    · have hname : ¬((bg.info v).type = .VALUE ∧ (bg.info w).name = (bg.info v).name) := by
        rintro ⟨hvvalue, hname⟩
        apply hid hw hwv
        rw [hlinked.value_id hw hvalue, hlinked.value_id hv hvvalue, hname]
      rw [if_neg hname, hother hw hwv]
      exact h.value hw hvalue
  case other =>
    intro name hname
    rw [hvalues, if_neg, h.other name hname]
    rintro ⟨hvalue, rfl⟩
    exact hname (hlinked.value hv hvalue).1
  case node =>
    intro w hw hnode
    rw [hnodes]
    by_cases hwv : w = v
    · subst hwv
      rw [if_pos ⟨hnode, rfl⟩, hself]
      rfl
    · rw [if_neg fun hboth => hid hw hwv hboth.2, hother hw hwv]
      exact h.node hw hnode
  case follows =>
    intro u w type' huw hvalue htype
    obtain ⟨hu, hw⟩ := hlinked.edge_lt huw
    by_cases hwv : w = v
    · subst hwv
      have huw_ne : u ≠ w := Nat.ne_of_lt (hlinked.edge huw).1
      rw [hself, Option.some.injEq] at htype
      rw [hother hu huw_ne, ← htype]
      exact hfollows hvalue u huw
    · rw [hother hw hwv] at htype
      have hsource := h.follows huw hvalue htype
      have huv : u ≠ v := by
        rintro rfl
        exact absurd (hnone.symm.trans hsource) nofun
      rwa [hother hu huv]
  case loss =>
    intro w hw hnode htype
    by_cases hwv : w = v
    · subst hwv
      rw [hself, Option.some.injEq] at htype
      exact hloss hnode htype
    · rw [hother hw hwv] at htype
      exact h.loss hw hnode htype
  case param =>
    intro w type' hw hvalue hwparam htype
    by_cases hwv : w = v
    · subst hwv
      rw [hself, Option.some.injEq] at htype
      exact htype ▸ hparam hvalue hwparam
    · rw [hother hw hwv] at htype
      exact h.param hw hvalue hwparam htype

/-- A turn gives a type to one vertex, if it has none. -/
structure GuessTurn (g : IRGraph) (bg : BGraph) (v : ℕ) (st st' : GuessState) : Prop where
  ok : Guessed g bg st'
  typed : (st'.types.get (bg.info v).id).isSome
  kept : ∀ {w}, w < bg.vertices.length → w ≠ v →
    st'.types.get (bg.info w).id = st.types.get (bg.info w).id

omit hlinked in
theorem GuessTurn.skip (h : Guessed g bg st) (htyped : (st.types.get (bg.info v).id).isSome) :
    GuessTurn g bg v st st :=
  ⟨h, htyped, fun _ _ => rfl⟩

theorem GuessTurn.of_set (hv : v < bg.vertices.length) {type : ValueType} {st' : GuessState}
    (htypes : st'.types = st.types.set (bg.info v).id type) (hok : Guessed g bg st') :
    GuessTurn g bg v st st' := by
  refine ⟨hok, ?_, fun hw hne => ?_⟩
  · rw [htypes, Dict.get_set, if_pos rfl]
    rfl
  · rw [htypes, Dict.get_set, if_neg fun heq => hne (BGraph.id_inj hlinked.ids hw hv heq)]

theorem guessInput_turn (h : Guessed g bg st) (hv : v < bg.vertices.length)
    (hsource : bg.source_nodes v = []) (hvalue : (bg.info v).type = .VALUE)
    (hnone : st.types.get (bg.info v).id = none) (type : ValueType) (f : IRValue → IRValue)
    (hf : f (bg.info v).value = (bg.info v).value.mark type)
    (hparam : (bg.info v).is_param = true → type = .PARAM) :
    ∃ values, updateValue st.values (bg.info v).name f = some values ∧
      GuessTurn g bg v st { st with
        values := values, types := st.types.set (bg.info v).id type } := by
  have hlookup := h.value hv hvalue
  rw [hnone, Option.elim_none] at hlookup
  obtain ⟨values, hvalues⟩ := exists_updateValue hlookup f
  refine ⟨values, hvalues, .of_set hlinked hv rfl (h.set hlinked hv hnone type ?_ ?_ ?_ ?_ ?_)⟩
  · intro name
    rw [lookup_updateValue hlookup hvalues, hf]
    simp [hvalue]
  · simp [hvalue]
  · intro _ u hu
    rw [← BGraph.mem_source_nodes, hsource] at hu
    exact absurd hu List.not_mem_nil
  · intro hnode
    simp [hvalue] at hnode
  · exact fun _ => hparam

theorem guessRegularInput_turn (h : Guessed g bg st) (hv : v ∈ bg.graph_regular_input_nodes)
    (hnone : st.types.get (bg.info v).id = none) :
    ∃ st', bg.guessRegularInput st v = some st' ∧ GuessTurn g bg v st st' := by
  obtain ⟨hlt, hsource, hvalue, hregular⟩ := by
    simpa [BGraph.graph_regular_input_nodes, BGraph.all_nodes] using hv
  obtain ⟨values, hvalues, hturn⟩ := guessInput_turn hlinked h hlt hsource hvalue hnone .BATCH
    (fun in_val => { in_val with is_batch := true }) rfl
    (fun hparam => by simp [hregular] at hparam)
  exact ⟨_, by rw [BGraph.guessRegularInput, hvalues]; rfl, hturn⟩

theorem guessParamInput_turn (h : Guessed g bg st) (hv : v ∈ bg.graph_param_input_nodes)
    (hnone : st.types.get (bg.info v).id = none) :
    ∃ st', bg.guessParamInput st v = some st' ∧ GuessTurn g bg v st st' := by
  obtain ⟨hlt, hsource, hvalue, hparam⟩ := by
    simpa [BGraph.graph_param_input_nodes, BGraph.all_nodes] using hv
  have hset : (bg.info v).value.is_param = true :=
    (hlinked.value hlt hvalue).2.2.symm.trans hparam
  obtain ⟨values, hvalues, hturn⟩ := guessInput_turn hlinked h hlt hsource hvalue hnone .PARAM
    (fun param_val => { param_val with is_param := true })
    (by rw [IRValue.mark, ← hset]) (fun _ => rfl)
  exact ⟨_, by rw [BGraph.guessParamInput, hvalues]; rfl, hturn⟩

/-- Values without a source have a type already. -/
theorem guessConstInput_turn (h : Guessed g bg st) (hv : v ∈ bg.graph_input_nodes)
    (htyped : (bg.info v).type = .VALUE → (st.types.get (bg.info v).id).isSome) :
    GuessTurn g bg v st (bg.guessConstInput st v) := by
  obtain ⟨hlt, hsource⟩ := by
    simpa [BGraph.graph_input_nodes, BGraph.all_nodes] using hv
  unfold BGraph.guessConstInput
  split_ifs with hsome
  · exact .skip h hsome
  · have hnone : st.types.get (bg.info v).id = none := by simpa using hsome
    have hnode : (bg.info v).type = .NODE := by
      cases htype : (bg.info v).type with
      | VALUE => exact absurd (htyped htype) hsome
      | NODE => rfl
    have hmap := h.node hlt hnode
    rw [hnone, Option.elim_none] at hmap
    refine .of_set hlinked hlt rfl (h.set hlinked hlt hnone .CONST ?_ ?_ ?_ ?_ ?_)
    · simp [hnode]
    · intro id
      split_ifs with hid
      · rw [hid.2, hmap]
        rfl
      · rfl
    · intro hvalue
      simp [hnode] at hvalue
    · simp
    · intro hvalue
      simp [hnode] at hvalue

/-- Where the mark of a type is nothing, the tables stay. -/
theorem guessValue_turn (hunmarked : g.Unmarked) (h : Guessed g bg st)
    (hv : v < bg.vertices.length) (hvalue : (bg.info v).type = .VALUE)
    (hnone : st.types.get (bg.info v).id = none) {u : ℕ} (huv : (u, v) ∈ bg.edges)
    {type : ValueType} (htype : st.types.get (bg.info u).id = some type)
    {src_types : List ValueType} (hhead : src_types.head? = some type) :
    ∃ st', bg.guessValue st v src_types = some st' ∧ GuessTurn g bg v st st' := by
  have hlookup := h.value hv hvalue
  rw [hnone, Option.elim_none] at hlookup
  have hset : ∀ {values : List (String × IRValue)}, (∀ name, values.lookup name =
      if name = (bg.info v).name then some ((bg.info v).value.mark type)
      else st.values.lookup name) → Guessed g bg
        { st with types := st.types.set (bg.info v).id type, values := values } := by
    intro values hvalues
    refine h.set hlinked hv hnone type ?_ ?_ ?_ ?_ ?_
    · simpa [hvalue] using hvalues
    · simp [hvalue]
    · intro _ u' hu'
      rwa [hlinked.unique hu' huv hvalue]
    · intro hnode
      simp [hvalue] at hnode
    · -- what a node writes is not a parameter
      intro _ hparam
      obtain ⟨hu, -⟩ := hlinked.edge_lt huv
      have hnode : (bg.info u).type = .NODE := by
        have hne := hlinked.type_ne huv
        cases hu : (bg.info u).type with
        | VALUE => exact absurd (hu.trans hvalue.symm) hne
        | NODE => rfl
      have hwrite : (bg.info v).name ∈ (bg.info u).node.output_names := by
        rw [← hlinked.targets hu hnode]
        exact List.mem_map_of_mem (BGraph.mem_target_nodes.mpr huv)
      obtain ⟨-, hget, hvparam⟩ := hlinked.value hv hvalue
      have hnot := hunmarked.written _ (hlinked.node hu hnode) _ hwrite _ hget
      exact absurd (hvparam.symm.trans hparam) (by simp [hnot])
  rw [BGraph.guessValue, hhead]
  cases type with
  | BATCH =>
    obtain ⟨values, hvalues⟩ := exists_updateValue hlookup (·.mark .BATCH)
    refine ⟨_, by simp only [Option.bind_eq_bind, Option.bind_some, hvalues]; rfl, ?_⟩
    exact .of_set hlinked hv rfl (hset (lookup_updateValue hlookup hvalues))
  | LOSS =>
    obtain ⟨values, hvalues⟩ := exists_updateValue hlookup (·.mark .LOSS)
    refine ⟨_, by simp only [Option.bind_eq_bind, Option.bind_some, hvalues]; rfl, ?_⟩
    exact .of_set hlinked hv rfl (hset (lookup_updateValue hlookup hvalues))
  | PARAM | CONST | UNKNOWN =>
    refine ⟨_, rfl, .of_set hlinked hv rfl (hset fun name => ?_)⟩
    split_ifs with hname
    · rw [hname, hlookup]
      rfl
    · rfl

theorem guessNode_turn (h : Guessed g bg st) (hv : v < bg.vertices.length)
    (hnode : (bg.info v).type = .NODE) (hnone : st.types.get (bg.info v).id = none)
    (src_types : List ValueType) :
    ∃ st', bg.guessNode st v src_types = some st' ∧ GuessTurn g bg v st st' := by
  obtain ⟨type, hguess, hloss⟩ := exists_guessNodeType src_types
    (bg.toIRTypes (bg.target_nodes v))
  have hmap := h.node hv hnode
  rw [hnone, Option.elim_none] at hmap
  have hset : ∀ {node_map : Dict String IRNode}, (∀ id, node_map.get id =
      if id = (bg.info v).id then some ((bg.info v).node.mark type)
      else st.node_map.get id) → Guessed g bg
        { st with types := st.types.set (bg.info v).id type, node_map := node_map } := by
    intro node_map hnodes
    refine h.set hlinked hv hnone type ?_ ?_ ?_ ?_ ?_
    · simp [hnode]
    · simpa [hnode] using hnodes
    · intro hvalue
      simp [hnode] at hvalue
    · exact fun _ => hloss
    · intro hvalue
      simp [hnode] at hvalue
  rw [BGraph.guessNode, hguess]
  cases type with
  | BATCH =>
    refine ⟨_, by simp only [Option.bind_eq_bind, Option.bind_some, hmap]; rfl, ?_⟩
    exact .of_set hlinked hv rfl (hset fun id => Dict.get_set _ _ _ _)
  | LOSS =>
    refine ⟨_, by simp only [Option.bind_eq_bind, Option.bind_some, hmap]; rfl, ?_⟩
    exact .of_set hlinked hv rfl (hset fun id => Dict.get_set _ _ _ _)
  | PARAM | CONST | UNKNOWN =>
    refine ⟨_, rfl, .of_set hlinked hv rfl (hset fun id => ?_)⟩
    split_ifs with hid
    · rw [hid, hmap]
      rfl
    · rfl

theorem guessVertex_turn (hunmarked : g.Unmarked) (h : Guessed g bg st)
    (hv : v < bg.vertices.length)
    (hsources : ∀ u, (u, v) ∈ bg.edges → (st.types.get (bg.info u).id).isSome)
    (hinput : bg.source_nodes v = [] → (st.types.get (bg.info v).id).isSome) :
    ∃ st', bg.guessVertex st v = some st' ∧ GuessTurn g bg v st st' := by
  unfold BGraph.guessVertex
  split_ifs with hsome
  · exact ⟨st, rfl, .skip h hsome⟩
  · have hnone : st.types.get (bg.info v).id = none := by simpa using hsome
    obtain ⟨src_types, hsrc⟩ : ∃ src_types,
        bg.toValueTypes (bg.source_nodes v) st.types = some src_types :=
      mapM_of_forall_some fun u hu => hsources u (BGraph.mem_source_nodes.mp hu)
    rw [hsrc]
    cases htype : (bg.info v).type with
    | NODE => exact guessNode_turn hlinked h hv htype hnone src_types
    | VALUE =>
      obtain ⟨u, us, hus⟩ := List.exists_cons_of_ne_nil fun hnil => hsome (hinput hnil)
      have huv : (u, v) ∈ bg.edges := BGraph.mem_source_nodes.mp (hus ▸ List.mem_cons_self)
      obtain ⟨type, hutype⟩ := Option.isSome_iff_exists.mp (hsources u huv)
      refine guessValue_turn hlinked hunmarked h hv htype hnone huv hutype ?_
      rw [BGraph.toValueTypes, hus, List.mapM_cons, hutype] at hsrc
      rw [Option.bind_eq_bind, Option.bind_some] at hsrc
      obtain ⟨rest, -, hrest⟩ := Option.bind_eq_some_iff.mp hsrc
      obtain rfl := Option.some.inj hrest
      rfl

/-- What a loop over the vertices has done so far. -/
structure GuessRun (g : IRGraph) (bg : BGraph) (visited : List ℕ) (st st' : GuessState) :
    Prop where
  ok : Guessed g bg st'
  typed : ∀ w ∈ visited, (st'.types.get (bg.info w).id).isSome
  kept : ∀ {w}, w < bg.vertices.length → w ∉ visited →
    st'.types.get (bg.info w).id = st.types.get (bg.info w).id

omit hlinked in
theorem GuessRun.turn {visited : List ℕ} {st' st'' : GuessState}
    (h : GuessRun g bg visited st st') (hvisited : ∀ w ∈ visited, w < bg.vertices.length)
    (hturn : GuessTurn g bg v st' st'') : GuessRun g bg (visited ++ [v]) st st'' := by
  refine ⟨hturn.ok, fun w hw => ?_, fun hw hnot => ?_⟩
  · by_cases hwv : w = v
    · exact hwv ▸ hturn.typed
    · have hmem : w ∈ visited := by simpa [hwv] using hw
      rw [hturn.kept (hvisited w hmem) hwv]
      exact h.typed w hmem
  · rw [List.mem_append, List.mem_singleton, not_or] at hnot
    rw [hturn.kept hw hnot.2, h.kept hw hnot.1]

omit hlinked in
/-- A loop all of whose turns succeed; what is visited has the type that it had before the loop. -/
theorem exists_guessRun (f : GuessState → ℕ → Option GuessState) (vertices : List ℕ)
    (hlt : ∀ v ∈ vertices, v < bg.vertices.length) (hnodup : vertices.Nodup)
    (h : Guessed g bg st)
    (hturn : ∀ visited v left st', vertices = visited ++ v :: left → v ∈ vertices →
      GuessRun g bg visited st st' → st'.types.get (bg.info v).id = st.types.get (bg.info v).id →
        ∃ st'', f st' v = some st'' ∧ GuessTurn g bg v st' st'') :
    ∃ st', vertices.foldlM f st = some st' ∧ GuessRun g bg vertices st st' := by
  have hrun : ∀ left visited st', vertices = visited ++ left → GuessRun g bg visited st st' →
      ∃ st'', left.foldlM f st' = some st'' ∧ GuessRun g bg vertices st st'' := by
    intro left
    induction left with
    | nil =>
      intro visited st' hsplit hrun
      rw [hsplit, List.append_nil]
      exact ⟨st', rfl, hrun⟩
    | cons v left ih =>
      intro visited st' hsplit hrun
      have hmem : v ∈ vertices := by simp [hsplit]
      have hnot : v ∉ visited := fun hmem =>
        (List.nodup_append.mp (hsplit ▸ hnodup)).2.2 v hmem v List.mem_cons_self rfl
      obtain ⟨st'', hstep, hturn'⟩ := hturn visited v left st' hsplit hmem hrun
        (hrun.kept (hlt v hmem) hnot)
      have hvisited : ∀ w ∈ visited, w < bg.vertices.length :=
        fun w hw => hlt w (hsplit ▸ List.mem_append_left _ hw)
      obtain ⟨res, hres, hok⟩ := ih (visited ++ [v]) st'' (by simp [hsplit])
        (hrun.turn hvisited hturn')
      exact ⟨res, by rw [List.foldlM_cons, hstep]; exact hres, hok⟩
  exact hrun vertices [] st rfl ⟨h, by simp, fun _ _ => rfl⟩

end Steps

section Loops

variable {g : IRGraph} {bg : BGraph} {sort : TopologicalSort}

theorem get_nodeMap (hlinked : bg.Linked g) {vertices : List ℕ} (hnodup : vertices.Nodup)
    (hlt : ∀ v ∈ vertices, v < bg.vertices.length) {v : ℕ} (hv : v ∈ vertices)
    (hnode : (bg.info v).type = .NODE) :
    (bg.nodeMap vertices).get (bg.info v).id = some (bg.info v).node := by
  have hkeys : (((vertices.filter fun v => (bg.info v).type = .NODE).map fun v =>
      ((bg.info v).id, (bg.info v).node)).map Prod.fst).Nodup := by
    rw [List.map_map]
    refine (hnodup.filter _).map_on fun u hu w hw heq => ?_
    exact BGraph.id_inj hlinked.ids (hlt u (List.mem_of_mem_filter hu))
      (hlt w (List.mem_of_mem_filter hw)) heq
  rw [BGraph.nodeMap, ← Dict.mem_entries_iff, Dict.entries_ofList hkeys]
  exact List.mem_map_of_mem (f := fun v => ((bg.info v).id, (bg.info v).node))
    (List.mem_filter.mpr ⟨hv, decide_eq_true hnode⟩)

theorem not_mem_regular_of_param {v : ℕ} (hv : v ∈ bg.graph_param_input_nodes) :
    v ∉ bg.graph_regular_input_nodes := by
  intro hregular
  rw [BGraph.graph_param_input_nodes, List.mem_filter, decide_eq_true_eq] at hv
  rw [BGraph.graph_regular_input_nodes, List.mem_filter, decide_eq_true_eq] at hregular
  simp [hv.2.2.2] at hregular

theorem mem_regular_of_input {v : ℕ} (hv : v ∈ bg.graph_input_nodes)
    (hvalue : (bg.info v).type = .VALUE) (hparam : v ∉ bg.graph_param_input_nodes) :
    v ∈ bg.graph_regular_input_nodes := by
  obtain ⟨hall, hsource⟩ := List.mem_filter.mp hv
  have hnot : (bg.info v).is_param = false := by
    by_contra hset
    refine hparam (List.mem_filter.mpr ⟨hall, decide_eq_true ?_⟩)
    exact ⟨of_decide_eq_true hsource, hvalue, by simpa using hset⟩
  exact List.mem_filter.mpr ⟨hall, by simpa [hvalue, hnot] using hsource⟩

theorem guessed_start (hlinked : bg.Linked g) :
    Guessed g bg ⟨.empty, g.values, bg.nodeMap (all_nodes_topo sort bg)⟩ := by
  constructor
  case value => exact fun hv hvalue => (hlinked.value hv hvalue).2.1
  case other => exact fun name _ => rfl
  case node =>
    intro v hv hnode
    exact get_nodeMap hlinked (nodup_topo hlinked.acyclic)
      (fun w hw => (mem_topo_iff hlinked.acyclic).mp hw)
      ((mem_topo_iff hlinked.acyclic).mpr hv) hnode
  case follows => exact fun _ _ htype => absurd htype nofun
  case loss => exact fun _ _ htype => absurd htype nofun
  case param => exact fun _ _ _ htype => absurd htype nofun

variable (hlinked : bg.Linked g)
include hlinked

/-- The vertices that read nothing have types after the first three loops. -/
theorem guessInputs_run {st : GuessState} (h : Guessed g bg st)
    (hnone : ∀ id, st.types.get id = none) :
    ∃ st₁ st₂, bg.graph_regular_input_nodes.foldlM bg.guessRegularInput st = some st₁ ∧
      bg.graph_param_input_nodes.foldlM bg.guessParamInput st₁ = some st₂ ∧
      GuessRun g bg bg.graph_input_nodes st₂
        (bg.graph_input_nodes.foldl bg.guessConstInput st₂) := by
  have hlt : ∀ (p : ℕ → Bool), ∀ v ∈ bg.all_nodes.filter p, v < bg.vertices.length :=
    fun p v hv => List.mem_range.mp (List.mem_of_mem_filter hv)
  have hnodup : ∀ p : ℕ → Bool, (bg.all_nodes.filter p).Nodup := fun p => List.nodup_range.filter p
  obtain ⟨st₁, hst₁, hrun₁⟩ := exists_guessRun bg.guessRegularInput bg.graph_regular_input_nodes
    (hlt _) (hnodup _) h fun visited v left st' hsplit hv hrun hfresh =>
      guessRegularInput_turn hlinked hrun.ok hv (hfresh.trans (hnone _))
  obtain ⟨st₂, hst₂, hrun₂⟩ := exists_guessRun bg.guessParamInput bg.graph_param_input_nodes
    (hlt _) (hnodup _) hrun₁.ok fun visited v left st' hsplit hv hrun hfresh => by
      refine guessParamInput_turn hlinked hrun.ok hv (hfresh.trans ?_)
      rw [hrun₁.kept (hlt _ v hv) (not_mem_regular_of_param hv), hnone]
  obtain ⟨st₃, hst₃, hrun₃⟩ := exists_guessRun (fun st v => some (bg.guessConstInput st v))
    bg.graph_input_nodes (hlt _) (hnodup _) hrun₂.ok
    fun visited v left st' hsplit hv hrun hfresh => by
      refine ⟨_, rfl, guessConstInput_turn hlinked hrun.ok hv fun hvalue => ?_⟩
      rw [hfresh]
      by_cases hparam : v ∈ bg.graph_param_input_nodes
      · exact hrun₂.typed v hparam
      · rw [hrun₂.kept (hlt _ v hv) hparam]
        exact hrun₁.typed v (mem_regular_of_input hv hvalue hparam)
  rw [foldlM_some, Option.some.injEq] at hst₃
  exact ⟨st₁, st₂, hst₁, hst₂, hst₃ ▸ hrun₃⟩

theorem guessVertices_run (hunmarked : g.Unmarked) {st : GuessState} (h : Guessed g bg st)
    (hinputs : ∀ v ∈ bg.graph_input_nodes, (st.types.get (bg.info v).id).isSome) :
    ∃ st', (all_nodes_topo sort bg).foldlM bg.guessVertex st = some st' ∧
      GuessRun g bg (all_nodes_topo sort bg) st st' := by
  have hacyclic := hlinked.acyclic
  refine exists_guessRun bg.guessVertex _ (fun v hv => (mem_topo_iff hlinked.acyclic).mp hv)
    (nodup_topo hlinked.acyclic) h fun visited v left st' hsplit hmem hrun hfresh => ?_
  have hv : v < bg.vertices.length := (mem_topo_iff hlinked.acyclic).mp hmem
  refine guessVertex_turn hlinked hunmarked hrun.ok hv (fun u hu => ?_) fun hnil => ?_
  · exact hrun.typed u (mem_before_of_edge hacyclic hsplit (hlinked.edge_lt hu).1 hu)
  · rw [hfresh]
    exact hinputs v (List.mem_filter.mpr ⟨List.mem_range.mpr hv, decide_eq_true hnil⟩)

end Loops

@[simp] theorem IRNode.mark_output_names (node : IRNode) (type : ValueType) :
    (node.mark type).output_names = node.output_names := by
  cases type <;> rfl

@[simp] theorem IRValue.mark_type (value : IRValue) (type : ValueType) :
    (value.mark type).type = value.type := by
  cases type <;> rfl

@[simp] theorem IRValue.mark_is_param (value : IRValue) (type : ValueType) :
    (value.mark type).is_param = value.is_param := by
  cases type <;> rfl

theorem IRNode.mark_spec {node : IRNode} (hnode : node.is_batch = false ∧ node.is_criterion = false)
    (type : ValueType) : ((node.mark type).is_batch = true ↔ type = .BATCH) ∧
      ((node.mark type).is_criterion = true ↔ type = .LOSS) := by
  cases type <;> simp [mark, hnode.1, hnode.2]

theorem IRValue.mark_spec {value : IRValue}
    (hvalue : value.is_batch = false ∧ value.is_loss = false) (type : ValueType) :
    ((value.mark type).is_batch = true ↔ type = .BATCH) ∧
      ((value.mark type).is_loss = true ↔ type = .LOSS) := by
  cases type <;> simp [mark, hvalue.1, hvalue.2]

/-- A node without its marks. -/
def IRNode.unmark (node : IRNode) : IRNode := { node with is_batch := false, is_criterion := false }

theorem IRNode.unmark_mark {node : IRNode}
    (hnode : node.is_batch = false ∧ node.is_criterion = false) (type : ValueType) :
    (node.mark type).unmark = node := by
  obtain ⟨name, input_names, output_names, id, is_criterion, is_batch⟩ := node
  obtain ⟨rfl, rfl⟩ := hnode
  cases type <;> rfl

theorem IRGraph.Unmarked.value_of_vertex {g : IRGraph} {bg : BGraph} (hunmarked : g.Unmarked)
    (hlinked : bg.Linked g) {v : ℕ} (hv : v < bg.vertices.length)
    (hvalue : (bg.info v).type = .VALUE) :
    (bg.info v).value.is_batch = false ∧ (bg.info v).value.is_loss = false :=
  hunmarked.values _ _ (hlinked.value hv hvalue).2.1

section Marked

variable {g g' : IRGraph} {bg : BGraph} {sort : TopologicalSort} {st : GuessState}

/-- The type of a vertex at the end. -/
def GuessState.typeOf (st : GuessState) (bg : BGraph) (v : ℕ) : ValueType :=
  (st.types.get (bg.info v).id).getD .UNKNOWN

/-- All vertices have types, and the graph has their marks. -/
structure Marked (sort : TopologicalSort) (g : IRGraph) (bg : BGraph) (st : GuessState)
    (g' : IRGraph) : Prop where
  ok : Guessed g bg st
  typed : ∀ {v}, v < bg.vertices.length →
    st.types.get (bg.info v).id = some (st.typeOf bg v)
  nodes : g'.nodes = ((all_nodes_topo sort bg).filter fun v => (bg.info v).type = .NODE).map
    fun v => (bg.info v).node.mark (st.typeOf bg v)
  values : g'.values = st.values

variable (hlinked : bg.Linked g) (h : Marked sort g bg st g')
include hlinked h

namespace Marked

theorem mem_nodes {n : IRNode} (hn : n ∈ g'.nodes) : ∃ v < bg.vertices.length,
    (bg.info v).type = .NODE ∧ (bg.info v).node.mark (st.typeOf bg v) = n := by
  rw [h.nodes] at hn
  obtain ⟨v, hv, heq⟩ := List.mem_map.mp hn
  obtain ⟨hv, hnode⟩ := List.mem_filter.mp hv
  exact ⟨v, (mem_topo_iff hlinked.acyclic).mp hv, of_decide_eq_true hnode, heq⟩

omit hlinked in
theorem getValue {v : ℕ} (hv : v < bg.vertices.length) (hvalue : (bg.info v).type = .VALUE) :
    g'.getValue (bg.info v).name = some ((bg.info v).value.mark (st.typeOf bg v)) := by
  rw [IRGraph.getValue, h.values, h.ok.value hv hvalue, h.typed hv]
  rfl

/-- The outputs of a node have its type. -/
theorem written {v w : ℕ} (hv : v < bg.vertices.length) (hnode : (bg.info v).type = .NODE)
    (hw : w ∈ bg.target_nodes v) :
    w < bg.vertices.length ∧ (bg.info w).type = .VALUE ∧ g'.getValue (bg.info w).name =
      some ((bg.info w).value.mark (st.typeOf bg v)) := by
  have hvw := BGraph.mem_target_nodes.mp hw
  obtain ⟨-, hlt⟩ := hlinked.edge_lt hvw
  have hvalue : (bg.info w).type = .VALUE := by
    have hne := hlinked.type_ne hvw
    cases htype : (bg.info w).type with
    | VALUE => rfl
    | NODE => exact absurd (hnode.trans htype.symm) hne
  have hfollows := h.ok.follows hvw hvalue (h.typed hlt)
  rw [h.typed hv, Option.some.injEq] at hfollows
  exact ⟨hlt, hvalue, by rw [h.getValue hlt hvalue, hfollows]⟩

variable (hunmarked : g.Unmarked)
include hunmarked

theorem isBatch_iff {v : ℕ} (hv : v < bg.vertices.length) (hnode : (bg.info v).type = .NODE)
    {out : String} (hout : out ∈ (bg.info v).node.output_names) :
    g'.IsBatch out ↔ st.typeOf bg v = .BATCH := by
  rw [← hlinked.targets hv hnode] at hout
  obtain ⟨w, hw, rfl⟩ := List.mem_map.mp hout
  obtain ⟨hlt, hvalue, hget⟩ := h.written hlinked hv hnode hw
  have hspec := IRValue.mark_spec (hunmarked.value_of_vertex hlinked hlt hvalue)
    (st.typeOf bg v)
  constructor
  · rintro ⟨value, hvalue', hbatch⟩
    obtain rfl := Option.some.inj (hget.symm.trans hvalue')
    exact hspec.1.mp hbatch
  · exact fun htype => ⟨_, hget, hspec.1.mpr htype⟩

theorem is_criterion_iff {v : ℕ} (hv : v < bg.vertices.length)
    (hnode : (bg.info v).type = .NODE) : st.typeOf bg v = .LOSS ↔
      ∃ out, (bg.info v).node.output_names = [out] ∧ g'.IsScalarLoss out := by
  constructor
  · intro htype
    obtain ⟨type, htypes, hbase, hdim⟩ := h.ok.loss hv hnode (htype ▸ h.typed hv)
    obtain ⟨w, ws, hws, rfl, hnil⟩ := List.map_eq_cons_iff.mp htypes
    obtain rfl := List.map_eq_nil_iff.mp hnil
    obtain ⟨hlt, hvalue, hget⟩ := h.written hlinked hv hnode (hws ▸ List.mem_cons_self)
    have hspec := IRValue.mark_spec (hunmarked.value_of_vertex hlinked hlt hvalue)
      (st.typeOf bg v)
    refine ⟨(bg.info w).name, ?_, _, hget, ?_, ?_, hspec.2.mpr htype⟩
    · rw [← hlinked.targets hv hnode, hws]
      rfl
    · rwa [IRValue.mark_type]
    · rwa [IRValue.mark_type]
  · rintro ⟨out, houts, value, hget', -, -, hloss⟩
    have hmap := hlinked.targets hv hnode
    rw [houts] at hmap
    obtain ⟨w, ws, hws, rfl, -⟩ := List.map_eq_cons_iff.mp hmap
    obtain ⟨hlt, hvalue, hget⟩ := h.written hlinked hv hnode (hws ▸ List.mem_cons_self)
    obtain rfl := Option.some.inj (hget.symm.trans hget')
    exact (IRValue.mark_spec (hunmarked.value_of_vertex hlinked hlt hvalue) _).2.mp hloss

theorem marksAgree (hvertex : ∀ name ∈ g.definedNames, ∃ v < bg.vertices.length,
    (bg.info v).type = .VALUE ∧ (bg.info v).name = name) : g'.MarksAgree := by
  have hnode_spec : ∀ {v}, v < bg.vertices.length → (bg.info v).type = .NODE → _ :=
    fun {v} hv hnode => IRNode.mark_spec (hunmarked.nodes _ (hlinked.node hv hnode))
      (st.typeOf bg v)
  constructor
  case batch_all =>
    intro n hn hne
    obtain ⟨v, hv, hnode, rfl⟩ := h.mem_nodes hlinked hn
    rw [IRNode.mark_output_names] at hne ⊢
    rw [(hnode_spec hv hnode).1]
    constructor
    · exact fun htype out hout => (h.isBatch_iff hlinked hunmarked hv hnode hout).mpr htype
    · intro hall
      obtain ⟨out, hout⟩ := List.exists_mem_of_ne_nil _ hne
      exact (h.isBatch_iff hlinked hunmarked hv hnode hout).mp (hall out hout)
  case batch_some =>
    intro n hn hne
    obtain ⟨v, hv, hnode, rfl⟩ := h.mem_nodes hlinked hn
    rw [IRNode.mark_output_names] at hne ⊢
    rw [(hnode_spec hv hnode).1]
    constructor
    · intro htype
      obtain ⟨out, hout⟩ := List.exists_mem_of_ne_nil _ hne
      exact ⟨out, hout, (h.isBatch_iff hlinked hunmarked hv hnode hout).mpr htype⟩
    · rintro ⟨out, hout, hbatch⟩
      exact (h.isBatch_iff hlinked hunmarked hv hnode hout).mp hbatch
  case criterion =>
    intro n hn
    obtain ⟨v, hv, hnode, rfl⟩ := h.mem_nodes hlinked hn
    rw [IRNode.mark_output_names, (hnode_spec hv hnode).2]
    exact h.is_criterion_iff hlinked hunmarked hv hnode
  case one_mark =>
    intro name value hget
    by_cases hdefined : name ∈ g.definedNames
    · obtain ⟨v, hv, hvalue, rfl⟩ := hvertex name hdefined
      obtain rfl := Option.some.inj ((h.getValue hv hvalue).symm.trans hget)
      have hspec := IRValue.mark_spec (hunmarked.value_of_vertex hlinked hv hvalue)
        (st.typeOf bg v)
      rw [hspec.1, hspec.2, IRValue.mark_is_param, ← (hlinked.value hv hvalue).2.2]
      have hparam := fun hset => h.ok.param hv hvalue hset (h.typed hv)
      refine ⟨?_, ?_, ?_⟩
      · rintro ⟨hset, hbatch⟩
        exact absurd ((hparam hset).symm.trans hbatch) nofun
      · rintro ⟨hset, hloss⟩
        exact absurd ((hparam hset).symm.trans hloss) nofun
      · rintro ⟨hbatch, hloss⟩
        exact absurd (hbatch.symm.trans hloss) nofun
    · rw [IRGraph.getValue, h.values, h.ok.other name hdefined] at hget
      obtain ⟨hbatch, hloss⟩ := hunmarked.values name value hget
      simp [hbatch, hloss]

end Marked

end Marked

section Inference

variable {g : IRGraph} {bg : BGraph} {sort : TopologicalSort}

theorem exists_vertex_of_defined (hwf : g.WellFormed) (hbg : g.toBGL = some bg) {name : String}
    (hname : name ∈ g.definedNames) :
    ∃ v < bg.vertices.length, (bg.info v).type = .VALUE ∧ (bg.info v).name = name := by
  obtain ⟨value, hvalue, -⟩ := hwf.values name hname
  obtain ⟨vi, hvi, htype, heq⟩ := (IRGraph.mem_toBGL_names hbg hwf).mpr ⟨hname, hvalue⟩
  obtain ⟨v, hv, rfl⟩ := List.mem_iff_getElem.mp hvi
  have hinfo : bg.info v = bg.vertices[v] := by simp [BGraph.info, hv]
  exact ⟨v, hv, hinfo ▸ htype, hinfo ▸ (Prod.mk.inj heq).1⟩

/-- The inference ends with a type for every vertex. -/
theorem exists_marked (sort : TopologicalSort) (hwf : g.WellFormed) (hunmarked : g.Unmarked)
    (hbg : g.toBGL = some bg) :
    ∃ g' st, guessValueTypes sort g = some g' ∧ Marked sort g bg st g' := by
  have hlinked := toBGL_linked hwf hbg
  have hstart : Guessed g bg ⟨.empty, g.values, bg.nodeMap (all_nodes_topo sort bg)⟩ :=
    guessed_start hlinked
  obtain ⟨st₁, st₂, hst₁, hst₂, hrun₃⟩ := guessInputs_run hlinked hstart fun _ => rfl
  obtain ⟨st, hst, hrun⟩ : ∃ st, (all_nodes_topo sort bg).foldlM bg.guessVertex _ = some st ∧ _ :=
    guessVertices_run hlinked hunmarked hrun₃.ok hrun₃.typed
  have htyped : ∀ {v}, v < bg.vertices.length →
      st.types.get (bg.info v).id = some (st.typeOf bg v) := by
    intro v hv
    have hsome := hrun.typed v ((mem_topo_iff hlinked.acyclic).mpr hv)
    rw [GuessState.typeOf, ← Option.some_get hsome, Option.getD_some]
  have hnodes : ((all_nodes_topo sort bg).filter fun v => (bg.info v).type = .NODE).mapM
      (fun v => st.node_map.get (bg.info v).id) =
        some (((all_nodes_topo sort bg).filter fun v => (bg.info v).type = .NODE).map
          fun v => (bg.info v).node.mark (st.typeOf bg v)) := by
    rw [mapM_congr (g := fun v => some ((bg.info v).node.mark (st.typeOf bg v)))]
    · exact List.mapM_pure
    · intro v hv
      obtain ⟨hv, hnode⟩ := List.mem_filter.mp hv
      have hlt := (mem_topo_iff hlinked.acyclic).mp hv
      rw [hrun.ok.node hlt (of_decide_eq_true hnode), htyped hlt]
      rfl
  have hinputs : ∀ name ∈ g.input_names, (st.values.lookup name).isSome := by
    intro name hname
    obtain ⟨v, hv, hvalue, rfl⟩ := exists_vertex_of_defined hwf hbg
      (List.mem_append_left _ hname)
    rw [hrun.ok.value hv hvalue]
    rfl
  obtain ⟨is_replicable, hcreate⟩ := IRGraph.exists_create g.name
    (((all_nodes_topo sort bg).filter fun v => (bg.info v).type = .NODE).map
      fun v => (bg.info v).node.mark (st.typeOf bg v)) g.output_names hinputs
  refine ⟨⟨g.name, _, st.values, g.input_names, g.output_names, is_replicable⟩, st, ?_,
    ⟨hrun.ok, htyped, rfl, rfl⟩⟩
  simp only [guessValueTypes, hbg, Option.bind_eq_bind, Option.bind_some, hst₁, hst₂, hst, hnodes]
  exact hcreate

/-- The inference of the types ends, and then the marks of nodes and values agree. -/
theorem guessValueTypes_marksAgree (sort : TopologicalSort) (g : IRGraph) (hwf : g.WellFormed)
    (hunmarked : g.Unmarked) :
    ∃ g', guessValueTypes sort g = some g' ∧ (g'.nodes.map IRNode.unmark).Perm g.nodes ∧
      g'.MarksAgree := by
  obtain ⟨bg, hbg⟩ := IRGraph.exists_toBGL fun name hname => by
    obtain ⟨value, hvalue, -⟩ := hwf.values name hname
    simp [hvalue]
  have hlinked := toBGL_linked hwf hbg
  obtain ⟨g', st, hg', hmarked⟩ := exists_marked sort hwf hunmarked hbg
  refine ⟨g', hg', ?_, hmarked.marksAgree hlinked hunmarked fun name hname =>
    exists_vertex_of_defined hwf hbg hname⟩
  have hacyclic := hlinked.acyclic
  have hperm : ((all_nodes_topo sort bg).map bg.info).Perm bg.vertices := map_info_perm hacyclic
  rw [hmarked.nodes, List.map_map, ← IRGraph.toBGL_nodes hbg]
  refine List.Perm.trans (List.Perm.of_eq ?_) ((hperm.filter _).map VertexInfo.node)
  rw [List.filter_map, List.map_map]
  refine List.map_congr_left fun v hv => ?_
  obtain ⟨hv, hnode⟩ := List.mem_filter.mp hv
  exact IRNode.unmark_mark (hunmarked.nodes _
    (hlinked.node ((mem_topo_iff hlinked.acyclic).mp hv) (of_decide_eq_true hnode))) _

/-- A layer with a parameter, and a loss of its result and a second input. -/
def training : IRGraph where
  name := "g"
  nodes := [{ name := "linear", input_names := ["x", "w"], output_names := ["y"], id := "n0" },
    { name := "loss", input_names := ["y", "t"], output_names := ["l"], id := "n1" }]
  values := [("x", { name := "x", type := .tensor .FLOAT [8, 4] false }),
    ("t", { name := "t", type := .tensor .FLOAT [8] false }),
    ("w", { name := "w", type := .tensor .FLOAT [4] true, is_param := true }),
    ("y", { name := "y", type := .tensor .FLOAT [8] true }),
    ("l", { name := "l", type := .tensor .FLOAT [] true })]
  input_names := ["x", "t", "w"]
  output_names := ["l"]

theorem guessValueTypes_marksAgree_training : ∃ g', guessValueTypes .sinksFirst training = some g' ∧
    (g'.nodes.map IRNode.unmark).Perm training.nodes ∧ g'.MarksAgree :=
  guessValueTypes_marksAgree .sinksFirst training
    (.of_checks (by decide) (by decide) (by decide) (by decide))
    (.of_checks (by decide) (by decide) (by decide))

example : (guessValueTypes .sinksFirst training).map (fun g' => g'.nodes.map fun n =>
    (n.name, n.is_batch, n.is_criterion)) =
      some [("linear", true, false), ("loss", false, true)] := by decide +kernel

end Inference

end Rannc
