import Rannc.Graph.Allocation
import Rannc.Graph.DeployedRoutes
import Rannc.Graph.MLPartDecomposer
import Rannc.Graph.MergeMeaning

/-!
# Deployed stages

The stages that a model was cut into are connected by the names of their values. A value that
several stages have is of the same use in all of them, and each connection runs from the model's
inputs to a stage, from one stage to another, or from a stage to the model's outputs.
-/
namespace Rannc

open Rannc.Digraph

/-- An input that is not a parameter. -/
def IRGraph.Reads (g : IRGraph) (name : String) : Prop :=
  name ∈ g.input_names ∧ g.isParam name = false

instance (g : IRGraph) (name : String) : Decidable (g.Reads name) :=
  inferInstanceAs (Decidable (_ ∧ _))

theorem mem_of_getValue {g : IRGraph} {name : String} {v : IRValue} (h : g.getValue name = some v) :
    (name, v) ∈ g.values := by
  obtain ⟨before, after, hsplit, -⟩ := List.lookup_eq_some_iff.mp h
  rw [hsplit]
  simp

/-- Values that are used in the same way: only the sizes of batches may differ. -/
structure IRValue.SameUse (v v' : IRValue) : Prop where
  name : v.name = v'.name
  param : v.is_param = v'.is_param
  gradient : v.type.passedForBackward = v'.type.passedForBackward

theorem IRValue.SameUse.refl (v : IRValue) : v.SameUse v := ⟨rfl, rfl, rfl⟩

theorem IRValue.SameUse.trans {v v' v'' : IRValue} (h : v.SameUse v') (h' : v'.SameUse v'') :
    v.SameUse v'' :=
  ⟨h.name.trans h'.name, h.param.trans h'.param, h.gradient.trans h'.gradient⟩

/-- The graphs of the stages of a model, which know its values as it does. -/
structure Stages (ir_graph : IRGraph) (subgraphs : List IRGraph) : Prop where
  model : ir_graph.Verified
  nodup : (subgraphs.map IRGraph.name).Nodup
  not_master : ∀ sg ∈ subgraphs, sg.name ≠ MASTER_NAME
  verified : ∀ sg ∈ subgraphs, sg.Verified
  values : ∀ sg ∈ subgraphs, ∀ name v, sg.getValue name = some v →
    ∃ v', ir_graph.getValue name = some v' ∧ v'.name = name ∧ v.SameUse v'
  batch : ∀ sg ∈ subgraphs, ∀ it ∈ sg.values, it.2.is_batch = true → it.2.is_param = false
  params : ∀ sg ∈ subgraphs, ∀ name ∈ sg.input_names, sg.isParam name = true →
    name ∈ ir_graph.input_names

namespace MLPartDecomposer

/-- What the stages read, with the stages. -/
def stageReads (subgraphs : List IRGraph) : List (String × String) :=
  subgraphs.flatMap fun sg =>
    (sg.input_names.filter fun name => !sg.isParam name).map (·, sg.name)

section Connections

variable {ir_graph : IRGraph} {subgraphs : List IRGraph} {order : MapOrder String}

theorem mem_stageReads {name id : String} : (name, id) ∈ stageReads subgraphs ↔
    ∃ sg ∈ subgraphs, sg.Reads name ∧ id = sg.name := by
  simp only [stageReads, IRGraph.Reads, List.mem_flatMap, List.mem_map, List.mem_filter,
    Prod.mk.injEq, Bool.not_eq_true']
  constructor
  · rintro ⟨sg, hsg, name', hname, rfl, rfl⟩
    exact ⟨sg, hsg, hname, rfl⟩
  · rintro ⟨sg, hsg, hname, rfl⟩
    exact ⟨sg, hsg, name, hname, rfl, rfl⟩

theorem inVals_eq_stageReads (h : Stages ir_graph subgraphs) :
    inVals subgraphs = some (stageReads subgraphs) := by
  have hreads : (subgraphs.mapM fun sg => do
      let inputs ← sg.getNonParamInputNames
      return inputs.map (·, sg.name)) = some (subgraphs.map fun sg =>
        (sg.input_names.filter fun name => !sg.isParam name).map (·, sg.name)) := by
    rw [mapM_eq_some_iff, List.map_map]
    refine List.map_congr_left fun sg hsg => ?_
    rw [(h.verified sg hsg).getNonParamInputNames_eq]
    rfl
  unfold inVals
  rw [hreads]
  rfl

theorem nodup_stageReads (h : Stages ir_graph subgraphs) :
    (stageReads subgraphs).Nodup := by
  refine List.nodup_flatMap.mpr ⟨fun sg hsg => ?_, ?_⟩
  · have hinputs := (List.nodup_append.mp (h.verified sg hsg).nodup).1
    exact (hinputs.filter _).map (Prod.mk_left_injective sg.name)
  · refine (List.pairwise_map.mp h.nodup).imp fun hne it hit hit' => ?_
    obtain ⟨name, -, rfl⟩ := List.mem_map.mp hit
    obtain ⟨name', -, heq⟩ := List.mem_map.mp hit'
    exact hne (congrArg Prod.snd heq).symm

theorem lookup_outVals_of_input {name : String} (hname : name ∈ ir_graph.input_names) :
    (outVals ir_graph subgraphs).lookup name = none := by
  rw [List.lookup_eq_none_iff]
  intro it hit
  have hne : name ≠ it.1 := fun heq => (mem_outVals.mp hit).1 (heq ▸ hname)
  simpa using hne

theorem graphConnection_eq_some {out_vals : List (String × String)} {read : String × String}
    {con : GraphConnection} (h : graphConnection out_vals read = some con) :
    con.value = read.1 ∧ con.dest = read.2 ∧ out_vals.lookup con.value = some con.src ∧
      con.src ≠ con.dest := by
  unfold graphConnection at h
  cases hlookup : out_vals.lookup read.1 with
  | none => simp [hlookup] at h
  | some src_id =>
    simp only [hlookup] at h
    split_ifs at h with hne
    obtain rfl := Option.some.inj h
    exact ⟨rfl, rfl, hlookup, hne⟩

/-- Where a value goes to. -/
def destOf (con : GraphConnection) : String × String := (con.dest, con.value)

/-- What the connections of some inputs of the model add. -/
structure InputsAdded (in_vals : List (String × String)) (names : List String)
    (start connections : List GraphConnection) : Prop where
  added : ∃ masters, connections = start ++ masters ∧ ∀ con ∈ masters,
    con.src = MASTER_NAME ∧ con.value ∈ names ∧ (con.value, con.dest) ∈ in_vals
  nodup : (connections.map destOf).Nodup
  all : ∀ name ∈ names, ∀ id, (name, id) ∈ in_vals →
    ∃ con ∈ connections, con.value = name ∧ con.dest = id

theorem InputsAdded.addInput {in_vals : List (String × String)} {names : List String}
    {start connections : List GraphConnection} (h : InputsAdded in_vals names start connections)
    (name : String) :
    InputsAdded in_vals (names ++ [name]) start
      (MLPartDecomposer.addInput order in_vals connections name) := by
  have hids : ∀ id, id ∈ order.order
      ((in_vals.filter fun read => read.1 = name).map Prod.snd).dedup ↔ (name, id) ∈ in_vals := by
    intro id
    rw [(order.perm _).mem_iff]
    simp
  unfold MLPartDecomposer.addInput
  dsimp only
  generalize order.order ((in_vals.filter fun read => read.1 = name).map Prod.snd).dedup = ids
    at hids
  -- the readers one after another
  have hrun : ∀ (before after : List String), ids = before ++ after →
      ∀ cons : List GraphConnection,
        (∃ masters, cons = start ++ masters ∧ ∀ con ∈ masters, con.src = MASTER_NAME ∧
          con.value ∈ names ++ [name] ∧ (con.value, con.dest) ∈ in_vals) →
        (cons.map destOf).Nodup →
        (∀ name' id, (name' ∈ names ∨ name' = name ∧ id ∈ before) → (name', id) ∈ in_vals →
          ∃ con ∈ cons, con.value = name' ∧ con.dest = id) →
        InputsAdded in_vals (names ++ [name]) start (after.foldl (fun connections tgt_id =>
          if ∃ con ∈ connections, con.dest = tgt_id ∧ con.value = name then connections
          else connections ++
            [⟨name, MASTER_NAME, tgt_id, MASTER_NAME ++ "_" ++ name, tgt_id ++ "_" ++ name⟩])
          cons) := by
    intro before after
    induction after generalizing before with
    | nil =>
      intro hsplit cons hadded hnodup hall
      refine ⟨hadded, hnodup, fun name' hname' id hread => hall name' id ?_ hread⟩
      rw [List.append_nil] at hsplit
      cases List.mem_append.mp hname' with
      | inl hold => exact Or.inl hold
      | inr hnew =>
        obtain rfl := List.mem_singleton.mp hnew
        exact Or.inr ⟨rfl, hsplit ▸ (hids id).mpr hread⟩
    | cons id after ih =>
      intro hsplit cons hadded hnodup hall
      rw [List.foldl_cons]
      refine ih (before ++ [id]) (by simp [hsplit]) _ ?_ ?_ ?_
      · split_ifs with hthere
        · exact hadded
        · obtain ⟨masters, rfl, hmasters⟩ := hadded
          refine ⟨masters ++ [_], by rw [List.append_assoc], fun con hcon => ?_⟩
          cases List.mem_append.mp hcon with
          | inl hold => exact hmasters con hold
          | inr hnew =>
            obtain rfl := List.mem_singleton.mp hnew
            exact ⟨rfl, by simp, (hids id).mp (by simp [hsplit])⟩
      · split_ifs with hthere
        · exact hnodup
        · rw [List.map_append, List.map_singleton, List.nodup_append]
          refine ⟨hnodup, List.nodup_singleton _, ?_⟩
          rintro it hit it' hit' rfl
          obtain ⟨con, hcon, rfl⟩ := List.mem_map.mp hit
          have heq := List.mem_singleton.mp hit'
          simp only [destOf, Prod.mk.injEq] at heq
          exact hthere ⟨con, hcon, heq⟩
      · intro name' id' hname hread
        have hkept : (∃ con ∈ cons, con.value = name' ∧ con.dest = id') →
            ∃ con ∈ (if ∃ con ∈ cons, con.dest = id ∧ con.value = name then cons else cons ++
              [⟨name, MASTER_NAME, id, MASTER_NAME ++ "_" ++ name, id ++ "_" ++ name⟩]),
              con.value = name' ∧ con.dest = id' := by
          rintro ⟨con, hcon, heq⟩
          refine ⟨con, ?_, heq⟩
          split_ifs
          · exact hcon
          · exact List.mem_append_left _ hcon
        by_cases hnew : name' = name ∧ id' = id
        · obtain ⟨rfl, rfl⟩ := hnew
          split_ifs with hthere
          · obtain ⟨con, hcon, hdest, hvalue⟩ := hthere
            exact ⟨con, hcon, hvalue, hdest⟩
          · exact ⟨_, List.mem_append_right _ List.mem_cons_self, rfl, rfl⟩
        · refine hkept (hall name' id' ?_ hread)
          refine hname.imp_right fun ⟨heq, hmem⟩ => ⟨heq, ?_⟩
          cases List.mem_append.mp hmem with
          | inl hold => exact hold
          | inr hlast => exact absurd ⟨heq, List.mem_singleton.mp hlast⟩ hnew
  obtain ⟨masters, hcons, hmasters⟩ := h.added
  refine hrun [] ids rfl connections ⟨masters, hcons, fun con hcon => ?_⟩ h.nodup ?_
  · obtain ⟨hsrc, hvalue, hread⟩ := hmasters con hcon
    exact ⟨hsrc, List.mem_append_left _ hvalue, hread⟩
  · intro name' id hname hread
    cases hname with
    | inl hold => exact h.all name' hold id hread
    | inr hnew => exact absurd hnew.2 List.not_mem_nil

variable (order) in
theorem foldl_addInput (in_vals : List (String × String)) {start : List GraphConnection}
    (hstart : (start.map destOf).Nodup) (names : List String) :
    InputsAdded in_vals names start
      (names.foldl (MLPartDecomposer.addInput order in_vals) start) := by
  induction names using List.reverseRecOn with
  | nil => exact ⟨⟨[], by simp, by simp⟩, hstart, by simp⟩
  | append_singleton names name ih =>
    rw [List.foldl_append]
    exact ih.addInput name

theorem nodup_graphConnections (h : Stages ir_graph subgraphs) (out_vals : List (String × String)) :
    (((stageReads subgraphs).filterMap (graphConnection out_vals)).map destOf).Nodup := by
  rw [List.map_filterMap]
  refine (nodup_stageReads h).filterMap ?_
  intro read read' dest hdest hdest'
  obtain ⟨con, hcon, rfl⟩ := Option.map_eq_some_iff.mp hdest
  obtain ⟨con', hcon', heq⟩ := Option.map_eq_some_iff.mp hdest'
  obtain ⟨hvalue, hdest, -⟩ := graphConnection_eq_some hcon
  obtain ⟨hvalue', hdest', -⟩ := graphConnection_eq_some hcon'
  simp only [destOf, Prod.mk.injEq] at heq
  exact Prod.ext (by rw [← hvalue, ← hvalue', heq.2]) (by rw [← hdest, ← hdest', heq.1])

/-- The connections of the stages: from the stage that has a value, from the master for what the
model gets, and to the master for what it returns. -/
structure Partitioned (ir_graph : IRGraph) (subgraphs : List IRGraph)
    (connections : List GraphConnection) : Prop where
  once : ((connections.filter fun con => !con.isGraphOutput).map destOf).Nodup
  outputs : (toMaster connections).map GraphConnection.value = ir_graph.output_names
  cases : ∀ con ∈ connections,
    (∃ sg ∈ subgraphs, sg.Reads con.value ∧ con.dest = sg.name ∧ con.src ≠ sg.name ∧
      (outVals ir_graph subgraphs).lookup con.value = some con.src) ∨
    (con.src = MASTER_NAME ∧ ir_graph.Reads con.value ∧
      ∃ sg ∈ subgraphs, sg.Reads con.value ∧ con.dest = sg.name) ∨
    (con.dest = MASTER_NAME ∧ con.value ∈ ir_graph.output_names ∧
      (outVals ir_graph subgraphs).lookup con.value = some con.src)
  between : ∀ sg ∈ subgraphs, ∀ name, sg.Reads name → ∀ src_id,
    (outVals ir_graph subgraphs).lookup name = some src_id → src_id ≠ sg.name →
    ∃ con ∈ connections, con.value = name ∧ con.src = src_id ∧ con.dest = sg.name
  input : ∀ sg ∈ subgraphs, ∀ name, sg.Reads name → ir_graph.Reads name →
    ∃ con ∈ connections, con.value = name ∧ con.src = MASTER_NAME ∧ con.dest = sg.name
  output : ∀ out ∈ ir_graph.output_names, ∃ con ∈ connections, con.value = out ∧
    con.dest = MASTER_NAME ∧ (outVals ir_graph subgraphs).lookup out = some con.src

theorem createPartition_partitioned (h : Stages ir_graph subgraphs) {part : Partition}
    (hpart : createPartition order ir_graph subgraphs = some part) :
    Partitioned ir_graph subgraphs part.connections := by
  unfold createPartition at hpart
  rw [inVals_eq_stageReads h, h.model.getNonParamInputNames_eq] at hpart
  simp only [Option.bind_eq_bind, Option.bind_some] at hpart
  obtain ⟨outputs, houtputs, hpart⟩ := Option.bind_eq_some_iff.mp hpart
  obtain rfl := Option.some.inj hpart
  dsimp only
  have hnames : ∀ name, name ∈ ir_graph.input_names.filter (fun name => !ir_graph.isParam name) ↔
      ir_graph.Reads name := by
    intro name
    simp [IRGraph.Reads]
  have hstart : ∀ con ∈ (stageReads subgraphs).filterMap (graphConnection (outVals ir_graph
      subgraphs)), (∃ sg ∈ subgraphs, sg.Reads con.value ∧ con.dest = sg.name ∧ con.src ≠ sg.name) ∧
        (outVals ir_graph subgraphs).lookup con.value = some con.src := by
    intro con hcon
    obtain ⟨⟨name, id⟩, hread, hcon⟩ := List.mem_filterMap.mp hcon
    obtain ⟨hvalue, hdest, hlookup, hne⟩ := graphConnection_eq_some hcon
    obtain ⟨sg, hsg, hreads, rfl⟩ := mem_stageReads.mp hread
    exact ⟨⟨sg, hsg, hvalue ▸ hreads, hdest, fun heq => hne (heq.trans hdest.symm)⟩, hlookup⟩
  obtain ⟨⟨masters, hmasters, hmaster⟩, honce, hall⟩ := foldl_addInput order (stageReads subgraphs)
    (nodup_graphConnections h (outVals ir_graph subgraphs))
    (ir_graph.input_names.filter fun name => !ir_graph.isParam name)
  rw [hmasters] at honce hall ⊢
  have houtput : ∀ con ∈ outputs, con.dest = MASTER_NAME ∧ con.value ∈ ir_graph.output_names ∧
      (outVals ir_graph subgraphs).lookup con.value = some con.src := by
    intro con hcon
    obtain ⟨out, hout, hcon⟩ := exists_of_mem_mapM houtputs hcon
    obtain ⟨src_id, hsrc, heq⟩ := Option.bind_eq_some_iff.mp hcon
    obtain rfl := Option.some.inj heq
    exact ⟨rfl, hout, hsrc⟩
  have hids : ∀ {name src_id}, (outVals ir_graph subgraphs).lookup name = some src_id →
      src_id ≠ MASTER_NAME := by
    intro name src_id hlookup
    obtain ⟨sg, hsg, rfl, -⟩ := of_lookup_outVals hlookup
    exact h.not_master sg hsg
  have hbetween : ∀ sg ∈ subgraphs, ∀ name, sg.Reads name → ∀ src_id,
      (outVals ir_graph subgraphs).lookup name = some src_id → src_id ≠ sg.name →
      ∃ con ∈ (stageReads subgraphs).filterMap (graphConnection (outVals ir_graph subgraphs)),
        con.value = name ∧ con.src = src_id ∧ con.dest = sg.name := by
    intro sg hsg name hread src_id hlookup hne
    refine ⟨⟨name, src_id, sg.name, src_id ++ "_" ++ name, sg.name ++ "_" ++ name⟩,
      List.mem_filterMap.mpr ⟨(name, sg.name), mem_stageReads.mpr ⟨sg, hsg, hread, rfl⟩, ?_⟩,
      rfl, rfl, rfl⟩
    unfold graphConnection
    simp only [hlookup]
    exact if_pos hne
  have hvalues : outputs.map GraphConnection.value = ir_graph.output_names := by
    refine map_of_mapM (fun out con hcon => ?_) houtputs
    obtain ⟨src_id, -, heq⟩ := Option.bind_eq_some_iff.mp hcon
    rw [← Option.some.inj heq]
  generalize (stageReads subgraphs).filterMap (graphConnection (outVals ir_graph subgraphs)) = start
    at hstart honce hall hbetween ⊢
  have hmaster' : ∀ con ∈ masters, con.src = MASTER_NAME ∧ ir_graph.Reads con.value ∧
      ∃ sg ∈ subgraphs, sg.Reads con.value ∧ con.dest = sg.name := by
    intro con hcon
    obtain ⟨hsrc, hvalue, hread⟩ := hmaster con hcon
    exact ⟨hsrc, (hnames _).mp hvalue, mem_stageReads.mp hread⟩
  have hinner : ∀ con ∈ start ++ masters, con.isGraphOutput = false := by
    intro con hcon
    have hdest : ∃ sg ∈ subgraphs, con.dest = sg.name := by
      cases List.mem_append.mp hcon with
      | inl hcon =>
        obtain ⟨sg, hsg, -, hdest, -⟩ := (hstart con hcon).1
        exact ⟨sg, hsg, hdest⟩
      | inr hcon =>
        obtain ⟨sg, hsg, -, hdest⟩ := (hmaster' con hcon).2.2
        exact ⟨sg, hsg, hdest⟩
    obtain ⟨sg, hsg, hdest⟩ := hdest
    simpa [GraphConnection.isGraphOutput, hdest] using h.not_master sg hsg
  have hreader : ∀ sg ∈ subgraphs, ∀ name, sg.Reads name → ir_graph.Reads name →
      ∃ con ∈ masters, con.value = name ∧ con.dest = sg.name := by
    intro sg hsg name hread hmodel
    obtain ⟨con, hcon, hvalue, hdest⟩ := hall name ((hnames name).mpr hmodel) sg.name
      (mem_stageReads.mpr ⟨sg, hsg, hread, rfl⟩)
    refine ⟨con, (List.mem_append.mp hcon).resolve_left fun hcon => ?_, hvalue, hdest⟩
    have hlookup := (hstart con hcon).2
    rw [hvalue, lookup_outVals_of_input hmodel.1] at hlookup
    cases hlookup
  constructor
  case once =>
    rw [List.filter_append, List.filter_eq_self.mpr (by simpa using hinner),
      List.filter_eq_nil_iff.mpr (by simpa [GraphConnection.isGraphOutput] using
        fun con hcon => (houtput con hcon).1), List.append_nil]
    exact honce
  case outputs =>
    unfold toMaster
    rw [List.filter_append, List.filter_eq_nil_iff.mpr (by
        intro con hcon
        simp [hinner con hcon]),
      List.filter_eq_self.mpr (by
        intro con hcon
        obtain ⟨hdest, -, hlookup⟩ := houtput con hcon
        simp [GraphConnection.isGraphInput, GraphConnection.isGraphOutput, hdest, hids hlookup]),
      List.nil_append]
    exact hvalues
  case cases =>
    intro con hcon
    rcases List.mem_append.mp hcon with hcon | hcon
    · rcases List.mem_append.mp hcon with hcon | hcon
      · obtain ⟨⟨sg, hsg, hread, hdest, hne⟩, hlookup⟩ := hstart con hcon
        exact Or.inl ⟨sg, hsg, hread, hdest, hne, hlookup⟩
      · exact Or.inr (Or.inl (hmaster' con hcon))
    · exact Or.inr (Or.inr (houtput con hcon))
  case between =>
    intro sg hsg name hread src_id hlookup hne
    obtain ⟨con, hcon, hends⟩ := hbetween sg hsg name hread src_id hlookup hne
    exact ⟨con, by simp [hcon], hends⟩
  case input =>
    intro sg hsg name hread hmodel
    obtain ⟨con, hcon, hvalue, hdest⟩ := hreader sg hsg name hread hmodel
    exact ⟨con, by simp [hcon], hvalue, (hmaster' con hcon).1, hdest⟩
  case output =>
    intro out hout
    rw [← hvalues] at hout
    obtain ⟨con, hcon, rfl⟩ := List.mem_map.mp hout
    obtain ⟨hdest, -, hlookup⟩ := houtput con hcon
    exact ⟨con, by simp [hcon], rfl, hdest, hlookup⟩

end Connections

end MLPartDecomposer

end Rannc
