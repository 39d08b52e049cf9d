import Rannc.Comp.LauncherRun
import Rannc.Graph.CloneInputs
import Rannc.Graph.VerifyDeployment

/-!
# What a deployment computes

The modules of the subgraphs evaluate their graphs. Run in the order of the deployment, on what the
routes bring, they make the values of the model: a stage gets every value it reads from the model's
inputs or from the one stage that makes it.
-/
namespace Rannc

open Rannc.Digraph Dataflow Connector GraphLauncher MLPartDecomposer

section Modules

variable {T : Type} (I : Interp String (IValue T)) (params : String → IValue T)
  (ids : NameSupply)

/-- The values that a graph is evaluated on: parameters, and inputs by their names. -/
def graphInputs (g : IRGraph) (inputs : String → Option (IValue T)) (name : String) : IValue T :=
  if g.isParam name then params name else (inputs name).getD (.scalar .none)

/-- What the graph with clones is run on: every clone of an input gets its value. -/
def inputElems (input_clone_names : List (String × List String)) (g : IRGraph)
    (vals : String → IValue T) : List (String × IValue T) :=
  g.input_names.flatMap fun in_name =>
    match input_clone_names.lookup in_name with
    | some cl_names => cl_names.map (·, vals in_name)
    | none => [(in_name, vals in_name)]

/-- The outputs of a subgraph by their names. The graph that is run has clones of shared inputs. -/
def forwardGraph (g : IRGraph) (inputs : List (String × IValue T)) :
    Option (List (IValueLocation × IValue T)) := do
  let (clone_g, input_clone_names) ← g.cloneSharedInputs ids
  let elems := inputElems input_clone_names g (graphInputs params g fun name => inputs.lookup name)
  let out ← clone_g.eval I fun name => (elems.lookup name).getD (.scalar .none)
  return (g.output_names.zip out).map fun it => (⟨it.1, []⟩, it.2)

variable (subgraphs : Dict String IRGraph)

def forward (id : String) (inputs : List (String × IValue T)) :
    List (IValueLocation × IValue T) :=
  ((subgraphs.get id).bind fun g => forwardGraph I params ids g inputs).getD []

/-- The inputs that a subgraph waits for. -/
def waitedNames (id : String) : List String :=
  ((subgraphs.get id).bind IRGraph.getNonParamInputNames).getD []

variable {I params ids subgraphs}

theorem IRGraph.SameProgram.isParam_eq {sg replica : IRGraph} (h : sg.SameProgram replica) :
    replica.isParam = sg.isParam := by
  funext name
  unfold IRGraph.isParam
  have hrel := h.values name
  revert hrel
  generalize sg.getValue name = v
  generalize replica.getValue name = v'
  rintro (huse | _)
  · exact huse.param
  · rfl

theorem inputElems_names (g : IRGraph) (vals : String → IValue T) :
    (inputElems g.sharedClones g vals).map Prod.fst = g.clonedInputNames := by
  rw [inputElems, List.map_flatMap, IRGraph.clonedInputNames]
  refine List.flatMap_congr fun name _ => ?_
  rw [IRGraph.lookup_sharedClones]
  cases g.clonesOf name with
  | none => rfl
  | some cl_names => simp [Function.comp_def]

/-- A graph that can be cloned runs as it is meant: its clones change nothing. -/
theorem forwardGraph_eq {g : IRGraph} (hg : g.Verified) (hsafe : g.CloneSafe)
    (inputs : List (String × IValue T)) : forwardGraph I params ids g inputs =
      (g.eval I (graphInputs params g fun name => inputs.lookup name)).map fun out =>
        (g.output_names.zip out).map fun it => (⟨it.1, []⟩, it.2) := by
  obtain ⟨clone_g, hclone, hsound, hnodup⟩ := hg.exists_clonesSound hsafe ids
  set vals := graphInputs params g fun name => inputs.lookup name
  rw [← inputElems_names g vals] at hnodup
  have hclones : ∀ it ∈ g.sharedClones, ∀ cl_name ∈ it.2,
      ((inputElems g.sharedClones g vals).lookup cl_name).getD (.scalar .none) = vals it.1 := by
    intro it hit cl_name hmem
    have hshared := IRGraph.mem_sharedClones.mp hit
    have helem : (cl_name, vals it.1) ∈ inputElems g.sharedClones g vals := by
      refine List.mem_flatMap.mpr ⟨it.1, (IRGraph.clonesOf_eq_some hshared).1.1, ?_⟩
      rw [IRGraph.lookup_sharedClones, hshared]
      exact List.mem_map_of_mem hmem
    rw [lookup_eq_of_mem hnodup helem, Option.getD_some]
  have hkept : ∀ name ∈ g.input_names, name ∉ g.sharedClones.map Prod.fst →
      ((inputElems g.sharedClones g vals).lookup name).getD (.scalar .none) = vals name := by
    intro name hname hnot
    have hnone := IRGraph.clonesOf_eq_none.mpr
      fun hshared => hnot (IRGraph.mem_map_sharedClones.mpr hshared)
    have helem : (name, vals name) ∈ inputElems g.sharedClones g vals := by
      refine List.mem_flatMap.mpr ⟨name, hname, ?_⟩
      rw [IRGraph.lookup_sharedClones, hnone]
      exact List.mem_singleton_self _
    rw [lookup_eq_of_mem hnodup helem, Option.getD_some]
  have hmeaning := hsound.meaning (IValue T) I vals _ hclones hkept
  unfold forwardGraph
  rw [hclone]
  dsimp only [Option.bind_eq_bind, Option.bind_some]
  rw [hmeaning]
  cases g.eval I vals <;> rfl

theorem IRGraph.SameProgram.verified {sg replica : IRGraph} (h : sg.SameProgram replica)
    (hsg : sg.Verified) : replica.Verified := by
  have hdefined : replica.definedNames = sg.definedNames := by
    unfold IRGraph.definedNames
    rw [h.nodes, h.input_names]
  constructor
  case node_inputs =>
    have hinputs := hsg.node_inputs
    unfold IRGraph.verifyNodeInputs at hinputs ⊢
    rw [h.nodes, h.input_names]
    exact hinputs
  case no_duplicated =>
    have hnodup := hsg.no_duplicated
    unfold IRGraph.verifyNoDuplicatedOutputs at hnodup ⊢
    rw [hdefined]
    exact hnodup
  case outputs =>
    rw [hdefined, h.output_names]
    exact hsg.outputs
  case values =>
    intro name hname
    rw [hdefined] at hname
    obtain ⟨v, hv, hv_name⟩ := hsg.values name hname
    have hrel := h.values name
    rw [hv] at hrel
    generalize replica.getValue name = v' at hrel
    cases hrel with
    | some huse => exact ⟨_, rfl, huse.name.trans hv_name⟩
  case ids =>
    rw [h.nodes]
    exact hsg.ids

theorem IRGraph.SameProgram.cloneSafe {sg replica : IRGraph} (h : sg.SameProgram replica)
    (hsafe : sg.CloneSafe) : replica.CloneSafe := by
  have hcount : ∀ name, countValueRefCount replica name = countValueRefCount sg name := by
    intro name
    unfold countValueRefCount
    rw [h.nodes]
  have hshared : ∀ name, replica.IsShared name ↔ sg.IsShared name := by
    intro name
    unfold IRGraph.IsShared
    rw [h.input_names, hcount]
  constructor
  case once =>
    intro name hname n hn
    exact hsafe.once name ((hshared name).mp hname) n (h.nodes ▸ hn)
  case fresh =>
    intro name hname i hi hdefined
    rw [hcount] at hi
    unfold IRGraph.definedNames at hdefined
    rw [h.nodes, h.input_names] at hdefined
    exact (hshared _).mpr (hsafe.fresh name ((hshared name).mp hname) i hi hdefined)

theorem IRGraph.SameProgram.forwardGraph_eq {sg replica : IRGraph} (h : sg.SameProgram replica)
    (hsg : sg.Verified) (hsafe : sg.CloneSafe) (inputs : List (String × IValue T)) :
    forwardGraph I params ids replica inputs = forwardGraph I params ids sg inputs := by
  have heval : ∀ vals, replica.eval I vals = sg.eval I vals := by
    intro vals
    unfold IRGraph.eval IRGraph.evalValues IRGraph.verifyNoDuplicatedOutputs IRGraph.definedNames
      IRGraph.inputEnv IRGraph.instrs
    rw [h.nodes, h.input_names, h.output_names]
  rw [Rannc.forwardGraph_eq (h.verified hsg) (h.cloneSafe hsafe),
    Rannc.forwardGraph_eq hsg hsafe, heval, h.output_names]
  unfold graphInputs
  rw [h.isParam_eq]

theorem IRGraph.SameProgram.getNonParamInputNames_eq {sg replica : IRGraph}
    (h : sg.SameProgram replica) (hsg : sg.Verified) :
    replica.getNonParamInputNames = some (sg.input_names.filter fun name => !sg.isParam name) := by
  unfold IRGraph.getNonParamInputNames
  rw [h.input_names, ← h.isParam_eq]
  apply filterM_eq_filter
  intro name hname
  obtain ⟨v, hv, -⟩ := hsg.getValue_input hname
  have hrel := h.values name
  rw [hv] at hrel
  unfold IRGraph.isParam
  generalize replica.getValue name = v' at hrel
  cases hrel with
  | some huse => rfl

theorem lookup_zip_outputs {names : List String} {env : Env String (IValue T)}
    {outs : List (IValue T)} (h : names.mapM env = some outs) {out : String} (hout : out ∈ names) :
    ((names.zip outs).map fun it => ((⟨it.1, []⟩ : IValueLocation), it.2)).lookup ⟨out, []⟩ =
      env out := by
  induction names generalizing outs with
  | nil => cases hout
  | cons name names ih =>
    rw [List.mapM_cons] at h
    obtain ⟨v, hv, h⟩ := Option.bind_eq_some_iff.mp h
    obtain ⟨vs, hvs, h⟩ := Option.bind_eq_some_iff.mp h
    obtain rfl := Option.some.inj h
    rw [List.zip_cons_cons, List.map_cons, List.lookup_cons]
    by_cases heq : out = name
    · subst heq
      simp [hv]
    · have hne : (⟨out, []⟩ : IValueLocation) ≠ ⟨name, []⟩ := fun h => heq (by simpa using h)
      rw [beq_false_of_ne hne]
      exact ih hvs ((List.mem_cons.mp hout).resolve_left heq)

variable (ids) in
/-- The module of a stage makes its outputs as a valuation has them under which its nodes hold. -/
theorem forwardGraph_lookup {sg : IRGraph} (hsg : sg.Verified) (hsafe : sg.CloneSafe)
    {ρ : Env String (IValue T)} {inputs : List (String × IValue T)}
    (hparams : ∀ name ∈ sg.input_names, sg.isParam name = true → ρ name = some (params name))
    (hreads : ∀ name, sg.Reads name → ∃ v, ρ name = some v ∧ inputs.lookup name = some v)
    (hholds : ∀ n ∈ sg.nodes, Holds I ρ n.instr) :
    ∃ outs, forwardGraph I params ids sg inputs = some outs ∧
      ∀ out ∈ sg.output_names, outs.lookup ⟨out, []⟩ = ρ out := by
  have hinputs : ∀ name ∈ sg.input_names,
      ρ name = some (graphInputs params sg (fun name => inputs.lookup name) name) := by
    intro name hname
    unfold graphInputs
    cases hparam : sg.isParam name with
    | true => simpa using hparams name hname hparam
    | false =>
      obtain ⟨v, hv, hlookup⟩ := hreads name ⟨hname, hparam⟩
      simp [hv, hlookup]
  obtain ⟨env, henv, hsame⟩ := IRGraph.evalValues_eq hsg.node_inputs hsg.no_duplicated I _ hinputs
    hholds
  have hdefined : ∀ out ∈ sg.output_names, (env out).isSome := by
    intro out hout
    exact (IRGraph.evalValues_isSome_iff henv out).mpr (hsg.outputs hout)
  obtain ⟨outs, houts⟩ := mapM_of_forall_some hdefined
  refine ⟨(sg.output_names.zip outs).map fun it => (⟨it.1, []⟩, it.2), ?_, fun out hout => ?_⟩
  · rw [forwardGraph_eq hsg hsafe, IRGraph.eval, henv]
    simp [houts]
  · rw [lookup_zip_outputs houts hout, hsame out (hsg.outputs hout)]

end Modules

section Slots

variable {V : Type} {drv : Driver V} {routes : List RouteDP} {recv : RouteDP → Option V}
  {inputs : IValueMap V} {loc : IValueLocation}

theorem slotValues_eq_some (hcombine : drv.combine = List.head?) (hinput : inputs loc = none)
    {v : V} (hroute : ∃ r ∈ routes, r.location = loc)
    (hrecv : ∀ r ∈ routes, r.location = loc → recv r = some v) :
    slotValues drv routes recv inputs loc = some v := by
  have hvalues : (routes.filter fun r => r.location = loc).filterMap recv =
      (routes.filter fun r => r.location = loc).map fun _ => v := by
    rw [← List.filterMap_eq_map']
    refine List.filterMap_congr fun r hr => ?_
    obtain ⟨hmem, hloc⟩ := List.mem_filter.mp hr
    exact hrecv r hmem (of_decide_eq_true hloc)
  obtain ⟨r, hr, hloc⟩ := hroute
  have hmem : r ∈ routes.filter fun r => r.location = loc :=
    List.mem_filter.mpr ⟨hr, decide_eq_true hloc⟩
  unfold slotValues
  dsimp only
  rw [hinput, hvalues, hcombine, List.length_map, Option.none_or,
    if_pos ⟨List.length_pos_of_mem hmem, rfl⟩, List.head?_map]
  obtain ⟨r', rest, hsplit⟩ := List.exists_cons_of_ne_nil (List.ne_nil_of_mem hmem)
  rw [hsplit]
  rfl

theorem slotValues_eq_input {v : V} (hinput : inputs loc = some v) :
    slotValues drv routes recv inputs loc = some v := by
  unfold slotValues
  rw [hinput]
  rfl

theorem slotValues_eq_none (hinput : inputs loc = none)
    (hroute : ∀ r ∈ routes, r.location ≠ loc) : slotValues drv routes recv inputs loc = none := by
  have hnil : routes.filter (fun r => r.location = loc) = [] := by simpa using hroute
  unfold slotValues
  dsimp only
  rw [hinput, hnil]
  rfl

end Slots

section Routes

theorem mem_master_ranks {sets : SetOrder} {size rank : ℕ}
    {allocation : List (String × Finset ℕ)} :
    rank ∈ graphRanks sets size allocation MASTER_NAME ↔ rank < size := by
  unfold graphRanks getGraphRanks
  rw [if_pos rfl]
  exact sets.mem.trans Finset.mem_range

variable {sort : TopologicalSort} {sets : SetOrder} {size : ℕ} {ir_graph : IRGraph}
  {sol : AllocSolution} {dec : Decomposed} (hstages : Stages ir_graph sol.graphs)
  (h : Deployed sort sets size ir_graph sol dec)

include h in
theorem out_routes_names :
    dec.fwd.out_routes.map (fun r => r.location.value_name) = ir_graph.output_names := by
  rw [← h.partitioned.outputs, h.deploys.fwd_eq]
  unfold fwdRoutes
  rw [List.map_map]
  rfl

include hstages h

theorem in_route_ends {r : RouteDP} (hr : r ∈ dec.fwd.in_routes) :
    (∃ sg ∈ sol.graphs, sg.name = r.dest_graph ∧
      ∃ name, sg.Reads name ∧ ir_graph.Reads name ∧ r.location = ⟨name, []⟩) ∧
      (∀ rank, rank ∈ r.sources ↔ rank < size) ∧
      ∀ rank, rank ∈ r.dests ↔ rank ∈ dec.deployment.allocation r.dest_graph := by
  rw [h.deploys.fwd_eq] at hr
  obtain ⟨con, hcon, rfl⟩ := List.mem_map.mp hr
  obtain ⟨hmem, hinput⟩ := List.mem_filter.mp hcon
  have hsrc : con.src = MASTER_NAME := of_decide_eq_true hinput
  have hmaster : ∀ id, (outVals ir_graph sol.graphs).lookup id ≠ some con.src := by
    intro id hlookup
    obtain ⟨src, hsrc', hname, -⟩ := of_lookup_outVals hlookup
    exact hstages.not_master src hsrc' (hname.trans hsrc)
  rcases h.partitioned.cases con hmem with ⟨-, -, -, -, -, hlookup⟩ |
    ⟨-, hmodel, sg, hsg, hread, hdest⟩ | ⟨-, -, hlookup⟩
  · exact absurd hlookup (hmaster _)
  · refine ⟨⟨sg, hsg, hdest.symm, con.value, hread, hmodel, rfl⟩, fun rank => ?_, fun rank => ?_⟩
    · change rank ∈ graphRanks sets size dec.alloc.entries con.src ↔ _
      rw [hsrc, mem_master_ranks]
    · exact h.deploys.mem_graphRanks (hdest ▸ hstages.not_master sg hsg)
  · exact absurd hlookup (hmaster _)

theorem exists_in_route_iff {sg : IRGraph} (hsg : sg ∈ sol.graphs) {name : String} :
    (∃ r ∈ dec.fwd.in_routes, r.dest_graph = sg.name ∧ r.location = ⟨name, []⟩) ↔
      sg.Reads name ∧ ir_graph.Reads name := by
  constructor
  · rintro ⟨r, hr, hdest, hloc⟩
    obtain ⟨⟨sg', hsg', hname, name', hread, hmodel, hloc'⟩, -⟩ := in_route_ends hstages h hr
    obtain rfl : name = name' := congrArg IValueLocation.value_name (hloc.symm.trans hloc')
    obtain rfl := List.inj_on_of_nodup_map hstages.nodup hsg' hsg (hname.trans hdest)
    exact ⟨hread, hmodel⟩
  · rintro ⟨hread, hmodel⟩
    obtain ⟨con, hcon, rfl, hsrc, hdest⟩ := h.partitioned.input sg hsg name hread hmodel
    rw [h.deploys.fwd_eq]
    refine ⟨fwdRoute sets size dec.alloc.entries con, List.mem_map_of_mem ?_, hdest, rfl⟩
    exact List.mem_filter.mpr ⟨hcon, decide_eq_true hsrc⟩

theorem out_route_ends {r : RouteDP} (hr : r ∈ dec.fwd.out_routes) :
    (∃ sg ∈ sol.graphs, sg.name = r.source_graph ∧ ∃ out ∈ sg.output_names,
      out ∈ ir_graph.output_names ∧ r.location = ⟨out, []⟩) ∧
      (∀ rank, rank ∈ r.sources ↔ rank ∈ dec.deployment.allocation r.source_graph) ∧
      ∀ rank, rank ∈ r.dests ↔ rank < size := by
  rw [h.deploys.fwd_eq] at hr
  obtain ⟨con, hcon, rfl⟩ := List.mem_map.mp hr
  obtain ⟨hmem, houtput⟩ := List.mem_filter.mp hcon
  obtain ⟨hsrc, hdest⟩ := Bool.and_eq_true_iff.mp houtput
  have hdest : con.dest = MASTER_NAME := of_decide_eq_true hdest
  have hsrc : con.src ≠ MASTER_NAME := by simpa [GraphConnection.isGraphInput] using hsrc
  rcases h.partitioned.cases con hmem with
    ⟨sg, hsg, -, hdest', -⟩ | ⟨hmaster, -⟩ | ⟨-, hmodel, hlookup⟩
  · exact absurd (hdest'.symm.trans hdest) (hstages.not_master sg hsg)
  · exact absurd hmaster hsrc
  · obtain ⟨sg, hsg, hname, hout⟩ := of_lookup_outVals hlookup
    refine ⟨⟨sg, hsg, hname, con.value, hout, hmodel, rfl⟩, fun rank => ?_, fun rank => ?_⟩
    · exact h.deploys.mem_graphRanks hsrc
    · change rank ∈ graphRanks sets size dec.alloc.entries con.dest ↔ _
      rw [hdest, mem_master_ranks]

/-- The routes to a stage come from the stages that make the values it reads. -/
theorem mem_routes_iff (hconn : Connectable ir_graph sol.graphs) {sg : IRGraph}
    (hsg : sg ∈ sol.graphs) {name src_id : String} :
    (∃ r ∈ dec.deployment.fwd_routes, r.dest_graph = sg.name ∧ r.location = ⟨name, []⟩ ∧
        r.source_graph = src_id) ↔
      sg.Reads name ∧ ∃ src ∈ sol.graphs, src ≠ sg ∧ src.name = src_id ∧
        name ∈ src.output_names := by
  rw [h.deploys.fwd_routes, h.deploys.fwd_eq]
  constructor
  · rintro ⟨r, hr, hdest, hloc, rfl⟩
    obtain ⟨con, hcon, rfl⟩ := List.mem_map.mp hr
    obtain rfl : con.value = name := congrArg IValueLocation.value_name hloc
    obtain ⟨sg', hsg', hread, hdest', hne, hlookup⟩ := h.between_cases hcon
    obtain rfl := List.inj_on_of_nodup_map hstages.nodup hsg' hsg (hdest'.symm.trans hdest)
    obtain ⟨src, hsrc, hname, hout⟩ := of_lookup_outVals hlookup
    refine ⟨hread, src, hsrc, ?_, hname, hout⟩
    rintro rfl
    exact hne hname.symm
  · rintro ⟨hread, src, hsrc, hne, rfl, hout⟩
    have hlookup := hconn.lookup_outVals hsrc hout
    have hne' : src.name ≠ sg.name := fun heq =>
      hne (List.inj_on_of_nodup_map hstages.nodup hsrc hsg heq)
    obtain ⟨con, hcon, rfl, hcsrc, hdest⟩ :=
      h.partitioned.between sg hsg name hread _ hlookup hne'
    refine ⟨fwdRoute sets size dec.alloc.entries con, List.mem_map_of_mem ?_, hdest, rfl, hcsrc⟩
    refine List.mem_filter.mpr ⟨hcon, ?_⟩
    simp [GraphConnection.isGraphInput, GraphConnection.isGraphOutput, hcsrc, hdest,
      hstages.not_master src hsrc, hstages.not_master sg hsg]

end Routes

section Values

variable {I : Interp String (IValue (Tensor ℚ))} {params : String → IValue (Tensor ℚ)}
  {ids : NameSupply} {inputs : IValueMap (IValue (Tensor ℚ))} {env : Env String (IValue (Tensor ℚ))}
  {sort : TopologicalSort} {sets : SetOrder} {size : ℕ} {ir_graph : IRGraph} {sol : AllocSolution}
  {dec : Decomposed}

/-- All values of the model, on inputs for it. -/
def modelEnv (I : Interp String (IValue (Tensor ℚ))) (params : String → IValue (Tensor ℚ))
    (ir_graph : IRGraph) (inputs : IValueMap (IValue (Tensor ℚ))) :
    Option (Env String (IValue (Tensor ℚ))) :=
  ir_graph.evalValues I (graphInputs params ir_graph fun name => inputs ⟨name, []⟩)

/-- The values of a model that its stages can pass on: there is something at every place. -/
structure Passable (ir_graph : IRGraph) (stages : List IRGraph)
    (inputs : IValueMap (IValue (Tensor ℚ))) (env : Env String (IValue (Tensor ℚ))) : Prop where
  inputs : ∀ name, ir_graph.Reads name → ∃ v, inputs ⟨name, []⟩ = some v ∧ v.isNone = false
  outputs : ∀ sg ∈ stages, ∀ out ∈ sg.output_names, ∀ v, env out = some v → v.isNone = false

variable (hstages : Stages ir_graph sol.graphs) (hconn : Connectable ir_graph sol.graphs)
  (hnodes : ∀ sg ∈ sol.graphs, sg.nodes ⊆ ir_graph.nodes)
  (henv : modelEnv I params ir_graph inputs = some env)

include hstages in
theorem Stages.isParam_eq {sg : IRGraph} (hsg : sg ∈ sol.graphs) {name : String}
    (hname : name ∈ sg.input_names) : ir_graph.isParam name = sg.isParam name := by
  obtain ⟨v, hv, hparam⟩ := (hstages.verified sg hsg).getValue_input hname
  obtain ⟨v', hv', -, huse⟩ := hstages.values sg hsg name v hv
  rw [← hparam, huse.param]
  unfold IRGraph.isParam
  rw [hv']
  rfl

include hstages henv in
theorem env_param {sg : IRGraph} (hsg : sg ∈ sol.graphs) {name : String}
    (hname : name ∈ sg.input_names) (hparam : sg.isParam name = true) :
    env name = some (params name) := by
  have hmodel := hstages.params sg hsg name hname hparam
  rw [IRGraph.evalValues_input henv hmodel, graphInputs, hstages.isParam_eq hsg hname, hparam,
    if_pos rfl]

include hstages hconn hnodes henv in
theorem exists_env_output {sg : IRGraph} (hsg : sg ∈ sol.graphs) {out : String}
    (hout : out ∈ sg.output_names) : ∃ v, env out = some v := by
  refine Option.isSome_iff_exists.mp ((IRGraph.evalValues_isSome_iff henv out).mpr ?_)
  rcases IRGraph.mem_definedNames.mp ((hstages.verified sg hsg).outputs hout) with
    hin | ⟨n, hn, hmem⟩
  · cases hparam : sg.isParam out with
    | true =>
      exact absurd (hstages.params sg hsg out hin hparam) (hconn.fresh sg hsg out hout)
    | false =>
      rcases hconn.reads sg hsg out ⟨hin, hparam⟩ with hmodel | ⟨src, hsrc, hne, hout'⟩
      · exact absurd hmodel.1 (hconn.fresh sg hsg out hout)
      · exact absurd (hconn.once src hsrc sg hsg out hout' hout) hne
  · exact IRGraph.mem_definedNames.mpr (Or.inr ⟨n, hnodes sg hsg hn, hmem⟩)

/-- The modules of the subgraphs, run once each. -/
def deployedValues (I : Interp String (IValue (Tensor ℚ))) (params : String → IValue (Tensor ℚ))
    (ids : NameSupply) (dec : Decomposed) (inputs : IValueMap (IValue (Tensor ℚ))) :
    String → IValueMap (IValue (Tensor ℚ)) :=
  moduleValues dec.deployment dec.fwd.in_routes (waitedNames dec.partition.subgraphs)
    (forward I params ids dec.partition.subgraphs) inputs

/-- The places of a subgraph before it is run. -/
def stageSlots (I : Interp String (IValue (Tensor ℚ))) (params : String → IValue (Tensor ℚ))
    (ids : NameSupply) (dec : Decomposed) (inputs : IValueMap (IValue (Tensor ℚ))) (id : String) :
    IValueMap (IValue (Tensor ℚ)) :=
  slotValues (moduleDriver (waitedNames dec.partition.subgraphs)
      (forward I params ids dec.partition.subgraphs))
    (sortRecvRoutes (dec.deployment.graph_order false) dec.deployment.fwd_routes id)
    (fun r => passOn (deployedValues I params ids dec inputs r.source_graph r.location))
    (routedTo dec.fwd.in_routes inputs id)

variable (h : Deployed sort sets size ir_graph sol dec)
  (hpass : Passable ir_graph sol.graphs inputs env)

include h in
theorem deployedValues_eq {id : String} (hid : id ∈ dec.deployment.graphs false) :
    deployedValues I params ids dec inputs id =
      turnValues (moduleDriver (waitedNames dec.partition.subgraphs)
        (forward I params ids dec.partition.subgraphs)) 0 id
          (stageSlots I params ids dec inputs id) := by
  have hrouted := (h.routedOnce false).toRouted
  exact inTurn_eq hrouted.order_nodup (wholeTurn_dependsOnEarlier hrouted) _ id hid

include hstages hconn h in
theorem stageSlots_output {sg : IRGraph} (hsg : sg ∈ sol.graphs) {out : String}
    (hout : out ∈ sg.output_names) :
    stageSlots I params ids dec inputs sg.name ⟨out, []⟩ = none := by
  refine slotValues_eq_none ?_ fun r hr hloc => ?_
  · refine if_neg fun hroute => ?_
    obtain ⟨-, hmodel⟩ := (exists_in_route_iff hstages h hsg).mp hroute
    exact hconn.fresh sg hsg out hout hmodel.1
  · obtain ⟨hmem, hdest⟩ := (mem_sortRecvRoutes _).mp hr
    obtain ⟨-, src, hsrc, hne, -, hout'⟩ :=
      (mem_routes_iff hstages h hconn hsg).mp ⟨r, hmem, hdest, hloc, rfl⟩
    exact hne (hconn.once src hsrc sg hsg out hout' hout)

include hstages hconn hnodes henv h hpass

/-- What a stage reads is at its place, once the stages before made their values. -/
theorem stageSlots_read {sg : IRGraph} (hsg : sg ∈ sol.graphs)
    (hbefore : ∀ r ∈ dec.deployment.fwd_routes, r.dest_graph = sg.name → ∀ src ∈ sol.graphs,
      src.name = r.source_graph → ∀ out ∈ src.output_names,
        deployedValues I params ids dec inputs src.name ⟨out, []⟩ = env out)
    {name : String} (hread : sg.Reads name) :
    ∃ v, env name = some v ∧ stageSlots I params ids dec inputs sg.name ⟨name, []⟩ = some v := by
  by_cases hmodel : ir_graph.Reads name
  · obtain ⟨v, hv, hsome⟩ := hpass.inputs name hmodel
    refine ⟨v, ?_, slotValues_eq_input ?_⟩
    · rw [IRGraph.evalValues_input henv hmodel.1, graphInputs, hmodel.2,
        if_neg Bool.false_ne_true, hv]
      rfl
    · have hroute := (exists_in_route_iff hstages h hsg).mpr ⟨hread, hmodel⟩
      unfold routedTo
      rw [if_pos hroute, hv]
      simp [passOn, hsome]
  · obtain ⟨src, hsrc, hne, hout⟩ := (hconn.reads sg hsg name hread).resolve_left hmodel
    obtain ⟨v, hv⟩ := exists_env_output hstages hconn hnodes henv hsrc hout
    refine ⟨v, hv, slotValues_eq_some rfl ?_ ?_ ?_⟩
    · refine if_neg fun hroute => ?_
      exact hmodel ((exists_in_route_iff hstages h hsg).mp hroute).2
    · obtain ⟨r, hr, hdest, hloc, -⟩ :=
        (mem_routes_iff hstages h hconn hsg).mpr ⟨hread, src, hsrc, hne, rfl, hout⟩
      exact ⟨r, (mem_sortRecvRoutes _).mpr ⟨hr, hdest⟩, hloc⟩
    · intro r hr hloc
      obtain ⟨hmem, hdest⟩ := (mem_sortRecvRoutes _).mp hr
      obtain ⟨-, src', hsrc', -, hname, hout'⟩ :=
        (mem_routes_iff hstages h hconn hsg).mp ⟨r, hmem, hdest, hloc, rfl⟩
      have hvalue := hbefore r hmem hdest src' hsrc' hname name hout'
      rw [hname, hv, ← hloc] at hvalue
      rw [hvalue]
      simp [passOn, hpass.outputs src hsrc name hout v hv]

variable (hsafe : ∀ sg ∈ sol.graphs, sg.CloneSafe)
include hsafe

variable (ids) in
/-- Every stage makes its values of the model. -/
theorem deployedValues_eq_env : ∀ id ∈ dec.deployment.graphs false, ∀ sg ∈ sol.graphs,
    sg.name = id → ∀ out ∈ sg.output_names,
      deployedValues I params ids dec inputs id ⟨out, []⟩ = env out := by
  have hrouted := (h.routedOnce false).toRouted
  refine order_induction fun before id after hgraphs hbefore => ?_
  rintro sg hsg rfl out hout
  have hid : sg.name ∈ dec.deployment.graphs false := by simp [hgraphs]
  have hreads : ∀ name, sg.Reads name → ∃ v, env name = some v ∧
      stageSlots I params ids dec inputs sg.name ⟨name, []⟩ = some v := by
    refine fun name => stageSlots_read hstages hconn hnodes henv h hpass hsg ?_
    intro r hr hdest src hsrc hname
    have hlt := hrouted.topological r hr
    rw [hdest] at hlt
    exact hbefore _ (mem_of_graph_order_lt hgraphs (hname ▸ hlt)) src hsrc rfl
  have hverified := hstages.verified sg hsg
  obtain ⟨replica, hreplica, hsame⟩ := h.scaled.of_stage sg hsg
  have hwaited : waitedNames dec.partition.subgraphs sg.name =
      sg.input_names.filter fun name => !sg.isParam name := by
    unfold waitedNames
    rw [hreplica, Option.bind_some, hsame.getNonParamInputNames_eq hverified]
    rfl
  have hread_of : ∀ name ∈ waitedNames dec.partition.subgraphs sg.name, sg.Reads name := by
    intro name hname
    rw [hwaited] at hname
    simpa [IRGraph.Reads] using hname
  have hready : isGraphReady (waitedNames dec.partition.subgraphs sg.name)
      (stageSlots I params ids dec inputs sg.name) = true := by
    refine List.all_eq_true.mpr fun name hname => ?_
    obtain ⟨v, -, hslot⟩ := hreads name (hread_of name hname)
    rw [hslot]
    rfl
  have hgiven : ∀ name, sg.Reads name → ∃ v, env name = some v ∧
      ((waitedNames dec.partition.subgraphs sg.name).filterMap fun in_name =>
        (stageSlots I params ids dec inputs sg.name ⟨in_name, []⟩).map fun v =>
          (in_name, v)).lookup name = some v := by
    intro name hread
    obtain ⟨v, hv, hslot⟩ := hreads name hread
    have hmem : name ∈ waitedNames dec.partition.subgraphs sg.name := by
      rw [hwaited]
      simpa [IRGraph.Reads] using hread
    refine ⟨v, hv, ?_⟩
    rw [IRGraph.lookup_filterMap (fun in_name =>
      stageSlots I params ids dec inputs sg.name ⟨in_name, []⟩), if_pos hmem, hslot]
  obtain ⟨outs, houts, hlookup⟩ := forwardGraph_lookup ids hverified (hsafe sg hsg)
    (fun name hname hparam => env_param hstages henv hsg hname hparam) hgiven
    (fun n hn => IRGraph.evalValues_holds henv n (hnodes sg hsg hn))
  have hforward : forward I params ids dec.partition.subgraphs sg.name
      ((waitedNames dec.partition.subgraphs sg.name).filterMap fun in_name =>
        (stageSlots I params ids dec inputs sg.name ⟨in_name, []⟩).map fun v => (in_name, v)) =
          outs := by
    rw [forward, hreplica, Option.bind_some, hsame.forwardGraph_eq hverified (hsafe sg hsg), houts]
    rfl
  have hrun : runOn (moduleDriver (waitedNames dec.partition.subgraphs)
      (forward I params ids dec.partition.subgraphs)) 0 (stageSlots I params ids dec inputs sg.name)
        sg.name = outs :=
    hforward
  rw [deployedValues_eq h hid, turnValues, hrun]
  refine (congrFun (if_pos hready) _).trans ?_
  rw [addOutputs, stageSlots_output hstages hconn h hsg hout, Option.none_or, hlookup out hout]

variable (ids) in
theorem out_route_env {r : RouteDP} (hr : r ∈ dec.fwd.out_routes) :
    deployedValues I params ids dec inputs r.source_graph r.location =
      env r.location.value_name := by
  obtain ⟨⟨sg, hsg, hname, out, hout, -, hloc⟩, -⟩ := out_route_ends hstages h hr
  rw [hloc]
  exact deployedValues_eq_env ids hstages hconn hnodes henv h hpass hsafe _
    (h.mem_graphs.mpr ⟨sg, hsg, hname⟩) sg hsg hname out hout

end Values

section Model

variable {I : Interp String (IValue (Tensor ℚ))} {params : String → IValue (Tensor ℚ)}
  {ids : NameSupply} {inputs : IValueMap (IValue (Tensor ℚ))} {env : Env String (IValue (Tensor ℚ))}
  {sort : TopologicalSort} {sets : SetOrder} {order : MapOrder String} {size batch_size : ℕ}
  {alloc_repl_flat : Bool} {ir_graph : IRGraph} {sol : AllocSolution} {dec : Decomposed}

/-- A deployment that is verified computes the model: its subgraphs, run once each in their order on
what the routes bring, make the values of the model, and its output routes bring what the model
evaluates to. -/
theorem verified_computes_model (hstages : Stages ir_graph sol.graphs)
    (hdeploy : deploySolution sort sets order size batch_size alloc_repl_flat ir_graph sol =
      some dec)
    (hverify : verifyDeployment dec.partition.subgraphs.entries dec.fwd dec.bwd = .ok ())
    (hnodes : ∀ sg ∈ sol.graphs, sg.nodes ⊆ ir_graph.nodes)
    (hsafe : ∀ sg ∈ sol.graphs, sg.CloneSafe)
    (henv : modelEnv I params ir_graph inputs = some env)
    (hpass : Passable ir_graph sol.graphs inputs env) :
    (∀ sg ∈ sol.graphs, ∀ out ∈ sg.output_names,
      deployedValues I params ids dec inputs sg.name ⟨out, []⟩ = env out) ∧
    (dec.fwd.out_routes.mapM fun r =>
        deployedValues I params ids dec inputs r.source_graph r.location) =
      ir_graph.eval I (graphInputs params ir_graph fun name => inputs ⟨name, []⟩) := by
  have h := deploySolution_spec hstages hdeploy
  have hconn := (verifyDeployment_eq_ok_iff hstages h).mp hverify
  constructor
  · intro sg hsg out hout
    exact deployedValues_eq_env ids hstages hconn hnodes henv h hpass hsafe sg.name
      (h.mem_graphs.mpr ⟨sg, hsg, rfl⟩) sg hsg rfl out hout
  · have hvalues : dec.fwd.out_routes.mapM (fun r =>
        deployedValues I params ids dec inputs r.source_graph r.location) =
          dec.fwd.out_routes.mapM fun r => env r.location.value_name :=
      mapM_congr fun r hr => out_route_env ids hstages hconn hnodes henv h hpass hsafe hr
    unfold modelEnv at henv
    rw [hvalues, IRGraph.eval, henv, Option.bind_eq_bind, Option.bind_some,
      ← out_routes_names h, List.mapM_map]
    rfl

/-- Operators that return what they read first. -/
def firstArg : Interp String (IValue (Tensor ℚ)) := fun _ args _ => args.headD (.scalar .none)

def twoStagesParams (_name : String) : IValue (Tensor ℚ) := .tensor (singleRow 2)

theorem cutInTwo_env (inputs : IValueMap (IValue (Tensor ℚ))) : ∃ env,
    modelEnv firstArg twoStagesParams twoStagesGraph inputs = some env ∧
      ∀ sg ∈ cutInTwo.graphs, ∀ out ∈ sg.output_names,
        env out = some ((inputs ⟨"x", []⟩).getD (.scalar .none)) := by
  refine ⟨_, rfl, fun sg hsg out hout => ?_⟩
  rcases mem_cutInTwo hsg with rfl | rfl
  · obtain rfl : out = "y" := by simpa [firstStage] using hout
    rfl
  · obtain rfl : out = "z" := by simpa [secondStage] using hout
    rfl

theorem cutInTwo_nodes : ∀ sg ∈ cutInTwo.graphs, sg.nodes ⊆ twoStagesGraph.nodes := by
  intro sg hsg
  rcases mem_cutInTwo hsg with rfl | rfl
  · simp [firstStage, twoStagesGraph]
  · simp [secondStage, twoStagesGraph]

theorem cutInTwo_cloneSafe : ∀ sg ∈ cutInTwo.graphs, sg.CloneSafe := by
  intro sg hsg
  have hshared : ∀ name, ¬sg.IsShared name := by
    intro name hname
    have hnone : ∀ name ∈ sg.input_names, ¬1 < countValueRefCount sg name := by
      rcases mem_cutInTwo hsg with rfl | rfl
      · decide
      · decide
    exact hnone name hname.1 hname.2
  exact ⟨fun name h => absurd h (hshared name), fun name h => absurd h (hshared name)⟩

theorem reads_twoStagesGraph {name : String} (hread : twoStagesGraph.Reads name) : name = "x" := by
  have hname : name = "x" ∨ name = "w" := by simpa [twoStagesGraph] using hread.1
  exact hname.resolve_right fun hw => absurd (hw ▸ hread) (by decide)

theorem cutInTwo_passable {env : Env String (IValue (Tensor ℚ))}
    (henv : ∀ sg ∈ cutInTwo.graphs, ∀ out ∈ sg.output_names,
      env out = some ((sixRowsIn ⟨"x", []⟩).getD (.scalar .none))) :
    Passable twoStagesGraph cutInTwo.graphs sixRowsIn env where
  inputs name hread := by
    obtain rfl := reads_twoStagesGraph hread
    exact ⟨_, rfl, rfl⟩
  outputs sg hsg out hout v hv := by
    rw [← Option.some.inj ((henv sg hsg out hout).symm.trans hv)]
    rfl

theorem cutInTwo_verified (hdec : deployTwoStages = some dec) :
    verifyDeployment dec.partition.subgraphs.entries dec.fwd dec.bwd = .ok () :=
  (verifyDeployment_eq_ok_iff cutInTwo_stages
    (deploySolution_spec cutInTwo_stages hdec)).mpr cutInTwo_connectable

theorem verified_computes_model_two : ∃ dec env, deployTwoStages = some dec ∧
    modelEnv firstArg twoStagesParams twoStagesGraph sixRowsIn = some env ∧
    (∀ sg ∈ cutInTwo.graphs, ∀ out ∈ sg.output_names,
      deployedValues firstArg twoStagesParams IRGraph.nodeIds dec sixRowsIn sg.name ⟨out, []⟩ =
        env out) ∧
    (dec.fwd.out_routes.mapM fun r => deployedValues firstArg twoStagesParams IRGraph.nodeIds dec
        sixRowsIn r.source_graph r.location) =
      twoStagesGraph.eval firstArg
        (graphInputs twoStagesParams twoStagesGraph fun name => sixRowsIn ⟨name, []⟩) := by
  obtain ⟨dec, hdec⟩ := Option.isSome_iff_exists.mp deployTwoStages_isSome
  obtain ⟨env, henv, houts⟩ := cutInTwo_env sixRowsIn
  exact ⟨dec, env, hdec, henv, verified_computes_model cutInTwo_stages hdec
    (cutInTwo_verified hdec) cutInTwo_nodes cutInTwo_cloneSafe henv (cutInTwo_passable houts)⟩

end Model

end Rannc
