import Rannc.Graph.DeployedStages

/-!
# The verification of a deployment

Before a deployment is used, it is verified that everything a subgraph reads or makes has a route,
and one back where it has a gradient. The deployment of a solution passes if and only if every value
of a stage is made by this stage alone and used outside of it.
-/
namespace Rannc

open Rannc.Digraph

def RouteLists.all (lists : RouteLists) : List RouteDP :=
  lists.in_routes ++ lists.routes ++ lists.out_routes

section Checks

variable (subgraphs : List (String × IRGraph)) (fwd_routes bwd_routes : List RouteDP)

/-- Whether a route of the value ends at the graph. A route has the value that was found for it. -/
def checkRoute (routes : List RouteDP) (end_graph : RouteDP → String)
    (message name graph_name : String) (val : IRValue) : Except String Unit :=
  if ∃ r ∈ routes, graph_name = end_graph r ∧
      (connectedValue subgraphs r.location.value_name).map IRValue.name = some val.name then .ok ()
  else .error (message ++ name ++ " in " ++ graph_name)

def verifyInput (graph_name : String) (ir_graph : IRGraph) (in_name : String) :
    Except String Unit := do
  let in_val ← orThrow "_Map_base::at" (ir_graph.getValue in_name)
  if in_val.is_param then return ()
  checkRoute subgraphs fwd_routes RouteDP.dest_graph "No fwd route for input: " in_name graph_name
    in_val
  if in_val.type.passedForBackward then
    checkRoute subgraphs bwd_routes RouteDP.source_graph "No bwd route for input: " in_name
      graph_name in_val

def verifyOutput (graph_name : String) (ir_graph : IRGraph) (out_name : String) :
    Except String Unit := do
  let out_val ← orThrow "_Map_base::at" (ir_graph.getValue out_name)
  checkRoute subgraphs fwd_routes RouteDP.source_graph "No fwd route for output: " out_name
    graph_name out_val
  if out_val.type.passedForBackward then
    checkRoute subgraphs bwd_routes RouteDP.dest_graph "No bwd route for output: " out_name
      graph_name out_val

def verifyDeployment (fwd bwd : RouteLists) : Except String Unit :=
  subgraphs.forM fun it => do
    it.2.input_names.forM (verifyInput subgraphs fwd.all bwd.all it.1 it.2)
    it.2.output_names.forM (verifyOutput subgraphs fwd.all bwd.all it.1 it.2)

end Checks

/-- Stages that can be deployed: what a stage reads comes from outside, and what it makes is its own
and used outside. -/
structure Connectable (ir_graph : IRGraph) (stages : List IRGraph) : Prop where
  reads : ∀ sg ∈ stages, ∀ name, sg.Reads name →
    ir_graph.Reads name ∨ ∃ src ∈ stages, src ≠ sg ∧ name ∈ src.output_names
  fresh : ∀ sg ∈ stages, ∀ out ∈ sg.output_names, out ∉ ir_graph.input_names
  once : ∀ sg ∈ stages, ∀ sg' ∈ stages, ∀ out ∈ sg.output_names, out ∈ sg'.output_names → sg = sg'
  used : ∀ sg ∈ stages, ∀ out ∈ sg.output_names,
    out ∈ ir_graph.output_names ∨ ∃ sg' ∈ stages, sg' ≠ sg ∧ sg'.Reads out

/-- Stages that are told apart by their names. -/
theorem Connectable.of_names {ir_graph : IRGraph} {stages : List IRGraph}
    (hnodup : (stages.map IRGraph.name).Nodup)
    (hreads : ∀ sg ∈ stages, ∀ name ∈ sg.input_names, sg.Reads name → ir_graph.Reads name ∨
      ∃ src ∈ stages, src.name ≠ sg.name ∧ name ∈ src.output_names)
    (hfresh : ∀ sg ∈ stages, ∀ out ∈ sg.output_names, out ∉ ir_graph.input_names)
    (honce : ∀ sg ∈ stages, ∀ sg' ∈ stages, ∀ out ∈ sg.output_names, out ∈ sg'.output_names →
      sg.name = sg'.name)
    (hused : ∀ sg ∈ stages, ∀ out ∈ sg.output_names, out ∈ ir_graph.output_names ∨
      ∃ sg' ∈ stages, sg'.name ≠ sg.name ∧ sg'.Reads out) : Connectable ir_graph stages where
  reads sg hsg name hread :=
    (hreads sg hsg name hread.1 hread).imp_right fun ⟨src, hsrc, hne, hout⟩ =>
      ⟨src, hsrc, fun heq => hne (congrArg IRGraph.name heq), hout⟩
  fresh := hfresh
  once sg hsg sg' hsg' out hout hout' :=
    List.inj_on_of_nodup_map hnodup hsg hsg' (honce sg hsg sg' hsg' out hout hout')
  used sg hsg out hout :=
    (hused sg hsg out hout).imp_right fun ⟨sg', hsg', hne, hread⟩ =>
      ⟨sg', hsg', fun heq => hne (congrArg IRGraph.name heq), hread⟩

section Routes

variable {sets : SetOrder} {size : ℕ} {subgraphs : List (String × IRGraph)}
  {allocation : List (String × Finset ℕ)} {connections : List GraphConnection} {r : RouteDP}

theorem mem_parted {con : GraphConnection} : (con ∈ fromMaster connections ∨
    con ∈ betweenGraphs connections) ∨ con ∈ toMaster connections ↔ con ∈ connections := by
  simp only [fromMaster, betweenGraphs, toMaster, List.mem_filter, ← and_or_left]
  cases con.isGraphInput <;> cases con.isGraphOutput <;> simp

theorem mem_fwdRoutes_all : r ∈ (fwdRoutes sets size allocation connections).all ↔
    ∃ con ∈ connections, fwdRoute sets size allocation con = r := by
  unfold RouteLists.all fwdRoutes
  dsimp only
  rw [← List.map_append, ← List.map_append, List.mem_map]
  simp only [List.mem_append, mem_parted]

theorem mem_bwdRoutes_all : r ∈ (bwdRoutes sets size subgraphs allocation connections).all ↔
    ∃ con ∈ connections.filter (hasGradient subgraphs), bwdRoute sets size allocation con = r := by
  unfold RouteLists.all bwdRoutes
  dsimp only
  rw [← List.map_append, ← List.map_append, List.mem_map]
  refine exists_congr fun con => and_congr_left fun _ => Iff.trans ?_ mem_parted
  simp only [List.mem_append]
  tauto

theorem checkRoute_eq_ok_iff {routes : List RouteDP} {end_graph : RouteDP → String}
    {route : GraphConnection → RouteDP} {end_con : GraphConnection → String}
    (hroutes : ∀ r, r ∈ routes ↔ ∃ con ∈ connections, route con = r)
    (hlocation : ∀ con, (route con).location.value_name = con.value)
    (hend : ∀ con, end_graph (route con) = end_con con)
    (hnames : ∀ con ∈ connections,
      (connectedValue subgraphs con.value).map IRValue.name = some con.value)
    (message graph_name : String) {name : String} {val : IRValue} (hval : val.name = name) :
    checkRoute subgraphs routes end_graph message name graph_name val = .ok () ↔
      ∃ con ∈ connections, end_con con = graph_name ∧ con.value = name := by
  have hsome : (∃ r ∈ routes, graph_name = end_graph r ∧ (connectedValue subgraphs
      r.location.value_name).map IRValue.name = some val.name) ↔
      ∃ con ∈ connections, end_con con = graph_name ∧ con.value = name := by
    constructor
    · rintro ⟨r, hr, hgraph, hname⟩
      obtain ⟨con, hcon, rfl⟩ := (hroutes r).mp hr
      rw [hlocation, hnames con hcon, hval] at hname
      exact ⟨con, hcon, by rw [hgraph, hend], Option.some.inj hname⟩
    · rintro ⟨con, hcon, hgraph, rfl⟩
      refine ⟨route con, (hroutes _).mpr ⟨con, hcon, rfl⟩, by rw [hend, hgraph], ?_⟩
      rw [hlocation, hnames con hcon, hval]
  unfold checkRoute
  split_ifs with hroute
  · exact iff_of_true rfl (hsome.mp hroute)
  · exact iff_of_false (by simp) (mt hsome.mpr hroute)

end Routes

section Solution

variable {sort : TopologicalSort} {sets : SetOrder} {size : ℕ} {ir_graph : IRGraph}
  {sol : AllocSolution} {dec : Decomposed}

theorem subgraph_value (hstages : Stages ir_graph sol.graphs)
    (hscaled : ScaledStages sol.graphs dec.partition.subgraphs) {it : String × IRGraph}
    (hit : it ∈ dec.partition.subgraphs.entries) {name : String} {val : IRValue}
    (hval : it.2.getValue name = some val) :
    ∃ v, ir_graph.getValue name = some v ∧ v.name = name ∧ val.SameUse v := by
  obtain ⟨sg, hsg, -, hsame⟩ := hscaled.to_stage it hit
  have hrel := hsame.values name
  rw [hval] at hrel
  generalize hstage : sg.getValue name = v at hrel
  cases hrel with
  | some huse =>
    obtain ⟨v', hmodel, hname, huse'⟩ := hstages.values sg hsg name _ hstage
    exact ⟨v', hmodel, hname, huse.trans huse'⟩

theorem connectedValue_spec (hstages : Stages ir_graph sol.graphs)
    (hscaled : ScaledStages sol.graphs dec.partition.subgraphs) {name : String} {val : IRValue}
    (hval : connectedValue dec.partition.subgraphs.entries name = some val) :
    ∃ v, ir_graph.getValue name = some v ∧ v.name = name ∧ val.SameUse v := by
  obtain ⟨it, hit, hget⟩ := List.mem_filterMap.mp (List.mem_of_head? hval)
  exact subgraph_value hstages hscaled hit hget

theorem Connectable.lookup_outVals (hroutable : Connectable ir_graph sol.graphs) {sg : IRGraph}
    (hsg : sg ∈ sol.graphs) {out : String} (hout : out ∈ sg.output_names) :
    (MLPartDecomposer.outVals ir_graph sol.graphs).lookup out = some sg.name := by
  obtain ⟨src_id, hlookup⟩ := MLPartDecomposer.exists_lookup_outVals
    (hroutable.fresh sg hsg out hout) hsg hout
  obtain ⟨src, hsrc, rfl, hout'⟩ := MLPartDecomposer.of_lookup_outVals hlookup
  rw [hlookup, hroutable.once sg hsg src hsrc out hout hout']

variable (hstages : Stages ir_graph sol.graphs)
  (h : MLPartDecomposer.Deployed sort sets size ir_graph sol dec)

include hstages h

theorem connected_names {con : GraphConnection} (hcon : con ∈ dec.partition.connections) :
    (connectedValue dec.partition.subgraphs.entries con.value).map IRValue.name =
      some con.value := by
  obtain ⟨val, hval, -⟩ := (h.deploys.connects con hcon).value
  obtain ⟨v, -, hname, huse⟩ := connectedValue_spec hstages h.scaled hval
  rw [hval, Option.map_some, huse.name, hname]

theorem hasGradient_eq {con : GraphConnection} (hcon : con ∈ dec.partition.connections)
    {it : String × IRGraph} (hit : it ∈ dec.partition.subgraphs.entries) {val : IRValue}
    (hval : it.2.getValue con.value = some val) :
    hasGradient dec.partition.subgraphs.entries con = val.type.passedForBackward := by
  obtain ⟨val', hval', -⟩ := (h.deploys.connects con hcon).value
  obtain ⟨v, hv, -, huse⟩ := connectedValue_spec hstages h.scaled hval'
  obtain ⟨v', hv', -, huse'⟩ := subgraph_value hstages h.scaled hit hval
  obtain rfl := Option.some.inj (hv.symm.trans hv')
  unfold hasGradient
  rw [hval', Option.any_some, huse.gradient, huse'.gradient]

/-- A value passes where a connection of it ends at the graph: if it has a gradient, the connection
has a route back. -/
theorem checkBoth_eq_ok_iff {it : String × IRGraph}
    (hit : it ∈ dec.partition.subgraphs.entries) {name : String} {val : IRValue}
    (hval : it.2.getValue name = some val) (fwd_end bwd_end : RouteDP → String)
    (end_con : GraphConnection → String)
    (hfwd : ∀ con, fwd_end (fwdRoute sets size dec.alloc.entries con) = end_con con)
    (hbwd : ∀ con, bwd_end (bwdRoute sets size dec.alloc.entries con) = end_con con)
    (fwd_message bwd_message : String) :
    (do
      checkRoute dec.partition.subgraphs.entries dec.fwd.all fwd_end fwd_message name it.1 val
      if val.type.passedForBackward then
        checkRoute dec.partition.subgraphs.entries dec.bwd.all bwd_end bwd_message name it.1 val
      else pure ()) = .ok () ↔
      ∃ con ∈ dec.partition.connections, end_con con = it.1 ∧ con.value = name := by
  obtain ⟨v, -, hname, huse⟩ := subgraph_value hstages h.scaled hit hval
  have hval_name : val.name = name := huse.name.trans hname
  have hchecked := checkRoute_eq_ok_iff (fun r => mem_fwdRoutes_all) (fun _ => rfl) hfwd
    (fun con hcon => connected_names hstages h hcon) fwd_message it.1 hval_name
  rw [check_bind_eq_ok_iff, h.deploys.fwd_eq, h.deploys.bwd_eq, hchecked]
  refine and_iff_left_of_imp ?_
  rintro ⟨con, hcon, hend, rfl⟩
  split_ifs with hpassed
  · rw [checkRoute_eq_ok_iff (fun r => mem_bwdRoutes_all) (fun _ => rfl) hbwd
      (fun con hcon => connected_names hstages h (List.mem_of_mem_filter hcon)) bwd_message it.1
      hval_name]
    refine ⟨con, List.mem_filter.mpr ⟨hcon, ?_⟩, hend, rfl⟩
    rw [hasGradient_eq hstages h hcon hit hval, hpassed]
  · rfl

theorem verifyInput_eq_ok_iff {it : String × IRGraph}
    (hit : it ∈ dec.partition.subgraphs.entries) {sg : IRGraph} (hsg : sg ∈ sol.graphs)
    (hsame : sg.SameProgram it.2) {in_name : String} (hin : in_name ∈ sg.input_names) :
    verifyInput dec.partition.subgraphs.entries dec.fwd.all dec.bwd.all it.1 it.2 in_name =
      .ok () ↔ (sg.isParam in_name = false →
        ∃ con ∈ dec.partition.connections, con.dest = it.1 ∧ con.value = in_name) := by
  obtain ⟨v, hv, hparam⟩ := (hstages.verified sg hsg).getValue_input hin
  have hrel := hsame.values in_name
  rw [hv] at hrel
  generalize hget : it.2.getValue in_name = val at hrel
  cases hrel with
  | some huse =>
    rename_i val
    unfold verifyInput
    rw [hget, ← hparam, ← huse.param]
    cases hval : val.is_param with
    | true =>
      refine iff_of_true ?_ fun hfalse => absurd hfalse (by simp)
      simp [orThrow, bind, Except.bind, hval, pure, Except.pure]
    | false =>
      have hboth := checkBoth_eq_ok_iff hstages h hit hget RouteDP.dest_graph
        RouteDP.source_graph GraphConnection.dest (fun _ => rfl) (fun _ => rfl)
        "No fwd route for input: " "No bwd route for input: "
      refine Iff.trans ?_ (hboth.trans ⟨fun hcon _ => hcon, fun hcon => hcon rfl⟩)
      simp [orThrow, bind, Except.bind, hval]

theorem verifyOutput_eq_ok_iff {it : String × IRGraph}
    (hit : it ∈ dec.partition.subgraphs.entries) {sg : IRGraph} (hsg : sg ∈ sol.graphs)
    (hsame : sg.SameProgram it.2) {out_name : String} (hout : out_name ∈ sg.output_names) :
    verifyOutput dec.partition.subgraphs.entries dec.fwd.all dec.bwd.all it.1 it.2 out_name =
      .ok () ↔ ∃ con ∈ dec.partition.connections, con.src = it.1 ∧ con.value = out_name := by
  have hverified := hstages.verified sg hsg
  obtain ⟨v, hv, -⟩ := hverified.values out_name (hverified.outputs hout)
  have hrel := hsame.values out_name
  rw [hv] at hrel
  generalize hget : it.2.getValue out_name = val at hrel
  cases hrel with
  | some huse =>
    unfold verifyOutput
    rw [hget]
    exact checkBoth_eq_ok_iff hstages h hit hget RouteDP.source_graph
      RouteDP.dest_graph GraphConnection.src (fun _ => rfl) (fun _ => rfl)
      "No fwd route for output: " "No bwd route for output: "

/-- The deployment passes where connections end at every stage for all that it reads and makes. -/
theorem verifyDeployment_eq_ok_iff_connected :
    verifyDeployment dec.partition.subgraphs.entries dec.fwd dec.bwd = .ok () ↔
      ∀ sg ∈ sol.graphs,
        (∀ name, sg.Reads name →
          ∃ con ∈ dec.partition.connections, con.dest = sg.name ∧ con.value = name) ∧
        ∀ out ∈ sg.output_names,
          ∃ con ∈ dec.partition.connections, con.src = sg.name ∧ con.value = out := by
  have hgraph : ∀ it ∈ dec.partition.subgraphs.entries, ∀ sg ∈ sol.graphs, it.1 = sg.name →
      sg.SameProgram it.2 → ((do
        it.2.input_names.forM (verifyInput dec.partition.subgraphs.entries dec.fwd.all dec.bwd.all
          it.1 it.2)
        it.2.output_names.forM (verifyOutput dec.partition.subgraphs.entries dec.fwd.all dec.bwd.all
          it.1 it.2)) = .ok () ↔
        (∀ name, sg.Reads name →
          ∃ con ∈ dec.partition.connections, con.dest = sg.name ∧ con.value = name) ∧
        ∀ out ∈ sg.output_names,
          ∃ con ∈ dec.partition.connections, con.src = sg.name ∧ con.value = out) := by
    intro it hit sg hsg hname hsame
    rw [check_bind_eq_ok_iff, forM_eq_ok_iff, forM_eq_ok_iff, hsame.input_names,
      hsame.output_names, ← hname]
    refine and_congr ?_ (forall₂_congr fun out hout =>
      verifyOutput_eq_ok_iff hstages h hit hsg hsame hout)
    have hinputs := forall₂_congr fun name (hin : name ∈ sg.input_names) =>
      verifyInput_eq_ok_iff hstages h hit hsg hsame hin
    exact hinputs.trans (forall_congr' fun name => and_imp.symm)
  unfold verifyDeployment
  rw [forM_eq_ok_iff]
  constructor
  · intro hall sg hsg
    obtain ⟨replica, hreplica, hsame⟩ := h.scaled.of_stage sg hsg
    have hit := Dict.mem_entries_iff.mpr hreplica
    exact (hgraph _ hit sg hsg rfl hsame).mp (hall _ hit)
  · intro hall it hit
    obtain ⟨sg, hsg, hname, hsame⟩ := h.scaled.to_stage it hit
    exact (hgraph it hit sg hsg hname hsame).mpr (hall sg hsg)

theorem verifyDeployment_eq_ok_iff :
    verifyDeployment dec.partition.subgraphs.entries dec.fwd dec.bwd = .ok () ↔
      Connectable ir_graph sol.graphs := by
  rw [verifyDeployment_eq_ok_iff_connected hstages h]
  have hpart := h.partitioned
  constructor
  · intro hall
    have hmade : ∀ sg ∈ sol.graphs, ∀ out ∈ sg.output_names,
        (MLPartDecomposer.outVals ir_graph sol.graphs).lookup out = some sg.name ∧
          (out ∈ ir_graph.output_names ∨ ∃ sg' ∈ sol.graphs, sg' ≠ sg ∧ sg'.Reads out) := by
      intro sg hsg out hout
      obtain ⟨con, hcon, hsrc, rfl⟩ := (hall sg hsg).2 out hout
      rcases hpart.cases con hcon with ⟨sg', hsg', hread, -, hne, hlookup⟩ | ⟨hmaster, -⟩ |
        ⟨-, houtput, hlookup⟩
      · refine ⟨hsrc ▸ hlookup, Or.inr ⟨sg', hsg', ?_, hread⟩⟩
        rintro rfl
        exact hne hsrc
      · exact absurd (hsrc.symm.trans hmaster) (hstages.not_master sg hsg)
      · exact ⟨hsrc ▸ hlookup, Or.inl houtput⟩
    constructor
    case reads =>
      intro sg hsg name hread
      obtain ⟨con, hcon, hdest, rfl⟩ := (hall sg hsg).1 name hread
      rcases hpart.cases con hcon with ⟨sg', hsg', -, hdest', hne, hlookup⟩ | ⟨-, hmodel, -⟩ |
        ⟨hmaster, -⟩
      · obtain ⟨src, hsrc, hname, hout⟩ := MLPartDecomposer.of_lookup_outVals hlookup
        refine Or.inr ⟨src, hsrc, ?_, hout⟩
        rintro rfl
        exact hne (hname.symm.trans (hdest.symm.trans hdest'))
      · exact Or.inl hmodel
      · exact absurd (hdest.symm.trans hmaster) (hstages.not_master sg hsg)
    case fresh =>
      intro sg hsg out hout hinput
      have hlookup := (hmade sg hsg out hout).1
      rw [MLPartDecomposer.lookup_outVals_of_input hinput] at hlookup
      cases hlookup
    case once =>
      intro sg hsg sg' hsg' out hout hout'
      have hname := (hmade sg hsg out hout).1.symm.trans (hmade sg' hsg' out hout').1
      exact List.inj_on_of_nodup_map hstages.nodup hsg hsg' (Option.some.inj hname)
    case used => exact fun sg hsg out hout => (hmade sg hsg out hout).2
  · intro hroutable sg hsg
    constructor
    · intro name hread
      rcases hroutable.reads sg hsg name hread with hmodel | ⟨src, hsrc, hne, hout⟩
      · obtain ⟨con, hcon, hvalue, -, hdest⟩ := hpart.input sg hsg name hread hmodel
        exact ⟨con, hcon, hdest, hvalue⟩
      · have hlookup := hroutable.lookup_outVals hsrc hout
        have hne' : src.name ≠ sg.name := fun heq =>
          hne (List.inj_on_of_nodup_map hstages.nodup hsrc hsg heq)
        obtain ⟨con, hcon, hvalue, -, hdest⟩ := hpart.between sg hsg name hread _ hlookup hne'
        exact ⟨con, hcon, hdest, hvalue⟩
    · intro out hout
      have hlookup := hroutable.lookup_outVals hsg hout
      rcases hroutable.used sg hsg out hout with houtput | ⟨sg', hsg', hne, hread⟩
      · obtain ⟨con, hcon, hvalue, -, hsrc⟩ := hpart.output out houtput
        exact ⟨con, hcon, Option.some.inj (hsrc.symm.trans hlookup), hvalue⟩
      · have hne' : sg.name ≠ sg'.name := fun heq =>
          hne (List.inj_on_of_nodup_map hstages.nodup hsg' hsg heq.symm)
        obtain ⟨con, hcon, hvalue, hsrc, -⟩ := hpart.between sg' hsg' out hread _ hlookup hne'
        exact ⟨con, hcon, hsrc, hvalue⟩

end Solution

/-- The deployment of a solution is verified if and only if its stages may be connected by the names
of their values: whatever their sizes, replicas and devices, and in both directions. -/
theorem verifyDeployment_deploySolution {sort : TopologicalSort} {sets : SetOrder}
    {order : MapOrder String} {size batch_size : ℕ} {alloc_repl_flat : Bool} {ir_graph : IRGraph}
    {sol : AllocSolution} {dec : Decomposed} (hstages : Stages ir_graph sol.graphs)
    (hdeploy : MLPartDecomposer.deploySolution sort sets order size batch_size alloc_repl_flat
      ir_graph sol = some dec) :
    verifyDeployment dec.partition.subgraphs.entries dec.fwd dec.bwd = .ok () ↔
      Connectable ir_graph sol.graphs :=
  verifyDeployment_eq_ok_iff hstages (MLPartDecomposer.deploySolution_spec hstages hdeploy)

theorem mem_cutInTwo {sg : IRGraph} (hsg : sg ∈ cutInTwo.graphs) :
    sg = firstStage ∨ sg = secondStage := by
  simpa [cutInTwo] using hsg

theorem cutInTwo_connectable : Connectable twoStagesGraph cutInTwo.graphs :=
  .of_names (by decide) (by decide) (by decide) (by decide) (by decide)

theorem verifyDeployment_deploySolution_two : ∃ dec, deployTwoStages = some dec ∧
    (verifyDeployment dec.partition.subgraphs.entries dec.fwd dec.bwd = .ok () ↔
      Connectable twoStagesGraph cutInTwo.graphs) := by
  obtain ⟨dec, hdec⟩ := Option.isSome_iff_exists.mp deployTwoStages_isSome
  exact ⟨dec, hdec, verifyDeployment_deploySolution cutInTwo_stages hdec⟩

end Rannc
