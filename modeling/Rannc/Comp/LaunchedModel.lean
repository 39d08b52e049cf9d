import Rannc.Comp.DeployedModel

/-!
# From the model to the launched deployment

A verified deployment of a model whose stages work row by row gives every rank the outputs of the
model on its own batch: whatever the stages, replicas, devices and splits, and in every run of the
pipeline.
-/
namespace Rannc

open Rannc.Digraph Dataflow Connector GraphLauncher MLPartDecomposer IValue

section Launched

variable (I : Interp String (IValue (Tensor ℚ))) (params : String → IValue (Tensor ℚ))
  (ids : NameSupply) (ir_graph : IRGraph) (sol : AllocSolution) (types : String → IRType)
  (size local_size : ℕ)
  (batch : IValueMap (IValue (Tensor ℚ)))

/-- The module of a stage. -/
def stageModule (sg : IRGraph) (inputs : List (String × IValue (Tensor ℚ))) :
    List (IValueLocation × IValue (Tensor ℚ)) :=
  (forwardGraph I params ids sg inputs).getD []

/-- A model whose stages work row by row, and batches for the ranks. -/
structure LaunchesModel : Prop where
  outputs_nodup : ir_graph.output_names.Nodup
  replicas : ∀ sg ∈ sol.graphs, ∀ num, sol.repl_nums.lookup sg.name = some num → 0 < num ∧
    ∀ k < actualPipelineNum sol.pipeline_num (size * local_size),
      num ≤ GraphLauncher.splitSize sol.pipeline_num (size * local_size) k
  rows : ∀ k < actualPipelineNum sol.pipeline_num (size * local_size),
    size ≤ GraphLauncher.splitSize sol.pipeline_num (size * local_size) k
  rowwise : ∀ sg ∈ sol.graphs, RowWise local_size (stageModule I params ids sg) ∧
    ∀ k < actualPipelineNum sol.pipeline_num (size * local_size),
      RowWise (GraphLauncher.splitSize sol.pipeline_num (size * local_size) k)
        (stageModule I params ids sg)
  inputs : ∀ name, ir_graph.Reads name → ∃ v, batch ⟨name, []⟩ = some v ∧ v.isNone = false ∧
    Distributable (v.transformTensorsInIValue Whole.batch) ∧
    (∀ t ∈ v.tensors, BatchTensor size local_size sol.pipeline_num t) ∧
    ∀ k < actualPipelineNum sol.pipeline_num (size * local_size),
      HasType (types name) (GraphLauncher.splitSize sol.pipeline_num (size * local_size) k)
        (v.transformTensorsInIValue (splitTensor size sol.pipeline_num local_size k))
  splits : ∀ k < actualPipelineNum sol.pipeline_num (size * local_size), ∀ env,
    modelEnv I params ir_graph
      (GraphLauncher.splitBatch size local_size batch sol.pipeline_num k) = some env →
    (∀ sg ∈ sol.graphs, ∀ out ∈ sg.output_names, ∀ v, env out = some v → v.isNone = false ∧
      Distributable (v.transformTensorsInIValue Whole.batch)) ∧
    ∀ out ∈ ir_graph.output_names, ∀ v, env out = some v →
      HasType (types out) (GraphLauncher.splitSize sol.pipeline_num (size * local_size) k) v
  ranks : ∀ rank < size, ∀ env,
    modelEnv I params ir_graph (rankInputs local_size batch rank) = some env →
    (∀ sg ∈ sol.graphs, ∀ out ∈ sg.output_names, ∀ v, env out = some v → v.isNone = false) ∧
    ∀ out ∈ ir_graph.output_names, ∀ v, env out = some v → ∀ t ∈ v.tensors,
      t.dim.head? = some local_size

variable {I params ids ir_graph sol types size local_size batch} {sort : TopologicalSort}
  {sets : SetOrder} {dec : Decomposed}

/-- What the ranks run are the modules of the stages. -/
def RunsModules (I : Interp String (IValue (Tensor ℚ))) (params : String → IValue (Tensor ℚ))
    (ids : NameSupply) (sol : AllocSolution)
    (func : ℕ → String → List (String × LocalIValue) → ℕ → List (IValueLocation × LocalIValue)) :
    Prop :=
  ∀ rank, ∀ sg ∈ sol.graphs, ∀ k vals, func rank sg.name (mapValues some vals) k =
    mapValues some (stageModule I params ids sg vals)

section Rows

variable (h : Deployed sort sets size ir_graph sol dec)
include h

theorem forward_stage {sg : IRGraph} (hsg : sg ∈ sol.graphs) (hverified : sg.Verified)
    (hsafe : sg.CloneSafe) :
    forward I params ids dec.partition.subgraphs sg.name = stageModule I params ids sg := by
  obtain ⟨replica, hreplica, hsame⟩ := h.scaled.of_stage sg hsg
  funext inputs
  rw [forward, hreplica, Option.bind_some, hsame.forwardGraph_eq hverified hsafe]
  rfl

theorem route_source {r : RouteDP} (hr : r ∈ dec.deployment.fwd_routes) :
    ∃ sg ∈ sol.graphs, sg.name = r.source_graph ∧ ∃ out ∈ sg.output_names,
      r.location = ⟨out, []⟩ := by
  rw [h.deploys.fwd_routes, h.deploys.fwd_eq] at hr
  obtain ⟨con, hcon, rfl⟩ := List.mem_map.mp hr
  obtain ⟨-, -, -, -, -, hlookup⟩ := h.between_cases hcon
  obtain ⟨src, hsrc, hname, hout⟩ := of_lookup_outVals hlookup
  exact ⟨src, hsrc, hname, con.value, hout, rfl⟩

/-- No stage gets an input twice. -/
theorem nodup_in_routes (hstages : Stages ir_graph sol.graphs) :
    (dec.fwd.in_routes.map fun r => (r.dest_graph, r.location)).Nodup := by
  have hdest : ∀ con ∈ fromMaster dec.partition.connections, con.isGraphOutput = false := by
    intro con hcon
    have hr : fwdRoute sets size dec.alloc.entries con ∈ dec.fwd.in_routes := by
      rw [h.deploys.fwd_eq]
      exact List.mem_map_of_mem hcon
    obtain ⟨⟨sg, hsg, hname, -⟩, -⟩ := in_route_ends hstages h hr
    exact decide_eq_false fun hmaster => hstages.not_master sg hsg (hname.trans hmaster)
  have hsub : (fromMaster dec.partition.connections).Sublist
      (dec.partition.connections.filter fun con => !con.isGraphOutput) := by
    have hself : (fromMaster dec.partition.connections).filter (fun con => !con.isGraphOutput) =
        fromMaster dec.partition.connections := by
      refine List.filter_eq_self.mpr fun con hcon => ?_
      rw [hdest con hcon]
      rfl
    rw [← hself]
    exact List.filter_sublist.filter _
  have honce := h.partitioned.once.sublist (hsub.map _)
  have hinj : Function.Injective fun place : String × String =>
      (place.1, (⟨place.2, []⟩ : IValueLocation)) := by
    rintro ⟨id, name⟩ ⟨id', name'⟩ heq
    simpa using heq
  have hkeys := honce.map hinj
  rw [List.map_map] at hkeys
  rw [h.deploys.fwd_eq, fwdRoutes, List.map_map]
  exact hkeys

theorem nodup_out_routes (hnodup : ir_graph.output_names.Nodup) :
    (dec.fwd.out_routes.map RouteDP.location).Nodup := by
  rw [← h.partitioned.outputs] at hnodup
  have hinj : Function.Injective fun name : String => (⟨name, []⟩ : IValueLocation) :=
    fun name name' heq => congrArg IValueLocation.value_name heq
  have hlocations := hnodup.map hinj
  rw [List.map_map] at hlocations
  rw [h.deploys.fwd_eq, fwdRoutes, List.map_map]
  exact hlocations

variable (hstages : Stages ir_graph sol.graphs) (hconn : Connectable ir_graph sol.graphs)
  (hnodes : ∀ sg ∈ sol.graphs, sg.nodes ⊆ ir_graph.nodes)
  (hsafe : ∀ sg ∈ sol.graphs, sg.CloneSafe)
  (hm : LaunchesModel I params ids ir_graph sol types size local_size batch)

omit h in
include hstages hm in
theorem exists_env_splitBatch {k : ℕ}
    (hk : k < actualPipelineNum sol.pipeline_num (size * local_size)) :
    ∃ env, modelEnv I params ir_graph
        (GraphLauncher.splitBatch size local_size batch sol.pipeline_num k) =
        some env ∧
      Passable ir_graph sol.graphs
        (GraphLauncher.splitBatch size local_size batch sol.pipeline_num k) env := by
  obtain ⟨env, henv⟩ := hstages.model.exists_evalValues I (graphInputs params ir_graph fun name =>
    GraphLauncher.splitBatch size local_size batch sol.pipeline_num k ⟨name, []⟩)
  refine ⟨env, henv, fun name hname => ?_, fun sg hsg out hout v hv => ?_⟩
  · obtain ⟨v, hv, hsome, -⟩ := hm.inputs name hname
    refine ⟨_, by rw [GraphLauncher.splitBatch, hv, Option.map_some], ?_⟩
    rw [isNone_transform, hsome]
  · exact ((hm.splits k hk env henv).1 sg hsg out hout v hv).1

omit h in
include hstages hm in
theorem exists_env_rankInputs {rank : ℕ} (hrank : rank < size) :
    ∃ env, modelEnv I params ir_graph (rankInputs local_size batch rank) = some env ∧
      Passable ir_graph sol.graphs (rankInputs local_size batch rank) env := by
  obtain ⟨env, henv⟩ := hstages.model.exists_evalValues I (graphInputs params ir_graph fun name =>
    rankInputs local_size batch rank ⟨name, []⟩)
  refine ⟨env, henv, fun name hname => ?_, (hm.ranks rank hrank env henv).1⟩
  obtain ⟨v, hv, hsome, -⟩ := hm.inputs name hname
  refine ⟨_, by rw [rankInputs, hv, Option.map_some], ?_⟩
  rw [isNone_transform, hsome]

include hstages hconn hnodes hsafe hm

/-- The launcher and the deployed subgraphs pass on batches and work row by row. -/
theorem launchesRows {func : ℕ → String → List (String × LocalIValue) → ℕ →
      List (IValueLocation × LocalIValue)} (hfunc : RunsModules I params ids sol func) :
    LaunchesRows dec.deployment dec.fwd.in_routes dec.fwd.out_routes
      (fun r => types r.location.value_name) size local_size
      (waitedNames dec.partition.subgraphs) (forward I params ids dec.partition.subgraphs) func
      batch := by
  have hpipe := h.deploys.pipeline_eq
  have hcard : ∀ g ∈ dec.deployment.graphs false, ∃ sg ∈ sol.graphs, sg.name = g ∧
      sol.repl_nums.lookup sg.name = some (dec.deployment.allocation g).card := by
    intro g hg
    obtain ⟨sg, hsg, rfl⟩ := h.mem_graphs.mp hg
    exact ⟨sg, hsg, rfl, h.card sg hsg⟩
  constructor
  case in_nodup => exact nodup_in_routes h hstages
  case in_sources => exact fun r hr => (in_route_ends hstages h hr).2.1
  case in_dests => exact fun r hr => (in_route_ends hstages h hr).2.2
  case out_nodup => exact nodup_out_routes h hm.outputs_nodup
  case out_mem =>
    intro r hr
    obtain ⟨⟨sg, hsg, hname, -⟩, -⟩ := out_route_ends hstages h hr
    exact h.mem_graphs.mpr ⟨sg, hsg, hname⟩
  case out_sources => exact fun r hr => (out_route_ends hstages h hr).2.1
  case out_dests => exact fun r hr => (out_route_ends hstages h hr).2.2
  case ranks =>
    intro g hg
    obtain ⟨sg, hsg, -, hnum⟩ := hcard g hg
    exact Finset.card_pos.mp (hm.replicas sg hsg _ hnum).1
  case rows =>
    rw [hpipe]
    refine fun k hk => ⟨hm.rows k hk, fun g hg => ?_⟩
    obtain ⟨sg, hsg, -, hnum⟩ := hcard g hg
    exact (hm.replicas sg hsg _ hnum).2 k hk
  case rowwise =>
    rw [hpipe]
    intro g hg
    obtain ⟨sg, hsg, rfl⟩ := h.mem_graphs.mp hg
    rw [forward_stage h hsg (hstages.verified sg hsg) (hsafe sg hsg)]
    exact hm.rowwise sg hsg
  case func =>
    intro rank g hg k vals
    obtain ⟨sg, hsg, rfl⟩ := h.mem_graphs.mp hg
    rw [forward_stage h hsg (hstages.verified sg hsg) (hsafe sg hsg)]
    exact hfunc rank sg hsg k vals
  case inputs =>
    rw [hpipe]
    intro r hr
    obtain ⟨⟨-, -, -, name, -, hmodel, hloc⟩, -⟩ := in_route_ends hstages h hr
    obtain ⟨v, hv, -, hdist, hrows, htype⟩ := hm.inputs name hmodel
    rw [hloc]
    exact ⟨v, hv, hdist, hrows, htype⟩
  case routable =>
    rw [hpipe]
    intro k hk r hr w hw
    obtain ⟨env, henv, hpass⟩ := exists_env_splitBatch hstages hm hk
    obtain ⟨sg, hsg, hname, out, hout, hloc⟩ := route_source h hr
    have hvalue := deployedValues_eq_env ids hstages hconn hnodes henv h hpass hsafe _
      (h.mem_graphs.mpr ⟨sg, hsg, hname⟩) sg hsg hname out hout
    rw [hloc] at hw
    exact ((hm.splits k hk env henv).1 sg hsg out hout w (hvalue.symm.trans hw)).2
  case outputs =>
    rw [hpipe]
    intro k hk r hr
    obtain ⟨env, henv, hpass⟩ := exists_env_splitBatch hstages hm hk
    obtain ⟨⟨sg, hsg, hname, out, hout, hmodel, hloc⟩, -⟩ := out_route_ends hstages h hr
    obtain ⟨w, hw⟩ := exists_env_output hstages hconn hnodes henv hsg hout
    have hvalue := out_route_env ids hstages hconn hnodes henv h hpass hsafe hr
    obtain ⟨hsome, hdist⟩ := (hm.splits k hk env henv).1 sg hsg out hout w hw
    have htype := (hm.splits k hk env henv).2 out hmodel w hw
    rw [hloc] at hvalue ⊢
    exact ⟨w, hvalue.trans hw, hsome, hdist, htype⟩
  case out_rows =>
    intro rank hrank r hr v hv
    obtain ⟨env, henv, hpass⟩ := exists_env_rankInputs hstages hm hrank
    obtain ⟨⟨sg, hsg, -, out, -, hmodel, hloc⟩, -⟩ := out_route_ends hstages h hr
    have hvalue := out_route_env ids hstages hconn hnodes henv h hpass hsafe hr
    rw [hloc] at hvalue hv
    exact (hm.ranks rank hrank env henv).2 out hmodel v (hvalue.symm.trans hv)

/-- What the modules make of the batch of a rank, over the output routes, is what the model
evaluates to. -/
theorem exists_eval_rankInputs {rank : ℕ} (hrank : rank < size) :
    ∃ outs, ir_graph.eval I (graphInputs params ir_graph fun name =>
        rankInputs local_size batch rank ⟨name, []⟩) = some outs ∧
      ∀ ret : IValueMap LocalIValue, (∀ r ∈ dec.fwd.out_routes, ret r.location =
        (deployedValues I params ids dec (rankInputs local_size batch rank) r.source_graph
          r.location).map (transformTensorsInIValue fun t => some t.detach)) →
        ir_graph.output_names.map (fun out => ret ⟨out, []⟩) =
          outs.map fun v => some (v.transformTensorsInIValue fun t => some t.detach) := by
  obtain ⟨env, henv, hpass⟩ := exists_env_rankInputs hstages hm hrank
  have hdefined : ∀ out ∈ ir_graph.output_names, (env out).isSome := fun out hout =>
    (IRGraph.evalValues_isSome_iff henv out).mpr (hstages.model.outputs hout)
  obtain ⟨outs, houts⟩ := mapM_of_forall_some hdefined
  refine ⟨outs, ?_, fun ret hret => ?_⟩
  · unfold modelEnv at henv
    rw [IRGraph.eval, henv]
    exact houts
  · have hbrought : ∀ out ∈ ir_graph.output_names, ret ⟨out, []⟩ =
        (env out).map (transformTensorsInIValue fun t => some t.detach) := by
      intro out hout
      rw [← out_routes_names h] at hout
      obtain ⟨r, hr, rfl⟩ := List.mem_map.mp hout
      obtain ⟨⟨-, -, -, out, -, -, hloc⟩, -⟩ := out_route_ends hstages h hr
      have hvalue := hret r hr
      rw [out_route_env ids hstages hconn hnodes henv h hpass hsafe hr] at hvalue
      rw [hloc] at hvalue ⊢
      exact hvalue
    calc ir_graph.output_names.map (fun out => ret ⟨out, []⟩)
        = (ir_graph.output_names.map env).map
            (Option.map (transformTensorsInIValue fun t => some t.detach)) := by
          rw [List.map_map]
          exact List.map_congr_left hbrought
      _ = outs.map fun v => some (v.transformTensorsInIValue fun t => some t.detach) := by
          rw [mapM_eq_some_iff.mp houts, List.map_map]
          rfl

end Rows

variable {order : MapOrder String} {batch_size : ℕ} {alloc_repl_flat : Bool}

/-- From a solution of the search to the outputs of the ranks: a deployment that is verified gives
every rank what the model evaluates to on the rank's own batch, in every run of the pipeline and
whatever the buffers hold; and there are such runs. -/
theorem launch_computes_model (hstages : Stages ir_graph sol.graphs)
    (hdeploy : deploySolution sort sets order size batch_size alloc_repl_flat ir_graph sol =
      some dec)
    (hverify : verifyDeployment dec.partition.subgraphs.entries dec.fwd dec.bwd = .ok ())
    (hnodes : ∀ sg ∈ sol.graphs, sg.nodes ⊆ ir_graph.nodes)
    (hsafe : ∀ sg ∈ sol.graphs, sg.CloneSafe)
    (hm : LaunchesModel I params ids ir_graph sol types size local_size batch)
    (hsize : 0 < size) (hlocal : 0 < local_size) (hpos : 0 < sol.pipeline_num)
    (hsplits : sol.pipeline_num ≤ size * local_size ∧ sol.pipeline_num ∣ size * local_size)
    (hagree : SplitsAgree size sol.pipeline_num (size * local_size))
    {func : ℕ → String → List (String × LocalIValue) → ℕ → List (IValueLocation × LocalIValue)}
    (hfunc : RunsModules I params ids sol func) (garbage : RouteDP → SComm → ℕ → ℕ → ℚ)
    (history : ℕ → ℕ → Option (String → IValueMap LocalIValue)) :
    ∃ graph_inputs : ℕ → ℕ → String → IValueMap LocalIValue,
      (∀ k < actualPipelineNum dec.deployment.pipeline_num (size * local_size), ∀ rank,
        splitInputs garbage (fun r => types r.location.value_name) false size
          dec.deployment.pipeline_num (size * local_size) dec.fwd.in_routes
          (rankInputs local_size batch) rank k = some (graph_inputs rank k)) ∧
      (∀ env runs, Pipelined dec.deployment false
          (fun rank => rankDriver false (waitedNames dec.partition.subgraphs) (func rank)
            fun _ => false)
          (distributeCalls garbage false) (size * local_size) graph_inputs history env runs →
        ∀ rank < size, ∃ ret outs,
          mergeOutputs garbage (fun r => types r.location.value_name) false
            dec.deployment.pipeline_num (size * local_size) dec.fwd.out_routes runs rank =
              some ret ∧
          ir_graph.eval I (graphInputs params ir_graph fun name =>
            rankInputs local_size batch rank ⟨name, []⟩) = some outs ∧
          ir_graph.output_names.map (fun out => ret ⟨out, []⟩) =
            outs.map fun v => some (v.transformTensorsInIValue fun t => some t.detach)) ∧
      ∃ env runs, Pipelined dec.deployment false
        (fun rank => rankDriver false (waitedNames dec.partition.subgraphs) (func rank)
          fun _ => false)
        (distributeCalls garbage false) (size * local_size) graph_inputs history env runs := by
  have h := deploySolution_spec hstages hdeploy
  have hconn := (verifyDeployment_eq_ok_iff hstages h).mp hverify
  have hlaunch := launchesRows h hstages hconn hnodes hsafe hm hfunc
  have hdisjoint : ∀ g ∈ dec.deployment.subgraphs, ∀ g' ∈ dec.deployment.subgraphs, g ≠ g' →
      Disjoint (dec.deployment.allocation g) (dec.deployment.allocation g') :=
    fun g _ g' _ => h.disjoint g g'
  rw [← h.deploys.pipeline_eq] at hpos hsplits hagree
  obtain ⟨graph_inputs, hinputs⟩ := exists_graph_inputs hsize hlocal hagree hlaunch garbage
  refine ⟨graph_inputs, hinputs, fun env runs hrun rank hrank => ?_, ?_⟩
  · obtain ⟨ret, hmerge, hret⟩ := mergeOutputs_eq_local (h.routedOnce false) h.subgraphs_nodup
      hdisjoint (fun _ _ => Or.inr hsplits) hsize hlocal hpos hagree hlaunch hinputs hrun hrank
    obtain ⟨outs, heval, houts⟩ := exists_eval_rankInputs h hstages hconn hnodes hsafe hm hrank
    exact ⟨ret, outs, hmerge, heval, houts ret hret⟩
  · exact exists_pipelined (h.routedOnce false) h.subgraphs_nodup hdisjoint
      (fun _ _ => Or.inr hsplits) _ _ graph_inputs history

/-- A module that hands one value on. -/
def handOver {T : Type} (in_name out_name : String) (inputs : List (String × IValue T)) :
    List (IValueLocation × IValue T) :=
  [(⟨out_name, []⟩, (inputs.lookup in_name).getD (.scalar .none))]

theorem lookup_mapValues {T U : Type} (f : T → U) (vals : List (String × IValue T))
    (name : String) : (mapValues f vals).lookup name =
      (vals.lookup name).map (transformTensorsInIValue f) := by
  induction vals with
  | nil => rfl
  | cons it vals ih =>
    unfold mapValues at ih ⊢
    rw [List.map_cons, List.lookup_cons, List.lookup_cons, ih]
    cases name == it.1 <;> rfl

theorem handOver_mapValues {T U : Type} (f : T → U) (in_name out_name : String)
    (vals : List (String × IValue T)) : handOver in_name out_name (mapValues f vals) =
      mapValues f (handOver in_name out_name vals) := by
  unfold handOver
  rw [lookup_mapValues]
  cases vals.lookup in_name <;> rfl

theorem rowWise_handOver (in_name out_name : String) (batch_size : ℕ) :
    RowWise batch_size (handOver in_name out_name) where
  fits vals hvals it hit t ht := by
    obtain rfl := List.mem_singleton.mp hit
    cases hv : vals.lookup in_name with
    | none =>
      rw [hv] at ht
      cases ht
    | some v =>
      obtain ⟨before, after, hsplit, -⟩ := List.lookup_eq_some_iff.mp hv
      rw [hv] at ht
      exact hvals (in_name, v) (by simp [hsplit]) t ht
  samples vals _ first n _ _ := handOver_mapValues _ in_name out_name vals

def twoStagesFunc (_rank : ℕ) (id : String) (inputs : List (String × LocalIValue)) (_k : ℕ) :
    List (IValueLocation × LocalIValue) :=
  if id = "a" then handOver "x" "y" inputs else handOver "y" "z" inputs

theorem stageModule_first :
    stageModule firstArg twoStagesParams IRGraph.nodeIds firstStage = handOver "x" "y" := by
  funext inputs
  rw [stageModule, forwardGraph_eq (cutInTwo_stages.verified firstStage (by simp [cutInTwo]))
    (cutInTwo_cloneSafe firstStage (by simp [cutInTwo]))]
  rfl

theorem stageModule_second :
    stageModule firstArg twoStagesParams IRGraph.nodeIds secondStage = handOver "y" "z" := by
  funext inputs
  rw [stageModule, forwardGraph_eq (cutInTwo_stages.verified secondStage (by simp [cutInTwo]))
    (cutInTwo_cloneSafe secondStage (by simp [cutInTwo]))]
  rfl

theorem cutInTwo_runsModules : RunsModules firstArg twoStagesParams IRGraph.nodeIds cutInTwo
    twoStagesFunc := by
  intro rank sg hsg k vals
  rcases mem_cutInTwo hsg with rfl | rfl
  · rw [stageModule_first]
    exact handOver_mapValues some "x" "y" vals
  · rw [stageModule_second]
    exact handOver_mapValues some "y" "z" vals

def rowsType (_name : String) : IRType := .tensor .FLOAT [3, 1] false

theorem cutInTwo_launches : LaunchesModel firstArg twoStagesParams IRGraph.nodeIds twoStagesGraph
    cutInTwo rowsType 3 2 sixRowsIn where
  outputs_nodup := by decide
  replicas sg hsg num hnum := by
    rcases mem_cutInTwo hsg with rfl | rfl
    · obtain rfl : 2 = num := Option.some.inj hnum
      exact ⟨by decide, by decide +kernel⟩
    · obtain rfl : 1 = num := Option.some.inj hnum
      exact ⟨by decide, by decide +kernel⟩
  rows := by decide +kernel
  rowwise sg hsg := by
    rcases mem_cutInTwo hsg with rfl | rfl
    · rw [stageModule_first]
      exact ⟨rowWise_handOver _ _ _, fun k _ => rowWise_handOver _ _ _⟩
    · rw [stageModule_second]
      exact ⟨rowWise_handOver _ _ _, fun k _ => rowWise_handOver _ _ _⟩
  inputs name hread := by
    obtain rfl := reads_twoStagesGraph hread
    refine ⟨.tensor sixRows, rfl, rfl, trivial, fun t ht => ?_, fun k hk => ?_⟩
    · obtain rfl := List.mem_singleton.mp ht
      exact ⟨by decide, [1], rfl, by decide, by decide, by decide +kernel⟩
    · have hk : k < 2 := hk
      interval_cases k
      · rfl
      · rfl
  splits k hk env henv := by
    obtain ⟨env', henv', houts⟩ := cutInTwo_env (GraphLauncher.splitBatch 3 2 sixRowsIn 2 k)
    obtain rfl := Option.some.inj (henv.symm.trans henv')
    constructor
    · intro sg hsg out hout v hv
      rw [← Option.some.inj ((houts sg hsg out hout).symm.trans hv)]
      exact ⟨rfl, trivial⟩
    · intro out hout v hv
      have hz := houts secondStage (by simp [cutInTwo]) out hout
      rw [← Option.some.inj (hz.symm.trans hv)]
      have hk : k < 2 := hk
      interval_cases k
      · rfl
      · rfl
  ranks rank hrank env henv := by
    obtain ⟨env', henv', houts⟩ := cutInTwo_env (rankInputs 2 sixRowsIn rank)
    obtain rfl := Option.some.inj (henv.symm.trans henv')
    constructor
    · intro sg hsg out hout v hv
      rw [← Option.some.inj ((houts sg hsg out hout).symm.trans hv)]
      rfl
    · intro out hout v hv t ht
      have hz := houts secondStage (by simp [cutInTwo]) out hout
      rw [← Option.some.inj (hz.symm.trans hv)] at ht
      obtain rfl := List.mem_singleton.mp ht
      interval_cases rank
      · rfl
      · rfl
      · rfl

theorem launch_computes_model_two : ∃ dec, deployTwoStages = some dec ∧
    ∃ graph_inputs : ℕ → ℕ → String → IValueMap LocalIValue,
      (∀ k < actualPipelineNum dec.deployment.pipeline_num 6, ∀ rank,
        splitInputs (fun _ _ _ _ => 9) (fun r => rowsType r.location.value_name) false 3
          dec.deployment.pipeline_num 6 dec.fwd.in_routes (rankInputs 2 sixRowsIn) rank k =
            some (graph_inputs rank k)) ∧
      (∀ env runs, Pipelined dec.deployment false
          (fun rank => rankDriver false (waitedNames dec.partition.subgraphs) (twoStagesFunc rank)
            fun _ => false)
          (distributeCalls (fun _ _ _ _ => 9) false) 6 graph_inputs (fun _ _ => none) env runs →
        ∀ rank < 3, ∃ ret outs,
          mergeOutputs (fun _ _ _ _ => 9) (fun r => rowsType r.location.value_name) false
            dec.deployment.pipeline_num 6 dec.fwd.out_routes runs rank = some ret ∧
          twoStagesGraph.eval firstArg (graphInputs twoStagesParams twoStagesGraph fun name =>
            rankInputs 2 sixRowsIn rank ⟨name, []⟩) = some outs ∧
          twoStagesGraph.output_names.map (fun out => ret ⟨out, []⟩) =
            outs.map fun v => some (v.transformTensorsInIValue fun t => some t.detach)) ∧
      ∃ env runs, Pipelined dec.deployment false
        (fun rank => rankDriver false (waitedNames dec.partition.subgraphs) (twoStagesFunc rank)
          fun _ => false)
        (distributeCalls (fun _ _ _ _ => 9) false) 6 graph_inputs (fun _ _ => none) env runs := by
  obtain ⟨dec, hdec⟩ := Option.isSome_iff_exists.mp deployTwoStages_isSome
  exact ⟨dec, hdec, launch_computes_model cutInTwo_stages hdec (cutInTwo_verified hdec)
    cutInTwo_nodes cutInTwo_cloneSafe cutInTwo_launches (by decide) (by decide) (by decide)
    ⟨by decide, by decide⟩ (by unfold SplitsAgree SliceSizesAgree; decide +kernel)
    cutInTwo_runsModules (fun _ _ _ _ => 9) fun _ _ => none⟩

end Launched

end Rannc
