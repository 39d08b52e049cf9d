import Rannc.Graph.DPStaging
import Rannc.Graph.StagePartition
import Rannc.Lib.Faults
import Rannc.Lib.OptionRel

/-!
# From a solution of the search to a deployment

The stages are connected, scaled to their replicas, allocated to devices and deployed. Scaling
keeps the program of a stage, so the routes of the deployment are those of the stages.
-/
namespace Rannc

open Rannc.Digraph

section Scaled

theorem IRType.allPassedForBackward_eq (types : List IRType) :
    IRType.allPassedForBackward types = (types.map IRType.passedForBackward).all id := by
  induction types with
  | nil => rfl
  | cons type types ih => simp [IRType.allPassedForBackward, ih]

variable {ranks : Finset ℕ} {batch_size rank : ℕ}

theorem passedForBackward_getDistTensorType {type type' : IRType}
    (h : (getDistTensorType type ranks batch_size).bind (·.lookup rank) = some type') :
    type'.passedForBackward = type.passedForBackward := by
  obtain ⟨types, htypes, hlookup⟩ := Option.bind_eq_some_iff.mp h
  obtain ⟨⟨hdim, -⟩, htypes⟩ := of_guard_bind htypes
  obtain rfl := Option.some.inj htypes
  have hdims := lookup_map (fun dim => IRType.tensor type.getTensorElemType dim type.requiresGrad)
    (calcDistBatchDims batch_size type.getTensorDim ranks 0) rank
  obtain ⟨dim, -, rfl⟩ := Option.map_eq_some_iff.mp (hdims.symm.trans hlookup)
  cases type with
  | tensor elem_type dim' requires_grad => rfl
  | _ => exact absurd rfl hdim

mutual

theorem passedForBackward_getDistType {type type' : IRType}
    (h : getDistType ranks batch_size rank type = some type') :
    type'.passedForBackward = type.passedForBackward := by
  cases type with
  | tensor elem_type dim requires_grad =>
    unfold getDistType at h
    split_ifs at h with hdim
    · rw [← Option.some.inj h]
    · exact passedForBackward_getDistTensorType h
  | list list_type compound_types =>
    cases list_type with
    | TENSOR =>
      obtain ⟨types, htypes, h⟩ := Option.bind_eq_some_iff.mp h
      rw [← Option.some.inj h, IRType.passedForBackward, IRType.passedForBackward,
        IRType.allPassedForBackward_eq, IRType.allPassedForBackward_eq,
        map_of_mapM_congr (fun _ _ => passedForBackward_getDistTensorType) htypes]
    | GENERIC =>
      obtain ⟨types, htypes, h⟩ := Option.bind_eq_some_iff.mp h
      rw [← Option.some.inj h, IRType.passedForBackward, IRType.passedForBackward,
        allPassedForBackward_getDistTypes htypes]
    | _ => rw [← Option.some.inj h]
  | tuple compound_types =>
    obtain ⟨types, htypes, h⟩ := Option.bind_eq_some_iff.mp h
    rw [← Option.some.inj h, IRType.passedForBackward, IRType.passedForBackward,
      allPassedForBackward_getDistTypes htypes]
  | function func_name => cases h
  | _ => rw [← Option.some.inj h]

theorem allPassedForBackward_getDistTypes {types types' : List IRType}
    (h : getDistTypes ranks batch_size rank types = some types') :
    IRType.allPassedForBackward types' = IRType.allPassedForBackward types := by
  cases types with
  | nil => rw [← Option.some.inj h]
  | cons type types =>
    obtain ⟨type', htype, h⟩ := Option.bind_eq_some_iff.mp h
    obtain ⟨types', htypes, h⟩ := Option.bind_eq_some_iff.mp h
    rw [← Option.some.inj h, IRType.allPassedForBackward, IRType.allPassedForBackward,
      passedForBackward_getDistType htype, allPassedForBackward_getDistTypes htypes]

end

/-- A graph with the same nodes, whose values are used in the same way. -/
structure IRGraph.SameProgram (g sg : IRGraph) : Prop where
  nodes : sg.nodes = g.nodes
  input_names : sg.input_names = g.input_names
  output_names : sg.output_names = g.output_names
  values : ∀ name, Option.Rel (fun v v' => v'.SameUse v) (g.getValue name) (sg.getValue name)

theorem scaleGraph_sameProgram {g sg : IRGraph} {name : String} {num : ℤ} {index : ℕ}
    (hbatch : ∀ it ∈ g.values, it.2.is_batch = true → it.2.is_param = false)
    (h : scaleGraph g name num index batch_size = some sg) : g.SameProgram sg := by
  obtain ⟨values, hvalues, hcreate⟩ := Option.bind_eq_some_iff.mp h
  obtain ⟨is_replicable, rfl⟩ := IRGraph.create_eq hcreate
  refine ⟨rfl, rfl, rfl, lookup_of_mapM ?_ hvalues⟩
  intro it hit it' heq
  split_ifs at heq with his_batch
  · obtain ⟨dp_type, htype, heq⟩ := Option.bind_eq_some_iff.mp heq
    obtain rfl := Option.some.inj heq
    exact ⟨rfl, rfl, (hbatch it hit his_batch).symm, passedForBackward_getDistType htype⟩
  · obtain rfl := Option.some.inj heq
    exact ⟨rfl, IRValue.SameUse.refl _⟩

theorem ScaledFor.sameProgram {g sg : IRGraph} {num : ℤ}
    (hbatch : ∀ it ∈ g.values, it.2.is_batch = true → it.2.is_param = false)
    (h : ScaledFor g num batch_size sg) : g.SameProgram sg := by
  obtain ⟨replica, hreplica, rfl⟩ := h
  have hsame := scaleGraph_sameProgram hbatch hreplica
  exact ⟨hsame.nodes, hsame.input_names, hsame.output_names, hsame.values⟩

end Scaled

/-- A partition with its devices and routes. -/
structure Decomposed where
  partition : PartitionDP
  alloc : Dict String (Finset ℕ)
  deployment : Deployment
  fwd : RouteLists
  bwd : RouteLists

/-- The subgraphs are the stages, scaled. -/
structure ScaledStages (stages : List IRGraph) (subgraphs : Dict String IRGraph) : Prop where
  of_stage : ∀ sg ∈ stages, ∃ replica, subgraphs.get sg.name = some replica ∧
    sg.SameProgram replica
  to_stage : ∀ it ∈ subgraphs.entries, ∃ sg ∈ stages, it.1 = sg.name ∧ sg.SameProgram it.2

namespace MLPartDecomposer

section Solution

variable (sort : TopologicalSort) (sets : SetOrder) (order : MapOrder String)
  (size batch_size : ℕ) (alloc_repl_flat : Bool)

/-- The devices of the subgraphs, dealt in rounds or to one subgraph after the other. -/
def allocate (alloc_repl_flat : Bool) (partition : PartitionDP) :
    Option (Dict String (Finset ℕ)) :=
  if alloc_repl_flat then searchAllocationFlat partition else searchAllocationSimple partition

/-- The numbers of replicas that the solution has for some subgraphs. -/
def replNums (sol : AllocSolution) (ids : List String) : Option (List (String × ℤ)) :=
  ids.mapM fun id => do return (id, ((← sol.repl_nums.lookup id : ℕ) : ℤ))

/-- What is done with a solution of the search. -/
def deploySolution (ir_graph : IRGraph) (sol : AllocSolution) : Option Decomposed := do
  let new_part ← createPartition order ir_graph sol.graphs
  let subgraphs := Dict.ofList new_part.subgraphs
  let repl_nums ← replNums sol subgraphs.keys
  let repl ← replicate
    ⟨new_part.id, new_part.graph, subgraphs, Dict.empty, new_part.connections⟩
    (Dict.ofList repl_nums) batch_size
  let alloc ← allocate alloc_repl_flat repl
  guard (alloc.entries ≠ [])
  let (deployment, fwd, bwd) ← createDeployment sort sets size sol.pipeline_num
    repl.subgraphs.entries repl.connections alloc.entries
  return ⟨repl, alloc, deployment, fwd, bwd⟩

variable {sort sets order size batch_size alloc_repl_flat} {ir_graph : IRGraph}
  {sol : AllocSolution} {dec : Decomposed}

theorem createPartition_subgraphs {subgraphs : List IRGraph} {part : Partition}
    (h : createPartition order ir_graph subgraphs = some part) :
    part.subgraphs = subgraphs.map fun sg => (sg.name, sg) := by
  obtain ⟨_, -, h⟩ := Option.bind_eq_some_iff.mp h
  obtain ⟨_, -, h⟩ := Option.bind_eq_some_iff.mp h
  obtain ⟨_, -, h⟩ := Option.bind_eq_some_iff.mp h
  rw [← Option.some.inj h]

/-- The deployment of a solution has the stages as subgraphs, each on as many devices as it has
replicas, and no device has two. -/
structure Deployed (sort : TopologicalSort) (sets : SetOrder) (size : ℕ) (ir_graph : IRGraph)
    (sol : AllocSolution) (dec : Decomposed) : Prop where
  partitioned : Partitioned ir_graph sol.graphs dec.partition.connections
  scaled : ScaledStages sol.graphs dec.partition.subgraphs
  deploys : Deploys sort sets size sol.pipeline_num dec.partition.subgraphs.entries
    dec.partition.connections dec.alloc.entries dec.deployment dec.fwd dec.bwd
  card : ∀ sg ∈ sol.graphs, sol.repl_nums.lookup sg.name =
    some (dec.deployment.allocation sg.name).card
  disjoint : ∀ id id', id ≠ id' →
    Disjoint (dec.deployment.allocation id) (dec.deployment.allocation id')

theorem allocate_exact {partition : PartitionDP} {alloc : Dict String (Finset ℕ)}
    (hkeys : ∀ id, id ∈ partition.replica_nums.keys ↔ id ∈ partition.subgraphs.keys)
    (h : allocate alloc_repl_flat partition = some alloc) :
    ∃ names, names.Perm (replicaNames partition.replica_nums) ∧
      ∃ deal : Deal String, deal.Exact names ∧ deal.sets = alloc := by
  unfold allocate at h
  split_ifs at h
  · exact searchAllocationFlat_exact h
  · exact searchAllocationSimple_exact hkeys h

theorem replNums_spec {ids : List String} (hids : ids.Nodup) {repl_nums : List (String × ℤ)}
    (h : replNums sol ids = some repl_nums) : (Dict.ofList repl_nums).keys = ids ∧
      ∀ id ∈ ids, ∃ num : ℕ, sol.repl_nums.lookup id = some num ∧
        (Dict.ofList repl_nums).get id = some (num : ℤ) := by
  have hkeys : repl_nums.map Prod.fst = ids := by
    refine map_of_mapM (fun id it hit => ?_) h
    obtain ⟨num, -, heq⟩ := Option.bind_eq_some_iff.mp hit
    rw [← Option.some.inj heq]
  have hentries := Dict.entries_ofList (hkeys ▸ hids : (repl_nums.map Prod.fst).Nodup)
  refine ⟨?_, fun id hid => ?_⟩
  · rw [Dict.keys, hentries, hkeys]
  · obtain ⟨it, hit⟩ := Option.isSome_iff_exists.mp (isSome_of_mapM h hid)
    obtain ⟨num, hnum, heq⟩ := Option.bind_eq_some_iff.mp hit
    have hmem := mem_of_mapM h hid hit
    rw [← hentries, ← Option.some.inj heq] at hmem
    exact ⟨num, hnum, Dict.mem_entries_iff.mp hmem⟩

/-- The subgraphs stay the same ones, and each is scaled. -/
theorem replicate_stages {stages : List IRGraph} {partition repl : PartitionDP}
    {repl_nums : Dict String ℤ} (hstages : Stages ir_graph stages)
    (hsubgraphs : partition.subgraphs.entries = stages.map fun sg => (sg.name, sg))
    (hkeys : repl_nums.keys = stages.map IRGraph.name)
    (h : replicate partition repl_nums batch_size = some repl) :
    ScaledStages stages repl.subgraphs ∧
      ∀ id, id ∈ repl.subgraphs.keys ↔ id ∈ stages.map IRGraph.name := by
  have hget : ∀ id g, partition.subgraphs.get id = some g → g ∈ stages ∧ id = g.name := by
    intro id g hg
    have hmem := Dict.mem_entries_iff.mpr hg
    rw [hsubgraphs] at hmem
    obtain ⟨sg, hsg, heq⟩ := List.mem_map.mp hmem
    obtain ⟨rfl, rfl⟩ := Prod.mk.inj heq
    exact ⟨hsg, rfl⟩
  have hscaled : ∀ id ∈ repl_nums.keys, ∃ sg ∈ stages, id = sg.name ∧
      ∃ replica, repl.subgraphs.get id = some replica ∧ sg.SameProgram replica := by
    intro id hid
    obtain ⟨num, hnum⟩ := Option.isSome_iff_exists.mp (Dict.mem_keys_iff.mp hid)
    obtain ⟨sg, replica, hsg, hreplica, hrepl⟩ := replicate_subgraph h hnum
    obtain ⟨hmem, hname⟩ := hget id sg hsg
    exact ⟨sg, hmem, hname, replica, hrepl, hreplica.sameProgram (hstages.batch sg hmem)⟩
  have hother : ∀ id, id ∉ repl_nums.keys → repl.subgraphs.get id = none := by
    intro id hid
    obtain ⟨subgraphs, hfold, heq⟩ := Option.bind_eq_some_iff.mp h
    have hsame := (foldlM_replicateSubgraph repl_nums.nodup hfold id).1
      (Dict.get_eq_none_iff.mpr hid)
    rw [← Option.some.inj heq]
    dsimp only
    rw [hsame]
    cases hg : partition.subgraphs.get id with
    | none => rfl
    | some g =>
      obtain ⟨hmem, rfl⟩ := hget id g hg
      exact absurd (hkeys ▸ List.mem_map_of_mem hmem) hid
  constructor
  · constructor
    · intro sg hsg
      obtain ⟨sg', hsg', hname, hreplica⟩ := hscaled sg.name (hkeys ▸ List.mem_map_of_mem hsg)
      obtain rfl := List.inj_on_of_nodup_map hstages.nodup hsg hsg' hname
      exact hreplica
    · intro it hit
      have hget' := Dict.mem_entries_iff.mp hit
      by_cases hid : it.1 ∈ repl_nums.keys
      · obtain ⟨sg, hsg, hname, replica, hreplica, hsame⟩ := hscaled it.1 hid
        obtain rfl := Option.some.inj (hget'.symm.trans hreplica)
        exact ⟨sg, hsg, hname, hsame⟩
      · rw [hother it.1 hid] at hget'
        cases hget'
  · intro id
    rw [← hkeys]
    constructor
    · intro hid
      by_contra hnot
      exact Dict.get_eq_none_iff.mp (hother id hnot) hid
    · intro hid
      obtain ⟨sg, -, -, replica, hreplica, -⟩ := hscaled id hid
      exact Dict.mem_keys_iff.mpr (Option.isSome_of_eq_some hreplica)

theorem deploySolution_spec (hstages : Stages ir_graph sol.graphs)
    (h : deploySolution sort sets order size batch_size alloc_repl_flat ir_graph sol = some dec) :
    Deployed sort sets size ir_graph sol dec := by
  obtain ⟨new_part, hpart, h⟩ := Option.bind_eq_some_iff.mp h
  obtain ⟨repl_nums, hnums, h⟩ := Option.bind_eq_some_iff.mp h
  obtain ⟨repl, hrepl, h⟩ := Option.bind_eq_some_iff.mp h
  obtain ⟨alloc, halloc, h⟩ := Option.bind_eq_some_iff.mp h
  obtain ⟨-, h⟩ := of_guard_bind h
  obtain ⟨⟨deployment, fwd, bwd⟩, hdeploy, h⟩ := Option.bind_eq_some_iff.mp h
  obtain rfl := Option.some.inj h
  have hsubgraphs : (Dict.ofList new_part.subgraphs).entries =
      sol.graphs.map fun sg => (sg.name, sg) := by
    rw [Dict.entries_ofList, createPartition_subgraphs hpart]
    rw [createPartition_subgraphs hpart, List.map_map]
    exact hstages.nodup
  have hids : (Dict.ofList new_part.subgraphs).keys = sol.graphs.map IRGraph.name := by
    rw [Dict.keys, hsubgraphs, List.map_map]
    rfl
  rw [hids] at hnums
  obtain ⟨hkeys, hnum⟩ := replNums_spec hstages.nodup hnums
  obtain ⟨hscaled, hids'⟩ := replicate_stages hstages hsubgraphs hkeys hrepl
  have hreplicas := replicate_replica_nums hrepl
  have hconnections : repl.connections = new_part.connections := by
    obtain ⟨subgraphs, -, heq⟩ := Option.bind_eq_some_iff.mp hrepl
    rw [← Option.some.inj heq]
  obtain ⟨names, hnames, deal, hdeal, rfl⟩ := allocate_exact
    (by rw [hreplicas, hkeys]; exact fun id => (hids' id).symm) halloc
  have hdeploys := createDeployment_spec hdeploy
  constructor
  case partitioned =>
    dsimp only
    rw [hconnections]
    exact createPartition_partitioned hstages hpart
  case scaled => exact hscaled
  case deploys => exact hdeploys
  case card =>
    intro sg hsg
    obtain ⟨num, hlookup, hget⟩ := hnum sg.name (List.mem_map_of_mem hsg)
    have hcard := hdeal.card sg.name
    rw [hnames.count_eq, count_replicaNames, hreplicas, hget] at hcard
    rw [hlookup, hdeploys.allocation_eq]
    exact congrArg some hcard.symm
  case disjoint =>
    intro id id' hne
    dsimp only
    rw [hdeploys.allocation_eq, hdeploys.allocation_eq]
    exact hdeal.disjoint id id' hne

namespace Deployed

variable (h : Deployed sort sets size ir_graph sol dec)
include h

theorem subgraphs_nodup : dec.deployment.subgraphs.Nodup := by
  rw [h.deploys.subgraphs_eq]
  exact dec.partition.subgraphs.nodup

theorem mem_subgraphs {id : String} :
    id ∈ dec.deployment.subgraphs ↔ ∃ sg ∈ sol.graphs, sg.name = id := by
  rw [h.deploys.subgraphs_eq]
  constructor
  · intro hid
    obtain ⟨it, hit, rfl⟩ := List.mem_map.mp hid
    obtain ⟨sg, hsg, hname, -⟩ := h.scaled.to_stage it hit
    exact ⟨sg, hsg, hname.symm⟩
  · rintro ⟨sg, hsg, rfl⟩
    obtain ⟨replica, hreplica, -⟩ := h.scaled.of_stage sg hsg
    exact List.mem_map_of_mem (Dict.mem_entries_iff.mpr hreplica)

theorem between_cases {con : GraphConnection}
    (hcon : con ∈ betweenGraphs dec.partition.connections) :
    ∃ sg ∈ sol.graphs, sg.Reads con.value ∧ con.dest = sg.name ∧ con.src ≠ sg.name ∧
      (outVals ir_graph sol.graphs).lookup con.value = some con.src := by
  obtain ⟨hmem, hbetween⟩ := List.mem_filter.mp hcon
  have hmaster : con.src ≠ MASTER_NAME ∧ con.dest ≠ MASTER_NAME := by
    simpa [GraphConnection.isGraphInput, GraphConnection.isGraphOutput] using hbetween
  rcases h.partitioned.cases con hmem with hread | ⟨hsrc, -⟩ | ⟨hdest, -⟩
  · exact hread
  · exact absurd hsrc hmaster.1
  · exact absurd hdest hmaster.2

theorem ends : ∀ con ∈ betweenGraphs dec.partition.connections,
    con.src ∈ dec.deployment.subgraphs ∧ con.dest ∈ dec.deployment.subgraphs := by
  intro con hcon
  obtain ⟨sg, hsg, -, hdest, -, hlookup⟩ := h.between_cases hcon
  obtain ⟨src, hsrc, hname, -⟩ := of_lookup_outVals hlookup
  exact ⟨h.mem_subgraphs.mpr ⟨src, hsrc, hname⟩, h.mem_subgraphs.mpr ⟨sg, hsg, hdest.symm⟩⟩

theorem once : ((betweenGraphs dec.partition.connections).map fun con =>
    (con.dest, con.value)).Nodup := by
  refine h.partitioned.once.sublist (List.Sublist.map _ ?_)
  refine List.monotone_filter_right _ fun con hcon => ?_
  exact (Bool.and_eq_true_iff.mp hcon).2

theorem routedOnce (is_bwd : Bool) : dec.deployment.RoutedOnce is_bwd :=
  h.deploys.routedOnce h.subgraphs_nodup h.ends h.once is_bwd

theorem mem_graphs {is_bwd : Bool} {id : String} :
    id ∈ dec.deployment.graphs is_bwd ↔ ∃ sg ∈ sol.graphs, sg.name = id := by
  rw [← h.mem_subgraphs]
  exact (h.deploys.graphs_sorted h.ends h.subgraphs_nodup is_bwd).1.mem_iff

end Deployed

end Solution

end MLPartDecomposer

section TwoStages

/-- A value with a row for each of six samples. -/
def rowsValue (name : String) : String × IRValue :=
  (name, { name := name, type := .tensor .FLOAT [6, 1] true, is_batch := true })

def weightValue : String × IRValue :=
  ("w", { name := "w", type := .tensor .FLOAT [1, 1] true, is_param := true })

def firstNode : IRNode := ⟨"scale", ["x", "w"], ["y"], "n0", false, true⟩

def secondNode : IRNode := ⟨"shift", ["y"], ["z"], "n1", false, true⟩

def twoStagesGraph : IRGraph where
  name := "m"
  nodes := [firstNode, secondNode]
  values := [rowsValue "x", weightValue, rowsValue "y", rowsValue "z"]
  input_names := ["x", "w"]
  output_names := ["z"]

def firstStage : IRGraph where
  name := "a"
  nodes := [firstNode]
  values := [rowsValue "x", weightValue, rowsValue "y"]
  input_names := ["x", "w"]
  output_names := ["y"]
  is_replicable := true

def secondStage : IRGraph where
  name := "b"
  nodes := [secondNode]
  values := [rowsValue "y", rowsValue "z"]
  input_names := ["y"]
  output_names := ["z"]
  is_replicable := true

/-- The first stage has two replicas. -/
def cutInTwo : AllocSolution := ⟨[firstStage, secondStage], [("a", 2), ("b", 1)], 2, false⟩

def asGiven : MapOrder String := ⟨id, fun _ => List.Perm.refl _⟩

def deployTwoStages : Option Decomposed :=
  MLPartDecomposer.deploySolution .sinksFirst .sorted asGiven 3 6 false twoStagesGraph cutInTwo

theorem deployTwoStages_isSome : deployTwoStages.isSome = true := by
  decide +kernel

theorem twoStagesGraph_value {it : String × IRValue} (hit : it ∈ twoStagesGraph.values) :
    twoStagesGraph.getValue it.1 = some it.2 ∧ it.2.name = it.1 ∧
      (it.2.is_batch = true → it.2.is_param = false) := by
  simp only [twoStagesGraph, List.mem_cons, List.not_mem_nil, or_false] at hit
  rcases hit with rfl | rfl | rfl | rfl
  · exact ⟨rfl, rfl, fun _ => rfl⟩
  · exact ⟨rfl, rfl, fun h => absurd h (by decide)⟩
  · exact ⟨rfl, rfl, fun _ => rfl⟩
  · exact ⟨rfl, rfl, fun _ => rfl⟩

theorem cutInTwo_values {sg : IRGraph} (hsg : sg ∈ cutInTwo.graphs) :
    sg.values ⊆ twoStagesGraph.values := by
  simp only [cutInTwo, List.mem_cons, List.not_mem_nil, or_false] at hsg
  rcases hsg with rfl | rfl
  · simp [firstStage, twoStagesGraph]
  · simp [secondStage, twoStagesGraph]

theorem exists_value {g : IRGraph} (hnames : ∀ it ∈ g.values, it.2.name = it.1) {name : String}
    (hname : g.hasValue name = true) : ∃ v, g.getValue name = some v ∧ v.name = name := by
  obtain ⟨v, hv⟩ := Option.isSome_iff_exists.mp hname
  exact ⟨v, hv, hnames _ (mem_of_getValue hv)⟩

theorem cutInTwo_stages : Stages twoStagesGraph cutInTwo.graphs where
  model := ⟨by decide, by decide, by decide, fun name hname =>
    exists_value (by decide) (by revert name; decide), by decide⟩
  nodup := by decide
  not_master := by decide
  verified sg hsg := by
    simp only [cutInTwo, List.mem_cons, List.not_mem_nil, or_false] at hsg
    rcases hsg with rfl | rfl
    · exact ⟨by decide, by decide, by decide, fun name hname =>
        exists_value (by decide) (by revert name; decide), by decide⟩
    · exact ⟨by decide, by decide, by decide, fun name hname =>
        exists_value (by decide) (by revert name; decide), by decide⟩
  values sg hsg name v hv := by
    obtain ⟨hmodel, hname, -⟩ := twoStagesGraph_value (cutInTwo_values hsg (mem_of_getValue hv))
    exact ⟨v, hmodel, hname, IRValue.SameUse.refl v⟩
  batch sg hsg it hit := (twoStagesGraph_value (cutInTwo_values hsg hit)).2.2
  params := by decide

end TwoStages

end Rannc
