import Rannc.Lib.Dict

/-!
# State of an optimizer

Each rank has an optimizer for the parameters that it uses. Its state refers to parameters by their
order among those of the rank. When the states are gathered this is replaced by the order among the
parameters of all ranks.
-/
namespace Rannc

/-- A group of parameters, with the options of the optimizer for them. -/
structure ParamGroup (P O : Type) where
  params : List P
  options : Dict String O

/-- A state dict may lack the state of the parameters. -/
structure StateDict (S O : Type) where
  state : Option (Dict ℕ S)
  param_groups : List (ParamGroup ℕ O)

variable {P S O : Type}

def replaceIdsInParamGroup (param_group : ParamGroup ℕ O) (order_local_to_global : Dict ℕ ℕ) :
    Option (ParamGroup ℕ O) := do
  let params ← param_group.params.mapM order_local_to_global.get
  return { param_group with params := params }

def replaceIds (order_local_to_global : Dict ℕ ℕ) (state : Dict ℕ S) : Option (Dict ℕ S) := do
  let items ← state.entries.mapM fun it => do
    let pid ← order_local_to_global.get it.1
    return (pid, it.2)
  return Dict.ofList items

def replaceParamIds (opt_state_dict : StateDict S O) (order_local_to_global : Dict ℕ ℕ) :
    Option (StateDict S O) := do
  let state ← opt_state_dict.state.mapM (replaceIds order_local_to_global)
  let param_groups ← opt_state_dict.param_groups.mapM fun g =>
    replaceIdsInParamGroup g order_local_to_global
  return ⟨state, param_groups⟩

/-- The options of the second group replace those of the first. -/
def mergeParamGroup (pg_all pg_sub : ParamGroup ℕ O) : ParamGroup ℕ O :=
  { pg_all with options := pg_sub.options.entries.foldl (fun d e => d.set e.1 e.2) pg_all.options }

def mergeParamGroups (target_groups sub_groups : List (ParamGroup ℕ O)) :
    List (ParamGroup ℕ O) :=
  List.zipWith mergeParamGroup target_groups sub_groups

/-- What is known already stays. -/
def mergeState (state : Option (Dict ℕ S)) (it : ℕ × S) : Option (Option (Dict ℕ S)) := do
  let state ← state
  return some (if it.1 ∈ state.keys then state else state.set it.1 it.2)

def mergeStateDict (s1 s2 : StateDict S O) : Option (StateDict S O) := do
  let items := (s2.state.map Dict.entries).getD []
  let state ← items.foldlM mergeState s1.state
  return ⟨state, mergeParamGroups s1.param_groups s2.param_groups⟩

def appendParamRanks (param_ranks : Dict ℕ (List ℕ)) (state : StateDict S O) (rank : ℕ) :
    Dict ℕ (List ℕ) :=
  let pids := state.param_groups.flatMap ParamGroup.params
  pids.foldl (fun d pid => d.set pid ((d.get pid).getD [] ++ [rank])) param_ranks

def removeParamsFromState (state : StateDict S O) (param_ids : List ℕ) : StateDict S O :=
  let items := (state.state.map Dict.entries).getD []
  { state with state := some (Dict.ofList (items.filter fun it => it.1 ∉ param_ids)) }

def getLocalOptimizerStateDict (global_state_dict : StateDict S O) (pids : List ℕ) :
    StateDict S O where
  state := global_state_dict.state.map fun v => Dict.ofList (v.entries.filter fun it => it.1 ∈ pids)
  param_groups := global_state_dict.param_groups.map fun grp =>
    { grp with params := grp.params.filter (· ∈ pids) }

/-- The parameters of a list of groups. -/
def paramsOf (groups : List (ParamGroup P O)) : List P := groups.flatMap ParamGroup.params

structure Optimizer (P S O : Type) where
  param_groups : List (ParamGroup P O)
  state : Dict P S

namespace Optimizer

def params (opt : Optimizer P S O) : List P := paramsOf opt.param_groups

/-- Parameters are in one place, and only they have state. -/
structure WellFormed (opt : Optimizer P S O) : Prop where
  nodup : opt.params.Nodup
  state : opt.state.keys ⊆ opt.params

end Optimizer

/-- Groups refer to parameters by their order. -/
def numberGroups : ℕ → List (ParamGroup P O) → List (ParamGroup ℕ O)
  | _, [] => []
  | start_index, group :: groups =>
    ⟨List.range' start_index group.params.length, group.options⟩ ::
      numberGroups (start_index + group.params.length) groups

/-- The sizes of the groups. -/
def groupSizes (groups : List (ParamGroup P O)) : List ℕ := groups.map fun g => g.params.length

/-- What an optimizer promises of its state dicts: a parameter that is saved and one that is loaded
are the same when they have the same place in the groups. -/
structure StateProtocol (P S O : Type) [DecidableEq P] where
  state_dict : Optimizer P S O → StateDict S O
  load_state_dict : Optimizer P S O → StateDict S O → Option (Optimizer P S O)
  state_dict_groups : ∀ opt, opt.WellFormed →
    (state_dict opt).param_groups = numberGroups 0 opt.param_groups
  state_dict_state : ∀ opt, opt.WellFormed → ∃ state, (state_dict opt).state = some state ∧
    ∀ i, state.get i = (opt.params[i]?).bind opt.state.get
  load_state : ∀ opt saved state, opt.WellFormed → saved.state = some state →
    (paramsOf saved.param_groups).Nodup → state.keys ⊆ paramsOf saved.param_groups →
    groupSizes saved.param_groups = groupSizes opt.param_groups →
    ∃ opt', load_state_dict opt saved = some opt' ∧
      opt'.param_groups = List.zipWith (fun g ng => { ng with params := g.params })
        opt.param_groups saved.param_groups ∧
      ∀ p, opt'.state.get p = if p ∈ opt.params then
        ((paramsOf saved.param_groups)[opt.params.idxOf p]?).bind state.get else none
  load_no_state : ∀ opt saved, saved.state = none → load_state_dict opt saved = none

structure ParamOrder where
  order_local_to_global : Dict ℕ ℕ
  used_param_global_order : List ℕ
  local_order : ℕ
  global_order : ℕ
  param_zero_range : Dict ℕ (ℕ × ℕ)

/-- How a rank uses parameters: which of them, and which range of the elements. -/
structure RankUse (P : Type) where
  used_param_ids : P → Bool
  enable_zero : Bool
  get_local_param_range : P → ℕ × ℕ

def ParamOrder.push (use : RankUse P) (o : ParamOrder) (p : P) : ParamOrder where
  order_local_to_global := o.order_local_to_global.set o.local_order o.global_order
  used_param_global_order := o.used_param_global_order ++ [o.global_order]
  local_order := o.local_order + 1
  global_order := o.global_order + 1
  param_zero_range :=
    if use.enable_zero then o.param_zero_range.set o.global_order (use.get_local_param_range p)
    else o.param_zero_range

def ParamOrder.add (use : RankUse P) (st : ParamOrder × List P) (p : P) : ParamOrder × List P :=
  let (o, params) := st
  if use.used_param_ids p then (o.push use p, params ++ [p])
  else ({ o with global_order := o.global_order + 1 }, params)

def ParamOrder.addGroup (use : RankUse P) (st : ParamOrder × List (ParamGroup P O))
    (param_group : ParamGroup P O) : ParamOrder × List (ParamGroup P O) :=
  let (o, params) := param_group.params.foldl (add use) (st.1, [])
  (o, st.2 ++ [{ param_group with params := params }])

/-- The parameters that a rank does not use are removed from its optimizer. With ZeRO a parameter
stands for the segment of the rank. -/
def removeUnusedParams (use : RankUse P) (param_groups : List (ParamGroup P O)) :
    ParamOrder × List (ParamGroup P O) :=
  param_groups.foldl (ParamOrder.addGroup use) (⟨Dict.empty, [], 0, 0, Dict.empty⟩, [])

/-- The optimizer of a rank, with what was kept when parameters were removed. -/
structure RankOptimizer (P S O : Type) where
  opt : Optimizer P S O
  original_param_groups : List (ParamGroup ℕ O)
  order : ParamOrder

section Gather

variable [DecidableEq P] (torch : StateProtocol P S O) (ranks : ℕ → RankOptimizer P S O)

/-- The state of a rank, under global ids. -/
def RankOptimizer.globalState (r : RankOptimizer P S O) : Option (StateDict S O) :=
  replaceParamIds (torch.state_dict r.opt) r.order.order_local_to_global

/-- The root tells a rank what it has and receives the rest. -/
def gatherFrom (gathered : StateDict S O × Dict ℕ (List ℕ)) (r : ℕ) :
    Option (StateDict S O × Dict ℕ (List ℕ)) := do
  let (state_dict, param_ranks) := gathered
  let current_pids ← state_dict.state.map Dict.keys
  let rank_state ← (ranks r).globalState torch
  let rank_state := removeParamsFromState rank_state current_pids
  let state_dict ← mergeStateDict state_dict rank_state
  return (state_dict, appendParamRanks param_ranks rank_state r)

def gatherOptimizerStateDict (world_size root : ℕ) :
    Option (StateDict S O × Dict ℕ (List ℕ)) := do
  let state_dict ← (ranks root).globalState torch
  let param_ranks := appendParamRanks Dict.empty state_dict root
  let param_groups :=
    mergeParamGroups (ranks root).original_param_groups state_dict.param_groups
  ((List.range world_size).filter (· ≠ root)).foldlM (gatherFrom torch ranks)
    ({ state_dict with param_groups := param_groups }, param_ranks)

/-- Loading from a global state dict. With ZeRO the state is cut to the segments of the rank. -/
def newLoadStateDict (slice : Option (StateDict S O → ParamOrder → Option (StateDict S O)))
    (r : RankOptimizer P S O) (state_dict : StateDict S O) : Option (Optimizer P S O) := do
  let local_state_dict := getLocalOptimizerStateDict state_dict r.order.used_param_global_order
  let local_state_dict ←
    match slice with
    | some slice => slice local_state_dict r.order
    | none => some local_state_dict
  torch.load_state_dict r.opt local_state_dict

end Gather

end Rannc
