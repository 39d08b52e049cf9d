import Rannc.Lib.Keeps
import Mathlib.Data.Finset.Image
import Mathlib.Data.Finset.Lattice.Basic
import Mathlib.Tactic

/-!
# The parameters of a rank

The storage keeps what it knows of a parameter in maps from its id, and which graph uses it in two
tables, of the parameters that are on the rank and of those that are not. A call that throws leaves
what it has done so far.
-/
namespace Rannc

/-- A parameter that a graph uses by a name. -/
structure ParamUse where
  graph_id : String
  name : String
  param_id : ℤ
  deriving DecidableEq

def ParamUse.key (u : ParamUse) : String × String := (u.graph_id, u.name)

def ParamUse.setId (u : ParamUse) (param_id : ℤ) : ParamUse := { u with param_id := param_id }

/-- Writing to a table of uses, where a name of a graph stands for one parameter. -/
def putUse (table : List ParamUse) (u : ParamUse) : List ParamUse :=
  u :: table.filter fun v => v.key ≠ u.key

/-- Names of parameters, each with one id. -/
structure NamedParams where
  entries : List (String × ℤ)
  nodup : (entries.map Prod.fst).Nodup

/-- The ids in the unused table are global ones. -/
@[ext]
structure ParamStorage (τ : Type) where
  graph_params : List ParamUse
  unused_params : List ParamUse
  params : ℤ → Option τ
  buffer_ids : Finset ℤ
  dist_ids : Finset ℤ
  ranks : ℤ → Option (Finset ℕ)
  my_param_ranks : String → ℤ → Option (Finset ℕ)
  ref_counts : ℤ → Option ℤ
  id_global_to_local : ℤ → Option ℤ
  id_local_to_global : ℤ → Option ℤ

/-- A call on the storage. -/
abbrev StorageM (τ : Type) := EStateM Unit (ParamStorage τ)

namespace ParamStorage

variable {τ : Type}

def empty : ParamStorage τ :=
  ⟨[], [], fun _ => none, ∅, ∅, fun _ => none, fun _ _ => none, fun _ => none, fun _ => none,
    fun _ => none⟩

/-- The value of a map, which throws without one. -/
def atKey {α : Type} (value : Option α) : StorageM τ α :=
  match value with
  | some a => pure a
  | none => throw ()

def check (p : Prop) [Decidable p] : StorageM τ Unit :=
  if p then pure () else throw ()

def addParam (param_id global_id : ℤ) (param_tensor : τ) (buffer distributed : Bool)
    (s : ParamStorage τ) : ParamStorage τ :=
  { s with
    params := Function.update s.params param_id (some param_tensor)
    id_global_to_local := Function.update s.id_global_to_local global_id (some param_id)
    id_local_to_global := Function.update s.id_local_to_global param_id (some global_id)
    buffer_ids := if buffer then insert param_id s.buffer_ids else s.buffer_ids
    dist_ids := if distributed then insert param_id s.dist_ids else s.dist_ids }

/-- All ranks get the global id from rank 0. -/
def registerParam (param_id global_id : ℤ) (param_tensor : τ) (buffer distributed : Bool) :
    StorageM τ Unit := do
  check ((← get).params param_id).isNone
  modify (addParam param_id global_id param_tensor buffer distributed)

def localToGlobal (local_param_id : ℤ) : StorageM τ ℤ := do
  atKey ((← get).id_local_to_global local_param_id)

/-- The uses of the parameter go to the unused table. -/
def moveUses (param_id global_id : ℤ) (s : ParamStorage τ) : ParamStorage τ :=
  { s with
    graph_params := s.graph_params.filter fun u => u.param_id ≠ param_id
    unused_params := (s.graph_params.filter fun u => u.param_id = param_id).foldl
      (fun table u => putUse table (u.setId global_id)) s.unused_params }

def eraseTensor (param_id : ℤ) (s : ParamStorage τ) : ParamStorage τ :=
  { s with params := Function.update s.params param_id none }

def unregisterParam (param_id : ℤ) : StorageM τ Unit := do
  if (← get).graph_params.any fun u => u.param_id = param_id then
    let global_id ← localToGlobal param_id
    modify (moveUses param_id global_id)
  let removed := ((← get).params param_id).isSome
  modify (eraseTensor param_id)
  check removed

def getParamIDs (s : ParamStorage τ) (graph_id : String) (include_buffer : Bool) :
    List (String × ℤ) :=
  ((s.graph_params.filter fun u =>
    u.graph_id = graph_id ∧ (include_buffer ∨ u.param_id ∉ s.buffer_ids))).map
    fun u => (u.name, u.param_id)

def addUse (u : ParamUse) (s : ParamStorage τ) : ParamStorage τ :=
  { s with
    graph_params := putUse s.graph_params u
    ref_counts :=
      Function.update s.ref_counts u.param_id (some ((s.ref_counts u.param_id).getD 0 + 1)) }

def useParam (graph_id name : String) (param_id : ℤ) : StorageM τ Unit :=
  modify (addUse ⟨graph_id, name, param_id⟩)

/-- The ids of parameters in the order of their names. -/
def getSortedParamIDs (param_map : List (String × ℤ)) : List ℤ :=
  (param_map.insertionSort fun a b => a.1 ≤ b.1).map Prod.snd

/-- The ranks of the parameters of each subgraph. -/
abbrev ParamRanks := List (String × (String → Option (Finset ℕ)))

section Deploy

variable (rank : ℕ) (sync_on_init : Bool)

def idToName (graph_params : List (String × ℤ)) : ℤ → Option String :=
  graph_params.foldl (fun names it => Function.update names it.2 (some it.1)) fun _ => none

/-- A subgraph that is on no rank leaves no entry. -/
def addRanks (graph_id : String) (param_id : ℤ) (param_ranks : Finset ℕ) (s : ParamStorage τ) :
    ParamStorage τ :=
  { s with
    ranks := if param_ranks = ∅ then s.ranks else
      Function.update s.ranks param_id (some ((s.ranks param_id).getD ∅ ∪ param_ranks))
    my_param_ranks := if rank ∈ param_ranks then
        Function.update s.my_param_ranks graph_id
          (Function.update (s.my_param_ranks graph_id) param_id (some param_ranks))
      else s.my_param_ranks }

/-- The names, ranks and subgraphs that go together. -/
abbrev ParamGraphSet := Finset (String × ℕ × String)

def rankParam (graph_id : String) (id_to_name : ℤ → Option String) (param_rank_maps : ParamRanks)
    (param_graph_set : ParamGraphSet) (param_id : ℤ) : StorageM τ ParamGraphSet :=
  param_rank_maps.foldlM (fun param_graph_set it => do
    let param_name ← atKey (id_to_name param_id)
    match it.2 param_name with
    | none => return param_graph_set
    | some param_ranks =>
      modify (addRanks rank graph_id param_id param_ranks)
      return param_graph_set ∪ param_ranks.image fun r => (param_name, r, it.1)) param_graph_set

/-- No parameter is in two subgraphs on the same rank. -/
def NotShared (param_graph_set : ParamGraphSet) : Prop :=
  ∀ a ∈ param_graph_set, ∀ b ∈ param_graph_set, a.1 = b.1 → a.2.1 = b.2.1 → a.2.2 = b.2.2

instance (param_graph_set : ParamGraphSet) : Decidable (NotShared param_graph_set) :=
  inferInstanceAs (Decidable (∀ a ∈ param_graph_set, ∀ b ∈ param_graph_set,
    a.1 = b.1 → a.2.1 = b.2.1 → a.2.2 = b.2.2))

/-- A distributed parameter is loaded and is no longer distributed. -/
def syncParam (id_to_name : ℤ → Option String) (param_id : ℤ) : StorageM τ Unit := do
  if ((← get).ranks param_id).isSome then
    if rank = 0 ∧ sync_on_init then
      let _ ← atKey (id_to_name param_id)
    let _ ← atKey ((← get).params param_id)
    modify fun s => { s with dist_ids := s.dist_ids.erase param_id }

/-- The tensors that take part in the reduction have to be there. -/
def registerGrad (param_id : ℤ) : StorageM τ Unit := do
  if rank ∈ ((← get).ranks param_id).getD ∅ then
    let _ ← atKey ((← get).params param_id)

def deploy (graph_id : String) (graph_params : NamedParams) (param_rank_maps : ParamRanks)
    (enable_zero : Bool) : StorageM τ Unit := do
  graph_params.entries.forM fun it => useParam graph_id it.1 it.2
  let id_to_name := idToName ((← get).getParamIDs graph_id false)
  let sorted_param_ids := getSortedParamIDs graph_params.entries
  let param_graph_set ←
    sorted_param_ids.foldlM (rankParam rank graph_id id_to_name param_rank_maps) ∅
  check (NotShared param_graph_set)
  sorted_param_ids.forM (syncParam rank sync_on_init id_to_name)
  if enable_zero then sorted_param_ids.forM (registerGrad rank)

end Deploy

def eraseParam (param_id : ℤ) (s : ParamStorage τ) : ParamStorage τ :=
  { s with
    params := Function.update s.params param_id none
    ranks := Function.update s.ranks param_id none
    ref_counts := Function.update s.ref_counts param_id none }

def eraseIds (param_id global_id : ℤ) (s : ParamStorage τ) : ParamStorage τ :=
  { s with
    id_local_to_global := Function.update s.id_local_to_global param_id none
    id_global_to_local := Function.update s.id_global_to_local global_id none }

def doReleaseParam (param_id : ℤ) : StorageM τ Unit := do
  if ((← get).ref_counts param_id).getD 0 = 0 then
    modify (eraseParam param_id)
    let global_id ← localToGlobal param_id
    modify (eraseIds param_id global_id)

def decRef (param_id : ℤ) (s : ParamStorage τ) : ParamStorage τ :=
  { s with
    ref_counts :=
      Function.update s.ref_counts param_id (some ((s.ref_counts param_id).getD 0 - 1)) }

def releaseParam (param_id : ℤ) : StorageM τ Unit := do
  modify (decRef param_id)
  doReleaseParam param_id

def releaseUnused (global_id : ℤ) : StorageM τ Unit := do
  let param_id ← atKey ((← get).id_global_to_local global_id)
  releaseParam param_id

def eraseGraph (graph_id : String) (s : ParamStorage τ) : ParamStorage τ :=
  { s with
    graph_params := s.graph_params.filter fun u => u.graph_id ≠ graph_id
    unused_params := s.unused_params.filter fun u => u.graph_id ≠ graph_id }

def usesOf (graph_id : String) (table : List ParamUse) : List ℤ :=
  (table.filter fun u => u.graph_id = graph_id).map ParamUse.param_id

def releaseGraphParams (graph_id : String) : StorageM τ Unit := do
  (usesOf graph_id (← get).graph_params).forM releaseParam
  (usesOf graph_id (← get).unused_params).forM releaseUnused
  modify (eraseGraph graph_id)

end ParamStorage

/-- The calls that register, use and release parameters. -/
inductive StorageOp (τ : Type)
  | registerParam (param_id global_id : ℤ) (param_tensor : τ) (buffer distributed : Bool)
  | deploy (graph_id : String) (graph_params : NamedParams)
      (param_rank_maps : ParamStorage.ParamRanks) (enable_zero : Bool)
  | unregisterParam (param_id : ℤ)
  | releaseGraphParams (graph_id : String)

namespace ParamStorage

variable {τ : Type} (rank : ℕ) (sync_on_init : Bool)

def call : StorageOp τ → StorageM τ Unit
  | .registerParam param_id global_id param_tensor buffer distributed =>
    registerParam param_id global_id param_tensor buffer distributed
  | .deploy graph_id graph_params param_rank_maps enable_zero =>
    deploy rank sync_on_init graph_id graph_params param_rank_maps enable_zero
  | .unregisterParam param_id => unregisterParam param_id
  | .releaseGraphParams graph_id => releaseGraphParams graph_id

def step (s : ParamStorage τ) (op : StorageOp τ) : ParamStorage τ :=
  finalState (call rank sync_on_init op s)

def run (history : List (StorageOp τ)) : ParamStorage τ :=
  history.foldl (step rank sync_on_init) empty

end ParamStorage

end Rannc
