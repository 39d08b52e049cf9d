import Rannc.Comm.Redist
import Rannc.Comp.ParamSegments
import Rannc.Comp.ParamStorage

/-!
# The norm of all gradients

After the gradients are reduced among the ranks of each parameter, the ranks gather their norms by
global ids. With ZeRO a rank gets the reduced gradient of its own segment only, and the norms of all
ranks count.
-/
namespace Rannc

/-- What is read and written of a tensor. -/
structure GradTensor (R : Type) where
  grad : Option (List R)

/-- The storage of a rank, with the groups of one graph and, if ZeRO is on, the segments of its
parameters. -/
structure GradStorage (R : Type) extends ParamStorage (GradTensor R) where
  amp_master_params : ℤ → Option (GradTensor R)
  allreduce_amp_master_params : Bool
  grouped_params : List (ℤ × List ℤ)
  tag_rank_set : ℤ → Option (Finset ℕ)
  zero_grad_locator : Option (ℤ → Option (List (ℕ × ℕ)))

variable {R : Type}

namespace GradStorage

variable (s : GradStorage R)

def zeroEnabled : Bool := s.zero_grad_locator.isSome

/-- The master copy takes part in the reduction, if there is one and it is asked for. -/
def usesMaster (param_id : ℤ) : Prop :=
  s.zeroEnabled = false ∧ s.allreduce_amp_master_params = true ∧
    (s.amp_master_params param_id).isSome = true

instance (param_id : ℤ) : Decidable (s.usesMaster param_id) :=
  inferInstanceAs (Decidable (_ ∧ _ ∧ _))

def reduceTensor (param_id : ℤ) : Option (GradTensor R) :=
  if s.usesMaster param_id then s.amp_master_params param_id else s.params param_id

def setGrad (param_id : ℤ) (grad : List R) : GradStorage R :=
  if s.usesMaster param_id then
    { s with amp_master_params := Function.update s.amp_master_params param_id (some ⟨some grad⟩) }
  else { s with params := Function.update s.params param_id (some ⟨some grad⟩) }

def setGrads (grads : List (ℤ × List R)) : GradStorage R :=
  grads.foldl (fun s it => s.setGrad it.1 it.2) s

def sortCommTags : List ℤ :=
  (s.grouped_params.map Prod.fst).insertionSort fun t₁ t₂ =>
    ((s.tag_rank_set t₁).getD ∅).card ≤ ((s.tag_rank_set t₂).getD ∅).card

/-- The gradients of a group. With ZeRO all of them have to be there. -/
def gradsToReduce (tag : ℤ) : Option (List (ℤ × List R)) := do
  let param_ids ← s.grouped_params.lookup tag
  let grads ← param_ids.mapM fun pid => do
    let param ← s.reduceTensor pid
    guard (s.zeroEnabled = true → param.grad.isSome = true)
    return param.grad.map fun grad => (pid, grad)
  return grads.reduceOption

end GradStorage

section Reduce

variable [Add R]

def addTensors (a b : List R) : List R := List.zipWith (· + ·) a b

def sumTensors : List (List R) → List R
  | [] => []
  | g :: gs => gs.foldl addTensors g

/-- The gradient of a rank after a reduction with those that the other ranks have at the same place:
their sum, or with ZeRO their sum in the segment for which the rank is the root. -/
def GradStorage.reduced (s : GradStorage R) (ranks : Finset ℕ) (rank : ℕ) (param_id : ℤ)
    (grad : List R) (grads : List (List R)) : Option (List R) :=
  match s.zero_grad_locator with
  | none => some (sumTensors grads)
  | some locator => do
    let ranges ← locator param_id
    let range ← ranges[getLocalRank ranks rank]?
    return putSlice grad range (sumTensors (grads.map fun g => slice g range))

abbrev GradWorld (R : Type) := ℕ → GradStorage R

/-- What a rank writes, from the lists of all ranks of a group. Its tensors go together with those
at the same places of the other lists. -/
def GradStorage.reduceGroup (s : GradStorage R) (ranks : Finset ℕ) (rank : ℕ) (tag : ℤ)
    (bufs : List (List (ℤ × List R))) : Option (GradStorage R) := do
  let grads ← s.gradsToReduce tag
  let grads ← (grads.mapIdx fun i it => (i, it)).mapM fun x => do
    let grad ← s.reduced ranks rank x.2.1 x.2.2
      (bufs.map fun buf => (buf[x.1]?.map Prod.snd).getD [])
    return (x.2.1, grad)
  return s.setGrads grads

/-- The collective of the ranks of a tag. -/
def reduceTag (w : GradWorld R) (tag : ℤ) : Option (GradWorld R) := do
  let ranks ← (w 0).tag_rank_set tag
  let bufs ← (sortRanks ranks).mapM fun r => (w r).gradsToReduce tag
  let states ← (sortRanks ranks).mapM fun r => do
    let state ← (w r).reduceGroup ranks r tag bufs
    return (r, state)
  return fun r => (states.lookup r).getD (w r)

/-- All ranks have the same tags and go through them in the same order. -/
def allReduceParamGrads (w : GradWorld R) : Option (GradWorld R) :=
  (w 0).sortCommTags.foldlM reduceTag w

end Reduce

section Norm

variable [Add R] [Mul R] [Zero R] (sqrt : R → R)

def normSq (grad : List R) : R := (grad.map fun x => x * x).sum

namespace GradStorage

variable (s : GradStorage R) (graph_id : String) (use_amp_master : Bool)

def normTensor (param_id : ℤ) : Option (GradTensor R) :=
  if use_amp_master = true ∧ (s.amp_master_params param_id).isSome = true then
    s.amp_master_params param_id
  else s.params param_id

def addNorm (norms : ℤ → Option R) (it : String × ℤ) : Option (ℤ → Option R) := do
  let ten ← s.normTensor use_amp_master it.2
  match ten.grad with
  | none => return norms
  | some grad =>
    let global_id ← s.id_local_to_global it.2
    return Function.update norms global_id (some (sqrt (normSq grad)))

/-- The norms that a rank sends, by global ids. -/
def norms : Option (ℤ → Option R) :=
  (s.getParamIDs graph_id false).foldlM (s.addNorm sqrt use_amp_master) fun _ => none

/-- Writing to a map from names to ids. -/
def putName (param_ids : List (String × ℤ)) (it : String × ℤ) : List (String × ℤ) :=
  it :: param_ids.filter fun it' => it'.1 ≠ it.1

def addGlobal (param_ids : List (String × ℤ)) (it : String × ℤ) : Option (List (String × ℤ)) := do
  let global_id ← s.id_local_to_global it.2
  return putName param_ids (it.1, global_id)

/-- The ids in the unused table are global ones. -/
def allParamIDs : Option (List (String × ℤ)) := do
  let on_rank ← (s.getParamIDs graph_id false).foldlM s.addGlobal []
  return (s.unused_params.filter fun u => u.graph_id = graph_id).foldl
    (fun param_ids u => putName param_ids (u.name, u.param_id)) on_rank

end GradStorage

/-- What was gathered, under one index if the ranks are told apart by nothing. -/
def normsBuf (zero : Bool) (gathered : List (ℤ → Option R)) : List (ℤ → Option R) :=
  if zero then gathered
  else [gathered.foldl (fun buf norms global_id => norms global_id <|> buf global_id) fun _ => none]

def square : Option R → R
  | none => 0
  | some norm => norm * norm

def normSqSum (param_ids : List ℤ) (norms : ℤ → Option R) : R :=
  (param_ids.map fun global_id => square (norms global_id)).sum

def calcGradGlobalL2Norm (world_size : ℕ) (w : GradWorld R) (rank : ℕ) (graph_id : String)
    (use_amp_master : Bool) : Option R := do
  let all_param_ids ← (w rank).allParamIDs graph_id
  let gathered ← (List.range world_size).mapM fun r => (w r).norms sqrt graph_id use_amp_master
  let norms_buf := normsBuf (w rank).zeroEnabled gathered
  return sqrt ((norms_buf.map (normSqSum (ParamStorage.getSortedParamIDs all_param_ids))).sum)

end Norm

/-- The parameters of a graph, the ranks that use each of them, its ids there, and the gradients
before the reduction. ZeRO reads the gradient of every parameter that is used. -/
structure GradPlacement (R : Type) where
  world_size : ℕ
  world_size_pos : 0 < world_size
  graph_id : String
  zero : Bool
  names : List String
  nodup : names.Nodup
  param_id : ℕ → String → ℤ
  param_id_inj : ∀ r, ∀ name ∈ names, ∀ name' ∈ names,
    param_id r name = param_id r name' → name = name'
  ranks : String → Finset ℕ
  ranks_lt : ∀ name ∈ names, ∀ r ∈ ranks name, r < world_size
  tag : Finset ℕ → ℤ
  tag_inj : Function.Injective tag
  numel : String → ℕ
  has_grad : String → Bool
  zero_has_grad : zero = true → ∀ name ∈ names, (ranks name).Nonempty → has_grad name = true
  grad : ℕ → String → List R
  length_grad : ∀ r name, (grad r name).length = numel name

namespace GradPlacement

variable {R : Type} (p : GradPlacement R)

/-- The name of a parameter on a rank. -/
def nameOf (rank : ℕ) (param_id : ℤ) : Option String :=
  p.names.find? fun name => p.param_id rank name = param_id

/-- The sets of ranks that have parameters. -/
def rankSets : List (Finset ℕ) :=
  ((p.names.map p.ranks).filter fun ranks => ranks.Nonempty).dedup

def sortedNames : List String := p.names.insertionSort fun a b => a ≤ b

/-- The names of the parameters of a set of ranks. -/
def group (ranks : Finset ℕ) : List String := p.sortedNames.filter fun name => p.ranks name = ranks

/-- The storage of a rank when the graph is deployed and the parameters are unregistered that the
rank does not use. -/
def storage (grad : ℕ → String → List R) (rank : ℕ) : GradStorage R where
  graph_params := (p.names.filter fun name => rank ∈ p.ranks name).map fun name =>
    ⟨p.graph_id, name, p.param_id rank name⟩
  unused_params := (p.names.filter fun name => rank ∉ p.ranks name).map fun name =>
    ⟨p.graph_id, name, p.param_id 0 name⟩
  params id := (p.nameOf rank id).bind fun name =>
    if rank ∈ p.ranks name then
      some ⟨if p.has_grad name then some (grad rank name) else none⟩
    else none
  buffer_ids := ∅
  dist_ids := ∅
  ranks id := (p.nameOf rank id).bind fun name =>
    if (p.ranks name).Nonempty then some (p.ranks name) else none
  my_param_ranks graph_id id := (p.nameOf rank id).bind fun name =>
    if graph_id = p.graph_id ∧ rank ∈ p.ranks name then some (p.ranks name) else none
  ref_counts id := (p.nameOf rank id).map fun _ => 1
  id_global_to_local id := (p.nameOf 0 id).map (p.param_id rank)
  id_local_to_global id := (p.nameOf rank id).map (p.param_id 0)
  amp_master_params _ := none
  allreduce_amp_master_params := false
  grouped_params := p.rankSets.map fun ranks =>
    (p.tag ranks, (p.group ranks).map (p.param_id rank))
  tag_rank_set tag := p.rankSets.find? fun ranks => p.tag ranks = tag
  zero_grad_locator := if p.zero then
      some fun id => (p.nameOf rank id).map fun name => doRegister (p.numel name) (p.ranks name)
    else none

end GradPlacement

end Rannc
