import Rannc.Common.BatchSplit
import Rannc.Graph.CreateDeployment
import Rannc.Lib.MachineInt

/-!
# Memory of a graph

What a graph needs on a device: what was profiled, the optimizer's state of its parameters and the
buffers for what it exchanges. The optimizer's state is divided by a number of devices, whether or
not it is distributed over them.
-/
namespace Rannc

namespace IRGraph

variable (g : IRGraph)

def getParamSizeInByte : Option ℕ := do
  let params := g.values.filter fun it => it.2.is_param
  let sizes ← params.mapM fun it => it.2.getSizeInByte
  return sizes.sum

def setBatchSize (batch_size : ℕ) : IRGraph :=
  { g with values := g.values.map fun it =>
      if it.2.is_batch then (it.1, { it.2 with type := it.2.type.setBatchSize batch_size })
      else it }

end IRGraph

section Sizes

variable (g : IRGraph)

/-- The size of the values with some names that are not parameters. -/
def calcSize (names : List String) : Option ℕ := do
  let vals ← names.mapM g.getValue
  let sizes ← (vals.filter fun val => !val.is_param).mapM IRValue.getSizeInByte
  return sizes.sum

def calcInputSize : Option ℕ := calcSize g g.input_names

def calcOutputSize : Option ℕ := calcSize g g.output_names

def countValueRefCount (val_name : String) : ℕ :=
  g.nodes.countP fun node => val_name ∈ node.input_names

/-- The inputs that several nodes read. Each reader gets a clone, but there are not enough of them
if a node reads the input twice. -/
def sharedInputs : Option (List String) := do
  let shared := g.input_names.filter fun name => countValueRefCount g name > 1
  guard (∀ name ∈ shared,
    (g.nodes.flatMap IRNode.input_names).count name ≤ countValueRefCount g name)
  return shared

/-- The buffers for the inputs and outputs of every split, and for their gradients. Clones have
gradients of their own. -/
def calcCommBufSize (pipeline_num : ℕ) : Option ℕ := do
  let input_size ← calcInputSize g
  let shared ← sharedInputs g
  let clone_sizes ← shared.mapM fun name => do
    return (← (← g.getValue name).getSizeInByte) * countValueRefCount g name
  let out_vals ← g.output_names.mapM g.getValue
  let out_sizes ← out_vals.mapM IRValue.getSizeInByte
  let in_vals ← g.input_names.mapM g.getValue
  let grad_sizes ← (in_vals.filter fun val => !val.is_param && val.type.passedForBackward).mapM
    IRValue.getSizeInByte
  return (input_size + out_sizes.sum + grad_sizes.sum) * pipeline_num + clone_sizes.sum * 2

end Sizes

/-- What the optimizer needs for a parameter. With master parameters of mixed precision there are
also the master copy and its gradient, or the stashed gradient. -/
def optMemOfParam (opt_param_factor : ℕ) (use_amp_master_param : Bool) (zero_dist_num : ℕ)
    (val : IRValue) : Option ℕ := do
  let size ← val.getSizeInByte
  if use_amp_master_param then
    match val.type.getTensorElemType with
    | .HALF => return size * 2 * 2 + size * 2 * opt_param_factor / zero_dist_num
    | .FLOAT => return size * opt_param_factor / zero_dist_num + size
    | .BFLOAT16 => return size * opt_param_factor / zero_dist_num + size
    | _ => none
  else return size * opt_param_factor / zero_dist_num

/-- Nothing depends on `enable_zero`. -/
def getOptMemSize (ir_graph : IRGraph) (opt_param_factor : ℕ) (use_amp_master_param : Bool)
    (_enable_zero : Bool) (zero_dist_num : ℕ) : Option ℕ := do
  let zero_dist_num := if zero_dist_num = 0 then 1 else zero_dist_num
  let params := ir_graph.values.filter fun it => it.2.is_param
  let sizes ← params.mapM fun it =>
    optMemOfParam opt_param_factor use_amp_master_param zero_dist_num it.2
  return sizes.sum

def SIZE_MAX : ℕ := 2 ^ 64 - 1

def calcGraphMem (g : IRGraph) (prof : GraphProfile) (opt_param_factor : ℕ)
    (use_amp_master_params enable_zero : Bool) (zero_dist_num : ℕ) : Option ℕ := do
  let opt_mem ← getOptMemSize g opt_param_factor use_amp_master_params enable_zero zero_dist_num
  return toSize (prof.max_allocated_mem + opt_mem)

/-- The memory with the buffers for the splits that one replica gets. -/
def calcGraphMemWithBuf (g : IRGraph) (prof : GraphProfile)
    (opt_param_factor batch_size replica_num pipeline_num : ℕ)
    (use_amp_master_params enable_zero : Bool) : Option ℕ := do
  let bs := (ceilDiv batch_size (replica_num * pipeline_num)).toNat
  let scaled := g.setBatchSize bs
  let mem ← calcGraphMem g prof opt_param_factor use_amp_master_params enable_zero replica_num
  return toSize (mem + (← calcCommBufSize scaled pipeline_num))

def fitToMem (g : IRGraph) (prof : GraphProfile) (opt_param_factor capacity : ℕ)
    (use_amp_master_params : Bool) : Option Bool := do
  return (← calcGraphMem g prof opt_param_factor use_amp_master_params false 1) < capacity

end Rannc
