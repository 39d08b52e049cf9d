import Mathlib.Data.List.Basic
import Mathlib.Tactic

/-!
# Types of values

The type of a value is a tree of lists and tuples whose leaves are tensors, or something that is
not distributed. A batch is set by overwriting the leading dimension of every tensor.
-/
namespace Rannc

inductive IRTensorElemType
  | UNDEF
  | INT
  | DOUBLE
  | FLOAT
  | HALF
  | BFLOAT16
  | LONG
  | BOOL
  deriving DecidableEq, Repr

inductive IRListType
  | INT
  | FLOAT
  | BOOL
  | TENSOR
  | GENERIC
  deriving DecidableEq, Repr

inductive IRScalarType
  | NONE
  | INT
  | FLOAT
  | NUMBER
  | BOOL
  | DEVICE
  deriving DecidableEq, Repr

inductive IRType
  | scalar (scalar_type : IRScalarType)
  | tensor (elem_type : IRTensorElemType) (dim : List ℕ) (requires_grad : Bool)
  | string
  | list (list_type : IRListType) (compound_types : List IRType)
  | tuple (compound_types : List IRType)
  | optional (elem_type : IRType)
  | none
  | function (func_name : String)
  deriving Repr, Inhabited

inductive IRBaseType
  | SCALAR
  | TENSOR
  | STRING
  | LIST
  | TUPLE
  | OPTIONAL
  | NONE
  | FUNCTION
  deriving DecidableEq, Repr

namespace IRType

def getBaseType : IRType → IRBaseType
  | scalar _ => .SCALAR
  | tensor _ _ _ => .TENSOR
  | string => .STRING
  | list _ _ => .LIST
  | tuple _ => .TUPLE
  | optional _ => .OPTIONAL
  | none => .NONE
  | function _ => .FUNCTION

def getTensorElemType : IRType → IRTensorElemType
  | tensor elem_type _ _ => elem_type
  | _ => .UNDEF

def getTensorDim : IRType → List ℕ
  | tensor _ dim _ => dim
  | _ => []

def requiresGrad : IRType → Bool
  | tensor _ _ requires_grad => requires_grad
  | _ => false

def getCompoundTypes : IRType → List IRType
  | list _ compound_types => compound_types
  | tuple compound_types => compound_types
  | optional elem_type => [elem_type]
  | _ => []

mutual

/-- Replace the tensors of lists and tuples. -/
def mapTensors (f : IRTensorElemType → List ℕ → Bool → IRType) : IRType → IRType
  | tensor elem_type dim requires_grad => f elem_type dim requires_grad
  | list list_type compound_types => list list_type (mapTensorsAll f compound_types)
  | tuple compound_types => tuple (mapTensorsAll f compound_types)
  | scalar scalar_type => scalar scalar_type
  | string => string
  | optional elem_type => optional elem_type
  | none => none
  | function func_name => function func_name

def mapTensorsAll (f : IRTensorElemType → List ℕ → Bool → IRType) : List IRType → List IRType
  | [] => []
  | type :: types => mapTensors f type :: mapTensorsAll f types

end

def setBatchSize (batch_size : ℕ) : IRType → IRType :=
  mapTensors fun elem_type dim requires_grad =>
    tensor elem_type (if dim = [] then dim else dim.set 0 batch_size) requires_grad

/-- The dimensions of a type, without element types and gradients. -/
def dims : IRType → IRType := mapTensors fun _ dim _ => tensor .UNDEF dim false

mutual

/-- The shapes of the tensors of lists and tuples. -/
def tensorDims : IRType → List (List ℕ)
  | tensor _ dim _ => [dim]
  | list _ compound_types => tensorDimsAll compound_types
  | tuple compound_types => tensorDimsAll compound_types
  | _ => []

def tensorDimsAll : List IRType → List (List ℕ)
  | [] => []
  | type :: types => tensorDims type ++ tensorDimsAll types

end

def getTensorElemSize : IRTensorElemType → Option ℕ
  | .INT => some 4
  | .DOUBLE => some 8
  | .FLOAT => some 4
  | .HALF => some 2
  | .BFLOAT16 => some 2
  | .LONG => some 8
  | .BOOL => some 1
  | .UNDEF => Option.none

def getScalarSize : IRScalarType → ℕ
  | .INT => 8
  | .FLOAT => 8
  | .BOOL => 1
  | .NUMBER => 0
  | .DEVICE => 0
  | .NONE => 0

mutual

/-- The length of a list is unknown, so it counts nothing. -/
def getSizeInByte : IRType → Option ℕ
  | scalar scalar_type => some (getScalarSize scalar_type)
  | tensor elem_type dim _ => (getTensorElemSize elem_type).map (dim.prod * ·)
  | list _ _ => some 0
  | tuple compound_types => getSizeInByteAll compound_types
  | string => some 0
  | optional _ => some 0
  | none => some 0
  | function _ => some 0

def getSizeInByteAll : List IRType → Option ℕ
  | [] => some 0
  | type :: types => do
    let size ← getSizeInByte type
    let sizes ← getSizeInByteAll types
    return size + sizes

end

theorem mapTensorsAll_eq (f : IRTensorElemType → List ℕ → Bool → IRType) (types : List IRType) :
    mapTensorsAll f types = types.map (mapTensors f) := by
  induction types with
  | nil => rfl
  | cons type types ih => rw [mapTensorsAll, ih, List.map_cons]

@[simp] theorem mapTensors_list (f : IRTensorElemType → List ℕ → Bool → IRType)
    (list_type : IRListType) (types : List IRType) :
    mapTensors f (list list_type types) = list list_type (types.map (mapTensors f)) := by
  rw [mapTensors, mapTensorsAll_eq]

@[simp] theorem mapTensors_tuple (f : IRTensorElemType → List ℕ → Bool → IRType)
    (types : List IRType) : mapTensors f (tuple types) = tuple (types.map (mapTensors f)) := by
  rw [mapTensors, mapTensorsAll_eq]

theorem tensorDimsAll_eq (types : List IRType) :
    tensorDimsAll types = types.flatMap tensorDims := by
  induction types with
  | nil => rfl
  | cons type types ih => rw [tensorDimsAll, ih, List.flatMap_cons]

end IRType

end Rannc
