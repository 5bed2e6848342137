import Relayout.Block.Basic

/-!
# Types of results

`Typing.resultType` gives the type of an operation's result from its kind and the types of its operands. A custom
operation keeps the types that its outputs are declared with. `Typing.static` puts the two together as an `Inference`,
the interface under which other rules may take its place.

`Block.retype` recomputes every recorded type in block order. If an operation has no type the types before it stay
recomputed, so the block comes back with the error. A block is `WellTyped` if nothing changes.
-/

namespace Relayout

/-- Why operands and attributes do not fit together. -/
inductive ShapeCause where
  | badPerm (perm : List Nat) (rank : Nat)
  | broadcast (left right : TensorType)
  | axisTwice (axis : Nat)
  | axisRange (axis rank : Nat)
  | noOperand
  | ranksDiffer
  | extentsDiffer (axis : Nat) (type first : TensorType)
  | concatDynamic
  | oddAmounts
  | tooManyAxes (padded rank : Nat)
  | paddedDynamic (axis : Nat)
  | windowMisfit (kernel strides : List Nat) (rank : Nat)
  | pooledDynamic (axis : Nat)
  | kernelMisfit (kernel stride extent : Nat)
  | resultCount (types outputs : Nat)
  | refused (reason : String)
  | crash (crash : Crash)
  deriving DecidableEq

def ShapeCause.message : ShapeCause → String
  | badPerm perm rank => s!"perm {listText perm} is invalid for rank {rank}"
  | broadcast left right => s!"cannot broadcast {left.text} with {right.text}"
  | axisTwice axis => s!"axis {axis} listed twice"
  | axisRange axis rank => s!"axis {axis} out of range for rank {rank}"
  | noOperand => "needs at least one input"
  | ranksDiffer => "inputs must share a rank"
  | extentsDiffer axis type first => s!"extent mismatch on axis {axis}: {type.text} vs {first.text}"
  | concatDynamic => "concat axis must be static"
  | oddAmounts => "pad list must have even length"
  | tooManyAxes padded rank => s!"pads {padded} axes of a rank-{rank} input"
  | paddedDynamic axis => s!"padded axis {axis} must be static"
  | windowMisfit kernel strides rank =>
    s!"kernel {listText kernel} / strides {listText strides} do not fit rank {rank}"
  | pooledDynamic axis => s!"pooled axis {axis} must be static"
  | kernelMisfit kernel stride extent => s!"kernel {kernel} stride {stride} do not fit extent {extent}"
  | resultCount types outputs => s!"inferred {types} types for {outputs} outputs"
  | refused reason => reason
  | crash c => c.message

/-- Why a result has no type. -/
inductive ShapeError where
  | unknownValue (value : ValueId)
  | arity (op : String) (expected found : Nat)
  | elemMismatch (op : String) (left right : ElemType)
  | invalid (op : String) (cause : ShapeCause)
  deriving DecidableEq

def ShapeError.message : ShapeError → String
  | unknownValue value => s!"value {value.text} has no type record"
  | arity op expected found => s!"`{op}` expects {expected} inputs, got {found}"
  | elemMismatch op left right => s!"`{op}`: element types differ ({left.tag} vs {right.tag})"
  | invalid op cause => s!"`{op}`: {cause.message}"

def ShapeError.crash? : ShapeError → Option Crash
  | invalid _ (.crash c) => some c
  | _ => none

/-! ## Attributes and axes -/

/-- Pairs of neighbours; one left over is dropped. -/
def pairs : List Nat → List (Nat × Nat)
  | a :: b :: rest => (a, b) :: pairs rest
  | _ => []

/-- The amounts before and after every axis of a tensor, zero for the axes in front of the padded ones. -/
def Pad.rows (spec : Pad) (rank : Nat) : List (Nat × Nat) :=
  List.replicate (rank - spec.amounts.length / 2) (0, 0) ++ pairs spec.amounts

/-- An axis is reduced if it is listed or none is. -/
def Reduce.reduces (spec : Reduce) (axis : Nat) : Bool :=
  spec.axes.isEmpty || spec.axes.contains axis

/-- Kernel and stride of every axis of a tensor, none for the axes in front of the pooled ones. -/
def Pool.windows (spec : Pool) (rank : Nat) : List (Option (Nat × Nat)) :=
  List.replicate (rank - spec.kernel.length) none ++ (spec.kernel.zip spec.strides).map some

namespace Typing

/-- The type of a result, or why there is none. -/
abbrev Result := Except ShapeError

/-- Two extents met by broadcasting. -/
def joinDim? (a b : Dim) : Option Dim :=
  if a = b then some a else if a.isOne then some b else if b.isOne then some a else none

/-- Extents met by broadcasting, from the last axis on; where one list ends the other goes on. -/
def joinDims? : List Dim → List Dim → Option (List Dim)
  | [], bs => some bs
  | as, [] => some as
  | a :: as, b :: bs => return (← joinDim? a b) :: (← joinDims? as bs)

/-! ## Rules -/

def transposeType (type : TensorType) (perm : List Nat) : Except ShapeCause TensorType :=
  if perm.length = type.rank ∧ Perm.isPermutation perm then
    match Perm.select? type.dims perm with
    | some dims => .ok ⟨type.elem, dims⟩
    | none => .error (.badPerm perm type.rank)
  else .error (.badPerm perm type.rank)

def broadcastType (left right : TensorType) : Except ShapeCause TensorType :=
  match joinDims? left.dims.reverse right.dims.reverse with
  | some dims => .ok ⟨left.elem, dims.reverse⟩
  | none => .error (.broadcast left right)

/-- Every listed axis exists and none is listed twice. -/
def checkAxes (rank : Nat) : List Nat → List Nat → Except ShapeCause Unit
  | _, [] => .ok ()
  | seen, axis :: axes =>
    if rank ≤ axis then .error (.axisRange axis rank)
    else if axis ∈ seen then .error (.axisTwice axis)
    else checkAxes rank (axis :: seen) axes

def reduceType (type : TensorType) (spec : Reduce) : Except ShapeCause TensorType := do
  checkAxes type.rank [] spec.axes
  return ⟨type.elem, type.dims.zipIdx.filterMap fun (dim, axis) =>
    if !spec.reduces axis then some dim else if spec.keepDims then some (.fixed 1) else none⟩

/-- The extent that an operand adds to a concatenation; all others must be those of the first operand. -/
def concatExtent (op : String) (axis : Nat) (first type : TensorType) : Result Nat :=
  if type.elem ≠ first.elem then .error (.elemMismatch op first.elem type.elem)
  else if type.rank ≠ first.rank then .error (.invalid op .ranksDiffer)
  else
    match (type.dims.zip first.dims).zipIdx.find? fun ((dim, expected), i) => i != axis && dim != expected with
    | some (_, i) => .error (.invalid op (.extentsDiffer i type first))
    | none =>
      match (type.dims[axis]?).bind Dim.extent? with
      | some extent => .ok extent
      | none => .error (.invalid op .concatDynamic)

/-- The extents that operands add to a concatenation, added to `total`. -/
def concatTotal (op : String) (axis : Nat) (first : TensorType) : Nat → List TensorType → Result Nat
  | total, [] => .ok total
  | total, type :: types => do
    match Word.add? total (← concatExtent op axis first type) with
    | some total => concatTotal op axis first total types
    | none => .error (.invalid op (.crash .overflow))

def concatType (op : String) (types : List TensorType) (axis : Nat) : Result TensorType :=
  match types with
  | [] => .error (.invalid op .noOperand)
  | first :: _ =>
    if first.rank ≤ axis then .error (.invalid op (.axisRange axis first.rank))
    else do
      return ⟨first.elem, first.dims.set axis (.fixed (← concatTotal op axis first 0 types))⟩

def padType (type : TensorType) (spec : Pad) : Except ShapeCause TensorType :=
  let padded := spec.amounts.length / 2
  if spec.amounts.length % 2 ≠ 0 then .error .oddAmounts
  else if type.rank < padded then .error (.tooManyAxes padded type.rank)
  else do
    let dims ← (type.dims.zip (spec.rows type.rank)).zipIdx.mapM fun ((dim, before, after), axis) =>
      if before = 0 ∧ after = 0 then .ok dim
      else match dim with
        | .fixed extent =>
          match Word.size? (extent + before + after) with
          | some padded => .ok (.fixed padded)
          | none => .error (.crash .overflow)
        | .dynamic _ => .error (.paddedDynamic axis)
    return ⟨type.elem, dims⟩

def poolType (type : TensorType) (spec : Pool) : Except ShapeCause TensorType :=
  let window := spec.kernel.length
  if window = 0 ∨ spec.strides.length ≠ window ∨ type.rank < window then
    .error (.windowMisfit spec.kernel spec.strides type.rank)
  else do
    let dims ← (type.dims.zip (spec.windows type.rank)).zipIdx.mapM fun ((dim, window), axis) =>
      match window, dim with
      | none, dim => .ok dim
      | some _, .dynamic _ => .error (.pooledDynamic axis)
      | some (kernel, stride), .fixed extent =>
        if kernel = 0 ∨ stride = 0 ∨ extent < kernel then .error (.kernelMisfit kernel stride extent)
        else .ok (.fixed ((extent - kernel) / stride + 1))
    return ⟨type.elem, dims⟩

/-! ## Operations -/

/-- The only operand, given to a rule. -/
def single (op : String) (types : List TensorType) (rule : TensorType → Except ShapeCause TensorType) :
    Result TensorType :=
  match types with
  | [type] => (rule type).mapError (.invalid op)
  | _ => .error (.arity op 1 types.length)

/-- The type of the result of a kind that is not custom. -/
def resultType (kind : OpKind) (types : List TensorType) : Result TensorType :=
  match kind with
  | .const literal => if types = [] then .ok literal.type else .error (.arity kind.name 0 types.length)
  | .transpose perm => single kind.name types (transposeType · perm)
  | .unary _ | .activation _ | .custom _ => single kind.name types .ok
  | .binary _ =>
    match types with
    | [left, right] =>
      if left.elem ≠ right.elem then .error (.elemMismatch kind.name left.elem right.elem)
      else (broadcastType left right).mapError (.invalid kind.name)
    | _ => .error (.arity kind.name 2 types.length)
  | .reduce spec => single kind.name types (reduceType · spec)
  | .concat axis => concatType kind.name types axis
  | .pad spec => single kind.name types (padType · spec)
  | .pool spec => single kind.name types (poolType · spec)

/-- The recorded types of values. -/
def recorded (b : Block) (ids : List ValueId) : Result (List TensorType) :=
  ids.mapM fun id =>
    match b.type? id with
    | some type => .ok type
    | none => .error (.unknownValue id)

/-- A rule that gives the types of an operation's outputs. -/
abbrev Inference := Block → Operation → Result (List TensorType)

def static : Inference := fun b op => do
  let types ← recorded b op.inputs
  match op.kind with
  | .custom _ => recorded b op.outputs
  | kind => return [← resultType kind types]

end Typing

/-! ## Blocks -/

namespace Block

open Typing (Inference)

/-- Records types one by one, until a value has no record. -/
def recordTypes : List (ValueId × TensorType) → Block → Block × Option ShapeError
  | [], b => (b, none)
  | (id, type) :: rest, b =>
    match b.value? id with
    | some _ => recordTypes rest (b.setType id type)
    | none => (b, some (.unknownValue id))

def retypeOp (infer : Inference) (op : Operation) (b : Block) : Block × Option ShapeError :=
  match infer b op with
  | .error e => (b, some e)
  | .ok types =>
    if types.length = op.outputs.length then b.recordTypes (op.outputs.zip types)
    else (b, some (.invalid op.kind.name (.resultCount types.length op.outputs.length)))

def retypeOps (infer : Inference) : List Operation → Block → Block × Option ShapeError
  | [], b => (b, none)
  | op :: ops, b =>
    match b.retypeOp infer op with
    | (b, none) => retypeOps infer ops b
    | failed => failed

/-- Recomputes all types, up to the first operation that has none. -/
def retype (infer : Inference) (b : Block) : Block × Option ShapeError :=
  b.retypeOps infer b.operations

/-- The recorded types are those that the operations have. -/
def WellTyped (b : Block) : Prop :=
  b.retype Typing.static = (b, none)

instance (b : Block) : Decidable b.WellTyped :=
  inferInstanceAs (Decidable (_ = _))

end Block

end Relayout
