import Relayout.Eval.Scalar
import Relayout.Eval.Tensor

/-!
# Evaluation

`Block.evaluate` runs a block on tensors, operation by operation, with any `Kernels` for their elements. Constants of
every element type are converted; custom operations have no kernel. Blocks need not be well formed: what is missing is
an error.
-/

namespace Relayout

/-- Tensors of numbers with the same extents and the same numbers; a NaN differs from itself. -/
def Tensor.sameNumbers (x y : Tensor Float32) : Bool :=
  x.dims == y.dims && (x.data.toList.zip y.data.toList).all fun (a, b) => a == b

/-- The largest difference of two elements at one position, if the extents agree. Two NaNs do not differ. -/
def Tensor.distance? (x y : Tensor Float32) : Option Float32 :=
  if x.dims = y.dims then
    let differences := (x.data.toList.zip y.data.toList).map fun (a, b) =>
      if a.isNaN && b.isNaN then 0.0 else (a - b).abs
    some (differences.foldl Scalar.maxNum 0.0)
  else none

variable {α : Type} [Kernels α]

/-- The tensor of a constant. -/
def Tensor.ofLiteral (l : Literal) : Eval (Tensor α) :=
  match l.type.extents? with
  | none => .error .constDynamic
  | some dims =>
    match l.numbers? with
    | none => .error (.constElem l.type.elem)
    | some numbers => make dims (numbers.map Kernels.ofBinary).toArray

namespace OpKind

/-- The only operand. -/
def operand (kind : OpKind) (args : List (Tensor α)) : Eval (Tensor α) :=
  match args with
  | [x] => .ok x
  | _ => .error (.notOneOperand kind.name args.length)

def evaluate (kind : OpKind) (args : List (Tensor α)) : Eval (Tensor α) :=
  match kind with
  | .const literal => Tensor.ofLiteral literal
  | .transpose perm => do (← kind.operand args).transpose perm
  | .unary op => return (← kind.operand args).map (Kernels.unary op)
  | .activation spec => return (← kind.operand args).map (Kernels.activation spec)
  | .binary op =>
    match args with
    | [x, y] => Tensor.zipBroadcast (Kernels.binary op) x y
    | _ => .error .notTwoOperands
  | .reduce spec => do
    let x ← kind.operand args
    let groups := RowMajor.size (Tensor.keptDims x.dims spec.reduces)
    x.reduce (Kernels.reduction spec.kind (x.data.size / max groups 1)) spec
  | .concat axis => Tensor.concat args axis
  | .pad spec => do (← kind.operand args).pad spec (Kernels.ofBinary spec.fill)
  | .pool spec => do (← kind.operand args).pool (Kernels.pooling spec.kind) spec
  | .custom name => .error (.customOp name)

end OpKind

/-- The tensors of the values computed so far, the latest first. -/
abbrev Env (α : Type) := List (ValueId × Tensor α)

namespace Block

/-- Binds the inputs, whose extents must be the declared ones where these are fixed. -/
def bindInputs (b : Block) : List (ValueId × Tensor α) → Env α → Eval (Env α)
  | [], env => .ok env
  | (id, x) :: rest, env =>
    match (b.type? id).bind (·.extents?) with
    | none => b.bindInputs rest ((id, x) :: env)
    | some dims => if dims = x.dims then b.bindInputs rest ((id, x) :: env) else .error (.inputShape id dims x.dims)

/-- The tensors of values, with the error for one that has none. -/
def fetch (env : Env α) (missing : ValueId → EvalError) (ids : List ValueId) : Eval (List (Tensor α)) :=
  ids.mapM fun id =>
    match env.lookup id with
    | some x => .ok x
    | none => .error (missing id)

def evaluateOp (op : Operation) (env : Env α) : Eval (Env α) := do
  let args ← fetch env .operandMissing op.inputs
  let x ← op.kind.evaluate args
  match op.output? with
  | some id => .ok ((id, x) :: env)
  | none => .error (.notOneOutput op.id)

def evaluateOps : List Operation → Env α → Eval (Env α)
  | [], env => .ok env
  | op :: ops, env => do evaluateOps ops (← evaluateOp op env)

def evaluate (b : Block) (inputs : List (Tensor α)) : Eval (List (Tensor α)) :=
  if inputs.length ≠ b.inputs.length then .error (.inputCount b.name b.inputs.length inputs.length)
  else do
    let env ← b.bindInputs (b.inputs.zip inputs) []
    let env ← evaluateOps b.operations env
    fetch env .outputMissing b.outputs

end Block

end Relayout
