import Relayout.Block.Basic

/-!
# Why evaluation stops

Most errors are operands or attributes that do not fit. `EvalError.crash` is the exception: an operation on attributes
that no check has seen, or on extents that are too large together, broke off, and there is nothing more to say about it.
-/

namespace Relayout

inductive EvalError where
  | elementCount (dims : List Nat) (found : Nat)
  | inputCount (block : String) (expected found : Nat)
  | inputShape (value : ValueId) (expected found : List Nat)
  | operandMissing (value : ValueId)
  | outputMissing (value : ValueId)
  | notOneOutput (op : OpId)
  | notOneOperand (op : String) (found : Nat)
  | notTwoOperands
  | permRank
  | broadcast (left right : List Nat)
  | reduceAxis
  | concatEmpty
  | concatAxis
  | concatRank
  | padRank
  | reflectTooWide
  | poolRank
  | poolKernel
  | constDynamic
  | constElem (elem : ElemType)
  | customOp (name : String)
  | crash (crash : Crash)
  deriving DecidableEq

namespace EvalError

/-- What is not supported, in contrast to what does not fit: an operation and why. -/
def unsupported? : EvalError → Option (String × String)
  | constDynamic => some ("const", "dynamic shape")
  | constElem elem => some ("const", s!"dtype {elem.tag}")
  | customOp name => some (name, "custom ops have no reference kernel")
  | _ => none

def reason : EvalError → String
  | elementCount dims found =>
    s!"tensor of shape {listText dims} needs {RowMajor.size dims} elements, got {found}"
  | inputCount block expected found => s!"block `{block}` takes {expected} inputs, got {found}"
  | inputShape value expected found =>
    s!"input {value.text} expects shape {listText expected}, got {listText found}"
  | operandMissing value => s!"operand {value.text} missing"
  | outputMissing value => s!"block output {value.text} missing"
  | notOneOutput op => s!"{op.text} must have one output"
  | notOneOperand op found => s!"`{op}` expects one operand, got {found}"
  | notTwoOperands => "binary op needs two operands"
  | permRank => "transpose perm rank mismatch"
  | broadcast left right => s!"cannot broadcast {listText left} with {listText right}"
  | reduceAxis => "reduce axis out of range"
  | concatEmpty => "concat needs at least one operand"
  | concatAxis => "concat axis out of range"
  | concatRank => "concat operands differ in rank"
  | padRank => "pad list does not fit the input rank"
  | reflectTooWide => "reflect pad wider than the padded axis"
  | poolRank => "pool window does not fit the input rank"
  | poolKernel => "pool kernel does not fit the input"
  | constDynamic | constElem _ | customOp _ => "not supported"
  | crash c => c.message

def message (e : EvalError) : String :=
  match e.unsupported? with
  | some (op, reason) => s!"`{op}` is not supported: {reason}"
  | none => s!"execution error: {e.reason}"

end EvalError

end Relayout
