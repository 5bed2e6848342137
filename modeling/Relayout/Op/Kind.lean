import Relayout.Op.Choice
import Relayout.Tensor.Literal

/-!
# Operation kinds

What an operation computes, with its attributes. Only `OpKind.custom` is open: nothing is known about it but its name.
-/

namespace Relayout

open Number

/-- An activation with its parameters. Parameters that it does not use are zero. -/
structure Activate where
  function : Activation
  alpha : Binary64
  beta : Binary64
  deriving DecidableEq

/-- A reduction along `axes`, or along every axis if there are none. -/
structure Reduce where
  kind : Reduction
  axes : List Nat
  keepDims : Bool
  deriving DecidableEq

/-- Padding of the last axes, two amounts for each: before and after. -/
structure Pad where
  amounts : List Nat
  mode : PadMode
  fill : Binary64
  deriving DecidableEq

/-- Pooling over windows of the last axes. -/
structure Pool where
  kind : Pooling
  kernel : List Nat
  strides : List Nat
  deriving DecidableEq

inductive OpKind where
  | const (literal : Literal)
  | transpose (perm : List Nat)
  | unary (op : Unary)
  | activation (spec : Activate)
  | binary (op : Binary)
  | reduce (spec : Reduce)
  | concat (axis : Nat)
  | pad (spec : Pad)
  | pool (spec : Pool)
  | custom (name : String)
  deriving DecidableEq

namespace OpKind

def name : OpKind → String
  | const _ => "const"
  | transpose _ => "transpose"
  | unary op => op.name
  | activation spec => spec.function.name
  | binary op => op.name
  | reduce spec => spec.kind.name
  | concat _ => "concat"
  | pad _ => "pad"
  | pool spec => spec.kind.name
  | custom name => name

def literal? : OpKind → Option Literal
  | const literal => some literal
  | _ => none

def isConst : OpKind → Bool
  | const _ => true
  | _ => false

def isTranspose : OpKind → Bool
  | transpose _ => true
  | _ => false

def isCustom : OpKind → Bool
  | custom _ => true
  | _ => false

/-- Equality with attributes compared as numbers. -/
def sameAs : OpKind → OpKind → Bool
  | activation a, activation b =>
    a.function == b.function && a.alpha.sameNumber b.alpha && a.beta.sameNumber b.beta
  | pad a, pad b => a.amounts == b.amounts && a.mode == b.mode && a.fill.sameNumber b.fill
  | a, b => a == b

end OpKind

end Relayout
