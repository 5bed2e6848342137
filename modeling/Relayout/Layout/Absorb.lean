import Relayout.Typing

/-!
# Operations that take a pending transpose

A transpose of an operand is pending if the operation may read the untransposed data instead and the transpose is left
to whatever reads the result. `absorb` says for which operations that works and how they change:

- elementwise operations do not change; constants that they are broadcast against are brought into the layout of the
  untransposed data (`broadcastConstant`);
- reductions, concatenations and padding get their axes from the permutation, and a reduction that drops axes leaves
  only what remains of it pending (`absorbReduce`, `absorbConcat`, `absorbPad`).

All other operations need their operands in the declared layout. An operation that does not absorb is refused; a
constant that is too large to be permuted makes the whole run break off (`Refusal`).
-/

namespace Relayout.Layout

/-- One operand, as far as layouts go. -/
inductive View where
  /-- A transpose by `perm` is pending on it. -/
  | pending (perm : List Nat)
  /-- It is a constant, whose payload may be changed. -/
  | constant (literal : Literal)
  /-- It is in its declared layout. -/
  | concrete (type : TensorType)

def View.isPending : View → Bool
  | pending _ => true
  | _ => false

/-- An operation that runs on untransposed data. -/
structure Absorption where
  kind : OpKind
  /-- Payloads for the constants in some input slots. -/
  constants : List (Nat × Literal) := []
  /-- What is pending on the result. -/
  outputPerm : Option (List Nat)
  deriving DecidableEq

/-- Why an operation does not absorb. -/
inductive Refusal where
  /-- It does not commute with the transpose. -/
  | refused
  | crash (crash : Crash)
  deriving DecidableEq

abbrev Attempt := Except Refusal

def orRefuse {α : Type} (a : Option α) : Attempt α :=
  match a with
  | some a => .ok a
  | none => .error .refused

/-- The literal that takes the place of a constant. -/
def replacement (l : Except Literal.Error Literal) : Attempt Literal :=
  match l with
  | .ok l => .ok l
  | .error (.crash crash) => .error (.crash crash)
  | .error _ => .error .refused

/-- A constant operand in the layout of untransposed data of rank `perm.length`.

A scalar stays as it is, which is `none`. A vector runs along the last axis, so it is put along the axis which that one
comes from. A constant of the full rank is transposed back, and any other is refused. -/
def broadcastConstant (literal : Literal) (perm : List Nat) : Attempt (Option Literal) := do
  let dims ← orRefuse literal.type.extents?
  if dims.length = 0 then return none
  else if dims.length = perm.length then some <$> replacement (literal.permuted (Perm.inverse perm))
  else
    match dims, perm.getLast? with
    | [extent], some axis => some <$> replacement (literal.reshaped ((List.replicate perm.length 1).set axis extent))
    | _, _ => .error .refused

/-- The payload that an operand of a broadcast operation needs in its place, if any. -/
def broadcastOperand (perm : List Nat) (slot : Nat) : View → Attempt (List (Nat × Literal))
  | .pending _ => .ok []
  | .constant literal => do
    let payload ← broadcastConstant literal perm
    return (payload.map (slot, ·)).toList
  | .concrete type => if type.rank = 0 then .ok [] else .error .refused

def absorbBroadcast (kind : OpKind) (views : List View) (perm : List Nat) : Attempt Absorption :=
  match views with
  | [left, right] =>
    return { kind := kind
             constants := (← broadcastOperand perm 0 left) ++ (← broadcastOperand perm 1 right)
             outputPerm := some perm }
  | _ => .error .refused

def absorbReduce (spec : Reduce) (perm : List Nat) : Option Absorption := do
  let axes ← Perm.select? perm spec.axes
  let reduced := if spec.axes.isEmpty then Perm.identity perm.length else spec.axes
  let rest := Perm.restrict perm reduced
  let outputPerm :=
    if spec.keepDims then some perm else if rest.isEmpty || Perm.isIdentity rest then none else some rest
  return { kind := .reduce { spec with axes := axes }, outputPerm := outputPerm }

/-- The payload that an operand of a concatenation needs in its place, if any. -/
def concatOperand (perm : List Nat) (slot : Nat) : View → Attempt (List (Nat × Literal))
  | .pending _ => .ok []
  | .constant literal =>
    if literal.type.rank = perm.length then do
      let payload ← replacement (literal.permuted (Perm.inverse perm))
      return [(slot, payload)]
    else .error .refused
  | .concrete _ => .error .refused

def absorbConcat (axis : Nat) (views : List View) (perm : List Nat) : Attempt Absorption := do
  let source ← orRefuse perm[axis]?
  let constants ← views.zipIdx.mapM fun (view, slot) => concatOperand perm slot view
  return { kind := .concat source, constants := constants.flatten, outputPerm := some perm }

/-- The rows of amounts, each moved to the axis that the transposed one comes from. -/
def movedRows (perm : List Nat) (rows : List (Nat × Nat)) : List (Nat × Nat) :=
  (List.range perm.length).map fun axis => rows.getD (Perm.position perm axis) (0, 0)

/-- Only the last axes can be padded, as many as before, and at most two of them unless the fill is constant. -/
def absorbPad (spec : Pad) (perm : List Nat) : Option Absorption :=
  let rank := perm.length
  let padded := spec.amounts.length / 2
  let isPadded := fun row => row != (0, 0)
  if rank < 2 ∨ spec.amounts.length % 2 ≠ 0 ∨ rank < padded then none
  else
    let moved := movedRows perm (spec.rows rank)
    if (moved.take (rank - padded)).any isPadded then none
    else if spec.mode ≠ .constant ∧ (moved.take (rank - 2)).any isPadded then none
    else
      let amounts := (moved.drop (rank - padded)).flatMap fun (before, after) => [before, after]
      some { kind := .pad { spec with amounts := amounts }, outputPerm := some perm }

/-- How an operation runs on the data behind its pending operands. All of them must have `perm` pending. -/
def absorb (kind : OpKind) (views : List View) (perm : List Nat) : Attempt Absorption :=
  let agrees := fun view => match view with
    | View.pending other => other == perm
    | _ => true
  if !views.any (·.isPending) || !Perm.isPermutation perm || !views.all agrees then .error .refused
  else
    match kind with
    | .unary _ | .activation _ => .ok { kind := kind, outputPerm := some perm }
    | .binary _ => absorbBroadcast kind views perm
    | .reduce spec => orRefuse (absorbReduce spec perm)
    | .concat axis => absorbConcat axis views perm
    | .pad spec => orRefuse (absorbPad spec perm)
    | .pool _ | .custom _ | .transpose _ | .const _ => .error .refused

end Relayout.Layout
