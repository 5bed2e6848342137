import Relayout.Editor
import Relayout.Layout.Component

/-!
# Taking a component out of a block

`splice` carries out what an analysis says about one component, in this order: absorbing operations get their new
attributes and constants, readers of a seed read its operand, cancellations go the same way, values are restored where
their declared layout is needed, and the operations that are left over are removed.

A value that the block returns keeps its name. If a cancelling transpose was returned, its operand takes over the name
unless it is itself an input or returned under its own, and is passed through an identity otherwise.

The types of absorbing operations are left as they were, to be recomputed.
-/

namespace Relayout.Layout

open Editor

variable [IdSpace]

/-- The only operand and the only result of an operation. -/
def operandAndResult (op : OpId) : Edit (ValueId × ValueId) := do
  let operation ← operation op
  match operation.inputs, operation.outputs with
  | [input], [output] => return (input, output)
  | _, _ => throw (.unknownOp op)

/-- The first of the results of an inserted operation, which has one. -/
def insertOneBefore (next : OpId) (kind : OpKind) (inputs : List ValueId) (name : String) (type : TensorType) :
    Edit ValueId := do
  match (← insertBefore next kind inputs [(name, type)]).2 with
  | id :: _ => return id
  | [] => throw (.unknownOp next)

/-! ## Absorbing operations -/

/-- Puts new payloads into some slots of an operation and returns the operations that produced the old ones. -/
def replaceConstants (op : OpId) : List (Nat × Literal) → Edit (List OpId)
  | [] => return []
  | (slot, literal) :: rest => do
    match (← operation op).inputs[slot]? with
    | none => throw (.invalidSlot slot)
    | some old =>
      let producer := (← get).index.producer? old
      let name := (← get).freshName ((← value old).name ++ "_permuted")
      let id ← insertOneBefore op (.const literal) [] name literal.type
      setInput op slot id
      return producer.toList ++ (← replaceConstants op rest)

/-- Lets operations absorb what is pending, and returns the producers of the constants that were replaced. -/
def absorbAll : List Absorbed → Edit (List OpId)
  | [] => return []
  | record :: rest => do
    let producers ← replaceConstants record.op record.absorption.constants
    setKind record.op record.absorption.kind
    return producers ++ (← absorbAll rest)

/-! ## Seeds and cancellations -/

/-- Values that are gone, each with the one that its readers read now. -/
abbrev Substitution := List (ValueId × ValueId)

/-- Follows a substitution to the end. A chain has no more steps than the substitution has entries. -/
def resolve (subst : Substitution) : Nat → ValueId → ValueId
  | 0, value => value
  | fuel + 1, value =>
    match subst.lookup value with
    | some next => resolve subst fuel next
    | none => value

/-- Lets the readers of each seed read its operand. -/
def bypassSeeds : List OpId → Edit Substitution
  | [] => return []
  | seed :: seeds => do
    let (input, output) ← operandAndResult seed
    replaceUses output input
    return (output, input) :: (← bypassSeeds seeds)

/-- Lets everything that reads or returns the result of a cancellation read or return its operand, or an identity of it.

`restored` are the output slots that a restoration will fill, and `renamed` the values that have taken over a name. The
result are the values that have after this. -/
def bypassCancellation (restored : List Nat) (renamed : List ValueId) (op : OpId) (source output : ValueId) :
    Edit (List ValueId) := do
  let s ← get
  let slots := s.outputSlots output
  if slots.isEmpty then
    replaceUses output source
    return renamed
  else if !renamed.contains source && !s.index.isInput source && (s.outputSlots source).all restored.contains then
    transferName output source
    replaceUses output source
    return source :: renamed
  else
    replaceUses output source
    let record ← value output
    renameValue output ((← get).freshName (record.name ++ "_old"))
    let id ← insertOneBefore op (.unary .identity) [source] record.name record.type
    setOutputs id slots
    return renamed

def bypassCancellations (restored : List Nat) : List OpId → List ValueId → Edit Substitution
  | [], _ => return []
  | op :: ops, renamed => do
    let (source, output) ← operandAndResult op
    let renamed ← bypassCancellation restored renamed op source output
    return (output, source) :: (← bypassCancellations restored ops renamed)

/-! ## Restorations -/

/-- Puts in the transpose that restores a value. `declared` is the value's record from before all changes. -/
def restore (subst : Substitution) (record : Restoration) (declared : Value) : Edit Unit := do
  let source := resolve subst subst.length record.value
  let sourceName := (← value source).name
  match record.consumer with
  | .op op slots =>
    let name := (← get).freshName (sourceName ++ "_transposed")
    let id ← insertOneBefore op (.transpose record.perm) [source] name declared.type
    setInputs op id slots
  | .output slots =>
    if sourceName = declared.name then
      renameValue source ((← get).freshName (declared.name ++ "_before_transpose"))
    let name := (← get).freshName declared.name
    let (_, ids) ← append (.transpose record.perm) [source] [(name, declared.type)]
    match ids with
    | id :: _ => setOutputs id slots
    | [] => return ()

def restoreAll (subst : Substitution) : List (Restoration × Value) → Edit Unit
  | [] => return ()
  | (record, declared) :: rest => do
    restore subst record declared
    restoreAll subst rest

/-! ## The whole component -/

/-- The records of the values to be restored. -/
def declaredValues : List Restoration → Edit (List (Restoration × Value))
  | [] => return []
  | record :: rest => do
    let declared ← value record.value
    return (record, declared) :: (← declaredValues rest)

def removeAll : List OpId → Edit Unit
  | [] => return ()
  | op :: ops => do
    removeOp op
    removeAll ops

/-- Removes those operations that are still there and dead, and counts them. -/
def eraseUnused : List OpId → Edit Nat
  | [] => return 0
  | op :: ops => do
    let erased ← if (← get).index.contains op then eraseIfDead op else pure false
    return (if erased then 1 else 0) + (← eraseUnused ops)

/-- The entries of a list at some positions. -/
def select {α : Type} (xs : List α) (positions : List Nat) : List α :=
  positions.filterMap (xs[·]?)

/-- Output slots that a restoration will fill. -/
def restoredSlots (records : List Restoration) : List Nat :=
  records.flatMap fun record =>
    match record.consumer with
    | .output slots => slots
    | .op _ _ => []

/-- The restorations of a component. -/
def Analysis.restorationsOf (a : Analysis) (c : Component) : List Restoration :=
  select a.restorations c.restorations

/-- The transposes that a component cancels. -/
def Analysis.cancelledBy (a : Analysis) (c : Component) : List OpId :=
  (select a.cancellations c.cancellations).map (·.op)

/-- The edits up to the point where nothing but restorations needs the seeds and cancellations of a component.

The result says what is read in place of their outputs, and which operations produced the constants that were
replaced. -/
def detach (a : Analysis) (c : Component) : Edit (Substitution × List OpId) := do
  let constants ← absorbAll (select a.absorbed c.absorbed)
  let bypassed ← bypassSeeds c.seeds
  let cancelled ← bypassCancellations (restoredSlots (a.restorationsOf c)) (a.cancelledBy c) []
  return (bypassed ++ cancelled, constants)

/-- The edits of one component. The result is the number of operations removed. -/
def splice (a : Analysis) (c : Component) : Edit Nat := do
  let declared ← declaredValues (a.restorationsOf c)
  let (subst, constants) ← detach a c
  restoreAll subst declared
  let leftOver := a.cancelledBy c ++ c.seeds
  removeAll leftOver
  return leftOver.length + (← eraseUnused (constants.foldr Seeds.insert []))

/-- The block without one component, and the number of operations removed. -/
def applyComponent (b : Block) (a : Analysis) (c : Component) : Except EditError (Block × Nat) :=
  match Editor.ofBlock b with
  | .error e => .error (.index e)
  | .ok editor =>
    match (splice a c).run editor with
    | .ok erased editor => .ok (editor.block, erased)
    | .error e _ => .error e

end Relayout.Layout
