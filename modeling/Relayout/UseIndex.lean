import Relayout.Block.Basic
import Relayout.Table

/-!
# Positions, producers, users and names

`UseIndex` holds what an editor of a block asks for again and again: where an operation stands, which operation defines
a value, which operations read it, which value has a name, and which ids are free. `UseIndex.build` collects it from a
block and refuses one in which something is missing or defined twice; the other operations follow the edits of a block.
A block that uses the last id there is has no free one, and building breaks off.

A list of users has each operation once, in the order in which it was found.
-/

namespace Relayout

inductive IndexError where
  | duplicateValue (value : ValueId)
  | missingDefinition (value : ValueId)
  | missingRecord (value : ValueId)
  | duplicateName (name : String)
  | duplicateOp (op : OpId)
  | crash (crash : Crash)
  deriving DecidableEq

def IndexError.message : IndexError → String
  | duplicateValue value => s!"duplicate definition of value {value.text}"
  | missingDefinition value => s!"value {value.text} is used but never defined"
  | missingRecord value => s!"value {value.text} has no value record"
  | duplicateName name => s!"value name `{name}` is not unique"
  | duplicateOp op => s!"operation {op.text} appears more than once"
  | crash c => c.message

structure UseIndex where
  positions : Table OpId Nat := []
  producers : Table ValueId OpId := []
  users : Table ValueId (List OpId) := []
  names : Table String ValueId := []
  inputs : List ValueId := []
  nextValue : Nat := 0
  nextOp : Nat := 0

namespace UseIndex

/-! ## Queries -/

def position? (x : UseIndex) (op : OpId) : Option Nat :=
  x.positions.get? op

def contains (x : UseIndex) (op : OpId) : Bool :=
  x.positions.contains op

/-- The operation that defines a value, none for a block input. -/
def producer? (x : UseIndex) (value : ValueId) : Option OpId :=
  x.producers.get? value

def usersOf (x : UseIndex) (value : ValueId) : List OpId :=
  (x.users.get? value).getD []

def isInput (x : UseIndex) (value : ValueId) : Bool :=
  x.inputs.contains value

def isDefined (x : UseIndex) (value : ValueId) : Bool :=
  x.isInput value || x.producers.contains value

/-- The position from which on a value may be read. -/
def availableFrom? (x : UseIndex) (value : ValueId) : Option Nat :=
  if x.isInput value then some 0
  else (x.producer? value).bind fun op => (x.position? op).map (· + 1)

def named? (x : UseIndex) (name : String) : Option ValueId :=
  x.names.get? name

/-- The operations by position. -/
def order (x : UseIndex) : List OpId :=
  (x.positions.mergeSort fun a b => a.2 ≤ b.2).map (·.1)

/-! ## Users -/

def addUser (users : Table ValueId (List OpId)) (value : ValueId) (op : OpId) : Table ValueId (List OpId) :=
  let ops := (users.get? value).getD []
  if ops.contains op then users else users.put value (ops ++ [op])

def addUsers (users : Table ValueId (List OpId)) (op : OpId) (values : List ValueId) : Table ValueId (List OpId) :=
  values.foldl (addUser · · op) users

/-- A value without users has no entry. -/
def removeUser (users : Table ValueId (List OpId)) (value : ValueId) (op : OpId) : Table ValueId (List OpId) :=
  match users.get? value with
  | none => users
  | some ops =>
    match ops.filter (· != op) with
    | [] => users.remove value
    | ops => users.put value ops

/-! ## Building -/

def addNames : List Value → Table String ValueId → Except IndexError (Table String ValueId)
  | [], names => .ok names
  | r :: records, names =>
    if names.contains r.name then .error (.duplicateName r.name) else addNames records (names.put r.name r.id)

def addInputs (b : Block) : List ValueId → UseIndex → Except IndexError UseIndex
  | [], x => .ok x
  | id :: ids, x =>
    if (b.value? id).isNone then .error (.missingRecord id)
    else if x.isDefined id then .error (.duplicateValue id)
    else addInputs b ids { x with inputs := x.inputs ++ [id] }

def addOutputs (b : Block) (op : OpId) : List ValueId → UseIndex → Except IndexError UseIndex
  | [], x => .ok x
  | id :: ids, x =>
    if (b.value? id).isNone then .error (.missingRecord id)
    else if x.isDefined id then .error (.duplicateValue id)
    else addOutputs b op ids { x with producers := x.producers.put id op }

def addOp (b : Block) (pos : Nat) (op : Operation) (x : UseIndex) : Except IndexError UseIndex :=
  if x.contains op.id then .error (.duplicateOp op.id)
  else
    match op.inputs.find? (!x.isDefined ·) with
    | some id => .error (.missingDefinition id)
    | none =>
      addOutputs b op.id op.outputs
        { x with positions := x.positions.put op.id pos, users := addUsers x.users op.id op.inputs }

def addOps (b : Block) : Nat → List Operation → UseIndex → Except IndexError UseIndex
  | _, [], x => .ok x
  | pos, op :: ops, x => do addOps b (pos + 1) ops (← addOp b pos op x)

/-- One more than the largest number, zero if there is none. -/
def nextFree (ids : List Nat) : Nat :=
  ids.foldl (fun next id => max next (id + 1)) 0

def build [IdSpace] (b : Block) : Except IndexError UseIndex := do
  let names ← addNames b.values []
  let x ← addInputs b b.inputs { names := names }
  let x ← addOps b 0 b.operations x
  match b.outputs.find? (!x.isDefined ·) with
  | some id => .error (.missingDefinition id)
  | none =>
    let nextValue := nextFree (b.values.map (·.id.index))
    let nextOp := nextFree (b.operations.map (·.id.index))
    if IdSpace.admits nextValue && IdSpace.admits nextOp then
      return { x with nextValue := nextValue, nextOp := nextOp }
    else .error (.crash .overflow)

/-! ## Edits -/

/-- Moves the operations from `pos` on one place down. -/
def shiftDown (positions : Table OpId Nat) (pos : Nat) : Table OpId Nat :=
  positions.map fun (op, p) => (op, if pos ≤ p then p + 1 else p)

/-- Moves the operations behind `pos` one place up. -/
def shiftUp (positions : Table OpId Nat) (pos : Nat) : Table OpId Nat :=
  positions.map fun (op, p) => (op, if pos < p then p - 1 else p)

/-- Follows the insertion of an operation whose outputs have the given names. -/
def insertOp (x : UseIndex) (pos : Nat) (op : Operation) (names : List String) : Except IndexError UseIndex :=
  let outputs := op.outputs.zip names
  let clash := outputs.findSome? fun (id, name) =>
    if x.isDefined id then some (.duplicateValue id)
    else if x.names.contains name then some (.duplicateName name)
    else none
  match clash, op.inputs.find? (!x.isDefined ·) with
  | some e, _ => .error e
  | none, some id => .error (.missingDefinition id)
  | none, none =>
    .ok { x with
      positions := (shiftDown x.positions pos).put op.id pos
      producers := op.outputs.foldl (·.put · op.id) x.producers
      names := outputs.foldl (fun names (id, name) => names.put name id) x.names
      users := addUsers x.users op.id op.inputs }

/-- Follows the removal of an operation whose outputs had the given names. -/
def removeOp (x : UseIndex) (op : Operation) (names : List String) : UseIndex :=
  let positions := match x.position? op.id with
    | none => x.positions
    | some pos => shiftUp (x.positions.remove op.id) pos
  { x with
    positions := positions
    producers := op.outputs.foldl (·.remove ·) x.producers
    names := names.foldl (·.remove ·) x.names
    users := op.inputs.foldl (removeUser · · op.id) (op.outputs.foldl (·.remove ·) x.users) }

/-- Follows an operand of `op` from one value to another. -/
def moveUse (x : UseIndex) (op : OpId) (source target : ValueId) (stillUsed : Bool) : Except IndexError UseIndex :=
  if !x.isDefined target then .error (.missingDefinition target)
  else
    let users := if stillUsed then x.users else removeUser x.users source op
    .ok { x with users := addUser users target op }

def rename (x : UseIndex) (value : ValueId) (old new : String) : Except IndexError UseIndex :=
  if x.names.contains new then .error (.duplicateName new)
  else .ok { x with names := (x.names.remove old).put new value }

end UseIndex

end Relayout
