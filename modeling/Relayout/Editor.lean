import Relayout.Fresh
import Relayout.UseIndex

/-!
# Editing blocks

An editor is a block with its `UseIndex`. Edits run in `Edit`: they check their arguments, change the block, and keep
the index in step. An edit that fails leaves what it did before it failed.

An insertion uses up ids and breaks off if that leaves none free, or if it is past the end of the block.
-/

namespace Relayout

inductive EditError where
  | unknownOp (op : OpId)
  | unknownValue (value : ValueId)
  | liveUses (op : OpId)
  | blockOutput (op : OpId)
  | typeMismatch (old new : ValueId) (oldType newType : TensorType)
  | forwardReference (value : ValueId) (pos : Nat)
  | invalidSlot (slot : Nat)
  | index (error : IndexError)
  | crash (crash : Crash)
  deriving DecidableEq

def EditError.message : EditError → String
  | unknownOp op => s!"operation {op.text} is not part of the block"
  | unknownValue value => s!"value {value.text} is not part of the block"
  | liveUses op => s!"operation {op.text} still has live uses of its outputs"
  | blockOutput op => s!"operation {op.text} produces a block output"
  | typeMismatch old new oldType newType =>
    s!"cannot replace {old.text} ({oldType.text}) with {new.text} ({newType.text}): dtype or rank differ"
  | forwardReference value pos => s!"value {value.text} is not available at position {pos}"
  | invalidSlot slot => s!"slot {slot} is out of range"
  | index error => error.message
  | crash c => c.message

def EditError.crash? : EditError → Option Crash
  | index (.crash c) => some c
  | crash c => some c
  | _ => none

structure Editor where
  block : Block
  index : UseIndex

abbrev Edit := EStateM EditError Editor

namespace Editor

variable [IdSpace]

def ofBlock (b : Block) : Except IndexError Editor :=
  return ⟨b, ← UseIndex.build b⟩

/-! ## Queries -/

/-- The output slots of the block that hold a value. -/
def outputSlots (s : Editor) (value : ValueId) : List Nat :=
  s.block.outputs.zipIdx.filterMap fun (id, slot) => if id = value then some slot else none

/-- The name itself, or a numbered one if it is taken. -/
def freshName (s : Editor) (base : String) : String :=
  Relayout.freshName (s.index.names.map (·.1)) base

/-- The block still defines everything once and before its use. -/
def isConsistent (s : Editor) : Except Crash Bool :=
  match UseIndex.build s.block with
  | .ok _ => .ok true
  | .error (.crash crash) => .error crash
  | .error _ => .ok false

def position (op : OpId) : Edit Nat := do
  match (← get).index.position? op with
  | some pos => return pos
  | none => throw (.unknownOp op)

def operation (op : OpId) : Edit Operation := do
  let pos ← position op
  match (← get).block.operations[pos]? with
  | some operation => return operation
  | none => throw (.unknownOp op)

def value (id : ValueId) : Edit Value := do
  match (← get).block.value? id with
  | some r => return r
  | none => throw (.unknownValue id)

/-! ## Checks -/

/-- A value may be read by an operation at a position. -/
def checkAvailable (id : ValueId) (pos : Nat) : Edit Unit := do
  match (← get).index.availableFrom? id with
  | some start => if start ≤ pos then return () else throw (.forwardReference id pos)
  | none => throw (.unknownValue id)

/-- One value may stand for another: element type and rank agree. -/
def checkReplaceable (old new : ValueId) : Edit Unit := do
  let oldType := (← value old).type
  let newType := (← value new).type
  if oldType.compatible newType then return () else throw (.typeMismatch old new oldType newType)

/-- Runs a step of the index. -/
def updateIndex (step : UseIndex → Except IndexError UseIndex) : Edit Unit := do
  let s ← get
  match step s.index with
  | .ok x => set { s with index := x }
  | .error e => throw (.index e)

def modifyBlock (f : Block → Block) : Edit Unit :=
  modify fun s => { s with block := f s.block }

/-- Changes the operation at a position. -/
def modifyOp (pos : Nat) (f : Operation → Operation) : Edit Unit :=
  modifyBlock fun b => { b with operations := b.operations.modify pos f }

/-! ## Edits of operands and outputs -/

/-- `new` in place of every `old`. -/
def substitute (old new : ValueId) (ids : List ValueId) : List ValueId :=
  ids.map fun id => if id = old then new else id

/-- Lets one operation read `new` where it reads `old`. -/
def replaceUsesIn (op : OpId) (old new : ValueId) : Edit Unit := do
  if old = new then return ()
  checkReplaceable old new
  let pos ← position op
  checkAvailable new pos
  modifyOp pos fun operation => { operation with inputs := substitute old new operation.inputs }
  updateIndex (·.moveUse op old new false)

def replaceUsesInAll (old new : ValueId) : List OpId → Edit Unit
  | [] => return ()
  | op :: ops => do
    replaceUsesIn op old new
    replaceUsesInAll old new ops

/-- Lets everything that reads or returns `old` read or return `new`. -/
def replaceUses (old new : ValueId) : Edit Unit := do
  if old = new then return ()
  checkReplaceable old new
  replaceUsesInAll old new ((← get).index.usersOf old)
  modifyBlock fun b => { b with outputs := substitute old new b.outputs }

/-- Lets one input slot of an operation read `id`. -/
def setInput (op : OpId) (slot : Nat) (id : ValueId) : Edit Unit := do
  let pos ← position op
  let _ ← value id
  checkAvailable id pos
  match (← operation op).inputs[slot]? with
  | none => throw (.invalidSlot slot)
  | some old =>
    modifyOp pos fun operation => { operation with inputs := operation.inputs.set slot id }
    let stillUsed := (← operation op).inputs.contains old
    updateIndex (·.moveUse op old id stillUsed)

/-- Lets one output slot of the block return `id`. -/
def setOutput (slot : Nat) (id : ValueId) : Edit Unit := do
  let s ← get
  if !s.index.isDefined id then throw (.unknownValue id)
  if s.block.outputs.length ≤ slot then throw (.invalidSlot slot)
  modifyBlock fun b => { b with outputs := b.outputs.set slot id }

def setInputs (op : OpId) (id : ValueId) : List Nat → Edit Unit
  | [] => return ()
  | slot :: slots => do
    setInput op slot id
    setInputs op id slots

def setOutputs (id : ValueId) : List Nat → Edit Unit
  | [] => return ()
  | slot :: slots => do
    setOutput slot id
    setOutputs id slots

/-! ## Edits of attributes and records -/

/-- Gives an operation another kind; the types of its outputs stay as they are. -/
def setKind (op : OpId) (kind : OpKind) : Edit Unit := do
  let pos ← position op
  modifyOp pos ({ · with kind := kind })

def renameValue (id : ValueId) (name : String) : Edit Unit := do
  let old := (← value id).name
  if old = name then return ()
  updateIndex (·.rename id old name)
  modifyBlock (·.setName id name)

/-- Gives the name of one value to another; the first gets a new name derived from it. -/
def transferName (source target : ValueId) : Edit Unit := do
  let name := (← value source).name
  renameValue source ((← get).freshName (name ++ "_old"))
  renameValue target name

def setValueType (id : ValueId) (type : TensorType) : Edit Unit := do
  let _ ← value id
  modifyBlock (·.setType id type)

/-! ## Insertion and removal -/

def checkAllAvailable (pos : Nat) : List ValueId → Edit Unit
  | [] => return ()
  | id :: ids => do
    checkAvailable id pos
    checkAllAvailable pos ids

/-- Takes the next free ids, one for an operation and `count` for its outputs. -/
def allocate (count : Nat) : Edit (OpId × List ValueId) := do
  let s ← get
  let x := s.index
  let y := { x with nextValue := x.nextValue + count, nextOp := x.nextOp + 1 }
  if !(IdSpace.admits y.nextValue && IdSpace.admits y.nextOp) then throw (.crash .overflow)
  set { s with index := y }
  return (⟨x.nextOp⟩, (List.range' x.nextValue count).map ValueId.mk)

/-- Inserts an operation at a position where all of its operands are available. The ids are used up in any case. -/
def insertOp (pos : Nat) (kind : OpKind) (inputs : List ValueId) (outputs : List (String × TensorType)) :
    Edit (OpId × List ValueId) := do
  checkAllAvailable pos inputs
  let (op, ids) ← allocate outputs.length
  let operation : Operation := ⟨op, kind, inputs, ids⟩
  updateIndex (·.insertOp pos operation (outputs.map (·.1)))
  modifyBlock fun b => (ids.zip outputs).foldl (fun b (id, name, type) => b.upsertValue ⟨id, name, type⟩) b
  if (← get).block.operations.length < pos then throw (.crash .outOfBounds)
  modifyBlock fun b => { b with operations := b.operations.insertIdx pos operation }
  return (op, ids)

def insertBefore (next : OpId) (kind : OpKind) (inputs : List ValueId) (outputs : List (String × TensorType)) :
    Edit (OpId × List ValueId) := do
  insertOp (← position next) kind inputs outputs

def append (kind : OpKind) (inputs : List ValueId) (outputs : List (String × TensorType)) :
    Edit (OpId × List ValueId) := do
  insertOp (← get).block.operations.length kind inputs outputs

/-- The first reason why the outputs of an operation may not disappear. -/
def obstacle? (s : Editor) (operation : Operation) : Option EditError :=
  operation.outputs.findSome? fun id =>
    if s.block.outputs.contains id then some (.blockOutput operation.id)
    else if !(s.index.usersOf id).isEmpty then some (.liveUses operation.id)
    else none

/-- Removes an operation that nothing reads or returns, with the records of its outputs. -/
def removeOp (op : OpId) : Edit Unit := do
  let pos ← position op
  let operation ← operation op
  match (← get).obstacle? operation with
  | some e => throw e
  | none =>
    modify fun s =>
      let names := operation.outputs.filterMap s.block.name?
      let block := operation.outputs.foldl (·.eraseValue ·) s.block
      { block := { block with operations := block.operations.eraseIdx pos }
        index := s.index.removeOp operation names }

/-- Removes an operation if nothing reads or returns its outputs, and says whether it did. -/
def eraseIfDead (op : OpId) : Edit Bool := do
  let operation ← operation op
  if ((← get).obstacle? operation).isSome then return false
  removeOp op
  return true

end Editor

end Relayout
