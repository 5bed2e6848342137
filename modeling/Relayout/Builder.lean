import Relayout.Fresh
import Relayout.Typing

/-!
# Building blocks

A builder appends operations to a block and gives every result the type that `Typing.static` infers. Its calls run in
`Build`, where a call that fails leaves the builder as it was at the point of failure. Ids are handed out in order; taking
one needs another to be next.
-/

namespace Relayout

inductive BuildError where
  | shape (error : ShapeError)
  | duplicateName (name : String)
  | unknownValue (value : ValueId)
  | typeMismatch (op : String) (declared inferred : TensorType)
  | crash (crash : Crash)
  deriving DecidableEq

def BuildError.message : BuildError → String
  | shape error => error.message
  | duplicateName name => s!"value name `{name}` is already taken"
  | unknownValue value => s!"value {value.text} does not belong to this block"
  | typeMismatch op declared inferred => s!"`{op}` declares {declared.text} but infers {inferred.text}"
  | crash c => c.message

def BuildError.crash? : BuildError → Option Crash
  | shape error => error.crash?
  | crash c => some c
  | _ => none

structure Builder where
  block : Block
  names : List String
  nextValue : Nat
  nextOp : Nat
  deriving DecidableEq

abbrev Build := EStateM BuildError Builder

namespace Builder

variable [IdSpace]

def empty (name : String) : Builder :=
  ⟨.empty name, [], 0, 0⟩

/-- Records a new value under a free name. -/
def defineValue (name : String) (type : TensorType) : Build ValueId := do
  let s ← get
  if s.names.contains name then throw (.duplicateName name)
  if !IdSpace.admits (s.nextValue + 1) then throw (.crash .overflow)
  let id : ValueId := ⟨s.nextValue⟩
  set { s with
    block := s.block.upsertValue ⟨id, name, type⟩
    names := name :: s.names
    nextValue := s.nextValue + 1 }
  return id

def defineValues : List (String × TensorType) → Build (List ValueId)
  | [] => return []
  | (name, type) :: rest => do
    let id ← defineValue name type
    return id :: (← defineValues rest)

def pushOp (kind : OpKind) (inputs outputs : List ValueId) : Build Unit := do
  let s ← get
  if !IdSpace.admits (s.nextOp + 1) then throw (.crash .overflow)
  let op : Operation := ⟨⟨s.nextOp⟩, kind, inputs, outputs⟩
  set { s with
    block := { s.block with operations := s.block.operations ++ [op] }
    nextOp := s.nextOp + 1 }

/-- All values have a record. -/
def checkKnown (ids : List ValueId) : Build Unit := do
  let s ← get
  match ids.find? fun id => (s.block.value? id).isNone with
  | some id => throw (.unknownValue id)
  | none => return ()

def addInput (name : String) (type : TensorType) : Build ValueId := do
  let id ← defineValue name type
  modify fun s => { s with block := { s.block with inputs := s.block.inputs ++ [id] } }
  return id

/-- The type of a result. An operation that is typed by its declared outputs has none here. -/
def inferOne (b : Block) (op : Operation) : Except ShapeError TensorType :=
  match Typing.static b op with
  | .error e => .error e
  | .ok (type :: _) => .ok type
  | .ok [] => .error (.arity op.kind.name 1 0)

/-- Appends an operation with one result, whose type must be the declared one if there is one. -/
def emitChecked (name : String) (kind : OpKind) (inputs : List ValueId) (declared : Option TensorType) :
    Build ValueId := do
  checkKnown inputs
  let s ← get
  if s.names.contains name then throw (.duplicateName name)
  match inferOne s.block ⟨⟨s.nextOp⟩, kind, inputs, []⟩ with
  | .error e => throw (.shape e)
  | .ok type =>
    if declared.any (· != type) then throw (.typeMismatch kind.name (declared.getD type) type)
    let id ← defineValue name type
    pushOp kind inputs [id]
    return id

def emitNamed (name : String) (kind : OpKind) (inputs : List ValueId) : Build ValueId :=
  emitChecked name kind inputs none

/-- A free name for the next value, numbered from its id on. -/
def autoName (s : Builder) (base : String) : String :=
  numberedFree s.names base s.nextValue

/-- Appends an operation whose result is named after its kind. -/
def emit (kind : OpKind) (inputs : List ValueId) : Build ValueId := do
  let s ← get
  emitNamed (s.autoName kind.name) kind inputs

def constant (name : String) (literal : Literal) : Build ValueId :=
  emitNamed name (.const literal) []

/-- Appends a custom operation, whose results have the types they are declared with. -/
def emitCustom (op : String) (inputs : List ValueId) (outputs : List (String × TensorType)) :
    Build (List ValueId) := do
  checkKnown inputs
  let ids ← defineValues outputs
  pushOp (.custom op) inputs ids
  return ids

/-- The block, with its outputs declared. -/
def finish (s : Builder) (outputs : List ValueId) : Except BuildError Block :=
  match outputs.find? fun id => (s.block.value? id).isNone with
  | some id => .error (.unknownValue id)
  | none => .ok { s.block with outputs := outputs }

end Builder

end Relayout
