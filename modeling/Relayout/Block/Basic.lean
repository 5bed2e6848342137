import Relayout.Op.Kind

/-!
# Blocks

A block is a straight-line program: an ordered list of operations that define values, with declared inputs and
outputs. Every value has a record with its name and type; the records are kept sorted by id, and `Records` holds the
operations on such a list.

A block is plain data. Which blocks make sense is said in `Relayout.Block.WellFormed`.
-/

namespace Relayout

/-- A value of one block. -/
structure ValueId where
  index : Nat
  deriving DecidableEq

/-- An operation of one block. -/
structure OpId where
  index : Nat
  deriving DecidableEq

def ValueId.text (v : ValueId) : String :=
  s!"ValueId({v.index})"

def OpId.text (o : OpId) : String :=
  s!"op#{o.index}"

structure Operation where
  id : OpId
  kind : OpKind
  inputs : List ValueId
  outputs : List ValueId
  deriving DecidableEq

namespace Operation

/-- The name of an input slot. -/
def slotName (op : Operation) (slot : Nat) : String :=
  match op.kind, slot with
  | .concat _, _ => s!"values[{slot}]"
  | .custom _, _ => s!"arg{slot}"
  | .binary _, 1 => "y"
  | _, 0 => "x"
  | _, _ => s!"arg{slot}"

def namedInputs (op : Operation) : List (String × ValueId) :=
  op.inputs.zipIdx.map fun (value, slot) => (op.slotName slot, value)

/-- The output of an operation that has exactly one. -/
def output? (op : Operation) : Option ValueId :=
  match op.outputs with
  | [value] => some value
  | _ => none

end Operation

/-- The record of a value. -/
structure Value where
  id : ValueId
  name : String
  type : TensorType
  deriving DecidableEq

/-! ## Sorted records -/

namespace Records

def find? (records : List Value) (id : ValueId) : Option Value :=
  List.find? (·.id == id) records

/-- Replaces the record of the same id, or puts a new one where its id belongs. -/
def upsert (value : Value) : List Value → List Value
  | [] => [value]
  | r :: records =>
    if value.id.index < r.id.index then value :: r :: records
    else if value.id = r.id then value :: records
    else r :: upsert value records

def erase (records : List Value) (id : ValueId) : List Value :=
  records.eraseP (·.id == id)

/-- Changes the record of one id. -/
def modify (id : ValueId) (f : Value → Value) (records : List Value) : List Value :=
  records.map fun r => if r.id = id then f r else r

end Records

structure Block where
  name : String
  inputs : List ValueId
  outputs : List ValueId
  operations : List Operation
  values : List Value
  deriving DecidableEq

namespace Block

def empty (name : String) : Block :=
  ⟨name, [], [], [], []⟩

def value? (b : Block) (id : ValueId) : Option Value :=
  Records.find? b.values id

def type? (b : Block) (id : ValueId) : Option TensorType :=
  (b.value? id).map (·.type)

def name? (b : Block) (id : ValueId) : Option String :=
  (b.value? id).map (·.name)

def valueNamed? (b : Block) (name : String) : Option Value :=
  b.values.find? (·.name == name)

def upsertValue (b : Block) (value : Value) : Block :=
  { b with values := Records.upsert value b.values }

def eraseValue (b : Block) (id : ValueId) : Block :=
  { b with values := Records.erase b.values id }

def setType (b : Block) (id : ValueId) (type : TensorType) : Block :=
  { b with values := Records.modify id ({ · with type := type }) b.values }

def setName (b : Block) (id : ValueId) (name : String) : Block :=
  { b with values := Records.modify id ({ · with name := name }) b.values }

def op? (b : Block) (id : OpId) : Option Operation :=
  b.operations.find? (·.id == id)

/-- The operation that defines a value. -/
def producer? (b : Block) (id : ValueId) : Option Operation :=
  b.operations.find? (·.outputs.contains id)

/-- The payload of a value that a constant defines. -/
def literal? (b : Block) (id : ValueId) : Option Literal :=
  (b.producer? id).bind (·.kind.literal?)

def opsNamed (b : Block) (kind : String) : List Operation :=
  b.operations.filter (·.kind.name == kind)

/-- Names of the operations in block order, without the constants. -/
def opNames (b : Block) : List String :=
  (b.operations.filter (!·.kind.isConst)).map (·.kind.name)

def outputTypes (b : Block) : List (Option TensorType) :=
  b.outputs.map b.type?

/-- Equality with attributes compared as numbers. -/
def sameAs (a b : Block) : Bool :=
  let sameOp := fun (x y : Operation) =>
    x.id == y.id && x.kind.sameAs y.kind && x.inputs == y.inputs && x.outputs == y.outputs
  a.name == b.name && a.inputs == b.inputs && a.outputs == b.outputs && a.values == b.values &&
    a.operations.length == b.operations.length && (a.operations.zip b.operations).all fun (x, y) => sameOp x y

end Block

end Relayout
