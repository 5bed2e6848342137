import Relayout.Block.Basic
import Relayout.Json.Decode
import Relayout.Json.Printer
import Relayout.Json.Reader

/-!
# Blocks as JSON documents

`Block.toJson` and `Block.ofJson?` go between blocks and documents, `Block.printJson` and `Block.readJson?` between
blocks and JSON text. Ids are below `2 ^ 32` and sizes below `2 ^ 64`, and a literal is read only if its payload has the
size of its type.
-/

namespace Relayout

open Number

namespace Json

def choice {α : Type} [Named α] (a : α) : Json :=
  text (Named.tag a)

/-- A variant with content. -/
def variant (tag : String) (content : Json) : Json :=
  record [(tag, content)]

def sizes (ns : List Nat) : Json :=
  array (ns.map ofNat)

def extent? : Json → Option Nat :=
  size? (Nat.pow 2 64)

def extents? : Json → Option (List Nat) :=
  list? extent?

end Json

/-! ## Types and literals -/

namespace Dim

def toJson : Dim → Json
  | fixed n => .variant "Static" (.ofNat n)
  | dynamic symbol => .variant "Dynamic" (.text symbol)

def ofJson? (j : Json) : Option Dim :=
  match j.variant? with
  | some ("Static", some n) => n.extent?.map fixed
  | some ("Dynamic", some s) => s.text?.map dynamic
  | _ => none

end Dim

namespace TensorType

def toJson (t : TensorType) : Json :=
  .record [("dtype", .choice t.elem), ("shape", .record [("dims", .array (t.dims.map Dim.toJson))])]

/-- The extents of a shape. -/
def dimsOfJson? (j : Json) : Option (List Dim) :=
  match j.record? ["dims"] with
  | some [dims] => dims.list? Dim.ofJson?
  | _ => none

def ofJson? (j : Json) : Option TensorType :=
  match j.record? ["dtype", "shape"] with
  | some [elem, shape] => return ⟨← elem.choice?, ← dimsOfJson? shape⟩
  | _ => none

end TensorType

namespace Literal

def toJson (l : Literal) : Json :=
  .record [("ty", l.type.toJson), ("bytes", .sizes (l.bytes.map (·.toNat)))]

def ofJson? (j : Json) : Option Literal :=
  match j.record? ["ty", "bytes"] with
  | some [type, bytes] => do
    let type ← TensorType.ofJson? type
    let bytes ← bytes.list? (Json.size? 256)
    (make type (bytes.map UInt8.ofNat)).toOption
  | _ => none

end Literal

/-! ## Operation kinds -/

namespace Activate

def toJson (spec : Activate) : Json :=
  .record [("op", .choice spec.function), ("alpha", .ofBinary spec.alpha), ("beta", .ofBinary spec.beta)]

def ofJson? (j : Json) : Option Activate :=
  match j.record? ["op", "alpha", "beta"] with
  | some [function, alpha, beta] => return ⟨← function.choice?, ← alpha.binary?, ← beta.binary?⟩
  | _ => none

end Activate

namespace Reduce

def toJson (spec : Reduce) : Json :=
  .record [("kind", .choice spec.kind), ("axes", .sizes spec.axes), ("keep_dims", .bool spec.keepDims)]

def ofJson? (j : Json) : Option Reduce :=
  match j.record? ["kind", "axes", "keep_dims"] with
  | some [kind, axes, keepDims] => return ⟨← kind.choice?, ← axes.extents?, ← keepDims.bool?⟩
  | _ => none

end Reduce

namespace Pad

def toJson (spec : Pad) : Json :=
  .record [("pad", .sizes spec.amounts), ("mode", .choice spec.mode), ("constant_val", .ofBinary spec.fill)]

def ofJson? (j : Json) : Option Pad :=
  match j.record? ["pad", "mode", "constant_val"] with
  | some [amounts, mode, fill] => return ⟨← amounts.extents?, ← mode.choice?, ← fill.binary?⟩
  | _ => none

end Pad

namespace Pool

def toJson (spec : Pool) : Json :=
  .record [("kind", .choice spec.kind), ("kernel_sizes", .sizes spec.kernel), ("strides", .sizes spec.strides)]

def ofJson? (j : Json) : Option Pool :=
  match j.record? ["kind", "kernel_sizes", "strides"] with
  | some [kind, kernel, strides] => return ⟨← kind.choice?, ← kernel.extents?, ← strides.extents?⟩
  | _ => none

end Pool

namespace OpKind

def toJson : OpKind → Json
  | const literal => .variant "Const" literal.toJson
  | transpose perm => .variant "Transpose" (.record [("perm", .sizes perm)])
  | unary op => .variant "Unary" (.choice op)
  | activation spec => .variant "Activation" spec.toJson
  | binary op => .variant "Binary" (.choice op)
  | reduce spec => .variant "Reduce" spec.toJson
  | concat axis => .variant "Concat" (.record [("axis", .ofNat axis)])
  | pad spec => .variant "Pad" spec.toJson
  | pool spec => .variant "Pool" spec.toJson
  | custom name => .variant "Custom" (.record [("name", .text name)])

def ofJson? (j : Json) : Option OpKind :=
  match j.variant? with
  | some ("Const", some content) => (Literal.ofJson? content).map const
  | some ("Transpose", some content) =>
    match content.record? ["perm"] with
    | some [perm] => perm.extents?.map transpose
    | _ => none
  | some ("Unary", some content) => content.choice?.map unary
  | some ("Activation", some content) => (Activate.ofJson? content).map activation
  | some ("Binary", some content) => content.choice?.map binary
  | some ("Reduce", some content) => (Reduce.ofJson? content).map reduce
  | some ("Concat", some content) =>
    match content.record? ["axis"] with
    | some [axis] => axis.extent?.map concat
    | _ => none
  | some ("Pad", some content) => (Pad.ofJson? content).map pad
  | some ("Pool", some content) => (Pool.ofJson? content).map pool
  | some ("Custom", some content) =>
    match content.record? ["name"] with
    | some [name] => name.text?.map custom
    | _ => none
  | _ => none

end OpKind

/-! ## Blocks -/

namespace ValueId

def toJson (v : ValueId) : Json :=
  .ofNat v.index

def ofJson? (j : Json) : Option ValueId :=
  (j.size? (Nat.pow 2 32)).map ValueId.mk

def listToJson (ids : List ValueId) : Json :=
  .array (ids.map toJson)

def listOfJson? : Json → Option (List ValueId) :=
  Json.list? ofJson?

end ValueId

namespace Operation

def toJson (op : Operation) : Json :=
  .record [("id", .ofNat op.id.index), ("kind", op.kind.toJson), ("inputs", ValueId.listToJson op.inputs),
    ("outputs", ValueId.listToJson op.outputs)]

def ofJson? (j : Json) : Option Operation :=
  match j.record? ["id", "kind", "inputs", "outputs"] with
  | some [id, kind, inputs, outputs] => do
    let id ← id.size? (Nat.pow 2 32)
    return ⟨⟨id⟩, ← OpKind.ofJson? kind, ← ValueId.listOfJson? inputs, ← ValueId.listOfJson? outputs⟩
  | _ => none

end Operation

namespace Value

def toJson (v : Value) : Json :=
  .record [("id", v.id.toJson), ("name", .text v.name), ("ty", v.type.toJson)]

def ofJson? (j : Json) : Option Value :=
  match j.record? ["id", "name", "ty"] with
  | some [id, name, type] => return ⟨← ValueId.ofJson? id, ← name.text?, ← TensorType.ofJson? type⟩
  | _ => none

end Value

namespace Block

def toJson (b : Block) : Json :=
  .record [("name", .text b.name), ("inputs", ValueId.listToJson b.inputs), ("outputs", ValueId.listToJson b.outputs),
    ("operations", .array (b.operations.map (·.toJson))), ("values", .array (b.values.map (·.toJson)))]

def ofJson? (j : Json) : Option Block :=
  match j.record? ["name", "inputs", "outputs", "operations", "values"] with
  | some [name, inputs, outputs, operations, values] =>
    return ⟨← name.text?, ← ValueId.listOfJson? inputs, ← ValueId.listOfJson? outputs,
      ← operations.list? Operation.ofJson?, ← values.list? Value.ofJson?⟩
  | _ => none

def printJson (b : Block) : String :=
  b.toJson.render

def readJson? (s : String) : Option Block :=
  (Json.parse? s).bind ofJson?

end Block

end Relayout
