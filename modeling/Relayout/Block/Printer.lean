import Relayout.Block.Basic
import Relayout.Number.Numeral

/-!
# The text of a block

One line for the header, one for each operation, one for the outputs:

```
func @main(%x: tensor<f32, 2x3>) {
  %t = transpose %x perm[1, 0] -> tensor<f32, 3x2>
  return %t
}
```

A value without a record is shown by its number, and its type as unknown, so that every block has a text.
-/

namespace Relayout

/-- Items with commas between them. -/
def commas (items : List String) : String :=
  ", ".intercalate items

def boolText (b : Bool) : String :=
  if b then "true" else "false"

/-- The attributes of an operation, each a name with its value in brackets. -/
def OpKind.attributes : OpKind → String
  | .const literal =>
    match literal.numbers? with
    | some numbers => "value[" ++ commas (numbers.map (·.text)) ++ "]"
    | none => "bytes[" ++ commas (literal.bytes.map fun b => toString b.toNat) ++ "]"
  | .transpose perm => "perm" ++ listText perm
  | .reduce spec => "axes" ++ listText spec.axes ++ " keep_dims[" ++ boolText spec.keepDims ++ "]"
  | .concat axis => "axis" ++ listText [axis]
  | .activation spec => "alpha[" ++ spec.alpha.text ++ "] beta[" ++ spec.beta.text ++ "]"
  | .pad spec =>
    "pad" ++ listText spec.amounts ++ " mode[" ++ spec.mode.name ++ "] constant_val[" ++ spec.fill.text ++ "]"
  | .pool spec => "kernel" ++ listText spec.kernel ++ " strides" ++ listText spec.strides
  | .unary _ | .binary _ | .custom _ => ""

/-- The word that a statement starts its right side with. -/
def OpKind.word : OpKind → String
  | .custom name => "custom<" ++ name ++ ">"
  | kind => kind.name

namespace Block

/-- A value as operand or result. -/
def valueText (b : Block) (id : ValueId) : String :=
  "%" ++ (b.name? id).getD s!"<undef{id.index}>"

def typeText (b : Block) (id : ValueId) : String :=
  ((b.type? id).map (·.text)).getD "<unknown>"

/-- The types of the results: one alone, any other number in parentheses. -/
def resultTypes (b : Block) (op : Operation) : String :=
  match op.outputs with
  | [id] => b.typeText id
  | ids => "(" ++ commas (ids.map b.typeText) ++ ")"

def statement (b : Block) (op : Operation) : String :=
  let blankBefore := fun s => if s = "" then "" else " " ++ s
  commas (op.outputs.map b.valueText) ++ " = " ++ op.kind.word ++ blankBefore (commas (op.inputs.map b.valueText)) ++
    blankBefore op.kind.attributes ++ " -> " ++ b.resultTypes op

def header (b : Block) : String :=
  "func @" ++ b.name ++ "(" ++ commas (b.inputs.map fun id => b.valueText id ++ ": " ++ b.typeText id) ++ ") \x7b"

def text (b : Block) : String :=
  let body := String.join (b.operations.map fun op => "  " ++ b.statement op ++ "\n")
  b.header ++ "\n" ++ body ++ "  return " ++ commas (b.outputs.map b.valueText) ++ "\n\x7d\n"

end Block

end Relayout
