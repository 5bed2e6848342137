import Relayout.Builder
import Relayout.Number.Numeral
import Relayout.Text.Split

/-!
# Reading the text of a block

`Block.read` reads the text that `Block.text` writes, and more freely: blanks, comment lines that start with `//`,
semicolons at line ends, operands in parentheses, and attributes and result types left out where they have a default.
Statements are handed to a `Builder` one by one, so that what is read is well typed.

Everything is cut out of the text with the functions of `Relayout.Text`; the errors say which part was not found.
-/

namespace Relayout

open Text Number

inductive ReadError where
  | emptyInput
  | noOpeningBrace
  | noClosingBrace
  | malformedBody
  | noFunc
  | noOpeningParen
  | noClosingParen
  | emptyBlockName
  | afterParameters
  | parameterForm
  | emptyParameterName
  | afterReturn
  | noReturn
  | statementForm
  | emptyResult
  | noOpName
  | emptyOpName
  | unmatchedParen
  | unmatchedBracket
  | unexpectedToken (rest : String)
  | unknownName (name : String)
  | unsupportedType (text : String)
  | unsupportedElem (text : String)
  | emptySymbol
  | invalidDimension (text : String)
  | customUntyped (op : String)
  | customTypeCount (op : String) (types results : Nat)
  | severalResults (op : String)
  | severalTypes (op : String)
  | missingAttribute (op name : String)
  | invalidInteger (text : String)
  | invalidNumber (text : String)
  | invalidBool (text : String)
  | invalidAxis (text : String)
  | unknownPadMode (text : String)
  | byteRange (byte : Nat)
  | constUntyped
  | constDynamic
  | unsupportedOp (op : String)
  | build (error : BuildError)
  | literal (error : Literal.Error)
  deriving DecidableEq

def ReadError.message : ReadError → String
  | emptyInput => "input is empty"
  | noOpeningBrace => "missing `\x7b` to start block body"
  | noClosingBrace => "missing `\x7d` to end block body"
  | malformedBody => "block body is malformed"
  | noFunc => "block header must start with `func`"
  | noOpeningParen => "missing `(` in block header"
  | noClosingParen => "missing `)` to close parameter list"
  | emptyBlockName => "block name cannot be empty"
  | afterParameters => "unexpected tokens after the parameter list"
  | parameterForm => "parameter must be `%name: type`"
  | emptyParameterName => "parameter name cannot be empty"
  | afterReturn => "`return` must be the last statement"
  | noReturn => "block must end with a `return` statement"
  | statementForm => "statements must be of the form `%result = ...`"
  | emptyResult => "result identifier cannot be empty"
  | noOpName => "operation name is missing"
  | emptyOpName => "operation name cannot be empty"
  | unmatchedParen => "unmatched `(` in operand list"
  | unmatchedBracket => "unmatched `[` in attribute"
  | unexpectedToken rest => s!"unexpected token starting at `{rest}`"
  | unknownName name => s!"unknown value `%{name}`"
  | unsupportedType text => s!"unsupported type `{text}`; expected `tensor<dtype, dims>`"
  | unsupportedElem text => s!"unsupported dtype `{text}`"
  | emptySymbol => "dynamic dimension needs a symbol"
  | invalidDimension text => s!"invalid dimension `{text}`"
  | customUntyped op => s!"custom op `{op}` needs `-> type`"
  | customTypeCount op types results => s!"custom op `{op}` declares {types} types for {results} results"
  | severalResults op => s!"`{op}` produces exactly one result"
  | severalTypes op => s!"`{op}` declares more than one result type"
  | missingAttribute op name => s!"`{op}` requires attribute `{name}[...]`"
  | invalidInteger text => s!"invalid integer `{text}`"
  | invalidNumber text => s!"invalid number `{text}`"
  | invalidBool text => s!"invalid boolean literal `{text}`"
  | invalidAxis text => s!"invalid concat axis `{text}`"
  | unknownPadMode text => s!"unknown pad mode `{text}`"
  | byteRange byte => s!"byte `{byte}` out of range"
  | constUntyped => "`const` needs `-> type`"
  | constDynamic => "constants need a static shape"
  | unsupportedOp op => s!"unsupported operation `{op}` in block text parser"
  | build error => error.message
  | literal error => error.message

namespace Reader

abbrev Read := Except ReadError

/-- What a search found, or an error. -/
def orError {α : Type} (e : ReadError) (found : Option α) : Read α :=
  match found with
  | some a => .ok a
  | none => .error e

/-! ## Values and types -/

/-- A value's name: percent signs in front of it are dropped. -/
def valueName (s : List Char) : String :=
  String.ofList ((trim s).dropWhile (· == '%'))

def readDim (s : List Char) : Read Dim :=
  match trim s with
  | '?' :: symbol => if symbol = [] then .error .emptySymbol else .ok (.dynamic (String.ofList symbol))
  | dim => (orError (.invalidDimension (String.ofList dim)) (readSize? dim)).map .fixed

def readType (s : List Char) : Read TensorType := do
  let s := trim s
  let body ← orError (.unsupportedType (String.ofList s)) ((dropStart? "tensor<".toList s).bind (dropLast? '>'))
  let (elem, dims) := (cut? ',' body).getD (body, [])
  let elem ← orError (.unsupportedElem (String.ofList (trim elem))) (ElemType.read? elem)
  let dims := trim dims
  return ⟨elem, ← if dims = [] then pure [] else (splitOn 'x' dims).mapM readDim⟩

/-- The declared types: several stand in parentheses. -/
def readTypes (s : List Char) : Read (List TensorType) :=
  let s := trim s
  match (dropStart? ['('] s).bind (dropLast? ')') with
  | some body => (splitTop ',' body).mapM readType
  | none => return [← readType s]

/-! ## The header -/

structure Parameter where
  name : String
  type : List Char

def readParameter (s : List Char) : Read Parameter := do
  let (name, type) ← orError .parameterForm (cut? ':' s)
  let name := valueName name
  if name = "" then .error .emptyParameterName else .ok ⟨name, type⟩

def readHeader (s : List Char) : Read (String × List Parameter) := do
  let s := trimStart (← orError .noFunc (dropStart? "func".toList s))
  let (name, rest) ← orError .noOpeningParen (cut? '(' s)
  let (parameters, rest) ← orError .noClosingParen (enclosed? '(' ')' 1 rest)
  let name := trim name
  let name := trim ((dropStart? ['@'] name).getD name)
  if name = [] then .error .emptyBlockName
  else if trim rest ≠ [] then .error .afterParameters
  else return (String.ofList name, ← (splitTop ',' parameters).mapM readParameter)

/-! ## Operands and attributes -/

structure Attribute where
  name : String
  value : List Char

/-- What follows the name of an operation. -/
structure Arguments where
  operands : List (List Char) := []
  attributes : List Attribute := []

/-- Reads operands and attributes. Every step consumes a character, so the length of the text is enough fuel. -/
def readArguments : Nat → List Char → Arguments → Read Arguments
  | 0, _, args => .ok args
  | fuel + 1, s, args =>
    match s.dropWhile isAsciiBlank with
    | [] => .ok args
    | '(' :: rest => do
      let (inside, rest) ← orError .unmatchedParen (enclosed? '(' ')' 1 rest)
      readArguments fuel rest { args with operands := args.operands ++ splitTop ',' inside }
    | '%' :: rest =>
      let isEnd := fun c => isAsciiBlank c || c == ',' || c == ')'
      let name := rest.takeWhile (!isEnd ·)
      readArguments fuel (rest.dropWhile (!isEnd ·)) { args with operands := args.operands ++ ['%' :: name] }
    | ',' :: rest => readArguments fuel rest args
    | s =>
      let isLetter := fun (c : Char) => c.isAlpha || c == '_'
      match s.dropWhile isLetter with
      | '[' :: rest => do
        let (value, rest) ← orError .unmatchedBracket (enclosed? '[' ']' 1 rest)
        let entry := ⟨String.ofList (s.takeWhile isLetter), trim value⟩
        readArguments fuel rest { args with attributes := args.attributes ++ [entry] }
      | _ => .error (.unexpectedToken (String.ofList s))

/-- The value of an attribute; of several with one name the last counts. -/
def Arguments.find? (args : Arguments) (name : String) : Option (List Char) :=
  (args.attributes.reverse.find? (·.name == name)).map (·.value)

def Arguments.require (args : Arguments) (op name : String) : Read (List Char) :=
  orError (.missingAttribute op name) (args.find? name)

/-! ## Attribute values -/

def readSizes (s : List Char) : Read (List Nat) :=
  let s := trim s
  if s = [] then .ok []
  else (splitOn ',' s).mapM fun item =>
    let item := trim item
    orError (.invalidInteger (String.ofList item)) (readSize? item)

def readNumber (s : List Char) : Read Binary64 :=
  let s := trim s
  orError (.invalidNumber (String.ofList s)) (Binary64.read? s)

def readNumbers (s : List Char) : Read (List Binary64) :=
  let s := trim s
  if s = [] then .ok [] else (splitOn ',' s).mapM readNumber

def readBool (s : List Char) : Read Bool :=
  match String.ofList (lower (trim s)) with
  | "true" => .ok true
  | "false" => .ok false
  | other => .error (.invalidBool other)

def readByte (n : Nat) : Read UInt8 :=
  if n < 256 then .ok (UInt8.ofNat n) else .error (.byteRange n)

/-- The value of an attribute, or a default if there is no such attribute. -/
def Arguments.get {α : Type} (args : Arguments) (name : String) (default : α) (read : List Char → Read α) : Read α :=
  match args.find? name with
  | some value => read value
  | none => .ok default

/-! ## Operation kinds -/

/-- A single number fills the whole tensor. -/
def splat (type : TensorType) (numbers : List Binary64) : Read (List Binary64) := do
  let count ← orError .constDynamic type.elementCount?
  match numbers with
  | [x] =>
    if Word.isAddressable (8 * count) then return List.replicate count x else .error (.literal (.crash .capacity))
  | _ => return numbers

def liftLiteral (l : Except Literal.Error Literal) : Read OpKind :=
  match l with
  | .ok l => .ok (.const l)
  | .error e => .error (.literal e)

/-- A constant is given by its bytes or by its numbers. -/
def readConst (args : Arguments) (declared : Option TensorType) : Read OpKind := do
  let type ← orError .constUntyped declared
  match args.find? "bytes" with
  | some bytes => liftLiteral (Literal.make type (← (← readSizes bytes).mapM readByte))
  | none =>
    let numbers ← readNumbers (← args.require "const" "value")
    liftLiteral (Literal.ofNumbers type (← splat type numbers))

def readPad (args : Arguments) : Read OpKind := do
  let amounts ← readSizes (← args.require "pad" "pad")
  let mode ← args.get "mode" .constant fun value =>
    orError (.unknownPadMode (String.ofList value)) (Named.ofName? (String.ofList (trim value)))
  return .pad ⟨amounts, mode, ← args.get "constant_val" .zero readNumber⟩

def readConcat (args : Arguments) : Read OpKind := do
  let axis := trim (← args.require "concat" "axis")
  return .concat (← orError (.invalidAxis (String.ofList axis)) (readSize? axis))

def readActivation (function : Activation) (args : Arguments) : Read OpKind :=
  return .activation ⟨function, ← args.get "alpha" .zero readNumber, ← args.get "beta" .zero readNumber⟩

def readReduce (kind : Reduction) (args : Arguments) : Read OpKind :=
  return .reduce ⟨kind, ← args.get "axes" [] readSizes, ← args.get "keep_dims" false readBool⟩

/-- Without strides, windows move by one. -/
def readPool (kind : Pooling) (args : Arguments) : Read OpKind := do
  let kernel ← readSizes (← args.require kind.name "kernel")
  return .pool ⟨kind, kernel, ← args.get "strides" (kernel.map fun _ => 1) readSizes⟩

def readKind (op : String) (args : Arguments) (declared : Option TensorType) : Read OpKind :=
  if let some unary := Named.ofName? op then return .unary unary
  else if let some function := Named.ofName? op then readActivation function args
  else if let some binary := Named.ofName? op then return .binary binary
  else if let some kind := Named.ofName? op then readReduce kind args
  else if let some kind := Named.ofName? op then readPool kind args
  else match op with
    | "transpose" => return .transpose (← readSizes (← args.require op "perm"))
    | "concat" => readConcat args
    | "pad" => readPad args
    | "const" => readConst args declared
    | _ => .error (.unsupportedOp op)

/-! ## Statements -/

variable [IdSpace]

/-- Runs a call of the builder. -/
def run {α : Type} (call : Build α) (s : Builder) : Read (α × Builder) :=
  match call.run s with
  | .ok a s => .ok (a, s)
  | .error e _ => .error (.build e)

/-- The value that has a name. -/
def lookup (s : Builder) (token : List Char) : Read ValueId :=
  let name := valueName token
  match s.block.valueNamed? name with
  | some value => .ok value.id
  | none => .error (.unknownName name)

/-- The name of an operation and what follows it. -/
def readOpName (s : List Char) : Read (String × List Char) :=
  let s := trimStart s
  let isEnd := fun c => isBlank c || c == '(' || c == '%'
  let name := s.takeWhile (!isEnd ·)
  if s = [] then .error .noOpName
  else if name = [] then .error .emptyOpName
  else .ok (String.ofList name, trimStart (s.dropWhile (!isEnd ·)))

/-- The name inside `custom<...>`. -/
def customName? (op : String) : Option String :=
  ((dropStart? "custom<".toList op.toList).bind (dropLast? '>')).map String.ofList

def emitCustom (op : String) (results : List String) (inputs : List ValueId) (declared : Option (List TensorType))
    (s : Builder) : Read Builder := do
  let types ← orError (.customUntyped op) declared
  if types.length ≠ results.length then .error (.customTypeCount op types.length results.length)
  else return (← run (Builder.emitCustom op inputs (results.zip types)) s).2

def emitOne (op : String) (results : List String) (inputs : List ValueId) (args : Arguments)
    (declared : Option (List TensorType)) (s : Builder) : Read Builder :=
  match results with
  | [result] => do
    let type ← match declared with
      | none => pure none
      | some [type] => pure (some type)
      | some _ => .error (.severalTypes op)
    let kind ← readKind op args type
    return (← run (Builder.emitChecked result kind inputs type) s).2
  | _ => .error (.severalResults op)

def readStatement (line : List Char) (s : Builder) : Read Builder := do
  let (left, right) ← orError .statementForm (cut? '=' line)
  let results := (splitTop ',' left).map valueName
  if results = [] ∨ results.any (· == "") then .error .emptyResult
  else
    let (op, rest) ← readOpName right
    let (operands, types) := match cutAt? ['-', '>'] rest with
      | some (operands, types) => (operands, some types)
      | none => (rest, none)
    let args ← readArguments (operands.length + 1) (trim operands) {}
    let inputs ← args.operands.mapM (lookup s)
    let declared ← types.mapM readTypes
    match customName? op with
    | some custom => emitCustom custom results inputs declared s
    | none => emitOne op results inputs args declared s

/-! ## Blocks -/

/-- A line without the blanks and semicolons around it. -/
def statementOf (line : List Char) : List Char :=
  trim ((trim line).reverse.dropWhile (· == ';')).reverse

/-- Reads statements up to the end. The outputs are known once a `return` has been read, and then nothing may follow. -/
def readLines : List (List Char) → Builder → Option (List ValueId) → Read (Builder × List ValueId)
  | [], s, results => return (s, ← orError .noReturn results)
  | line :: lines, s, results =>
    let line := statementOf line
    if line = [] ∨ (dropStart? ['/', '/'] line).isSome then readLines lines s results
    else if results.isSome then .error .afterReturn
    else match dropStart? "return".toList line with
      | some values => do readLines lines s (some (← (splitTop ',' (trim values)).mapM (lookup s)))
      | none => do readLines lines (← readStatement line s) none

def addParameters : List Parameter → Builder → Read Builder
  | [], s => .ok s
  | p :: ps, s => do addParameters ps (← run (Builder.addInput p.name (← readType p.type)) s).2

/-- The text before the first brace and the text between it and the last closing one. -/
def braces (s : List Char) : Read (List Char × List Char) := do
  let (header, rest) ← orError .noOpeningBrace (cut? '\x7b' s)
  if '\x7d' ∉ s then .error .noClosingBrace
  else
    let (_, reversed) ← orError .malformedBody (cut? '\x7d' rest.reverse)
    return (header, reversed.reverse)

end Reader

open Reader in
/-- The block that a text describes. -/
def Block.read [IdSpace] (text : String) : Except ReadError Block := do
  let s := trim text.toList
  if s = [] then .error .emptyInput
  else
    let (header, body) ← braces s
    let (name, parameters) ← readHeader (trim header)
    let s ← addParameters parameters (Builder.empty name)
    let (s, results) ← readLines (splitOn '\n' body) s none
    match s.finish results with
    | .ok b => .ok b
    | .error e => .error (.build e)

end Relayout
