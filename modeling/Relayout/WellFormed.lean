import Relayout.Block.Basic

/-!
# Well-formed blocks

`Block.check` looks for the first structural defect of a block: records out of order, names used twice, values or
operations defined twice or not at all, uses before definitions, wrong numbers of operands, and transposes by a list
that is no permutation of the operand's axes.

`Block.WellFormed` states the invariant without an order of checks.
-/

namespace Relayout

/-- How many operands a kind takes. -/
inductive Arity where
  | exactly (n : Nat)
  | atLeastOne
  deriving DecidableEq

namespace Arity

def admits : Arity → Nat → Bool
  | exactly n, m => m == n
  | atLeastOne, m => m != 0

def text : Arity → String
  | exactly n => toString n
  | atLeastOne => "at least 1"

end Arity

/-- A custom operation takes any number of operands. -/
def OpKind.arity? : OpKind → Option Arity
  | .const _ => some (.exactly 0)
  | .binary _ => some (.exactly 2)
  | .concat _ => some .atLeastOne
  | .custom _ => none
  | .transpose _ | .unary _ | .activation _ | .reduce _ | .pad _ | .pool _ => some (.exactly 1)

/-- The numbers of operands that an operation of a kind may have. -/
def OpKind.Takes : OpKind → Nat → Prop
  | .const _, n => n = 0
  | .binary _, n => n = 2
  | .concat _, n => 1 ≤ n
  | .custom _, _ => True
  | .transpose _, n | .unary _, n | .activation _, n | .reduce _, n | .pad _, n | .pool _, n => n = 1

/-- A structural defect. -/
inductive Malformed where
  | undefinedValue (value : ValueId)
  | forwardReference (op : OpId) (value : ValueId)
  | duplicateDefinition (value : ValueId)
  | duplicateOp (op : OpId)
  | duplicateName (name : String)
  | missingRecord (value : ValueId)
  | orphanValue (value : ValueId)
  | invalidArity (op : OpId) (kind : String) (expected : Arity) (outputs : Nat)
  | invalidPermutation (op : OpId) (perm : List Nat) (rank : Nat)
  deriving DecidableEq

def Malformed.message : Malformed → String
  | undefinedValue value => s!"value {value.text} is referenced but never defined"
  | forwardReference op value => s!"{op.text} reads value {value.text} before it is defined"
  | duplicateDefinition value => s!"value {value.text} is defined more than once"
  | duplicateOp op => s!"operation {op.text} appears more than once"
  | duplicateName name => s!"value name `{name}` is used by more than one value"
  | missingRecord value => s!"value {value.text} has no value record"
  | orphanValue value => s!"value record {value.text} is neither a block input nor produced by an op"
  | invalidArity op kind expected outputs =>
    s!"{op.text} (`{kind}`) expects {expected.text} inputs and {outputs} outputs"
  | invalidPermutation op perm rank => s!"{op.text}: transpose perm {listText perm} is not a permutation of rank {rank}"

namespace Block

/-! ## The check -/

/-- Records are sorted by id without repetition, and names differ. -/
def checkRecords : Option ValueId → List String → List Value → Except Malformed Unit
  | _, _, [] => .ok ()
  | last, names, r :: records =>
    if last.any (r.id.index ≤ ·.index) then .error (.duplicateDefinition r.id)
    else if r.name ∈ names then .error (.duplicateName r.name)
    else checkRecords (some r.id) (r.name :: names) records

/-- Values with the number of operations after which they are available. -/
abbrev Definitions := List (ValueId × Nat)

/-- Adds values that become available at one position. -/
def define (b : Block) (pos : Nat) : List ValueId → Definitions → Except Malformed Definitions
  | [], defs => .ok defs
  | id :: ids, defs =>
    if (b.value? id).isNone then .error (.missingRecord id)
    else if (defs.lookup id).isSome then .error (.duplicateDefinition id)
    else b.define pos ids ((id, pos) :: defs)

/-- Adds the outputs of operations, the first of which stands at position `pos`. -/
def defineOps (b : Block) : Nat → List OpId → List Operation → Definitions → Except Malformed Definitions
  | _, _, [], defs => .ok defs
  | pos, seen, op :: ops, defs =>
    if op.id ∈ seen then .error (.duplicateOp op.id)
    else do b.defineOps (pos + 1) (op.id :: seen) ops (← b.define (pos + 1) op.outputs defs)

/-- Every operand is available at a position. -/
def checkOperands (defs : Definitions) (pos : Nat) (op : OpId) : List ValueId → Except Malformed Unit
  | [] => .ok ()
  | id :: ids =>
    match defs.lookup id with
    | none => .error (.undefinedValue id)
    | some start => if start ≤ pos then checkOperands defs pos op ids else .error (.forwardReference op id)

def checkArity (op : Operation) : Except Malformed Unit :=
  match op.kind.arity? with
  | none => .ok ()
  | some arity =>
    if arity.admits op.inputs.length ∧ op.outputs.length = 1 then .ok ()
    else .error (.invalidArity op.id op.kind.name arity op.outputs.length)

/-- A transpose lists the axes of its operand. -/
def checkPerm (b : Block) (op : Operation) : Except Malformed Unit :=
  match op.kind, op.inputs with
  | .transpose perm, input :: _ =>
    let rank := ((b.type? input).map (·.rank)).getD perm.length
    if perm.length = rank ∧ Perm.isPermutation perm then .ok () else .error (.invalidPermutation op.id perm rank)
  | _, _ => .ok ()

def checkOps (b : Block) (defs : Definitions) : Nat → List Operation → Except Malformed Unit
  | _, [] => .ok ()
  | pos, op :: ops => do
    checkOperands defs pos op.id op.inputs
    checkArity op
    b.checkPerm op
    b.checkOps defs (pos + 1) ops

/-- The first defect of a block, if there is one. -/
def check (b : Block) : Except Malformed Unit := do
  checkRecords none [] b.values
  let defs ← b.define 0 b.inputs []
  let defs ← b.defineOps 0 [] b.operations defs
  b.checkOps defs 0 b.operations
  match b.outputs.find? fun id => (defs.lookup id).isNone with
  | some id => .error (.undefinedValue id)
  | none =>
    match b.values.find? fun r => (defs.lookup r.id).isNone with
    | some r => .error (.orphanValue r.id)
    | none => .ok ()

/-! ## The invariant -/

/-- The values that a block defines, in order: its inputs and the outputs of its operations. -/
def defined (b : Block) : List ValueId :=
  b.inputs ++ b.operations.flatMap (·.outputs)

/-- An operand is an input or an output of an earlier operation. -/
def UsesDefined (b : Block) : Prop :=
  ∀ before op after, b.operations = before ++ op :: after →
    ∀ id ∈ op.inputs, id ∈ b.inputs ++ before.flatMap (·.outputs)

/-- The structural invariant of blocks. -/
structure WellFormed (b : Block) : Prop where
  sorted : b.values.Pairwise fun r s => r.id.index < s.id.index
  names : (b.values.map (·.name)).Nodup
  definedOnce : b.defined.Nodup
  recorded : ∀ id, id ∈ b.defined ↔ id ∈ b.values.map (·.id)
  opsOnce : (b.operations.map (·.id)).Nodup
  usesDefined : b.UsesDefined
  outputsDefined : ∀ id ∈ b.outputs, id ∈ b.defined
  arity : ∀ op ∈ b.operations, op.kind.isCustom = false → op.kind.Takes op.inputs.length ∧ op.outputs.length = 1
  perms : ∀ op ∈ b.operations, ∀ perm, op.kind = .transpose perm →
    ∀ id ∈ op.inputs, ∀ type ∈ b.type? id, perm.length = type.rank ∧ perm.Nodup ∧ ∀ axis ∈ perm, axis < type.rank

end Block

end Relayout
