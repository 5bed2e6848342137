import Relayout.Layout.Absorb

/-!
# The layout sweep

One sweep over a block follows every transpose forward. A transpose of a value in its declared layout is a *seed*: it
can be taken away if its permutation is left pending on what reads it. `analyse` records, each with the seeds it
depends on,

- the operations that absorb a pending permutation,
- the transposes that undo one, which disappear with their seeds,
- the places where a value has to be restored to its declared layout, because nothing further can be left pending.

Sets of seeds are lists in ascending order. A sweep breaks off at a constant that is too large to be permuted.
-/

namespace Relayout.Layout

abbrev Seeds := List OpId

namespace Seeds

def insert (op : OpId) : Seeds → Seeds
  | [] => [op]
  | o :: rest =>
    if op.index < o.index then op :: o :: rest else if op = o then o :: rest else o :: insert op rest

def union (a b : Seeds) : Seeds :=
  a.foldr insert b

end Seeds

/-- A value equals the transpose by `perm` of data that exists without the transposes in `seeds`. -/
structure Pending where
  perm : List Nat
  seeds : Seeds
  deriving DecidableEq

structure Absorbed where
  op : OpId
  absorption : Absorption
  seeds : Seeds
  deriving DecidableEq

/-- A transpose that undoes the pending one. -/
structure Cancellation where
  op : OpId
  seeds : Seeds
  deriving DecidableEq

/-- Who needs a value in its declared layout. -/
inductive Consumer where
  | op (id : OpId) (slots : List Nat)
  | output (slots : List Nat)
  deriving DecidableEq

/-- A value that has to be restored to its declared layout by a transpose. -/
structure Restoration where
  value : ValueId
  perm : List Nat
  consumer : Consumer
  seeds : Seeds
  deriving DecidableEq

def Consumer.op? : Consumer → Option OpId
  | op id _ => some id
  | output _ => none

/-- What a sweep found out. -/
structure Analysis where
  seeds : List OpId := []
  absorbed : List Absorbed := []
  cancellations : List Cancellation := []
  restorations : List Restoration := []
  deriving DecidableEq

/-- A sweep under way: what is pending on the values seen so far. -/
structure Sweep where
  pending : List (ValueId × Pending) := []
  analysis : Analysis := {}

namespace Sweep

def pending? (s : Sweep) (value : ValueId) : Option Pending :=
  s.pending.lookup value

def setPending (s : Sweep) (values : List ValueId) (p : Pending) : Sweep :=
  { s with pending := values.map (·, p) ++ s.pending }

/-- The slots of a list that hold a value. -/
def slotsOf (values : List ValueId) (value : ValueId) : List Nat :=
  values.zipIdx.filterMap fun (id, slot) => if id = value then some slot else none

def addSeed (s : Sweep) (op : OpId) : Sweep :=
  { s with analysis := { s.analysis with seeds := s.analysis.seeds ++ [op] } }

def addAbsorbed (s : Sweep) (record : Absorbed) : Sweep :=
  { s with analysis := { s.analysis with absorbed := s.analysis.absorbed ++ [record] } }

def addCancellation (s : Sweep) (record : Cancellation) : Sweep :=
  { s with analysis := { s.analysis with cancellations := s.analysis.cancellations ++ [record] } }

def addRestorations (s : Sweep) (records : List Restoration) : Sweep :=
  { s with analysis := { s.analysis with restorations := s.analysis.restorations ++ records } }

/-! ## Operations -/

/-- A transpose of a concrete value becomes a seed unless it is excluded or returned; others meet what is pending. -/
def visitTranspose (b : Block) (excluded : List OpId) (s : Sweep) (op : OpId) (perm : List Nat)
    (input output : ValueId) : Sweep :=
  match s.pending? input with
  | none =>
    if excluded.contains op || b.outputs.contains output then s
    else (s.addSeed op).setPending [output] ⟨perm, [op]⟩
  | some p =>
    if Perm.cancels p.perm perm then s.addCancellation ⟨op, p.seeds⟩
    else s.addRestorations [⟨input, p.perm, .op op [0], p.seeds⟩]

/-- Puts an id into an ascending list without repetition. -/
def insertId (value : ValueId) : List ValueId → List ValueId
  | [] => [value]
  | v :: rest =>
    if value.index < v.index then value :: v :: rest
    else if value = v then v :: rest
    else v :: insertId value rest

/-- The operands with something pending, in ascending order. -/
def pendingInputs (s : Sweep) (op : Operation) : List (ValueId × Pending) :=
  (op.inputs.foldr insertId []).filterMap fun id => (s.pending? id).map (id, ·)

def view? (b : Block) (s : Sweep) (id : ValueId) : Option View :=
  match s.pending? id, b.literal? id with
  | some p, _ => some (.pending p.perm)
  | none, some literal => some (.constant literal)
  | none, none => (b.type? id).map .concrete

/-- What is pending on the operands is absorbed, or all of them are restored. -/
def visitGeneral (b : Block) (s : Sweep) (op : Operation) : Except Crash Sweep :=
  match s.pendingInputs op with
  | [] => .ok s
  | (id, first) :: rest =>
    let inputs := (id, first) :: rest
    let absorption :=
      if inputs.all (·.2.perm == first.perm) then do
        absorb op.kind (← orRefuse (op.inputs.mapM (s.view? b))) first.perm
      else .error .refused
    match absorption with
    | .ok a =>
      let seeds := (inputs.map (·.2.seeds)).foldr Seeds.union []
      let s := s.addAbsorbed ⟨op.id, a, seeds⟩
      match a.outputPerm with
      | some perm => .ok (s.setPending op.outputs ⟨perm, seeds⟩)
      | none => .ok s
    | .error .refused =>
      .ok (s.addRestorations (inputs.map fun (id, p) => ⟨id, p.perm, .op op.id (slotsOf op.inputs id), p.seeds⟩))
    | .error (.crash crash) => .error crash

def visit (b : Block) (excluded : List OpId) (s : Sweep) (op : Operation) : Except Crash Sweep :=
  match op.kind with
  | .const _ => .ok s
  | .transpose perm =>
    match op.inputs, op.outputs with
    | input :: _, output :: _ => .ok (s.visitTranspose b excluded op.id perm input output)
    | _, _ => .ok s
  | .unary _ | .activation _ =>
    match op.inputs.head?.bind s.pending? with
    | some p => .ok (s.setPending op.outputs p)
    | none => .ok s
  | _ => s.visitGeneral b op

/-- Values with something pending that the block returns are restored, each for all of its slots. -/
def visitOutputs (b : Block) (s : Sweep) : Sweep :=
  let distinct := b.outputs.zipIdx.filterMap fun (id, slot) =>
    if (b.outputs.take slot).contains id then none else some id
  s.addRestorations <| distinct.filterMap fun id =>
    (s.pending? id).map fun p => ⟨id, p.perm, .output (slotsOf b.outputs id), p.seeds⟩

end Sweep

/-- One sweep over a well-formed block. Excluded transposes are not used as seeds. -/
def analyse (b : Block) (excluded : List OpId) : Except Crash Analysis := do
  let s ← b.operations.foldlM (Sweep.visit b excluded) {}
  return (s.visitOutputs b).analysis

end Relayout.Layout
