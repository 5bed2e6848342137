import Relayout.Layout.Sweep
import Relayout.Table
import Relayout.UnionFind

/-!
# Components

Seeds that meet in one record, or in restorations for one operation, have to be taken away together. `components` unites
them in a `UnionFind` over the positions of the seeds and hands every record to the set of its first seed; sets without
records are dropped. Components come in the order of the roots, which are the positions of their earliest seeds.

The consumers of restorations come in any order.

A component is worth while if it takes away more transposes than it restores.
-/

namespace Relayout.Layout

/-- Seeds that go together, with the positions of their records in an `Analysis`. -/
structure Component where
  seeds : Seeds
  absorbed : List Nat
  cancellations : List Nat
  restorations : List Nat
  deriving DecidableEq

namespace Component

/-- Number of transposes that go away. -/
def removed (c : Component) : Nat :=
  c.seeds.length + c.cancellations.length

/-- Number of transposes that come in. -/
def inserted (c : Component) : Nat :=
  c.restorations.length

def isProfitable (c : Component) : Bool :=
  c.inserted < c.removed

end Component

/-! ## Sets of seeds -/

namespace Analysis

/-- The position of every seed. -/
def index (a : Analysis) : Table OpId Nat :=
  a.seeds.zipIdx.foldl (fun t (seed, i) => t.put seed i) []

def positions (a : Analysis) (seeds : Seeds) : List Nat :=
  seeds.filterMap a.index.get?

/-- The positions of the seeds of all restorations for one operation. -/
def positionsFor (a : Analysis) (op : OpId) : List Nat :=
  (a.restorations.filter (·.consumer.op? == some op)).flatMap fun record => a.positions record.seeds

/-- The operations that values are restored for, as they are found. -/
def consumers (a : Analysis) : List OpId :=
  (a.restorations.filterMap (·.consumer.op?)).eraseDups

/-- The positions that go together. -/
def groups (a : Analysis) (consumers : List OpId) : List (List Nat) :=
  (a.absorbed.map (·.seeds) ++ a.cancellations.map (·.seeds) ++ a.restorations.map (·.seeds)).map a.positions ++
    consumers.map a.positionsFor

def united (a : Analysis) (consumers : List OpId) : UnionFind :=
  (a.groups consumers).foldl (fun u nodes => u.unionAll nodes) (.ofSize a.seeds.length)

/-! ## Records -/

/-- The root of the first known seed. -/
def rootOf (a : Analysis) (seeds : Seeds) : StateM UnionFind (Option Nat) :=
  match a.positions seeds with
  | [] => return none
  | i :: _ => return some (← UnionFind.find i)

/-- The positions of a root in a list of roots. -/
def withRoot (root : Nat) (roots : List (Option Nat)) : List Nat :=
  roots.zipIdx.filterMap fun (other, i) => if other = some root then some i else none

/-- The components, if the seeds have been united. -/
def collect (a : Analysis) : StateM UnionFind (List Component) := do
  let absorbed ← (a.absorbed.map (·.seeds)).mapM a.rootOf
  let cancellations ← (a.cancellations.map (·.seeds)).mapM a.rootOf
  let restorations ← (a.restorations.map (·.seeds)).mapM a.rootOf
  let roots ← (List.range a.seeds.length).mapM UnionFind.find
  let component? := fun root =>
    let seeds := (a.seeds.zip roots).filterMap fun (seed, other) => if other = root then some seed else none
    let c : Component :=
      ⟨seeds.foldr Seeds.insert [], withRoot root absorbed, withRoot root cancellations, withRoot root restorations⟩
    if c.absorbed.isEmpty && c.cancellations.isEmpty && c.restorations.isEmpty then none else some c
  return (List.range a.seeds.length).filterMap component?

end Analysis

/-- The components, with the consumers of restorations in some order. -/
def components (a : Analysis) (consumers : List OpId) : List Component :=
  (a.collect.run (a.united consumers)).1

/-- The components that are worth while. -/
def accepted (a : Analysis) : List Component :=
  (components a a.consumers).filter (·.isProfitable)

end Relayout.Layout
