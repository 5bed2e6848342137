/-!
# Union-find

Disjoint sets of numbers, each set a tree in which every node points to its parent and the root to itself. A parent is
never larger than its node, so the root is the least of its set and the way to it is no longer than the node is large.
Finding a root lets every other node on the way point to its grandparent.
-/

namespace Relayout

structure UnionFind where
  parents : List Nat
  parents_le : ∀ node, parents.getD node node ≤ node

namespace UnionFind

/-- Every number below `n` by itself. -/
def ofSize (n : Nat) : UnionFind where
  parents := List.range n
  parents_le node := by
    by_cases h : node < n <;> simp [List.getD_eq_getElem?_getD, h]

def parent (u : UnionFind) (node : Nat) : Nat :=
  u.parents.getD node node

/-- Lets a node point to another one. -/
def link (u : UnionFind) (node target : Nat) (h : target ≤ node) : UnionFind where
  parents := u.parents.set node target
  parents_le other := by
    have := u.parents_le other
    simp only [List.getD_eq_getElem?_getD, List.getElem?_set] at this ⊢
    grind

/-- The root of a node, with the paths shortened on the way. -/
def find (node : Nat) (u : UnionFind) : Nat × UnionFind :=
  let next := u.parent (u.parent node)
  if h : u.parent node = node then (node, u)
  else
    have hnext : next < node :=
      Nat.lt_of_le_of_lt (u.parents_le _) (Nat.lt_of_le_of_ne (u.parents_le node) h)
    find next (u.link node next (Nat.le_of_lt hnext))
  termination_by node

/-- Makes one set of the sets of two nodes. -/
def union (a b : Nat) (u : UnionFind) : UnionFind :=
  let (rootA, u) := u.find a
  let (rootB, u) := u.find b
  if rootA = rootB then u
  else u.link (max rootA rootB) (min rootA rootB) (Nat.le_trans (Nat.min_le_left ..) (Nat.le_max_left ..))

/-- Makes one set of the sets of several nodes. -/
def unionAll (nodes : List Nat) (u : UnionFind) : UnionFind :=
  match nodes with
  | [] => u
  | first :: rest => rest.foldl (fun u node => u.union first node) u

end UnionFind

end Relayout
