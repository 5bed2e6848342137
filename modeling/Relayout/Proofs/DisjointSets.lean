import Mathlib
import Relayout.UnionFind

/-!
# Roots and sets

The sets of a `UnionFind` are given by its roots: two nodes are in one set if they have the same root (`Same`). Finding a
root shortens paths and changes no root (`find_spec`), and a union lets the nodes of one root have another (`root_union`).
So what is in one set after all members of some groups have been united is what a chain through the groups connects
(`same_united`).
-/

namespace Relayout.UnionFind

open Relation (EqvGen ReflTransGen)

variable {u v w : UnionFind} {m n node target : Nat}

/-- Where the parents of a node lead to. -/
def root (u : UnionFind) (node : Nat) : Nat :=
  if h : u.parent node = node then node
  else
    have : u.parent node < node := Nat.lt_of_le_of_ne (u.parents_le node) h
    u.root (u.parent node)
  termination_by node

theorem root_of_parent_eq (h : u.parent node = node) : u.root node = node := by
  rw [root, dif_pos h]

theorem root_parent (u : UnionFind) (node : Nat) : u.root (u.parent node) = u.root node := by
  by_cases h : u.parent node = node
  · rw [h]
  · rw [root.eq_def u node, dif_neg h]

theorem root_le (u : UnionFind) (node : Nat) : u.root node ≤ node := by
  induction node using Nat.strongRecOn with
  | ind node ih =>
    by_cases h : u.parent node = node
    · rw [root_of_parent_eq h]
    · have hlt : u.parent node < node := lt_of_le_of_ne (u.parents_le node) h
      rw [← root_parent]
      exact (ih _ hlt).trans hlt.le

/-- A root is its own parent. -/
theorem parent_root (u : UnionFind) (node : Nat) : u.parent (u.root node) = u.root node := by
  induction node using Nat.strongRecOn with
  | ind node ih =>
    by_cases h : u.parent node = node
    · rw [root_of_parent_eq h, h]
    · rw [← root_parent]
      exact ih _ (lt_of_le_of_ne (u.parents_le node) h)

theorem root_root (u : UnionFind) (node : Nat) : u.root (u.root node) = u.root node :=
  root_of_parent_eq (u.parent_root node)

/-- Two nodes are in one set. -/
def Same (u : UnionFind) (m n : Nat) : Prop :=
  u.root m = u.root n

/-- The nodes and their roots are the same. -/
structure Alike (u v : UnionFind) : Prop where
  size : v.parents.length = u.parents.length
  root : ∀ m, v.root m = u.root m

theorem Alike.refl (u : UnionFind) : u.Alike u :=
  ⟨rfl, fun _ => rfl⟩

theorem Alike.trans (h : u.Alike v) (h' : v.Alike w) : u.Alike w :=
  ⟨h'.size.trans h.size, fun m => (h'.root m).trans (h.root m)⟩

/-! ## Links -/

theorem parent_link (h : target ≤ node) (hlt : node < u.parents.length) (m : Nat) :
    (u.link node target h).parent m = if m = node then target else u.parent m := by
  simp only [parent, link, List.getD_eq_getElem?_getD, List.getElem?_set]
  grind

theorem length_link (h : target ≤ node) : (u.link node target h).parents.length = u.parents.length :=
  List.length_set

/-- A node may as well point to another one of its set. -/
theorem alike_link (h : target < node) (hlt : node < u.parents.length) (hsame : u.Same target node) :
    u.Alike (u.link node target h.le) := by
  refine ⟨length_link h.le, fun m => ?_⟩
  induction m using Nat.strongRecOn with
  | ind m ih =>
    rw [← root_parent, ← root_parent u m, parent_link h.le hlt]
    split
    · rename_i hm
      subst hm
      rw [ih target h, hsame, root_parent]
    · by_cases hp : u.parent m = m
      · rw [hp, root_of_parent_eq (by rw [parent_link h.le hlt, if_neg ‹_›, hp]), root_of_parent_eq hp]
      · exact ih _ (lt_of_le_of_ne (u.parents_le m) hp)

/-- Where one root points to another, the nodes of the one have the other. -/
theorem root_link (h : target < node) (hlt : node < u.parents.length) (hnode : u.parent node = node)
    (htarget : u.parent target = target) (m : Nat) :
    (u.link node target h.le).root m = if u.root m = node then target else u.root m := by
  induction m using Nat.strongRecOn with
  | ind m ih =>
    rw [← root_parent, parent_link h.le hlt]
    split
    · rename_i hm
      subst hm
      rw [ih target h, root_of_parent_eq htarget, root_of_parent_eq hnode, if_neg h.ne, if_pos rfl]
    · rename_i hm
      by_cases hp : u.parent m = m
      · rw [hp, root_of_parent_eq (by rw [parent_link h.le hlt, if_neg hm, hp]), root_of_parent_eq hp, if_neg hm]
      · rw [ih (u.parent m) (lt_of_le_of_ne (u.parents_le m) hp), root_parent]

/-! ## Finding and uniting -/

/-- The root is found, and all roots stay. -/
theorem find_spec (node : Nat) (u : UnionFind) : (u.find node).1 = u.root node ∧ u.Alike (u.find node).2 := by
  induction node using Nat.strongRecOn generalizing u with
  | ind node ih =>
    rw [find]
    dsimp only
    split
    · rename_i h
      exact ⟨(root_of_parent_eq h).symm, .refl u⟩
    · rename_i h
      have hnext : u.parent (u.parent node) < node :=
        (u.parents_le _).trans_lt (lt_of_le_of_ne (u.parents_le node) h)
      have hlt : node < u.parents.length := by
        by_contra hge
        exact h (List.getD_eq_default _ _ (not_lt.1 hge))
      have hsame : u.Same (u.parent (u.parent node)) node := by rw [Same, root_parent, root_parent]
      have hlink := alike_link hnext hlt hsame
      obtain ⟨hroot, halike⟩ := ih _ hnext (u.link node _ hnext.le)
      exact ⟨by rw [hroot, hlink.root, hsame], hlink.trans halike⟩

theorem length_union (a b : Nat) (u : UnionFind) : (u.union a b).parents.length = u.parents.length := by
  have ha := (find_spec a u).2.size
  have hb := (find_spec b (u.find a).2).2.size
  rw [union]
  dsimp only
  split
  · exact hb.trans ha
  · rw [length_link]
    exact hb.trans ha

/-- Of two roots that are united the smaller one stays. -/
theorem root_union {a b : Nat} (ha : a < u.parents.length) (hb : b < u.parents.length) (m : Nat) :
    (u.union a b).root m =
      if u.root m = max (u.root a) (u.root b) then min (u.root a) (u.root b) else u.root m := by
  obtain ⟨hroot, halike⟩ := find_spec a u
  obtain ⟨hroot', halike'⟩ := find_spec b (u.find a).2
  have hall := halike.trans halike'
  rw [halike.root] at hroot'
  rw [union]
  dsimp only
  rw [hroot, hroot']
  split
  · rename_i heq
    rw [hall.root, heq, max_self, min_self]
    split
    · assumption
    · rfl
  · rename_i hne
    have hfixed : ∀ i, ((u.find a).2.find b).2.parent (u.root i) = u.root i := fun i => by
      rw [← hall.root i]
      exact parent_root ..
    have hmax : max (u.root a) (u.root b) < ((u.find a).2.find b).2.parents.length := by
      rw [hall.size]
      exact max_lt ((u.root_le a).trans_lt ha) ((u.root_le b).trans_lt hb)
    rw [root_link (by omega) hmax, hall.root]
    · rcases max_choice (u.root a) (u.root b) with h | h <;> rw [h] <;> exact hfixed _
    · rcases min_choice (u.root a) (u.root b) with h | h <;> rw [h] <;> exact hfixed _

section Union

variable {a b : Nat} (ha : a < u.parents.length) (hb : b < u.parents.length)

include ha hb

theorem Same.union (h : u.Same m n) : (u.union a b).Same m n := by
  rw [Same, root_union ha hb, root_union ha hb, h]

theorem same_union : (u.union a b).Same a b := by
  rw [Same, root_union ha hb, root_union ha hb]
  grind

/-- Sets grow only by being united. -/
theorem Same.of_union (h : (u.union a b).Same m n) :
    u.Same m n ∨ (u.Same m a ∧ u.Same b n) ∨ (u.Same m b ∧ u.Same a n) := by
  rw [Same, root_union ha hb, root_union ha hb] at h
  simp only [Same]
  grind

end Union

/-! ## Groups -/

/-- The unions that bring a group into one set. -/
def edges : List Nat → List (Nat × Nat)
  | [] => []
  | first :: rest => rest.map (first, ·)

theorem unionAll_eq_foldl (nodes : List Nat) (u : UnionFind) :
    u.unionAll nodes = (edges nodes).foldl (fun u e => u.union e.1 e.2) u := by
  cases nodes with
  | nil => rfl
  | cons first rest => rw [unionAll, edges, List.foldl_map]

theorem foldl_unionAll_eq (groups : List (List Nat)) (u : UnionFind) :
    groups.foldl (fun u nodes => u.unionAll nodes) u =
      (groups.flatMap edges).foldl (fun u e => u.union e.1 e.2) u := by
  rw [List.foldl_flatMap]
  congr 1
  funext u nodes
  exact unionAll_eq_foldl nodes u

/-- After unions, a set is what sets and unions connect. -/
theorem same_foldl_union {es : List (Nat × Nat)} (hes : ∀ e ∈ es, e.1 < u.parents.length ∧ e.2 < u.parents.length) :
    (es.foldl (fun u e => u.union e.1 e.2) u).Same m n ↔ EqvGen (fun m n => u.Same m n ∨ (m, n) ∈ es) m n := by
  have heqv : ∀ u : UnionFind, Equivalence u.Same := fun u => ⟨fun _ => rfl, Eq.symm, Eq.trans⟩
  induction es generalizing u with
  | nil =>
    simp only [List.not_mem_nil, or_false]
    exact (heqv u).eqvGen_iff.symm
  | cons e es ih =>
    obtain ⟨⟨ha, hb⟩, hes⟩ := List.forall_mem_cons.1 hes
    have hrest : ∀ e' ∈ es, e'.1 < (u.union e.1 e.2).parents.length ∧ e'.2 < (u.union e.1 e.2).parents.length := by
      rw [length_union]
      exact hes
    have hclosed := EqvGen.is_equivalence fun m n => u.Same m n ∨ (m, n) ∈ e :: es
    have hclosed' := EqvGen.is_equivalence fun m n => (u.union e.1 e.2).Same m n ∨ (m, n) ∈ es
    have hedge : EqvGen (fun m n => u.Same m n ∨ (m, n) ∈ e :: es) e.1 e.2 := .rel _ _ (.inr List.mem_cons_self)
    have hsame : ∀ {i j}, u.Same i j → EqvGen (fun m n => u.Same m n ∨ (m, n) ∈ e :: es) i j := fun h => .rel _ _ (.inl h)
    refine (ih hrest).trans ⟨?_, ?_⟩
    · refine fun h => hclosed.eqvGen_iff.1 (h.mono ?_)
      rintro i j (h | h)
      · rcases h.of_union ha hb with h | ⟨h, h'⟩ | ⟨h, h'⟩
        · exact hsame h
        · exact hclosed.trans (hclosed.trans (hsame h) hedge) (hsame h')
        · exact hclosed.trans (hclosed.trans (hsame h) (hclosed.symm hedge)) (hsame h')
      · exact .rel _ _ (.inr (List.mem_cons_of_mem _ h))
    · refine fun h => hclosed'.eqvGen_iff.1 (h.mono ?_)
      rintro i j (h | h)
      · exact .rel _ _ (.inl (h.union ha hb))
      · rcases List.mem_cons.1 h with rfl | h
        · exact .rel _ _ (.inl (same_union ha hb))
        · exact .rel _ _ (.inr h)

theorem same_ofSize {size : Nat} : (ofSize size).Same m n ↔ m = n := by
  have hroot : ∀ i, (ofSize size).root i = i := fun i => by
    refine root_of_parent_eq ?_
    by_cases h : i < size <;> simp [parent, ofSize, List.getD_eq_getElem?_getD, h]
  rw [Same, hroot, hroot]

/-- Two nodes are in one group. -/
def Meet (groups : List (List Nat)) (m n : Nat) : Prop :=
  ∃ group ∈ groups, m ∈ group ∧ n ∈ group

/-- A union is of two members of a group. -/
theorem meet_of_mem_edges {groups : List (List Nat)} {e : Nat × Nat} (he : e ∈ groups.flatMap edges) :
    Meet groups e.1 e.2 := by
  obtain ⟨group, hg, he⟩ := List.mem_flatMap.1 he
  refine ⟨group, hg, ?_⟩
  cases group with
  | nil => cases he
  | cons first rest =>
    obtain ⟨i, hi, rfl⟩ := List.mem_map.1 he
    exact ⟨List.mem_cons_self, List.mem_cons_of_mem _ hi⟩

theorem equivalence_chain (groups : List (List Nat)) : Equivalence (ReflTransGen (Meet groups)) := by
  have hsymm : Std.Symm (Meet groups) := by
    refine ⟨?_⟩
    rintro _ _ ⟨group, hg, hm, hn⟩
    exact ⟨group, hg, hn, hm⟩
  exact ⟨fun _ => .refl, fun {_ _} h => ReflTransGen.stdSymm.symm _ _ h, ReflTransGen.trans⟩

theorem eqvGen_edges {group : List Nat} {R : Nat → Nat → Prop} (hR : Equivalence R) (h : ∀ e ∈ edges group, R e.1 e.2)
    (hm : m ∈ group) (hn : n ∈ group) : R m n := by
  cases group with
  | nil => cases hm
  | cons first rest =>
    have hfirst : ∀ i ∈ first :: rest, R first i := by
      refine List.forall_mem_cons.2 ⟨hR.refl first, fun i hi => h (first, i) (List.mem_map_of_mem hi)⟩
    exact hR.trans (hR.symm (hfirst m hm)) (hfirst n hn)

/-- Once the members of all groups have been united, two nodes are in one set if and only if a chain through groups leads
from one to the other. -/
theorem same_united {size : Nat} {groups : List (List Nat)} (hgroups : ∀ group ∈ groups, ∀ i ∈ group, i < size) :
    (groups.foldl (fun u nodes => u.unionAll nodes) (ofSize size)).Same m n ↔ ReflTransGen (Meet groups) m n := by
  have hsize : (ofSize size).parents.length = size := List.length_range
  have hbounds : ∀ e ∈ groups.flatMap edges,
      e.1 < (ofSize size).parents.length ∧ e.2 < (ofSize size).parents.length := fun e he => by
    obtain ⟨group, hg, h₁, h₂⟩ := meet_of_mem_edges he
    rw [hsize]
    exact ⟨hgroups group hg _ h₁, hgroups group hg _ h₂⟩
  have hchain := equivalence_chain groups
  have hgen := EqvGen.is_equivalence fun m n => (ofSize size).Same m n ∨ (m, n) ∈ groups.flatMap edges
  rw [foldl_unionAll_eq, same_foldl_union hbounds]
  constructor
  · refine fun h => hchain.eqvGen_iff.1 (h.mono ?_)
    rintro i j (h | h)
    · rw [same_ofSize.1 h]
    · exact .single (meet_of_mem_edges h)
  · intro h
    induction h with
    | refl => exact hgen.refl m
    | tail _ hlink ih =>
      obtain ⟨group, hg, hi, hj⟩ := hlink
      refine hgen.trans ih (eqvGen_edges hgen (fun e he => ?_) hi hj)
      exact .rel _ _ (.inr (List.mem_flatMap.2 ⟨group, hg, he⟩))

/-- The root of a node is the first one of its set, so roots are known from sets. -/
theorem root_eq_of_same {size : Nat} (h : ∀ i j, i < size → j < size → (u.Same i j ↔ v.Same i j)) (hm : m < size) :
    u.root m = v.root m := by
  have hle : ∀ {u v : UnionFind}, (∀ i j, i < size → j < size → (u.Same i j ↔ v.Same i j)) → v.root m ≤ u.root m :=
    fun {u v} h => by
      have hsame : v.Same m (u.root m) := (h m _ hm ((u.root_le m).trans_lt hm)).1 (u.root_root m).symm
      rw [hsame]
      exact v.root_le _
  exact le_antisymm (hle fun i j hi hj => (h i j hi hj).symm) (hle h)

/-! ## Several searches -/

/-- What is found one after another are the roots that there were at first. -/
theorem run_mapM {α β : Type} {f : α → StateM UnionFind β} {g : α → β}
    (h : ∀ x v, u.Alike v → ((f x).run v).1 = g x ∧ u.Alike ((f x).run v).2) (xs : List α) :
    ∀ {v : UnionFind}, u.Alike v → ((xs.mapM f).run v).1 = xs.map g ∧ u.Alike ((xs.mapM f).run v).2 := by
  induction xs with
  | nil => exact fun hv => ⟨rfl, hv⟩
  | cons x xs ih =>
    intro v hv
    obtain ⟨hx, hv'⟩ := h x v hv
    obtain ⟨hxs, hv''⟩ := ih hv'
    rw [List.mapM_cons]
    refine ⟨?_, hv''⟩
    rw [List.map_cons, ← hx, ← hxs]
    rfl

end Relayout.UnionFind
