import Relayout.Layout.Component
import Relayout.Proofs.Absorption
import Relayout.Proofs.Structure

/-!
# Regions

A region is an analysis together with what is pending on the values of a block. `Describes` says that the two fit: every
record of the analysis is about an operation of the block that does what the record says, and every operation that no
record is about either hands on what is pending on its operand or has all of its pending operands restored.

Nothing here is about the order of operations or about how the analysis was found, so a region still fits after another
one has been taken out of the block. Types only matter where an operand is neither pending nor constant, and only if
they are up to date; a region is `typed` then.

The transposes of a region that go away take their operands for their results (`Bypass`). Following them ends, as
operands are defined before results, and it ends in one value only (`Leads.unique`).
-/

namespace Relayout

namespace Layout

/-! ## Sets of seeds -/

namespace Seeds

theorem mem_insert {o id : OpId} {seeds : Seeds} : id ∈ insert o seeds ↔ id = o ∨ id ∈ seeds := by
  induction seeds with
  | nil => simp [insert]
  | cons t seeds ih =>
    rw [insert]
    split
    · simp
    · split
      · rename_i he
        simp [he]
      · simp only [List.mem_cons, ih]
        tauto

theorem mem_union {seeds seeds' : Seeds} {id : OpId} : id ∈ union seeds seeds' ↔ id ∈ seeds ∨ id ∈ seeds' := by
  induction seeds with
  | nil => simp [union]
  | cons o seeds ih =>
    rw [union] at ih
    rw [union, List.foldr_cons, mem_insert, ih, List.mem_cons, or_assoc]

theorem mem_ofList {ids : List OpId} {id : OpId} : id ∈ ids.foldr insert [] ↔ id ∈ ids := by
  have h := @mem_union ids [] id
  simpa [union] using h

end Seeds

/-! ## What an analysis names -/

/-- The transposes that go away. -/
def Analysis.removed (a : Analysis) : List OpId :=
  a.seeds ++ a.cancellations.map (·.op)

/-- The operations that a record is about. -/
def Analysis.marked (a : Analysis) : List OpId :=
  a.removed ++ a.absorbed.map (·.op)

/-- What an operand looks like to the operation that reads it. -/
inductive Viewed (typed : Prop) (b : Block) (pend : ValueId → Option Pending) (v : ValueId) : View → Prop
  | pending {q : Pending} (h : pend v = some q) : Viewed typed b pend v (.pending q.perm)
  | constant {op : Operation} {literal : Literal} (h : pend v = none) (hop : op ∈ b.operations)
    (hout : op.outputs = [v]) (hkind : op.kind = .const literal) : Viewed typed b pend v (.constant literal)
  | concrete {type : TensorType} (h : pend v = none) (ht : typed → ∃ t, b.type? v = some t ∧ t.rank = type.rank) :
    Viewed typed b pend v (.concrete type)

theorem Viewed.congr {typed : Prop} {b : Block} {pend pend' : ValueId → Option Pending} {v : ValueId} {view : View}
    (h : Viewed typed b pend v view) (he : pend' v = pend v) : Viewed typed b pend' v view := by
  cases h with
  | pending h => exact .pending (he.trans h)
  | constant h hop hout hk => exact .constant (he.trans h) hop hout hk
  | concrete h ht => exact .concrete (he.trans h) ht

section Roles

variable (typed : Prop) (b : Block) (a : Analysis) (pend : ValueId → Option Pending) (o : Operation)

/-- A transpose of a value in its declared layout, the result of which is pending. -/
def IsSeed : Prop :=
  ∃ x y p, o.kind = .transpose p ∧ o.inputs = [x] ∧ o.outputs = [y] ∧ pend x = none ∧ pend y = some ⟨p, [o.id]⟩ ∧
    y ∉ b.outputs

/-- A transpose that undoes what is pending. -/
def IsCancellation (seeds : Seeds) : Prop :=
  ∃ x y p q, o.kind = .transpose q ∧ o.inputs = [x] ∧ o.outputs = [y] ∧ pend x = some ⟨p, seeds⟩ ∧
    Perm.cancels p q ∧ pend y = none

/-- An operation that runs on untransposed data as a record says. -/
def Absorbs (record : Absorbed) : Prop :=
  ∃ views p, List.Forall₂ (Viewed typed b pend) o.inputs views ∧ absorb o.kind views p = .ok record.absorption ∧
    (∀ y ∈ o.outputs, pend y = record.absorption.outputPerm.map (⟨·, record.seeds⟩)) ∧
    ∀ x ∈ o.inputs, ∀ q, pend x = some q → q.seeds ⊆ record.seeds

/-- An operation that hands on what is pending on its operand. -/
def Passes : Prop :=
  ∃ x y q, o.kind.isPointwise ∧ o.inputs = [x] ∧ o.outputs = [y] ∧ pend x = some q ∧ pend y = some q

/-- An operation that has all of its pending operands restored, if there are any. -/
def Keeps : Prop :=
  (∀ x ∈ o.inputs, ∀ q, pend x = some q →
    ∃ r ∈ a.restorations, r.value = x ∧ ∃ slots, r.consumer = .op o.id slots) ∧
    ∀ y ∈ o.outputs, pend y = none

/-- A restoration of a pending value for an operation that keeps its kind, or for the outputs of the block. -/
def Restores (r : Restoration) : Prop :=
  pend r.value = some ⟨r.perm, r.seeds⟩ ∧
    match r.consumer with
    | .op id slots => ∃ o ∈ b.operations, o.id = id ∧ id ∉ a.marked ∧ r.value ∈ o.inputs ∧
        slots = Sweep.slotsOf o.inputs r.value ∧ (∀ y ∈ o.outputs, pend y = none) ∧ o.kind.isConst = false
    | .output slots => r.value ∈ b.outputs ∧ slots = Sweep.slotsOf b.outputs r.value

end Roles

/-- An analysis and what is pending on the values of a block fit together. -/
structure Describes (typed : Prop) (a : Analysis) (b : Block) (pend : ValueId → Option Pending) : Prop where
  seeds : ∀ id ∈ a.seeds, ∃ o ∈ b.operations, o.id = id ∧ IsSeed b pend o
  cancellations : ∀ c ∈ a.cancellations, ∃ o ∈ b.operations, o.id = c.op ∧ IsCancellation pend o c.seeds
  absorbed : ∀ r ∈ a.absorbed, ∃ o ∈ b.operations, o.id = r.op ∧ Absorbs typed b pend o r
  restorations : ∀ r ∈ a.restorations, Restores b a pend r
  others : ∀ o ∈ b.operations, o.id ∉ a.marked → Passes pend o ∨ Keeps a pend o
  outputs : ∀ v ∈ b.outputs, ∀ q, pend v = some q →
    ∃ r ∈ a.restorations, r.value = v ∧ ∃ slots, r.consumer = .output slots
  inputs : ∀ v ∈ b.inputs, pend v = none
  defined : ∀ v q, pend v = some q → v ∈ b.defined
  markedOnce : a.marked.Nodup
  restoredOnce : (a.restorations.map fun r => (r.value, r.consumer.op?)).Nodup

section Roles

variable {typed : Prop} {b : Block} {pend : ValueId → Option Pending}

/-- An operation that absorbs has an operand with something pending. -/
theorem Absorbs.exists_pending {o : Operation} {r : Absorbed} (h : Absorbs typed b pend o r) :
    ∃ x ∈ o.inputs, ∃ q, pend x = some q ∧ q.seeds ⊆ r.seeds := by
  obtain ⟨views, p, hviews, habs, _, hsub⟩ := h
  obtain ⟨q, hq⟩ := (absorb_cases habs).1.1
  obtain ⟨i, hi, hget⟩ := List.mem_iff_getElem.1 hq
  have hi' : i < o.inputs.length := by rw [hviews.length_eq]; exact hi
  have hview := hviews.get hi' hi
  rw [List.get_eq_getElem, List.get_eq_getElem, hget] at hview
  cases hview with
  | pending h => exact ⟨_, List.getElem_mem hi', _, h, hsub _ (List.getElem_mem hi') _ h⟩

end Roles

namespace Describes

variable {typed : Prop} {a : Analysis} {b : Block} {pend : ValueId → Option Pending} {o : Operation}

/-! ## Operations by their records -/

theorem isSeed (h : Describes typed a b pend) (hs : b.Sound) (ho : o ∈ b.operations) (hid : o.id ∈ a.seeds) :
    IsSeed b pend o := by
  obtain ⟨p, hp, he, hseed⟩ := h.seeds o.id hid
  rw [← hs.op_ext hp ho he]
  exact hseed

theorem isCancellation (h : Describes typed a b pend) (hs : b.Sound) (ho : o ∈ b.operations) {c : Cancellation}
    (hc : c ∈ a.cancellations) (hid : c.op = o.id) : IsCancellation pend o c.seeds := by
  obtain ⟨p, hp, he, hcancel⟩ := h.cancellations c hc
  rw [← hs.op_ext hp ho (he.trans hid)]
  exact hcancel

theorem absorbs (h : Describes typed a b pend) (hs : b.Sound) (ho : o ∈ b.operations) {r : Absorbed}
    (hr : r ∈ a.absorbed) (hid : r.op = o.id) : Absorbs typed b pend o r := by
  obtain ⟨p, hp, he, habs⟩ := h.absorbed r hr
  rw [← hs.op_ext hp ho (he.trans hid)]
  exact habs

/-- An operation that goes away is a transpose with one operand and one result. The result is pending if the operand is
not, and the other way round, and only that of a cancellation may be returned. -/
theorem of_removed (h : Describes typed a b pend) (hs : b.Sound) (ho : o ∈ b.operations) (hid : o.id ∈ a.removed) :
    ∃ x y p, o.kind = .transpose p ∧ o.inputs = [x] ∧ o.outputs = [y] ∧
      ((pend x = none ∧ y ∉ b.outputs) ∨ pend y = none) := by
  rcases List.mem_append.1 hid with hid | hid
  · obtain ⟨x, y, p, hk, hi, ho', hx, _, hy⟩ := h.isSeed hs ho hid
    exact ⟨x, y, p, hk, hi, ho', .inl ⟨hx, hy⟩⟩
  · obtain ⟨c, hc, he⟩ := List.mem_map.1 hid
    obtain ⟨x, y, p, q, hk, hi, ho', _, _, hy⟩ := h.isCancellation hs ho hc he
    exact ⟨x, y, q, hk, hi, ho', .inr hy⟩

theorem exists_of_removed (h : Describes typed a b pend) {id : OpId} (hid : id ∈ a.removed) :
    ∃ o ∈ b.operations, o.id = id := by
  rcases List.mem_append.1 hid with hid | hid
  · obtain ⟨o, ho, he, _⟩ := h.seeds id hid
    exact ⟨o, ho, he⟩
  · obtain ⟨c, hc, rfl⟩ := List.mem_map.1 hid
    obtain ⟨o, ho, he, _⟩ := h.cancellations c hc
    exact ⟨o, ho, he⟩

end Describes

/-! ## Following the operands of what goes away -/

/-- `y` is the result of an operation that goes away, and `x` its operand. -/
def Bypass (a : Analysis) (b : Block) (y x : ValueId) : Prop :=
  ∃ o ∈ b.operations, o.id ∈ a.removed ∧ o.inputs = [x] ∧ o.outputs = [y]

/-- From a value to one that is read in its place. -/
abbrev Leads (a : Analysis) (b : Block) : ValueId → ValueId → Prop :=
  Relation.ReflTransGen (Bypass a b)

section Bypass

variable {a : Analysis} {b : Block} {x y z : ValueId}

theorem Bypass.right_unique (hs : b.Sound) (h : Bypass a b y x) (h' : Bypass a b y z) : x = z := by
  obtain ⟨o, ho, _, hi, hout⟩ := h
  obtain ⟨p, hp, _, hi', hout'⟩ := h'
  have he : o = p := hs.producer_ext ho hp (by rw [hout]; exact List.mem_singleton_self y)
    (by rw [hout']; exact List.mem_singleton_self y)
  subst he
  rw [hi] at hi'
  exact List.head_eq_of_cons_eq hi'

theorem Bypass.idxOf_lt (hs : b.Sound) (h : Bypass a b y x) : b.defined.idxOf x < b.defined.idxOf y := by
  obtain ⟨o, ho, _, hi, hout⟩ := h
  exact hs.idxOf_lt ho (by rw [hi]; exact List.mem_singleton_self x) (by rw [hout]; exact List.mem_singleton_self y)

theorem Bypass.defined (hs : b.Sound) (h : Bypass a b y x) : x ∈ b.defined := by
  obtain ⟨o, ho, _, hi, _⟩ := h
  exact hs.input_defined ho (by rw [hi]; exact List.mem_singleton_self x)

theorem Bypass.source_defined (h : Bypass a b y x) : y ∈ b.defined := by
  obtain ⟨o, ho, _, _, hout⟩ := h
  exact Block.Sound.output_defined ho (by rw [hout]; exact List.mem_singleton_self y)

theorem Leads.defined (hs : b.Sound) (hy : y ∈ b.defined) (h : Leads a b y x) : x ∈ b.defined := by
  induction h with
  | refl => exact hy
  | tail _ hstep _ => exact hstep.defined hs

theorem Leads.idxOf_lt (hs : b.Sound) (h : Relation.TransGen (Bypass a b) y x) :
    b.defined.idxOf x < b.defined.idxOf y := by
  induction h with
  | single hstep => exact hstep.idxOf_lt hs
  | tail _ hstep ih => exact (hstep.idxOf_lt hs).trans ih

/-- Only results of operations that go away lead anywhere. -/
theorem Leads.eq_self (hs : b.Sound) {p : Operation} (hp : p ∈ b.operations) (hy : y ∈ p.outputs)
    (hnot : p.id ∉ a.removed) (h : Leads a b y x) : x = y := by
  rcases Relation.ReflTransGen.cases_head h with he | ⟨t, ⟨o, ho, hid, _, hout⟩, _⟩
  · exact he.symm
  · have he : o = p := hs.producer_ext ho hp (by rw [hout]; exact List.mem_singleton_self y) hy
    exact absurd (he ▸ hid) hnot

/-- A value that is followed no further is the only one of its kind. -/
theorem Leads.unique (hs : b.Sound) (hx : Leads a b y x) (hz : Leads a b y z) (hx' : ∀ w, ¬Bypass a b x w)
    (hz' : ∀ w, ¬Bypass a b z w) : x = z := by
  have hstop : ∀ {u w}, (∀ t, ¬Bypass a b u t) → Leads a b u w → u = w := fun hu hl => by
    rcases Relation.ReflTransGen.cases_head hl with he | ⟨t, ht, _⟩
    · exact he
    · exact absurd ht (hu t)
  rcases Relation.ReflTransGen.total_of_right_unique (fun _ _ _ h h' => h.right_unique hs h') hx hz with h | h
  · exact hstop hx' h
  · exact (hstop hz' h).symm

end Bypass

end Layout

end Relayout
