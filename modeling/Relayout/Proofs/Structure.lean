import Relayout.Proofs.Permutation
import Relayout.Proofs.Results
import Relayout.WellFormed

/-!
# The structure of blocks

`Block.Sound` is what edits rely on and keep: records are sorted and named apart, everything is defined once and
recorded, and operands are in scope. It says nothing of what operations do. With numbers of operands and permutations
that fit, it is what `Block.check` looks for (`check_eq_ok`).

Scopes follow the list of operations (`Scoped`), so they split where the list does (`scoped_append`) and only grow
(`Scoped.mono`).
-/

namespace Relayout

/-! ## Lists of pairs -/

theorem lookup_eq_some_of_nodup {κ ν : Type} [BEq κ] [LawfulBEq κ] {pairs : List (κ × ν)}
    (h : (pairs.map (·.1)).Nodup) {k : κ} {v : ν} : pairs.lookup k = some v ↔ (k, v) ∈ pairs := by
  induction pairs with
  | nil => simp
  | cons e pairs ih =>
    obtain ⟨k', v'⟩ := e
    simp only [List.map_cons, List.nodup_cons] at h
    rw [List.lookup_cons]
    by_cases hk : k = k'
    · subst hk
      have hnot : ∀ w, (k, w) ∉ pairs := fun w hw => h.1 (List.mem_map_of_mem (f := (·.1)) hw)
      simp [hnot, eq_comm]
    · rw [beq_false_of_ne hk]
      simp [hk, ih h.2]

theorem lookup_isSome {κ ν : Type} [BEq κ] [LawfulBEq κ] {pairs : List (κ × ν)} {k : κ} :
    (pairs.lookup k).isSome ↔ k ∈ pairs.map (·.1) := by
  rw [List.lookup_isSome_iff]
  simp only [List.mem_map, beq_iff_eq]
  exact ⟨fun ⟨p, hp, h⟩ => ⟨p, hp, h.symm⟩, fun ⟨p, hp, h⟩ => ⟨p, hp, h.symm⟩⟩

/-! ## Scopes -/

/-- The results of operations, in order. -/
def results (ops : List Operation) : List ValueId :=
  ops.flatMap (·.outputs)

@[simp] theorem results_nil : results [] = [] := rfl

@[simp] theorem results_cons (op : Operation) (ops : List Operation) :
    results (op :: ops) = op.outputs ++ results ops := rfl

@[simp] theorem results_append (ops ops' : List Operation) : results (ops ++ ops') = results ops ++ results ops' := by
  simp [results]

theorem mem_results {ops : List Operation} {id : ValueId} : id ∈ results ops ↔ ∃ op ∈ ops, id ∈ op.outputs :=
  List.mem_flatMap

/-- Every operand is in scope, and results come into scope for the operations that follow. -/
def Scoped : List ValueId → List Operation → Prop
  | _, [] => True
  | scope, op :: ops => (∀ id ∈ op.inputs, id ∈ scope) ∧ Scoped (scope ++ op.outputs) ops

theorem scoped_append {scope : List ValueId} {ops ops' : List Operation} :
    Scoped scope (ops ++ ops') ↔ Scoped scope ops ∧ Scoped (scope ++ results ops) ops' := by
  induction ops generalizing scope with
  | nil => simp [Scoped]
  | cons op ops ih => simp [Scoped, ih, and_assoc]

theorem Scoped.mono {scope scope' : List ValueId} {ops : List Operation} (hs : ∀ id ∈ scope, id ∈ scope')
    (h : Scoped scope ops) : Scoped scope' ops := by
  induction ops generalizing scope scope' with
  | nil => trivial
  | cons op ops ih =>
    refine ⟨fun id hid => hs id (h.1 id hid), ih (fun id hid => ?_) h.2⟩
    rcases List.mem_append.1 hid with hid | hid
    · exact List.mem_append_left _ (hs id hid)
    · exact List.mem_append_right _ hid

/-- What no operation reads may go out of scope. -/
theorem Scoped.without {scope scope' : List ValueId} {ops : List Operation}
    (hs : ∀ op ∈ ops, ∀ id ∈ op.inputs, id ∈ scope → id ∈ scope') (h : Scoped scope ops) : Scoped scope' ops := by
  induction ops generalizing scope scope' with
  | nil => trivial
  | cons op ops ih =>
    refine ⟨fun id hid => hs op List.mem_cons_self id hid (h.1 id hid), ih (fun o ho id hid hin => ?_) h.2⟩
    rcases List.mem_append.1 hin with hin | hin
    · exact List.mem_append_left _ (hs o (List.mem_cons_of_mem _ ho) id hid hin)
    · exact List.mem_append_right _ hin

theorem Scoped.mem {scope : List ValueId} {ops : List Operation} (h : Scoped scope ops) {op : Operation}
    (hop : op ∈ ops) {id : ValueId} (hid : id ∈ op.inputs) : id ∈ scope ++ results ops := by
  obtain ⟨before, after, rfl⟩ := List.append_of_mem hop
  have := (scoped_append.1 h).2.1 id hid
  simp only [results_append, List.mem_append] at this ⊢
  tauto

/-- What holds in scope, and of results of operations on what it holds of, holds of all results. -/
theorem Scoped.forall {P : ValueId → Prop} {scope : List ValueId} {ops : List Operation} (h : Scoped scope ops)
    (hscope : ∀ id ∈ scope, P id) (hstep : ∀ op ∈ ops, (∀ id ∈ op.inputs, P id) → ∀ id ∈ op.outputs, P id) :
    ∀ id ∈ scope ++ results ops, P id := by
  induction ops generalizing scope with
  | nil => simpa using hscope
  | cons op ops ih =>
    have hop := hstep op List.mem_cons_self fun id hid => hscope id (h.1 id hid)
    rw [results_cons, ← List.append_assoc]
    refine ih h.2 (fun id hid => ?_) fun op' hop' => hstep op' (List.mem_cons_of_mem _ hop')
    exact (List.mem_append.1 hid).elim (hscope id) (hop id)

theorem scoped_iff_usesDefined {b : Block} : Scoped b.inputs b.operations ↔ b.UsesDefined := by
  constructor
  · intro h before op after heq id hid
    rw [heq, scoped_append] at h
    exact h.2.1 id hid
  · intro h
    suffices ∀ after before, b.operations = before ++ after → Scoped (b.inputs ++ results before) after by
      simpa using this b.operations [] rfl
    intro after
    induction after with
    | nil => exact fun _ _ => trivial
    | cons op after ih =>
      intro before heq
      refine ⟨h before op after heq, ?_⟩
      have := ih (before ++ [op]) (by simp [heq])
      simpa using this

/-- The operations around one have other ids. -/
theorem nodup_ids_middle {l r : List Operation} {op : Operation} : ((l ++ op :: r).map (·.id)).Nodup ↔
    (∀ p ∈ l ++ r, p.id ≠ op.id) ∧ ((l ++ r).map (·.id)).Nodup := by
  rw [List.map_append, List.map_cons, List.nodup_middle, List.nodup_cons, ← List.map_append]
  simp only [List.mem_map, not_exists, not_and]

/-! ## Sound blocks -/

/-- What a block defines it defines once, and keeps a record of. -/
structure Block.Registered (b : Block) : Prop where
  sorted : b.values.Pairwise fun r s => r.id.index < s.id.index
  definedOnce : b.defined.Nodup
  recorded : ∀ id, id ∈ b.defined ↔ id ∈ b.values.map (·.id)
  opsOnce : (b.operations.map (·.id)).Nodup

/-- The structure of a block, apart from what its operations do. -/
structure Block.Sound (b : Block) : Prop where
  sorted : b.values.Pairwise fun r s => r.id.index < s.id.index
  names : (b.values.map (·.name)).Nodup
  definedOnce : b.defined.Nodup
  recorded : ∀ id, id ∈ b.defined ↔ id ∈ b.values.map (·.id)
  opsOnce : (b.operations.map (·.id)).Nodup
  scopes : Scoped b.inputs b.operations
  outputsDefined : ∀ id ∈ b.outputs, id ∈ b.defined

/-- The numbers of operands and results are those of the kind. -/
def Operation.FitsArity (op : Operation) : Prop :=
  ∀ arity ∈ op.kind.arity?, arity.admits op.inputs.length ∧ op.outputs.length = 1

/-- A transpose lists each axis of its operand once. -/
def Block.FitsPerm (b : Block) (op : Operation) : Prop :=
  ∀ perm, op.kind = .transpose perm → ∀ id ∈ op.inputs, ∀ type ∈ b.type? id, perm.Perm (List.range type.rank)

namespace Block

variable {b : Block}

theorem mem_defined {id : ValueId} : id ∈ b.defined ↔ id ∈ b.inputs ∨ ∃ op ∈ b.operations, id ∈ op.outputs := by
  rw [defined, List.mem_append, List.mem_flatMap]

theorem defined_eq : b.defined = b.inputs ++ results b.operations := rfl

/-! ## Records -/

theorem value?_isSome {id : ValueId} : (b.value? id).isSome ↔ id ∈ b.values.map (·.id) := by
  simp [value?, Records.find?, List.find?_isSome, List.mem_map]

theorem mem_of_value? {id : ValueId} {r : Value} (h : b.value? id = some r) : r ∈ b.values ∧ r.id = id := by
  have := List.find?_some h
  exact ⟨List.mem_of_find?_eq_some h, by simpa using this⟩

theorem idsNodup (h : b.values.Pairwise fun r s => r.id.index < s.id.index) : (b.values.map (·.id)).Nodup := by
  rw [List.Nodup, List.pairwise_map]
  refine h.imp ?_
  intro r s hlt heq
  rw [heq] at hlt
  exact lt_irrefl _ hlt

theorem value?_eq_some (h : b.values.Pairwise fun r s => r.id.index < s.id.index) {id : ValueId} {r : Value} :
    b.value? id = some r ↔ r ∈ b.values ∧ r.id = id := by
  refine ⟨mem_of_value?, fun ⟨hr, hid⟩ => ?_⟩
  obtain ⟨s, hs⟩ := Option.isSome_iff_exists.1 (value?_isSome.2 (List.mem_map.2 ⟨r, hr, hid⟩))
  obtain ⟨hs', hsid⟩ := mem_of_value? hs
  rw [hs, List.inj_on_of_nodup_map (idsNodup h) hs' hr (by rw [hsid, hid])]

theorem Sound.exists_value (h : b.Sound) {id : ValueId} (hid : id ∈ b.defined) : ∃ r, b.value? id = some r :=
  Option.isSome_iff_exists.1 (value?_isSome.2 ((h.recorded id).1 hid))

theorem Sound.exists_type (h : b.Sound) {id : ValueId} (hid : id ∈ b.defined) : ∃ type, b.type? id = some type := by
  obtain ⟨r, hr⟩ := h.exists_value hid
  exact ⟨r.type, by rw [type?, hr]; rfl⟩

/-! ## Operations -/

theorem Sound.input_defined (h : b.Sound) {op : Operation} (hop : op ∈ b.operations) {id : ValueId}
    (hid : id ∈ op.inputs) : id ∈ b.defined :=
  h.scopes.mem hop hid

theorem Sound.output_defined {op : Operation} (hop : op ∈ b.operations) {id : ValueId} (hid : id ∈ op.outputs) :
    id ∈ b.defined :=
  mem_defined.2 (.inr ⟨op, hop, hid⟩)

theorem Sound.registered (h : b.Sound) : b.Registered :=
  ⟨h.sorted, h.definedOnce, h.recorded, h.opsOnce⟩

/-- An operation is known by its id. -/
theorem Registered.op_ext (h : b.Registered) {op op' : Operation} (hop : op ∈ b.operations) (hop' : op' ∈ b.operations)
    (hid : op.id = op'.id) : op = op' :=
  List.inj_on_of_nodup_map h.opsOnce hop hop' hid

theorem Sound.op_ext (h : b.Sound) {op op' : Operation} (hop : op ∈ b.operations) (hop' : op' ∈ b.operations)
    (hid : op.id = op'.id) : op = op' :=
  h.registered.op_ext hop hop' hid

theorem Registered.mem_others (h : b.Registered) {l r : List Operation} {op : Operation}
    (heq : b.operations = l ++ op :: r) (p : Operation) : p ∈ l ++ r ↔ p ∈ b.operations ∧ p.id ≠ op.id := by
  have hids := h.opsOnce
  rw [heq, nodup_ids_middle] at hids
  rw [heq]
  constructor
  · intro hp
    refine ⟨?_, hids.1 p hp⟩
    simp only [List.mem_append, List.mem_cons] at hp ⊢
    tauto
  · rintro ⟨hp, hne⟩
    simp only [List.mem_append, List.mem_cons] at hp ⊢
    rcases hp with hp | rfl | hp
    · exact .inl hp
    · exact absurd rfl hne
    · exact .inr hp

/-- An operation is known by any of its results. -/
theorem Registered.producer_ext (h : b.Registered) {op op' : Operation} (hop : op ∈ b.operations)
    (hop' : op' ∈ b.operations) {id : ValueId} (hid : id ∈ op.outputs) (hid' : id ∈ op'.outputs) : op = op' := by
  have hnd : (results b.operations).Nodup := (List.nodup_append.1 h.definedOnce).2.1
  rw [results, List.nodup_flatMap] at hnd
  by_contra hne
  have hdisj : Std.Symm (Function.onFun List.Disjoint (fun op : Operation => op.outputs)) := ⟨fun _ _ hd => hd.symm⟩
  exact hnd.2.forall hop hop' hne hid hid'

theorem Sound.producer_ext (h : b.Sound) {op op' : Operation} (hop : op ∈ b.operations) (hop' : op' ∈ b.operations)
    {id : ValueId} (hid : id ∈ op.outputs) (hid' : id ∈ op'.outputs) : op = op' :=
  h.registered.producer_ext hop hop' hid hid'

theorem Sound.input_not_output (h : b.Sound) {op : Operation} (hop : op ∈ b.operations) {id : ValueId}
    (hid : id ∈ op.outputs) : id ∉ b.inputs := by
  intro hin
  exact (List.nodup_append.1 h.definedOnce).2.2 id hin id (mem_results.2 ⟨op, hop, hid⟩) rfl

/-- Operands are in scope. -/
theorem Sound.operand_scope (h : b.Sound) {l r : List Operation} {op : Operation} (heq : b.operations = l ++ op :: r)
    {x : ValueId} (hx : x ∈ op.inputs) : x ∈ b.inputs ++ results l :=
  scoped_iff_usesDefined.1 h.scopes l op r heq x hx

/-- Operands are defined before results. -/
theorem Sound.idxOf_lt (h : b.Sound) {op : Operation} (hop : op ∈ b.operations) {x y : ValueId} (hx : x ∈ op.inputs)
    (hy : y ∈ op.outputs) : b.defined.idxOf x < b.defined.idxOf y := by
  obtain ⟨l, r, heq⟩ := List.append_of_mem hop
  have hx' := h.operand_scope heq hx
  have hdef : b.defined = (b.inputs ++ results l) ++ (op.outputs ++ results r) := by
    rw [defined_eq, heq]
    simp
  have hnd := h.definedOnce
  rw [hdef, List.nodup_append] at hnd
  have hy' : y ∉ b.inputs ++ results l := fun hin => hnd.2.2 y hin y (List.mem_append_left _ hy) rfl
  rw [hdef, List.idxOf_append_of_mem hx', List.idxOf_append_of_notMem hy']
  exact lt_of_lt_of_le (List.idxOf_lt_length_of_mem hx') (Nat.le_add_right _ _)

end Block

end Relayout
