import Relayout.Proofs.Cost
import Relayout.Proofs.Padding

/-!
# What transpose reduction leaves alone

Transposes and constants come and go, and identities come. Every other operation stays where it is among the others, with
its results and its number of operands, and runs with the attributes that it had, moved to other axes at most
(`OpKind.Keeps`, `absorb_keeps`). So does what the block shows to the outside: name and inputs, which outputs are the same
value or an input, and the names of outputs, unless they look like names that edits make up (`Facing`).

All this is a relation between the blocks before and after one component (`Spliced.framed`, `Spliced.facing`), and such
relations hold of a whole run if they are reflexive and transitive (`reduceTransposes_relates`).
-/

namespace Relayout

/-! ## Kinds -/

/-- What stays of the kind of an operation: all of it, or all but the axes that its attributes are about. -/
def OpKind.Keeps (kind kind' : OpKind) : Prop :=
  match kind with
  | .reduce spec => ∃ axes, axes.length = spec.axes.length ∧ kind' = .reduce { spec with axes := axes }
  | .concat _ => ∃ axis, kind' = .concat axis
  | .pad spec => ∃ amounts, (pairs amounts).Perm (pairs spec.amounts) ∧ kind' = .pad { spec with amounts := amounts }
  | _ => kind' = kind

namespace OpKind

variable {kind kind' kind'' : OpKind}

theorem Keeps.refl (kind : OpKind) : kind.Keeps kind := by
  cases kind with
  | reduce spec => exact ⟨spec.axes, rfl, rfl⟩
  | concat axis => exact ⟨axis, rfl⟩
  | pad spec => exact ⟨spec.amounts, .refl _, rfl⟩
  | _ => exact rfl

theorem Keeps.trans (h : kind.Keeps kind') (h' : kind'.Keeps kind'') : kind.Keeps kind'' := by
  cases kind with
  | reduce spec =>
    obtain ⟨axes, hlen, rfl⟩ := h
    obtain ⟨axes', hlen', rfl⟩ := h'
    exact ⟨axes', hlen'.trans hlen, rfl⟩
  | concat axis =>
    obtain ⟨axis', rfl⟩ := h
    exact h'
  | pad spec =>
    obtain ⟨amounts, hperm, rfl⟩ := h
    obtain ⟨amounts', hperm', rfl⟩ := h'
    exact ⟨amounts', hperm'.trans hperm, rfl⟩
  | _ =>
    cases h
    exact h'

/-- Neither a transpose nor a constant. -/
def isEssential (kind : OpKind) : Bool :=
  !kind.isTranspose && !kind.isConst

theorem Keeps.isEssential (h : kind.Keeps kind') : kind'.isEssential = kind.isEssential := by
  cases kind with
  | reduce spec =>
    obtain ⟨_, _, rfl⟩ := h
    rfl
  | concat axis =>
    obtain ⟨_, rfl⟩ := h
    rfl
  | pad spec =>
    obtain ⟨_, _, rfl⟩ := h
    rfl
  | _ =>
    cases h
    rfl

/-- The kinds that come in. -/
def IsInserted (kind : OpKind) : Prop :=
  kind.isTranspose ∨ kind.isConst ∨ kind = .unary .identity

theorem isInserted_of_not_isEssential (h : kind.isEssential = false) : kind.IsInserted := by
  rw [OpKind.isEssential, Bool.and_eq_false_iff, Bool.not_eq_false', Bool.not_eq_false'] at h
  rcases h with h | h
  · exact .inl h
  · exact .inr (.inl h)

theorem Keeps.isInserted (h : kind.Keeps kind') (hk : kind.IsInserted) : kind'.IsInserted := by
  cases kind with
  | const _ =>
    cases h
    exact hk
  | transpose _ =>
    cases h
    exact hk
  | unary _ =>
    cases h
    exact hk
  | _ => rcases hk with hk | hk | hk <;> cases hk

end OpKind

namespace Layout

open Perm

theorem movedRows_perm {p : List Nat} {rows : List (Nat × Nat)} (hp : p.Perm (List.range p.length))
    (h : rows.length = p.length) : (movedRows p rows).Perm rows := by
  have hmoved : movedRows p rows = selectD rows (inverse p) (0, 0) := by
    rw [movedRows, selectD, inverse, List.map_map]
    rfl
  rw [hmoved]
  exact selectD_perm (inverse_perm hp) h _

/-- The rows of amounts that are moved are those that were there: rows in front of the padded axes are zero. -/
theorem pairs_behind_perm {spec : Pad} {p : List Nat} {a : Absorption} (hp : p.Perm (List.range p.length))
    (h : absorbPad spec p = some a) : (pairs (spec.behind p).amounts).Perm (pairs spec.amounts) := by
  obtain ⟨_, _, hle, hlen, hrows⟩ := absorbPad_behind h
  have hperm : ((spec.behind p).rows p.length).Perm (spec.rows p.length) := by
    rw [hrows]
    exact movedRows_perm hp (Pad.length_rows hle)
  rw [Pad.rows, Pad.rows, hlen] at hperm
  exact (List.perm_append_left_iff _).1 hperm

theorem absorb_keeps {kind : OpKind} {views : List View} {p : List Nat} {a : Absorption}
    (h : absorb kind views p = .ok a) : kind.Keeps a.kind := by
  obtain ⟨⟨_, hp, _⟩, hcase⟩ := absorb_cases h
  rw [isPermutation_iff] at hp
  rcases hcase with ⟨_, rfl⟩ | ⟨f, rfl, ha⟩ | ⟨spec, rfl, ha⟩ | ⟨axis, rfl, ha⟩ | ⟨spec, rfl, ha⟩
  · exact .refl kind
  · obtain ⟨_, _, _, _, _, _, _, rfl⟩ := absorbBroadcast_eq_ok ha
    exact .refl _
  · obtain ⟨axes, hsel, hkind, _⟩ := absorbReduce_eq_some ha
    rw [hkind]
    exact ⟨axes, (mapM_eq_some.1 hsel).length_eq.symm, rfl⟩
  · obtain ⟨source, _, _, _, rfl⟩ := absorbConcat_eq_ok ha
    exact ⟨source, rfl⟩
  · rw [(absorbPad_behind ha).1]
    exact ⟨_, pairs_behind_perm hp ha, rfl⟩

end Layout

/-! ## Operations -/

/-- What stays of an operation. -/
structure Operation.Keeps (o o' : Operation) : Prop where
  id : o'.id = o.id
  outputs : o'.outputs = o.outputs
  arity : o'.inputs.length = o.inputs.length
  kind : o.kind.Keeps o'.kind

theorem Operation.Keeps.refl (o : Operation) : o.Keeps o :=
  ⟨rfl, rfl, rfl, .refl _⟩

theorem Operation.Keeps.trans {o o' o'' : Operation} (h : o.Keeps o') (h' : o'.Keeps o'') : o.Keeps o'' :=
  ⟨h'.id.trans h.id, h'.outputs.trans h.outputs, h'.arity.trans h.arity, h.kind.trans h'.kind⟩

/-- The operations that are neither transposes nor constants. -/
def Block.essential (b : Block) : List Operation :=
  b.operations.filter (·.kind.isEssential)

/-- The operations with ids of some operations. -/
def Block.withIdsOf (b : Block) (ops : List Operation) : List Operation :=
  b.operations.filter fun o => (ops.map (·.id)).contains o.id

/-- What stays of a block: its name and inputs, and the operations that are neither transposes nor constants, in their
order and each of them once. All others are transposes, constants and identities. -/
structure Framed (b b' : Block) : Prop where
  name : b'.name = b.name
  inputs : b'.inputs = b.inputs
  records : ∀ x ∈ b.inputs, b'.value? x = b.value? x
  kept : List.Forall₂ Operation.Keeps b.essential (b'.withIdsOf b.essential)
  others : ∀ o' ∈ b'.operations, o'.id ∉ b.essential.map (·.id) → o'.kind.IsInserted

theorem Block.mem_withIdsOf {b : Block} {ops : List Operation} {o : Operation} :
    o ∈ b.withIdsOf ops ↔ o ∈ b.operations ∧ o.id ∈ ops.map (·.id) := by
  rw [withIdsOf, List.mem_filter, List.contains_iff_mem]

/-- Some of the operations of a block, with their ids once, are those with their ids. -/
theorem Block.withIdsOf_eq {b : Block} {ops ops' : List Operation} (hnd : (b.operations.map (·.id)).Nodup)
    (hsub : ops'.Sublist b.operations) (hids : ops'.map (·.id) = ops.map (·.id)) : b.withIdsOf ops = ops' := by
  have hin : ops'.Sublist (b.withIdsOf ops) := by
    have hfilter := hsub.filter fun o => (ops.map (·.id)).contains o.id
    rwa [List.filter_eq_self.2 fun o ho => by rw [List.contains_iff_mem, ← hids]; exact List.mem_map_of_mem ho] at hfilter
  have hnd' : ((b.withIdsOf ops).map (·.id)).Nodup := hnd.sublist (List.filter_sublist.map _)
  have hle : ((b.withIdsOf ops).map (·.id)).length ≤ (ops'.map (·.id)).length := by
    rw [hids]
    refine (List.subperm_of_subset hnd' fun id hid => ?_).length_le
    obtain ⟨o, ho, rfl⟩ := List.mem_map.1 hid
    exact (mem_withIdsOf.1 ho).2
  rw [List.length_map, List.length_map] at hle
  exact (hin.eq_of_length_le hle).symm

/-- What is kept keeps its id, so it can be picked by ids before or after. -/
theorem keeps_filter (ids : List OpId) {ops ops' : List Operation} (h : List.Forall₂ Operation.Keeps ops ops') :
    List.Forall₂ Operation.Keeps (ops.filter fun o => ids.contains o.id) (ops'.filter fun o => ids.contains o.id) := by
  induction h with
  | nil => exact .nil
  | @cons o o' ops ops' hk _ ih =>
    simp only [List.filter_cons, hk.id]
    split
    · exact .cons hk ih
    · exact ih

theorem keeps_trans {ops ops' ops'' : List Operation} (h : List.Forall₂ Operation.Keeps ops ops')
    (h' : List.Forall₂ Operation.Keeps ops' ops'') : List.Forall₂ Operation.Keeps ops ops'' := by
  induction h generalizing ops'' with
  | nil => exact h'
  | cons hk _ ih =>
    obtain ⟨_, _, hk', hrest, rfl⟩ := List.forall₂_cons_left_iff.1 h'
    exact .cons (hk.trans hk') (ih hrest)

namespace Framed

variable {b b' b'' : Block}

theorem refl (hs : b.Sound) : Framed b b where
  name := rfl
  inputs := rfl
  records _ _ := rfl
  kept := by
    have heq : b.withIdsOf b.essential = b.essential := Block.withIdsOf_eq hs.opsOnce List.filter_sublist rfl
    rw [heq, List.forall₂_same]
    exact fun o _ => .refl o
  others o ho hid := by
    refine OpKind.isInserted_of_not_isEssential (Bool.eq_false_iff.2 fun hk => hid ?_)
    exact List.mem_map_of_mem (List.mem_filter.2 ⟨ho, hk⟩)

/-- An operation with the id of an essential one is what is left of it. -/
theorem exists_keeps (h : Framed b b') {o' : Operation} (ho' : o' ∈ b'.operations)
    (hid : o'.id ∈ b.essential.map (·.id)) : ∃ o ∈ b.essential, o.Keeps o' := by
  obtain ⟨i, hi⟩ := List.mem_iff_getElem?.1 (Block.mem_withIdsOf.2 ⟨ho', hid⟩)
  obtain ⟨o, ho, hk⟩ := exists_getElem?_of_forall₂ h.kept.flip hi
  exact ⟨o, List.mem_of_getElem? ho, hk⟩

/-- The operations that stay are essential ones again. -/
theorem withIdsOf_essential (h : Framed b b') :
    b'.essential.filter (fun o => (b.essential.map (·.id)).contains o.id) = b'.withIdsOf b.essential := by
  rw [Block.essential.eq_def b', List.filter_filter, Block.withIdsOf]
  refine List.filter_congr fun o' ho' => ?_
  by_cases hid : o'.id ∈ b.essential.map (·.id)
  · obtain ⟨o, ho, hk⟩ := h.exists_keeps ho' hid
    rw [hk.kind.isEssential, (List.mem_filter.1 ho).2, Bool.and_true]
  · rw [List.contains_eq_mem, decide_eq_false hid, Bool.false_and]

theorem ids_subset (h : Framed b b') {id : OpId} (hid : id ∈ b.essential.map (·.id)) : id ∈ b'.essential.map (·.id) := by
  obtain ⟨o, ho, rfl⟩ := List.mem_map.1 hid
  obtain ⟨i, hi⟩ := List.mem_iff_getElem?.1 ho
  obtain ⟨o', ho', hk⟩ := exists_getElem?_of_forall₂ h.kept hi
  rw [← h.withIdsOf_essential] at ho'
  exact List.mem_map.2 ⟨o', List.mem_of_mem_filter (List.mem_of_getElem? ho'), hk.id⟩

theorem trans (h : Framed b b') (h' : Framed b' b'') : Framed b b'' where
  name := h'.name.trans h.name
  inputs := h'.inputs.trans h.inputs
  records x hx := (h'.records x (by rw [h.inputs]; exact hx)).trans (h.records x hx)
  kept := by
    have hkept := keeps_filter (b.essential.map (·.id)) h'.kept
    have heq : (b''.withIdsOf b'.essential).filter (fun o => (b.essential.map (·.id)).contains o.id) =
        b''.withIdsOf b.essential := by
      rw [Block.withIdsOf, List.filter_filter, Block.withIdsOf]
      refine List.filter_congr fun o _ => ?_
      by_cases hid : o.id ∈ b.essential.map (·.id)
      · simp only [List.contains_eq_mem, decide_eq_true hid, decide_eq_true (h.ids_subset hid), Bool.and_true]
      · simp only [List.contains_eq_mem, decide_eq_false hid, Bool.false_and]
    rw [h.withIdsOf_essential, heq] at hkept
    exact keeps_trans h.kept hkept
  others o'' ho'' hid := by
    by_cases hid' : o''.id ∈ b'.essential.map (·.id)
    · obtain ⟨o', ho', hk⟩ := h'.exists_keeps ho'' hid'
      exact hk.kind.isInserted (h.others o' (List.mem_of_mem_filter ho') (hk.id ▸ hid))
    · exact h'.others o'' ho'' hid'

end Framed

/-! ## Types recomputed -/

namespace Block

variable {b b' : Block} {v : ValueId}

theorem type?_recordTypes : ∀ (pairs : List (ValueId × TensorType)) (b : Block), v ∉ pairs.map (·.1) →
    (b.recordTypes pairs).1.type? v = b.type? v
  | [], b, _ => rfl
  | (id, type) :: rest, b, hv => by
    rw [List.map_cons, List.mem_cons, not_or] at hv
    rw [recordTypes]
    split
    · rw [type?_recordTypes rest _ hv.2, type?_setType, if_neg hv.1]
    · rfl

theorem type?_retypeOp (infer : Typing.Inference) (op : Operation) (b : Block) (hv : v ∉ op.outputs) :
    (b.retypeOp infer op).1.type? v = b.type? v := by
  rw [retypeOp]
  split
  · rfl
  · split
    · refine type?_recordTypes _ b fun hin => hv ?_
      obtain ⟨e, he, rfl⟩ := List.mem_map.1 hin
      exact (List.of_mem_zip he).1
    · rfl

theorem type?_retypeOps (infer : Typing.Inference) : ∀ (ops : List Operation) (b : Block), v ∉ results ops →
    (b.retypeOps infer ops).1.type? v = b.type? v
  | [], b, _ => rfl
  | op :: ops, b, hv => by
    rw [results_cons, List.mem_append, not_or] at hv
    have hop := type?_retypeOp infer op b hv.1
    rw [retypeOps]
    split
    · rename_i b₁ h
      rw [h] at hop
      exact (type?_retypeOps infer ops b₁ hv.2).trans hop
    · exact hop

/-- No inference changes the type of an input. -/
theorem type?_of_retype {infer : Typing.Inference} {e : Option ShapeError} (hs : b.Sound)
    (h : b.retype infer = (b', e)) (hv : v ∈ b.inputs) : b'.type? v = b.type? v := by
  have hnot : v ∉ results b.operations := fun hin => (List.nodup_append.1 hs.definedOnce).2.2 v hv v hin rfl
  have hops := type?_retypeOps infer b.operations b hnot
  rw [show b.retypeOps infer b.operations = (b', e) from h] at hops
  exact hops

theorem name?_eq_lookup (b : Block) (v : ValueId) : b.name? v = (b.values.map fun r => (r.id, r.name)).lookup v := by
  rw [name?, value?, Records.find?]
  induction b.values with
  | nil => rfl
  | cons r values ih =>
    rw [List.map_cons, List.lookup_cons, List.find?_cons]
    by_cases he : v = r.id
    · subst he
      simp
    · rw [beq_false_of_ne he, beq_false_of_ne (Ne.symm he)]
      exact ih

theorem Retyped.name?_eq (h : b.Retyped b') (v : ValueId) : b'.name? v = b.name? v := by
  rw [name?_eq_lookup, h.records, name?_eq_lookup]

/-- A record is a name and a type. -/
theorem value?_eq_of_name?_type? (hname : b'.name? v = b.name? v) (htype : b'.type? v = b.type? v) :
    b'.value? v = b.value? v := by
  rw [name?, name?] at hname
  rw [type?, type?] at htype
  cases hr : b.value? v with
  | none =>
    rw [hr, Option.map_none, Option.map_eq_none_iff] at hname
    exact hname
  | some r =>
    rw [hr, Option.map_some] at hname htype
    obtain ⟨r', hr', hn⟩ := Option.map_eq_some_iff.1 hname
    obtain ⟨r'', hr'', ht⟩ := Option.map_eq_some_iff.1 htype
    rw [← Option.some.inj (hr'.symm.trans hr'')] at ht
    have hid : r'.id = r.id := (mem_of_value? hr').2.trans (mem_of_value? hr).2.symm
    rw [hr', Option.some.injEq]
    cases r
    cases r'
    rw [Value.mk.injEq]
    exact ⟨hid, hn, ht⟩

/-- Recomputing types leaves all else alone. -/
theorem Retyped.framed (hs : b.Sound) (h : b.Retyped b') (htypes : ∀ x ∈ b.inputs, b'.type? x = b.type? x) : Framed b b' where
  name := h.name
  inputs := h.inputs
  records x hx := value?_eq_of_name?_type? (h.name?_eq x) (htypes x hx)
  kept := by
    rw [Block.withIdsOf, h.operations]
    exact (Framed.refl hs).kept
  others := by
    rw [h.operations]
    exact (Framed.refl hs).others

theorem Retyped.steady (h : b.Retyped b') : Steady b b' :=
  ⟨h.outputs, fun v n hn => by rw [h.name?_eq, hn], fun v n hn => .inr (by rw [← h.name?_eq, hn])⟩

end Block

namespace Layout

/-! ## One component -/

section Spliced

variable {typed : Prop} {a : Analysis} {b b' : Block} {pend : ValueId → Option Pending} {L : Ledger}

/-- An operation that is followed keeps what there is to keep. -/
theorem Follows.keeps (hd : Describes typed a b pend) (hs : b.Sound) (h : Spliced a b pend L b') {o o' : Operation}
    (ho : o ∈ b.operations) (hf : Follows a b L o o') : o.Keeps o' := by
  refine ⟨hf.id, hf.outputs, hf.arity, ?_⟩
  rw [hf.kind]
  cases hk : L.kind o.id with
  | none => exact .refl _
  | some kind =>
    obtain ⟨r, hr, hop, rfl⟩ := h.justified.kind o.id kind hk
    obtain ⟨_, _, _, habs, _⟩ := hd.absorbs hs ho hr hop
    exact absorb_keeps habs

theorem MadeFor.isInserted {done : List (OpId × Nat × Literal)} {restored : List Restoration} {m : NewValue}
    (h : MadeFor a b done restored m) : m.kind.IsInserted := by
  rcases h with ⟨_, _, rfl⟩ | ⟨_, _, hk, _⟩ | ⟨_, _, _, _, hk, _⟩
  · exact .inr (.inl rfl)
  · rw [hk]
    exact .inl rfl
  · rw [hk]
    exact .inr (.inr rfl)

/-- An operation that is neither a transpose nor a constant does not go away. -/
theorem Spliced.exists_kept (h : Spliced a b pend L b') (hd : Describes typed a b pend) (hs : b.Sound) {o : Operation}
    (ho : o ∈ b.essential) : ∃ o' ∈ b'.operations, o.Keeps o' := by
  obtain ⟨ho, hk⟩ := List.mem_filter.1 ho
  rw [OpKind.isEssential, Bool.and_eq_true, Bool.not_eq_true', Bool.not_eq_true'] at hk
  have hid : o.id ∉ a.removed := fun hid => by
    obtain ⟨_, _, p, hp, _⟩ := hd.of_removed hs ho hid
    rw [hp] at hk
    cases hk.1
  obtain ⟨o', ho', hf⟩ := h.kept o ho hid hk.2
  exact ⟨o', ho', hf.keeps hd hs h ho⟩

theorem Spliced.framed (h : Spliced a b pend L b') (hd : Describes typed a b pend) (hs : b.Sound) : Framed b b' where
  name := h.name
  inputs := h.inputs
  records x hx := by
    have hx' : x ∈ b'.inputs := by rw [h.inputs]; exact hx
    obtain ⟨n, hn⟩ := hs.exists_name (Block.mem_defined.2 (.inl hx))
    refine Block.value?_eq_of_name?_type? ?_ (h.types x (Block.mem_defined.2 (.inl hx)) (Block.mem_defined.2 (.inl hx')))
    rw [hn, h.facing.inputNames x hx n hn]
  kept := by
    -- the ids of these operations come in their order, and an id has one operation
    have hids : (b.essential.map (·.id)).Sublist (b'.operations.map (·.id)) := by
      have hsub : (b.essential.map (·.id)).Sublist (b.operations.map (·.id)) := List.filter_sublist.map _
      have hfilter := hsub.filter (b'.operations.map (·.id)).contains
      rw [List.filter_eq_self.2] at hfilter
      · exact hfilter.trans h.order
      · intro id hid
        obtain ⟨o, ho, rfl⟩ := List.mem_map.1 hid
        obtain ⟨o', ho', hk⟩ := h.exists_kept hd hs ho
        exact List.contains_iff_mem.2 (List.mem_map.2 ⟨o', ho', hk.id⟩)
    obtain ⟨ops, hsub, heq⟩ := List.sublist_map_iff.1 hids
    rw [Block.withIdsOf_eq h.sound.opsOnce hsub heq.symm]
    have hlen : b.essential.length = ops.length := by simpa using congrArg List.length heq
    refine List.forall₂_iff_get.2 ⟨hlen, fun i hi hi' => ?_⟩
    have hid : (b.essential.get ⟨i, hi⟩).id = (ops.get ⟨i, hi'⟩).id := by
      have := congrArg (·[i]?) heq
      simpa [hi, hi'] using this
    obtain ⟨o', ho', hk⟩ := h.exists_kept hd hs (List.get_mem b.essential ⟨i, hi⟩)
    rw [← h.sound.op_ext ho' (hsub.subset (List.get_mem ops ⟨i, hi'⟩)) (hk.id.trans hid)]
    exact hk
  others o' ho' hid := by
    rcases h.ops o' ho' with ⟨o, ho, _, hf⟩ | ⟨_, y, m, _, hm, hk, _⟩
    · have hkeeps := hf.keeps hd hs h ho
      refine hkeeps.kind.isInserted (OpKind.isInserted_of_not_isEssential (Bool.eq_false_iff.2 fun hk => hid ?_))
      rw [hkeeps.id]
      exact List.mem_map_of_mem (List.mem_filter.2 ⟨ho, hk⟩)
    · rw [← hk]
      exact (h.justified.made y m hm).isInserted

end Spliced

end Layout

/-- What is shown stays the same from block to block. -/
theorem Facing.trans {b c d : Block} (h : Facing b [] c) (h' : Facing c [] d) (hin : c.inputs = b.inputs)
    (hlen : c.outputs.length = b.outputs.length) : Facing b [] d := by
  have hslot : ∀ (i : Nat) v, b.outputs[i]? = some v → ∃ v', c.outputs[i]? = some v' := fun i v hv => by
    have hlt := (List.getElem?_eq_some_iff.1 hv).1
    rw [← hlen] at hlt
    exact ⟨_, List.getElem?_eq_getElem hlt⟩
  refine ⟨fun x hx n hn => ?_, fun i j v w hv hw hv' hw' => ?_, fun i v hv hwait x hx => ?_,
    fun i v n hv hwait hn hd => ?_, fun v hv => (by cases hv)⟩
  · exact h'.inputNames x (by rw [hin]; exact hx) n (h.inputNames x hx n hn)
  · obtain ⟨v', hi⟩ := hslot i v hv
    obtain ⟨w', hj⟩ := hslot j w hw
    rw [← h.distinct i j v w hv hw hv' hw', hi, hj, Option.some.injEq]
    exact h'.distinct i j v' w' hi hj List.not_mem_nil List.not_mem_nil
  · obtain ⟨v', hi⟩ := hslot i v hv
    rw [← h.input i v hv hwait x hx, hi, Option.some.injEq]
    exact h'.input i v' hi List.not_mem_nil x (by rw [hin]; exact hx)
  · obtain ⟨v', hi, hn'⟩ := h.names i v n hv hwait hn hd
    exact h'.names i v' n hi List.not_mem_nil hn' hd

namespace Layout

open Typing (Inference)

/-! ## The whole pass -/

section Pass

variable {config : Config} {infer : Inference} {b b' : Block} {r : PassResult}

/-- A relation that holds over every component that is taken out, types recomputed, holds over a run. -/
theorem reduceTransposes_relates [IdSpace] {R : Block → Block → Prop} (hrefl : ∀ {b}, b.Sound → R b b)
    (htrans : ∀ {b b' b''}, R b b' → R b' b'' → R b b'')
    (hstep : ∀ {a : Analysis} {pend : ValueId → Option Pending} {L : Ledger} {b b₁ b' : Block}, b.Sound →
      Describes False a b pend → Spliced a b pend L b₁ → b₁.retype infer = (b', none) → R b b')
    (h : reduceTransposes config infer b = .ok (r, b')) : R b b' := by
  obtain ⟨p, hp, rfl⟩ := exists_rounds h
  obtain ⟨hs, har, _⟩ := Block.check_eq_ok.1 (reduceTransposes_eq_ok.1 h).1
  refine (rounds_keep (Q := fun c => R b c ∧ c.Sound ∧ ∀ o ∈ c.operations, o.FitsArity) (fun hc => hc.2)
    (fun {a pend c c' comp cs n} (hst : Stage False ..) hc hatt => ?_) (p := { block := b }) ⟨hrefl hs, hs, har⟩ hp).1
  have hst' := (hst.attempt hatt).1
  obtain ⟨c₁, happly, _, hretype, _⟩ := attempt_eq_ok.1 hatt
  have hd := hst.regions comp List.mem_cons_self
  obtain ⟨L, hsp⟩ := applyComponent_spliced hd hst.sound happly
  exact ⟨hst', htrans hc.1 (hstep hst.sound hd hsp hretype), hst'.sound, hst'.arity⟩

/-- What a run shows. -/
theorem reduceTransposes_facing [IdSpace] (h : reduceTransposes config infer b = .ok (r, b')) :
    b'.inputs = b.inputs ∧ b'.outputs.length = b.outputs.length ∧ Facing b [] b' := by
  refine reduceTransposes_relates
    (R := fun b b' => b'.inputs = b.inputs ∧ b'.outputs.length = b.outputs.length ∧ Facing b [] b')
    (fun _ => ⟨rfl, rfl, .refl _ []⟩) (fun h h' => ?_) (fun _ _ hsp hretype => ?_) h
  · exact ⟨h'.1.trans h.1, h'.2.1.trans h.2.1, h.2.2.trans h'.2.2 h.1 h.2.1⟩
  · have hr := Block.retyped_of_retype hretype
    exact ⟨hr.inputs.trans hsp.inputs, (congrArg List.length hr.outputs).trans hsp.outputCount,
      hsp.facing.steady hr.steady⟩

/-- **Frame of transpose reduction.** Whatever the inference, a run keeps the name of the block and the records of its
inputs, and all operations that are neither transposes nor constants, in their order, each with its id, its results, its
number of operands and its kind, up to the axes that it is about. All other operations of the outcome are transposes,
constants and identities. -/
theorem reduceTransposes_framed [IdSpace] (h : reduceTransposes config infer b = .ok (r, b')) : Framed b b' := by
  refine reduceTransposes_relates Framed.refl Framed.trans (fun hs hd hsp hretype => ?_) h
  exact (hsp.framed hd hs).trans
    ((Block.retyped_of_retype hretype).framed hsp.sound fun x hx => Block.type?_of_retype hsp.sound hretype hx)

theorem detour_framed : reduceTransposes {} Typing.static detour = .ok (⟨true, 2, 1, 2⟩, direct) ∧ Framed detour direct :=
  ⟨detour_run, reduceTransposes_framed detour_run⟩

/-- A block that returns its input, a transpose of it that is undone, and another value twice. -/
def shared : Block where
  name := "shared"
  inputs := [⟨0⟩]
  outputs := [⟨0⟩, ⟨4⟩, ⟨3⟩, ⟨3⟩, ⟨2⟩]
  operations := [
    ⟨⟨0⟩, .transpose [1, 0], [⟨0⟩], [⟨1⟩]⟩,
    ⟨⟨1⟩, .unary .relu, [⟨1⟩], [⟨2⟩]⟩,
    ⟨⟨2⟩, .transpose [1, 0], [⟨2⟩], [⟨3⟩]⟩,
    ⟨⟨3⟩, .transpose [1, 0], [⟨1⟩], [⟨4⟩]⟩]
  values := [
    ⟨⟨0⟩, "x", .ofExtents .f32 [2, 3]⟩,
    ⟨⟨1⟩, "t", .ofExtents .f32 [3, 2]⟩,
    ⟨⟨2⟩, "u", .ofExtents .f32 [3, 2]⟩,
    ⟨⟨3⟩, "y", .ofExtents .f32 [2, 3]⟩,
    ⟨⟨4⟩, "z", .ofExtents .f32 [2, 3]⟩]

/-- What becomes of `shared`: an identity keeps the input and what equals it apart. -/
def sharedDirect : Block where
  name := "shared"
  inputs := [⟨0⟩]
  outputs := [⟨0⟩, ⟨5⟩, ⟨2⟩, ⟨2⟩, ⟨6⟩]
  operations := [
    ⟨⟨1⟩, .unary .relu, [⟨0⟩], [⟨2⟩]⟩,
    ⟨⟨4⟩, .unary .identity, [⟨0⟩], [⟨5⟩]⟩,
    ⟨⟨5⟩, .transpose [1, 0], [⟨2⟩], [⟨6⟩]⟩]
  values := [
    ⟨⟨0⟩, "x", .ofExtents .f32 [2, 3]⟩,
    ⟨⟨2⟩, "y", .ofExtents .f32 [2, 3]⟩,
    ⟨⟨5⟩, "z", .ofExtents .f32 [2, 3]⟩,
    ⟨⟨6⟩, "u", .ofExtents .f32 [3, 2]⟩]

theorem shared_run : reduceTransposes {} Typing.static shared = .ok (⟨true, 2, 1, 3⟩, sharedDirect) := by
  cbv

/-- **Outputs of transpose reduction.** Two output slots hold the same value after a run if and only if they did before,
and a slot holds an input if and only if it held that input before. -/
theorem reduceTransposes_aliasing [IdSpace] (h : reduceTransposes config infer b = .ok (r, b')) :
    b'.outputs.length = b.outputs.length ∧
      (∀ i j : Nat, b'.outputs[i]? = b'.outputs[j]? ↔ b.outputs[i]? = b.outputs[j]?) ∧
      ∀ (i : Nat) (x : ValueId), x ∈ b.inputs → (b'.outputs[i]? = some x ↔ b.outputs[i]? = some x) := by
  obtain ⟨_, hlen, hface⟩ := reduceTransposes_facing h
  have hnone : ∀ i : Nat, b.outputs[i]? = none ↔ b'.outputs[i]? = none := fun i => by
    rw [List.getElem?_eq_none_iff, List.getElem?_eq_none_iff, hlen]
  refine ⟨hlen, fun i j => ?_, fun i x hx => ?_⟩
  · cases hi : b.outputs[i]? with
    | none => rw [(hnone i).1 hi, eq_comm, ← hnone, eq_comm]
    | some v =>
      cases hj : b.outputs[j]? with
      | none =>
        rw [(hnone j).1 hj, ← hnone, hi]
      | some w =>
        rw [Option.some.injEq]
        exact hface.distinct i j v w hi hj List.not_mem_nil List.not_mem_nil
  · cases hi : b.outputs[i]? with
    | none =>
      rw [(hnone i).1 hi]
    | some v =>
      rw [Option.some.injEq]
      exact hface.input i v hi List.not_mem_nil x hx

theorem shared_aliasing : reduceTransposes {} Typing.static shared = .ok (⟨true, 2, 1, 3⟩, sharedDirect) ∧
    sharedDirect.outputs.length = shared.outputs.length ∧
      (∀ i j : Nat, sharedDirect.outputs[i]? = sharedDirect.outputs[j]? ↔ shared.outputs[i]? = shared.outputs[j]?) ∧
      ∀ (i : Nat) (x : ValueId), x ∈ shared.inputs → (sharedDirect.outputs[i]? = some x ↔ shared.outputs[i]? = some x) :=
  ⟨shared_run, reduceTransposes_aliasing shared_run⟩

/-- **Names of outputs.** An output keeps its name, unless the name looks like one that is made up. -/
theorem reduceTransposes_names [IdSpace] (h : reduceTransposes config infer b = .ok (r, b')) {i : Nat} {v : ValueId}
    {n : String} (hv : b.outputs[i]? = some v) (hn : b.name? v = some n) (hd : ¬Derived n) :
    ∃ u, b'.outputs[i]? = some u ∧ b'.name? u = some n :=
  (reduceTransposes_facing h).2.2.names i v n hv List.not_mem_nil hn hd

theorem shared_names : shared.outputs[4]? = some ⟨2⟩ ∧ shared.name? ⟨2⟩ = some "u" ∧ ¬Derived "u" ∧
    ∃ u, sharedDirect.outputs[4]? = some u ∧ sharedDirect.name? u = some "u" := by
  have hd : ¬Derived "u" := fun h => absurd h.four_le_length (by decide)
  exact ⟨rfl, rfl, hd, reduceTransposes_names shared_run rfl rfl hd⟩

/-- A block that returns a value called as another will be that hands on its name. -/
def clash : Block where
  name := "clash"
  inputs := [⟨0⟩]
  outputs := [⟨2⟩, ⟨4⟩, ⟨5⟩]
  operations := [
    ⟨⟨0⟩, .transpose [1, 0], [⟨0⟩], [⟨1⟩]⟩,
    ⟨⟨1⟩, .unary .relu, [⟨1⟩], [⟨2⟩]⟩,
    ⟨⟨2⟩, .unary .abs, [⟨1⟩], [⟨3⟩]⟩,
    ⟨⟨3⟩, .transpose [1, 0], [⟨2⟩], [⟨4⟩]⟩,
    ⟨⟨4⟩, .transpose [1, 0], [⟨3⟩], [⟨5⟩]⟩]
  values := [
    ⟨⟨0⟩, "x", .ofExtents .f32 [2, 3]⟩,
    ⟨⟨1⟩, "t", .ofExtents .f32 [3, 2]⟩,
    ⟨⟨2⟩, "y_old", .ofExtents .f32 [3, 2]⟩,
    ⟨⟨3⟩, "v", .ofExtents .f32 [3, 2]⟩,
    ⟨⟨4⟩, "z", .ofExtents .f32 [2, 3]⟩,
    ⟨⟨5⟩, "y", .ofExtents .f32 [2, 3]⟩]

/-- A made-up name may be taken before it is asked back: the first output comes out with another name. -/
theorem clash_renamed : clash.check = .ok () ∧ clash.WellTyped ∧
    clash.outputs.map clash.name? = [some "y_old", some "z", some "y"] ∧
    (reduceTransposes {} Typing.static clash).map (fun (_, b') => b'.outputs.map b'.name?) =
      .ok [some "y_old_1", some "z", some "y"] :=
  ⟨rfl, by decide, rfl, by cbv⟩

end Pass

end Layout

end Relayout
