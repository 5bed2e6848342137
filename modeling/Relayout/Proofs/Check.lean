import Relayout.Proofs.Index

/-!
# What the check of a block finds

`Block.check` goes through records, inputs and operations and keeps a list of definitions with the position from which
each may be read. The list is that of the scopes (`mem_opDefs`), so the check passes exactly when the block is sound and
numbers of operands and permutations fit (`check_eq_ok`).

That is the structural invariant of blocks (`check_iff_wellFormed`). An index makes checks of its own while it is built, and
finds nothing in a block that has passed. But it also counts how many ids are used up, which fails if the last one is.
-/

namespace Relayout.Block

variable {b : Block}

/-! ## Records -/

theorem checkRecords_eq_ok {last : Option ValueId} {names : List String} {records : List Value} :
    checkRecords last names records = .ok () ↔
      (∀ id ∈ last, ∀ r ∈ records, id.index < r.id.index) ∧
        records.Pairwise (fun r s => r.id.index < s.id.index) ∧ (records.map (·.name)).Nodup ∧
        ∀ r ∈ records, r.name ∉ names := by
  induction records generalizing last names with
  | nil => simp [checkRecords]
  | cons r records ih =>
    rw [checkRecords]
    by_cases hlast : last.any (r.id.index ≤ ·.index)
    · rw [if_pos hlast]
      simp only [reduceCtorEq, false_iff, not_and]
      intro h
      obtain ⟨id, hid, hle⟩ : ∃ id ∈ last, r.id.index ≤ id.index := by
        cases last with
        | none => simp at hlast
        | some id => exact ⟨id, rfl, by simpa using hlast⟩
      exact absurd (h id hid r List.mem_cons_self) (by omega)
    · rw [if_neg hlast]
      have hlt : ∀ id ∈ last, id.index < r.id.index := by
        intro id hid
        cases hid
        simpa using hlast
      by_cases hname : r.name ∈ names
      · rw [if_pos hname]
        simp only [reduceCtorEq, false_iff, not_and]
        exact fun _ _ _ h => h r List.mem_cons_self hname
      · rw [if_neg hname, ih]
        simp only [Option.mem_def, Option.some.injEq, forall_eq', List.mem_cons, forall_eq_or_imp,
          List.pairwise_cons, List.map_cons, List.nodup_cons, List.mem_map, not_or, not_exists, not_and]
        constructor
        · rintro ⟨h1, h2, h3, h4⟩
          refine ⟨fun id hid => ⟨hlt id hid, fun s hs => (hlt id hid).trans (h1 s hs)⟩, ⟨h1, h2⟩,
            ⟨fun s hs => (h4 s hs).1, h3⟩, hname, fun s hs => (h4 s hs).2⟩
        · rintro ⟨_, ⟨h1, h2⟩, ⟨h3, h4⟩, _, h5⟩
          exact ⟨h1, h2, h4, fun s hs => ⟨h3 s hs, h5 s hs⟩⟩

/-! ## Definitions -/

/-- The definitions of operations, the first of which stands at position `pos`. -/
def opDefs : Nat → List Operation → Definitions → Definitions
  | _, [], defs => defs
  | pos, op :: ops, defs => opDefs (pos + 1) ops ((op.outputs.map (·, pos + 1)).reverse ++ defs)

theorem define_eq_ok {pos : Nat} {ids : List ValueId} {defs defs' : Definitions} :
    b.define pos ids defs = .ok defs' ↔
      (∀ id ∈ ids, id ∈ b.values.map (·.id)) ∧ ids.Nodup ∧ (∀ id ∈ ids, id ∉ defs.map (·.1)) ∧
        defs' = (ids.map (·, pos)).reverse ++ defs := by
  induction ids generalizing defs with
  | nil => simp [define, eq_comm]
  | cons id ids ih =>
    rw [define]
    by_cases hrec : (b.value? id).isNone
    · rw [if_pos hrec]
      have hno : ¬ id ∈ b.values.map (·.id) := by
        rw [← value?_isSome]; simpa using hrec
      simp only [reduceCtorEq, false_iff, not_and]
      exact fun h => absurd (h id List.mem_cons_self) hno
    · rw [if_neg hrec]
      have hid : id ∈ b.values.map (·.id) := by
        rw [← value?_isSome]; simpa [Option.isSome_iff_ne_none] using hrec
      by_cases hdup : (defs.lookup id).isSome
      · rw [if_pos hdup]
        simp only [reduceCtorEq, false_iff, not_and]
        exact fun _ _ h => absurd (lookup_isSome.1 hdup) (h id List.mem_cons_self)
      · rw [if_neg hdup, ih]
        have hnew : id ∉ defs.map (·.1) := fun h => hdup (lookup_isSome.2 h)
        simp only [List.mem_cons, forall_eq_or_imp, List.nodup_cons, List.map_cons, not_or, List.reverse_cons,
          List.append_assoc, List.cons_append, List.nil_append]
        constructor
        · rintro ⟨h1, h2, h3, h4⟩
          exact ⟨⟨hid, h1⟩, ⟨fun h => (h3 id h).1 rfl, h2⟩, ⟨hnew, fun i hi => (h3 i hi).2⟩, h4⟩
        · rintro ⟨⟨_, h1⟩, ⟨h2, h3⟩, ⟨_, h4⟩, h5⟩
          exact ⟨h1, h3, fun i hi => ⟨fun he => h2 (he ▸ hi), h4 i hi⟩, h5⟩

theorem mem_keys_define {pos : Nat} {ids : List ValueId} {defs : Definitions} {id : ValueId} :
    id ∈ ((ids.map (·, pos)).reverse ++ defs).map (·.1) ↔ id ∈ ids ∨ id ∈ defs.map (·.1) := by
  simp

theorem mem_keys_opDefs {pos : Nat} {ops : List Operation} {defs : Definitions} {id : ValueId} :
    id ∈ (opDefs pos ops defs).map (·.1) ↔ id ∈ defs.map (·.1) ∨ id ∈ results ops := by
  induction ops generalizing pos defs with
  | nil => simp [opDefs]
  | cons op ops ih => rw [opDefs, ih, mem_keys_define, results_cons, List.mem_append]; tauto

theorem defineOps_eq_ok {pos : Nat} {seen : List OpId} {ops : List Operation} {defs defs' : Definitions} :
    b.defineOps pos seen ops defs = .ok defs' ↔
      (∀ id ∈ results ops, id ∈ b.values.map (·.id)) ∧ (results ops).Nodup ∧
        (∀ id ∈ results ops, id ∉ defs.map (·.1)) ∧ (ops.map (·.id)).Nodup ∧ (∀ op ∈ ops, op.id ∉ seen) ∧
        defs' = opDefs pos ops defs := by
  induction ops generalizing pos seen defs with
  | nil => simp [defineOps, opDefs, eq_comm]
  | cons op ops ih =>
    rw [defineOps]
    by_cases hseen : op.id ∈ seen
    · rw [if_pos hseen]
      simp only [reduceCtorEq, false_iff, not_and]
      exact fun _ _ _ _ h => absurd hseen (h op List.mem_cons_self)
    · rw [if_neg hseen, bind_eq_ok]
      have hids : op.id ∉ ops.map (·.id) ↔ ∀ o ∈ ops, o.id ≠ op.id := by simp
      simp only [define_eq_ok, ih, results_cons, List.mem_append, List.nodup_append, List.map_cons,
        List.nodup_cons, hids, List.mem_cons, forall_eq_or_imp, not_or, opDefs]
      constructor
      · rintro ⟨_, ⟨h1, h2, h3, rfl⟩, h4, h5, h6, h7, h8, h9⟩
        simp only [mem_keys_define, not_or] at h6
        exact ⟨fun id h => h.elim (h1 id) (h4 id), ⟨h2, h5, fun a ha c hc hac => (h6 c hc).1 (hac ▸ ha)⟩,
          fun id h => h.elim (h3 id) fun h => (h6 id h).2, ⟨fun o ho => (h8 o ho).1, h7⟩,
          ⟨hseen, fun o ho => (h8 o ho).2⟩, h9⟩
      · rintro ⟨h1, ⟨h2, h3, h4⟩, h5, ⟨h6, h7⟩, ⟨_, h8⟩, h9⟩
        refine ⟨_, ⟨fun id h => h1 id (.inl h), h2, fun id h => h5 id (.inl h), rfl⟩, fun id h => h1 id (.inr h), h3,
          fun id h => ?_, h7, fun o ho => ⟨h6 o ho, h8 o ho⟩, h9⟩
        rw [mem_keys_define, not_or]
        exact ⟨fun h' => h4 id h' id h rfl, h5 id (.inr h)⟩

theorem nodup_keys_opDefs {pos : Nat} {ops : List Operation} {defs : Definitions} (hd : (defs.map (·.1)).Nodup)
    (hr : (results ops).Nodup) (hdr : ∀ id ∈ results ops, id ∉ defs.map (·.1)) :
    ((opDefs pos ops defs).map (·.1)).Nodup := by
  induction ops generalizing pos defs with
  | nil => exact hd
  | cons op ops ih =>
    rw [results_cons, List.nodup_append] at hr
    refine ih ?_ hr.2.1 fun id hid => ?_
    · rw [List.map_append, List.map_reverse, List.map_map, List.nodup_append]
      refine ⟨?_, hd, ?_⟩
      · simpa [Function.comp_def] using hr.1
      · intro id hid id' hid' he
        subst he
        have : id ∈ op.outputs := by simpa using hid
        exact hdr id (by simp [this]) hid'
    · rw [mem_keys_define, not_or]
      exact ⟨fun h => hr.2.2 id h id hid rfl, hdr id (by simp [hid])⟩

/-- A value is defined by an operation at the position behind it. -/
theorem mem_opDefs {pos : Nat} {ops : List Operation} {defs : Definitions} {id : ValueId} {start : Nat} :
    (id, start) ∈ opDefs pos ops defs ↔
      (id, start) ∈ defs ∨ ∃ before op after, ops = before ++ op :: after ∧ id ∈ op.outputs ∧
        start = pos + before.length + 1 := by
  induction ops generalizing pos defs with
  | nil => simp [opDefs]
  | cons op ops ih =>
    rw [opDefs, ih]
    simp only [List.mem_append, List.mem_reverse, List.mem_map, Prod.mk.injEq]
    constructor
    · rintro ((⟨v, hv, rfl, rfl⟩ | h) | ⟨before, o, after, rfl, hid, rfl⟩)
      · exact .inr ⟨[], op, ops, rfl, hv, rfl⟩
      · exact .inl h
      · exact .inr ⟨op :: before, o, after, rfl, hid, by simp; omega⟩
    · rintro (h | ⟨before, o, after, heq, hid, rfl⟩)
      · exact .inl (.inr h)
      · cases before with
        | nil =>
          obtain ⟨rfl, rfl⟩ := List.cons.inj heq
          exact .inl (.inl ⟨id, hid, rfl, rfl⟩)
        | cons o' before =>
          obtain ⟨rfl, rfl⟩ := List.cons.inj heq
          exact .inr ⟨before, o, after, rfl, hid, by simp; omega⟩

/-! ## Operations -/

theorem checkOperands_eq_ok {defs : Definitions} {pos : Nat} {op : OpId} {ids : List ValueId} :
    checkOperands defs pos op ids = .ok () ↔ ∀ id ∈ ids, ∃ start, defs.lookup id = some start ∧ start ≤ pos := by
  induction ids with
  | nil => simp [checkOperands]
  | cons id ids ih =>
    rw [checkOperands]
    cases hl : defs.lookup id with
    | none => simp [hl]
    | some start =>
      by_cases hle : start ≤ pos
      · simp [hl, hle, ih]
      · simp [hl, hle]

theorem checkArity_eq_ok {op : Operation} : checkArity op = .ok () ↔ op.FitsArity := by
  unfold checkArity Operation.FitsArity
  cases op.kind.arity? with
  | none => simp
  | some arity => simp

theorem checkPerm_eq_ok (hv : ∀ id ∈ op.inputs, id ∈ b.values.map (·.id)) (ha : Operation.FitsArity op) :
    b.checkPerm op = .ok () ↔ b.FitsPerm op := by
  unfold checkPerm FitsPerm
  cases hk : op.kind with
  | transpose perm =>
    have hlen : op.inputs.length = 1 := by
      have := (ha (.exactly 1) (by rw [hk]; rfl)).1
      simpa [Arity.admits] using this
    obtain ⟨input, hin⟩ := List.length_eq_one_iff.1 hlen
    obtain ⟨r, hr⟩ := Option.isSome_iff_exists.1 (value?_isSome.2 (hv input (by simp [hin])))
    have ht : b.type? input = some r.type := by rw [type?, hr]; rfl
    simp only [hin, ht, Option.map_some, Option.getD_some, OpKind.transpose.injEq, forall_eq', List.mem_singleton,
      forall_eq, Option.mem_def, Option.some.injEq]
    constructor
    · intro h
      split at h
      · rename_i hp
        rw [← hp.1]
        exact Perm.isPermutation_iff.1 hp.2
      · cases h
    · intro h
      have hlen := Perm.length_of_perm h
      rw [if_pos ⟨hlen, Perm.isPermutation_iff.2 (hlen ▸ h)⟩]
  | _ => simp

/-- The check of operations, once the definitions say what is in scope. -/
theorem checkOps_eq_ok {all : List Operation} {defs : Definitions} {inputs : List ValueId}
    (hv : ∀ id ∈ inputs ++ results all, id ∈ b.values.map (·.id))
    (hdefs : ∀ before after, all = before ++ after → ∀ id,
      (∃ start, defs.lookup id = some start ∧ start ≤ before.length) ↔ id ∈ inputs ++ results before)
    (ops before : List Operation) (heq : all = before ++ ops) :
    b.checkOps defs before.length ops = .ok () ↔
      Scoped (inputs ++ results before) ops ∧ (∀ op ∈ ops, op.FitsArity) ∧ ∀ op ∈ ops, b.FitsPerm op := by
  induction ops generalizing before with
  | nil => simp [checkOps, Scoped]
  | cons op ops ih =>
    have ih := ih (before ++ [op]) (by simp [heq])
    simp only [List.length_append, List.length_cons, List.length_nil, Nat.zero_add, results_append, results_cons,
      results_nil, List.append_nil, ← List.append_assoc] at ih
    have hscope : (∀ id ∈ op.inputs, ∃ start, defs.lookup id = some start ∧ start ≤ before.length) ↔
        ∀ id ∈ op.inputs, id ∈ inputs ++ results before :=
      forall₂_congr fun id _ => hdefs before (op :: ops) heq id
    have hrecorded : (∀ id ∈ op.inputs, id ∈ inputs ++ results before) → ∀ id ∈ op.inputs, id ∈ b.values.map (·.id) := by
      intro h id hid
      refine hv id ?_
      have := h id hid
      simp only [heq, results_append, List.mem_append] at this ⊢
      tauto
    rw [checkOps]
    simp only [check_bind_eq_ok, checkOperands_eq_ok, checkArity_eq_ok, ih, hscope, Scoped, List.mem_cons,
      forall_eq_or_imp]
    constructor
    · rintro ⟨h1, h2, h3, h4, h5, h6⟩
      exact ⟨⟨h1, h4⟩, ⟨h2, h5⟩, (checkPerm_eq_ok (hrecorded h1) h2).1 h3, h6⟩
    · rintro ⟨⟨h1, h4⟩, ⟨h2, h5⟩, h3, h6⟩
      exact ⟨h1, h2, (checkPerm_eq_ok (hrecorded h1) h2).2 h3, h4, h5, h6⟩

/-! ## Blocks -/

/-- The definitions that the check collects say what is in scope. -/
theorem lookup_opDefs {inputs : List ValueId} {all : List Operation} (hnd : (inputs ++ results all).Nodup)
    {before after : List Operation} (heq : all = before ++ after) (id : ValueId) :
    (∃ start, (opDefs 0 all ((inputs.map (·, 0)).reverse ++ [])).lookup id = some start ∧ start ≤ before.length) ↔
      id ∈ inputs ++ results before := by
  obtain ⟨hi, hr, hdisj⟩ := List.nodup_append.1 hnd
  have hkeys : (((inputs.map (·, 0)).reverse ++ ([] : Definitions)).map Prod.fst).Nodup := by
    simpa [List.map_reverse, Function.comp_def] using hi
  have hnodup := @nodup_keys_opDefs 0 _ _ hkeys hr fun id hid h => by
    rw [mem_keys_define] at h
    exact hdisj id (by simpa using h) id hid rfl
  simp only [lookup_eq_some_of_nodup hnodup]
  simp only [mem_opDefs, List.append_nil, List.mem_reverse, List.mem_map, Prod.mk.injEq, List.mem_append]
  constructor
  · rintro ⟨start, (⟨v, hv, rfl, rfl⟩ | ⟨before', op, after', heq', hid, rfl⟩), hle⟩
    · exact .inl hv
    · refine .inr ?_
      have hpre : before' ++ [op] <+: before := by
        have hfirst : before' ++ [op] <+: all := ⟨after', by rw [heq']; simp⟩
        refine List.prefix_of_prefix_length_le hfirst ⟨after, heq.symm⟩ ?_
        simp only [List.length_append, List.length_singleton]
        omega
      obtain ⟨rest, rfl⟩ := hpre
      exact mem_results.2 ⟨op, by simp, hid⟩
  · rintro (hv | hr)
    · exact ⟨0, .inl ⟨id, hv, rfl, rfl⟩, Nat.zero_le _⟩
    · obtain ⟨op, hop, hid⟩ := mem_results.1 hr
      obtain ⟨before', after', rfl⟩ := List.append_of_mem hop
      exact ⟨_, .inr ⟨before', op, after' ++ after, by rw [heq]; simp, hid, rfl⟩, by simp⟩

/-- **The check of a block.** -/
theorem check_eq_ok :
    b.check = .ok () ↔ b.Sound ∧ (∀ op ∈ b.operations, op.FitsArity) ∧ ∀ op ∈ b.operations, b.FitsPerm op := by
  have hfind : ∀ (defs : Definitions) {α : Type} (xs : List α) (f : α → ValueId),
      (xs.find? fun x => (defs.lookup (f x)).isNone) = none ↔ ∀ x ∈ xs, f x ∈ defs.map (·.1) := by
    intro defs α xs f
    rw [List.find?_eq_none]
    refine forall₂_congr fun x _ => ?_
    rw [← lookup_isSome]
    cases defs.lookup (f x) <;> simp
  have hkeys : ∀ id, id ∈ (opDefs 0 b.operations ((b.inputs.map (·, 0)).reverse ++ [])).map (·.1) ↔
      id ∈ b.defined := by
    intro id
    rw [mem_keys_opDefs, mem_keys_define, defined_eq, List.mem_append]
    simp
  rw [check, check_bind_eq_ok, checkRecords_eq_ok, bind_eq_ok]
  constructor
  · rintro ⟨⟨_, hsorted, hnames, _⟩, defs, hdefs, h⟩
    obtain ⟨hin, hinodup, _, rfl⟩ := define_eq_ok.1 hdefs
    obtain ⟨defs, hdefs, h⟩ := bind_eq_ok.1 h
    obtain ⟨hrec, hrnodup, hdisj, hops, _, rfl⟩ := defineOps_eq_ok.1 hdefs
    obtain ⟨hcheck, hrest⟩ := check_bind_eq_ok.1 h
    have hdisj' : ∀ id ∈ b.inputs, ∀ id' ∈ results b.operations, id ≠ id' := by
      rintro id hid _ hid' rfl
      exact hdisj id hid' (mem_keys_define.2 (.inl hid))
    have hnd : (b.inputs ++ results b.operations).Nodup := List.nodup_append.2 ⟨hinodup, hrnodup, hdisj'⟩
    have hv : ∀ id ∈ b.inputs ++ results b.operations, id ∈ b.values.map (·.id) := fun id hid =>
      (List.mem_append.1 hid).elim (hin id) (hrec id)
    obtain ⟨hscope, harity, hperm⟩ :=
      (checkOps_eq_ok hv (fun before after heq id => lookup_opDefs hnd heq id) b.operations [] rfl).1 hcheck
    split at hrest
    · cases hrest
    · rename_i hout
      split at hrest
      · cases hrest
      · rename_i horphan
        refine ⟨⟨hsorted, hnames, hnd, fun id => ⟨hv id, fun hid => ?_⟩, hops, by simpa using hscope, fun id hid => ?_⟩,
          harity, hperm⟩
        · obtain ⟨r, hr, rfl⟩ := List.mem_map.1 hid
          exact (hkeys r.id).1 ((hfind _ _ _).1 horphan r hr)
        · exact (hkeys id).1 ((hfind _ b.outputs fun id => id).1 hout id hid)
  · rintro ⟨hs, harity, hperm⟩
    obtain ⟨hinodup, hrnodup, hdisj⟩ := List.nodup_append.1 hs.definedOnce
    have hv : ∀ id ∈ b.inputs ++ results b.operations, id ∈ b.values.map (·.id) := fun id hid => (hs.recorded id).1 hid
    refine ⟨⟨by simp, hs.sorted, hs.names, by simp⟩, _,
      define_eq_ok.2 ⟨fun id hid => hv id (List.mem_append_left _ hid), hinodup, by simp, rfl⟩, ?_⟩
    refine bind_eq_ok.2 ⟨_, defineOps_eq_ok.2 ⟨fun id hid => hv id (List.mem_append_right _ hid), hrnodup,
      fun id hid h => ?_, hs.opsOnce, by simp, rfl⟩, check_bind_eq_ok.2 ⟨?_, ?_⟩⟩
    · exact hdisj id (by simpa using mem_keys_define.1 h) id hid rfl
    · exact (checkOps_eq_ok hv (fun before after heq id => lookup_opDefs hs.definedOnce heq id) b.operations [] rfl).2
        ⟨by simpa using hs.scopes, harity, hperm⟩
    · rw [(hfind _ b.outputs fun id => id).2 fun id hid => (hkeys id).2 (hs.outputsDefined id hid)]
      simp only
      rw [(hfind _ _ _).2 fun r hr => (hkeys r.id).2 ((hs.recorded r.id).2 (List.mem_map_of_mem hr))]

/-! ## The invariant -/

/-- Numbers of operands by kind. -/
theorem fitsArity_iff {op : Operation} :
    op.FitsArity ↔ (op.kind.isCustom = false → op.kind.Takes op.inputs.length ∧ op.outputs.length = 1) := by
  unfold Operation.FitsArity
  cases op.kind <;> simp [OpKind.arity?, OpKind.isCustom, OpKind.Takes, Arity.admits, Nat.one_le_iff_ne_zero]

theorem wellFormed_iff :
    b.WellFormed ↔ b.Sound ∧ (∀ op ∈ b.operations, op.FitsArity) ∧ ∀ op ∈ b.operations, b.FitsPerm op := by
  have hperm : ∀ op, b.FitsPerm op ↔ ∀ perm, op.kind = .transpose perm → ∀ id ∈ op.inputs, ∀ type ∈ b.type? id,
      perm.length = type.rank ∧ perm.Nodup ∧ ∀ axis ∈ perm, axis < type.rank := by
    intro op
    simp only [FitsPerm, Perm.perm_range_iff]
  simp only [fitsArity_iff, hperm]
  constructor
  · intro h
    exact ⟨⟨h.sorted, h.names, h.definedOnce, h.recorded, h.opsOnce, scoped_iff_usesDefined.2 h.usesDefined,
      h.outputsDefined⟩, h.arity, h.perms⟩
  · rintro ⟨hs, harity, hperms⟩
    exact ⟨hs.sorted, hs.names, hs.definedOnce, hs.recorded, hs.opsOnce, scoped_iff_usesDefined.1 hs.scopes,
      hs.outputsDefined, harity, hperms⟩

/-- The check decides the structural invariant, and an index can be built of every block that passes, as long as the last
id is not used. -/
theorem check_iff_wellFormed [IdSpace] (b : Block) : (b.check = .ok () ↔ b.WellFormed) ∧
    (b.check = .ok () → (b.HasFreeIds → ∃ x, UseIndex.build b = .ok x) ∧
      (¬b.HasFreeIds → UseIndex.build b = .error (.crash .overflow))) := by
  refine ⟨by rw [check_eq_ok, wellFormed_iff], fun h => ?_⟩
  have hs := (check_eq_ok.1 h).1
  refine ⟨fun hids => ?_, UseIndex.build_overflow hs⟩
  obtain ⟨x, hx, _⟩ := UseIndex.exists_build hs hids
  exact ⟨x, hx⟩

/-- Of ids with 32 bits, the last one is the largest. -/
theorem hasFreeIds_iff {b : Block} : b.HasFreeIds ↔
    (∀ r ∈ b.values, r.id.index < 2 ^ 32 - 1) ∧ ∀ o ∈ b.operations, o.id.index < 2 ^ 32 - 1 := by
  have hadmits (n : Nat) : IdSpace.admits (n + 1) ↔ n < 2 ^ 32 - 1 := by
    change decide (n + 1 ≤ 2 ^ 32 - 1) = true ↔ _
    rw [decide_eq_true_iff]
    omega
  exact ⟨fun h => ⟨fun r hr => (hadmits _).1 (h.values r hr), fun o ho => (hadmits _).1 (h.operations o ho)⟩,
    fun h => ⟨fun r hr => (hadmits _).2 (h.1 r hr), fun o ho => (hadmits _).2 (h.2 o ho)⟩⟩

/-- Ids are in no order but that of the records, and one operation has two results. -/
def crossed : Block where
  name := "crossed"
  inputs := [⟨3⟩]
  outputs := [⟨1⟩, ⟨3⟩, ⟨1⟩]
  operations := [⟨⟨7⟩, .custom "split", [⟨3⟩, ⟨3⟩], [⟨5⟩, ⟨4⟩]⟩, ⟨⟨2⟩, .transpose [1, 0], [⟨4⟩], [⟨9⟩]⟩,
    ⟨⟨4⟩, .concat 0, [⟨9⟩, ⟨5⟩, ⟨9⟩], [⟨1⟩]⟩]
  values := [⟨⟨1⟩, "z", ⟨.f32, [.fixed 8, .dynamic "n"]⟩⟩, ⟨⟨3⟩, "x", .ofExtents .f32 []⟩,
    ⟨⟨4⟩, "b", ⟨.f32, [.dynamic "n", .fixed 2]⟩⟩, ⟨⟨5⟩, "a", ⟨.f32, [.fixed 4, .dynamic "n"]⟩⟩,
    ⟨⟨9⟩, "y", ⟨.f32, [.fixed 2, .dynamic "n"]⟩⟩]

theorem check_crossed : (crossed.check = .ok () ∧ crossed.WellFormed ∧ ∃ x, UseIndex.build crossed = .ok x) ∧
    ¬{ crossed with operations := crossed.operations.reverse }.WellFormed := by
  have hok : crossed.check = .ok () := by decide +kernel
  have hids : crossed.HasFreeIds := hasFreeIds_iff.2 (by decide)
  refine ⟨⟨hok, (check_iff_wellFormed crossed).1.1 hok, ((check_iff_wellFormed crossed).2 hok).1 hids⟩, fun h => ?_⟩
  have hno : { crossed with operations := crossed.operations.reverse }.check ≠ .ok () := by decide +kernel
  exact hno ((check_iff_wellFormed _).1.2 h)

/-- An input with the last id, which is returned. -/
def edge : Block where
  name := "edge"
  inputs := [⟨4294967295⟩]
  outputs := [⟨4294967295⟩]
  operations := []
  values := [⟨⟨4294967295⟩, "x", .ofExtents .f32 [2]⟩]

theorem build_edge : edge.check = .ok () ∧ UseIndex.build edge = .error (.crash .overflow) :=
  ⟨by decide +kernel, rfl⟩

end Relayout.Block
