import Relayout.Proofs.Attributes
import Relayout.Proofs.Payloads
import Relayout.Proofs.Region

/-!
# The sweep finds a region

A sweep goes through the operations once. What it finds at one of them (`Visited`) depends on what is pending on the
operands, all of which it has seen before, so it may as well be stated of what is pending in the end (`visit_spec`,
`foldlM_spec`). `analyse_describes` puts this together: an analysis and what the sweep leaves pending are a region of the
block.

All that is pending goes back to seeds: the seeds of a value are a single seed or those of an operation that absorbs
(`Seeded`).
-/

namespace Relayout.Layout

/-! ## Putting analyses together -/

namespace Analysis

/-- The records of one analysis behind those of another. -/
def append (a d : Analysis) : Analysis :=
  ⟨a.seeds ++ d.seeds, a.absorbed ++ d.absorbed, a.cancellations ++ d.cancellations, a.restorations ++ d.restorations⟩

/-- The records of several analyses. -/
def ofSteps (ds : List Analysis) : Analysis :=
  ⟨ds.flatMap (·.seeds), ds.flatMap (·.absorbed), ds.flatMap (·.cancellations), ds.flatMap (·.restorations)⟩

@[simp] theorem append_empty (a : Analysis) : a.append {} = a := by
  simp [append]

theorem append_append (a d e : Analysis) : (a.append d).append e = a.append (d.append e) := by
  simp [append]

theorem ofSteps_cons (d : Analysis) (ds : List Analysis) : ofSteps (d :: ds) = d.append (ofSteps ds) := rfl

end Analysis

/-! ## One operation -/

section Visit

variable (b : Block) (excluded : List OpId) (pend : ValueId → Option Pending) (o : Operation)

/-- Restorations of all pending operands of an operation, each once. -/
structure RestoresOperands (rs : List Restoration) : Prop where
  sound : ∀ r ∈ rs, ∃ q, r.value ∈ o.inputs ∧ pend r.value = some q ∧
    r = ⟨r.value, q.perm, .op o.id (Sweep.slotsOf o.inputs r.value), q.seeds⟩
  complete : ∀ x ∈ o.inputs, ∀ q, pend x = some q → ∃ r ∈ rs, r.value = x
  once : (rs.map (·.value)).Nodup

/-- Why an operation takes no part in a region: nothing is pending that it could hand on, and a transpose undoes nothing
and is no seed because it is excluded or returned. -/
structure StaysOut : Prop where
  pointwise : o.kind.isPointwise → ∀ x ∈ o.inputs, pend x = none
  seed : ∀ q, o.kind = .transpose q → (∀ x ∈ o.inputs, pend x = none) → o.id ∈ excluded ∨ ∃ y ∈ o.outputs, y ∈ b.outputs
  cancels : ∀ q, o.kind = .transpose q → ∀ x ∈ o.inputs, ∀ p, pend x = some p → ¬Perm.cancels p.perm q

/-- What a sweep finds at an operation. -/
inductive Visited : Analysis → Prop
  | seed (h : IsSeed b pend o) : Visited { seeds := [o.id] }
  | cancels {seeds : Seeds} (h : IsCancellation pend o seeds) : Visited { cancellations := [⟨o.id, seeds⟩] }
  | absorbs {r : Absorbed} (hop : r.op = o.id) (hk : o.kind.isPointwise = false) (h : Absorbs True b pend o r)
    (hseeds : ∀ id ∈ r.seeds, ∃ x ∈ o.inputs, ∃ q, pend x = some q ∧ id ∈ q.seeds) : Visited { absorbed := [r] }
  | passes (h : Passes pend o) : Visited {}
  | restores {rs : List Restoration} (hk : o.kind.isConst → rs = []) (hstay : StaysOut b excluded pend o)
    (hout : ∀ y ∈ o.outputs, pend y = none) (h : RestoresOperands pend o rs) : Visited { restorations := rs }

variable {b excluded pend o} in
/-- An operation that neither hands anything on nor is a transpose. -/
theorem StaysOut.of_other (hk : o.kind.isPointwise = false) (ht : o.kind.isTranspose = false) :
    StaysOut b excluded pend o where
  pointwise h := by rw [hk] at h; cases h
  seed q h := by rw [h] at ht; cases ht
  cancels q h := by rw [h] at ht; cases ht

end Visit

namespace Sweep

variable {b : Block} {excluded : List OpId} {s t : Sweep} {o : Operation} {pend : ValueId → Option Pending}

theorem pending?_setPending (s : Sweep) (vs : List ValueId) (p : Pending) (v : ValueId) :
    (s.setPending vs p).pending? v = if v ∈ vs then some p else s.pending? v := by
  induction vs with
  | nil => simp [setPending, pending?]
  | cons u vs ih =>
    simp only [setPending, pending?, List.map_cons, List.cons_append, List.lookup_cons] at ih ⊢
    by_cases hv : v = u
    · simp [hv]
    · rw [beq_false_of_ne hv, ih]
      simp [hv]

/-! ### Operands with something pending -/

theorem mem_insertId {v u : ValueId} {ids : List ValueId} : u ∈ insertId v ids ↔ u = v ∨ u ∈ ids := by
  induction ids with
  | nil => simp [insertId]
  | cons w ids ih =>
    rw [insertId]
    split
    · simp
    · split
      · rename_i he
        simp [he]
      · simp only [List.mem_cons, ih]
        tauto

theorem insertId_sorted {v : ValueId} {ids : List ValueId} (h : ids.Pairwise (·.index < ·.index)) :
    (insertId v ids).Pairwise (·.index < ·.index) := by
  induction ids with
  | nil => simp [insertId]
  | cons w ids ih =>
    rw [List.pairwise_cons] at h
    rw [insertId]
    split
    · rename_i hlt
      refine List.pairwise_cons.2 ⟨fun u hu => ?_, List.pairwise_cons.2 h⟩
      rcases List.mem_cons.1 hu with rfl | hu
      · exact hlt
      · exact hlt.trans (h.1 u hu)
    · split
      · exact List.pairwise_cons.2 h
      · rename_i hlt hne
        refine List.pairwise_cons.2 ⟨fun u hu => ?_, ih h.2⟩
        rcases mem_insertId.1 hu with rfl | hu
        · exact lt_of_le_of_ne (Nat.le_of_not_lt hlt) fun he => hne (by cases u; cases w; simp_all)
        · exact h.1 u hu

/-- What is collected for values with something pending has the keys of these, in their order. -/
theorem map_filterMap_pending {α : Type} {pend : ValueId → Option Pending} {f : ValueId → Pending → α} {key : α → ValueId}
    (hkey : ∀ v q, key (f v q) = v) (ids : List ValueId) :
    (ids.filterMap fun v => (pend v).map (f v)).map key = ids.filter fun v => (pend v).isSome := by
  induction ids with
  | nil => rfl
  | cons v ids ih => cases hv : pend v <;> simp [hv, ih, hkey]

theorem mem_pendingInputs {x : ValueId} {q : Pending} :
    (x, q) ∈ s.pendingInputs o ↔ x ∈ o.inputs ∧ s.pending? x = some q := by
  have hmem : ∀ u, ∀ ids : List ValueId, u ∈ ids.foldr insertId [] ↔ u ∈ ids := by
    intro u ids
    induction ids with
    | nil => simp
    | cons v ids ih => rw [List.foldr_cons, mem_insertId, ih, List.mem_cons]
  simp only [pendingInputs, List.mem_filterMap, Option.map_eq_some_iff, Prod.mk.injEq, hmem]
  constructor
  · rintro ⟨u, hu, q', hq, rfl, rfl⟩
    exact ⟨hu, hq⟩
  · exact fun ⟨hx, hq⟩ => ⟨x, hx, q, hq, rfl, rfl⟩

theorem pendingInputs_once : ((s.pendingInputs o).map (·.1)).Nodup := by
  have hsorted : ∀ ids : List ValueId, (ids.foldr insertId []).Pairwise (·.index < ·.index) := by
    intro ids
    induction ids with
    | nil => exact .nil
    | cons v ids ih => exact insertId_sorted ih
  have hnd : (o.inputs.foldr insertId []).Nodup :=
    (hsorted o.inputs).imp fun hlt he => absurd hlt (by rw [he]; exact lt_irrefl _)
  rw [pendingInputs, map_filterMap_pending fun _ _ => rfl]
  exact hnd.filter _

theorem mem_foldr_union {sets : List Seeds} {id : OpId} : id ∈ sets.foldr Seeds.union [] ↔ ∃ set ∈ sets, id ∈ set := by
  induction sets with
  | nil => simp
  | cons set sets ih => rw [List.foldr_cons, Seeds.mem_union, ih]; simp

/-- What an operand looks like in the sweep is what it looks like. -/
theorem viewed_of_view? (har : ∀ op ∈ b.operations, op.FitsArity) {x : ValueId} {view : View}
    (h : s.view? b x = some view) (hx : pend x = s.pending? x) : Viewed True b pend x view := by
  rw [view?] at h
  split at h
  · rename_i p hp
    rw [← Option.some.inj h]
    exact .pending (hx.trans hp)
  · rename_i literal hp hl
    rw [← Option.some.inj h]
    rw [Block.literal?, Option.bind_eq_some_iff] at hl
    obtain ⟨p, hprod, hk⟩ := hl
    have hmem : p ∈ b.operations := List.mem_of_find?_eq_some hprod
    have hout : x ∈ p.outputs := by simpa using List.find?_some hprod
    have hkind : p.kind = .const literal := by
      cases hpk : p.kind with
      | const l =>
        rw [hpk] at hk
        exact congrArg _ (Option.some.inj hk)
      | _ => rw [hpk] at hk; cases hk
    have hone := (har p hmem _ (by rw [hkind]; rfl)).2
    obtain ⟨y, hy⟩ := List.length_eq_one_iff.1 hone
    rw [hy, List.mem_singleton] at hout
    exact .constant (hx.trans hp) hmem (hout ▸ hy) hkind
  · rename_i hp _
    rw [Option.map_eq_some_iff] at h
    obtain ⟨t, ht, rfl⟩ := h
    exact .concrete (hx.trans hp) fun _ => ⟨t, ht, rfl⟩

theorem mem_literals_of_view? {x : ValueId} {literal : Literal} (h : s.view? b x = some (.constant literal)) :
    literal ∈ b.literals := by
  rw [view?] at h
  split at h
  · cases h
  · rename_i literal' _ hl
    cases h
    obtain ⟨p, hprod, hk⟩ := Option.bind_eq_some_iff.1 hl
    exact List.mem_filterMap.2 ⟨p, List.mem_of_find?_eq_some hprod, hk⟩
  · obtain ⟨_, _, ht⟩ := Option.map_eq_some_iff.1 h
    cases ht

/-! ### The cases of a visit -/

/-- The sweep after an operation that absorbs. -/
def absorbing (s : Sweep) (o : Operation) (a : Absorption) : Sweep :=
  let seeds := ((s.pendingInputs o).map (·.2.seeds)).foldr Seeds.union []
  match a.outputPerm with
  | some perm => (s.addAbsorbed ⟨o.id, a, seeds⟩).setPending o.outputs ⟨perm, seeds⟩
  | none => s.addAbsorbed ⟨o.id, a, seeds⟩

/-- The sweep after an operation whose operands are restored. -/
def restoring (s : Sweep) (o : Operation) : Sweep :=
  s.addRestorations ((s.pendingInputs o).map fun e => ⟨e.1, e.2.perm, .op o.id (slotsOf o.inputs e.1), e.2.seeds⟩)

theorem visitGeneral_eq_ok (h : s.visitGeneral b o = .ok t) :
    (∃ views p a, o.inputs.mapM (s.view? b) = some views ∧ absorb o.kind views p = .ok a ∧ t = s.absorbing o a) ∨
      t = s.restoring o := by
  rw [visitGeneral.eq_def] at h
  split at h
  · rename_i hnil
    rw [restoring, hnil, ← Except.ok.inj h]
    exact .inr (by simp [addRestorations])
  · rename_i id first rest hcons
    dsimp only at h
    rw [← hcons] at h
    split at h
    · rename_i a ha
      split at ha
      · obtain ⟨views, hviews, habs⟩ := bind_eq_ok.1 ha
        refine .inl ⟨views, first.perm, a, orRefuse_eq_ok.1 hviews, habs, ?_⟩
        rw [absorbing]
        cases hperm : a.outputPerm <;> rw [hperm] at h <;> exact (Except.ok.inj h).symm
      · cases ha
    · exact .inr (Except.ok.inj h).symm
    · cases h

/-- A visit changes nothing but what is pending on the results. -/
theorem pending?_visit {v : ValueId} (h : visit b excluded s o = .ok t) (hv : v ∉ o.outputs) :
    t.pending? v = s.pending? v := by
  have hgeneral : s.visitGeneral b o = .ok t → t.pending? v = s.pending? v := fun h => by
    rcases visitGeneral_eq_ok h with ⟨_, _, a, _, _, rfl⟩ | rfl
    · rw [absorbing]
      cases a.outputPerm with
      | some perm => exact (pending?_setPending ..).trans (if_neg hv)
      | none => rfl
    · rfl
  rw [visit.eq_def] at h
  split at h
  · rw [← Except.ok.inj h]
  · split at h
    · rename_i input _ output _ _ hout
      have hv' : v ∉ [output] := by
        rw [hout] at hv
        exact fun hin => hv (List.mem_singleton.1 hin ▸ List.mem_cons_self)
      rw [← Except.ok.inj h, visitTranspose]
      split
      · split
        · rfl
        · rw [pending?_setPending, if_neg hv']
          rfl
      · split <;> rfl
    · rw [← Except.ok.inj h]
  · split at h <;> rw [← Except.ok.inj h]
    rw [pending?_setPending, if_neg hv]
  · split at h <;> rw [← Except.ok.inj h]
    rw [pending?_setPending, if_neg hv]
  · exact hgeneral h

/-- A transpose is a seed, undoes what is pending, or has its operand restored. -/
theorem visited_transpose {p : List Nat} {x y : ValueId} (hk : o.kind = .transpose p) (hin : o.inputs = [x])
    (hout : o.outputs = [y]) (hfresh : s.pending? y = none) (hne : x ≠ y)
    (hx : pend x = (s.visitTranspose b excluded o.id p x y).pending? x)
    (hy : pend y = (s.visitTranspose b excluded o.id p x y).pending? y) :
    ∃ d, (s.visitTranspose b excluded o.id p x y).analysis = s.analysis.append d ∧ Visited b excluded pend o d := by
  rw [visitTranspose] at hx hy ⊢
  have hnot : o.kind.isPointwise → ∀ v ∈ o.inputs, pend v = none := fun h => by rw [hk] at h; cases h
  have hkeep : (∀ q, pend x ≠ some q) → pend y = none → o.id ∈ excluded ∨ y ∈ b.outputs →
      Visited b excluded pend o {} := fun hx hy hwhy =>
    .restores (fun _ => rfl)
      ⟨hnot, fun _ _ _ => hwhy.imp_right fun h => ⟨y, by rw [hout]; exact List.mem_singleton_self y, h⟩,
        fun _ _ v hv q hq => by
          rw [hin, List.mem_singleton] at hv
          exact absurd (hv ▸ hq) (hx q)⟩
      (fun v hv => by rw [hout, List.mem_singleton] at hv; rw [hv, hy])
      ⟨fun r hr => (by cases hr), fun v hv q hq => by
        rw [hin, List.mem_singleton] at hv
        exact absurd (hv ▸ hq) (hx q), List.nodup_nil⟩
  cases hp : s.pending? x with
  | none =>
    rw [hp] at hx hy
    dsimp only at hx hy ⊢
    split at hx
    · rename_i hc
      rw [if_pos hc] at hy ⊢
      refine ⟨{}, (s.analysis.append_empty).symm, hkeep (fun q hq => ?_) (hy.trans hfresh) ?_⟩
      · rw [hx, hp] at hq
        cases hq
      · simpa only [Bool.or_eq_true, List.contains_iff_mem] using hc
    · rename_i hc
      rw [if_neg hc] at hy ⊢
      rw [pending?_setPending] at hx hy
      rw [if_neg (by simpa using hne)] at hx
      rw [if_pos (List.mem_singleton_self y)] at hy
      simp only [Bool.or_eq_true, List.contains_iff_mem, not_or] at hc
      refine ⟨{ seeds := [o.id] }, by simp [setPending, addSeed, Analysis.append],
        .seed ⟨x, y, p, hk, hin, hout, hx.trans hp, hy, hc.2⟩⟩
  | some q =>
    rw [hp] at hx hy
    dsimp only at hx hy ⊢
    split at hx
    · rename_i hc
      rw [if_pos hc] at hy ⊢
      refine ⟨{ cancellations := [⟨o.id, q.seeds⟩] }, by simp [addCancellation, Analysis.append],
        .cancels ⟨x, y, q.perm, p, hk, hin, hout, hx.trans hp, hc, hy.trans hfresh⟩⟩
    · rename_i hc
      rw [if_neg hc] at hy ⊢
      have hpx : pend x = some q := hx.trans hp
      refine ⟨{ restorations := [⟨x, q.perm, .op o.id [0], q.seeds⟩] }, by simp [addRestorations, Analysis.append],
        .restores (fun hconst => by rw [hk] at hconst; cases hconst) ⟨hnot, fun _ _ h => ?_, fun q' hq' v hv p' hp' => ?_⟩
          (fun v hv => by rw [hout, List.mem_singleton] at hv; rw [hv]; exact hy.trans hfresh)
          ⟨fun r hr => ?_, fun v hv _ _ => ?_, List.nodup_singleton _⟩⟩
      · rw [h x (by rw [hin]; exact List.mem_singleton_self x)] at hpx
        cases hpx
      · rw [hin, List.mem_singleton] at hv
        rw [hv, hpx, Option.some.injEq] at hp'
        rw [hk, OpKind.transpose.injEq] at hq'
        rw [← hp', ← hq']
        exact hc
      · rw [List.mem_singleton] at hr
        subst hr
        refine ⟨q, by rw [hin]; exact List.mem_singleton_self x, hpx, ?_⟩
        rw [hin]
        simp [slotsOf]
      · rw [hin, List.mem_singleton] at hv
        exact ⟨_, List.mem_singleton_self _, hv.symm⟩

section Operands

variable (hin : ∀ x ∈ o.inputs, pend x = s.pending? x)
include hin

theorem mem_pendingInputs_iff {x : ValueId} {q : Pending} : (x, q) ∈ s.pendingInputs o ↔ x ∈ o.inputs ∧ pend x = some q := by
  rw [mem_pendingInputs]
  exact and_congr_right fun hx => by rw [hin x hx]

/-- The seeds of all operands together. -/
theorem mem_seeds_pendingInputs {id : OpId} : id ∈ ((s.pendingInputs o).map (·.2.seeds)).foldr Seeds.union [] ↔
    ∃ x ∈ o.inputs, ∃ q, pend x = some q ∧ id ∈ q.seeds := by
  rw [mem_foldr_union]
  simp only [List.mem_map, Prod.exists, mem_pendingInputs_iff hin]
  constructor
  · rintro ⟨_, ⟨x, q, ⟨hx, hq⟩, rfl⟩, hid⟩
    exact ⟨x, hx, q, hq, hid⟩
  · rintro ⟨x, hx, q, hq, hid⟩
    exact ⟨_, ⟨x, q, ⟨hx, hq⟩, rfl⟩, hid⟩

/-- One restoration for each operand with something pending. -/
theorem restoresOperands_pendingInputs : RestoresOperands pend o ((s.pendingInputs o).map fun e =>
    ⟨e.1, e.2.perm, .op o.id (slotsOf o.inputs e.1), e.2.seeds⟩) := by
  refine ⟨fun r hr => ?_, fun x hx q hq => ?_, ?_⟩
  · obtain ⟨⟨x, q⟩, he, rfl⟩ := List.mem_map.1 hr
    obtain ⟨hx, hq⟩ := (mem_pendingInputs_iff hin).1 he
    exact ⟨q, hx, hq, rfl⟩
  · exact ⟨_, List.mem_map.2 ⟨(x, q), (mem_pendingInputs_iff hin).2 ⟨hx, hq⟩, rfl⟩, rfl⟩
  · rw [List.map_map]
    exact pendingInputs_once

end Operands

/-- Any other operation absorbs what is pending, or has its operands restored. -/
theorem visited_general (har : ∀ op ∈ b.operations, op.FitsArity) (hk : o.kind.isConst = false)
    (hk₁ : o.kind.isPointwise = false) (hk₂ : o.kind.isTranspose = false)
    (hfresh : ∀ y ∈ o.outputs, s.pending? y = none) (hin : ∀ x ∈ o.inputs, pend x = s.pending? x)
    (ht : s.visitGeneral b o = .ok t) (hout : ∀ y ∈ o.outputs, pend y = t.pending? y) :
    ∃ d, t.analysis = s.analysis.append d ∧ Visited b excluded pend o d := by
  rcases visitGeneral_eq_ok ht with ⟨views, p, a, hviews, habs, rfl⟩ | rfl
  · have hviewed : List.Forall₂ (Viewed True b pend) o.inputs views := by
      have := mapM_eq_some.1 hviews
      rw [List.forall₂_iff_get] at this ⊢
      exact ⟨this.1, fun i hi hi' => viewed_of_view? har (this.2 i hi hi') (hin _ (List.get_mem ..))⟩
    have hunion := @mem_seeds_pendingInputs _ _ _ hin
    rw [absorbing] at hout ⊢
    generalize ((s.pendingInputs o).map (·.2.seeds)).foldr Seeds.union [] = seeds at hunion hout ⊢
    refine ⟨{ absorbed := [⟨o.id, a, seeds⟩] }, ?_, .absorbs rfl hk₁ ⟨views, p, hviewed, habs, fun y hy => ?_,
      fun x hx q hq id hid => hunion.2 ⟨x, hx, q, hq, hid⟩⟩ fun id hid => hunion.1 hid⟩
    · cases a.outputPerm <;> simp [setPending, addAbsorbed, Analysis.append]
    · rw [hout y hy]
      cases hperm : a.outputPerm with
      | none => exact hfresh y hy
      | some p =>
        dsimp only
        rw [pending?_setPending, if_pos hy]
        rfl
  · exact ⟨{ restorations := (s.pendingInputs o).map fun e =>
      ⟨e.1, e.2.perm, .op o.id (slotsOf o.inputs e.1), e.2.seeds⟩ }, by simp [restoring, addRestorations, Analysis.append],
      .restores (fun hconst => by rw [hk] at hconst; cases hconst) (.of_other hk₁ hk₂)
        (fun y hy => (hout y hy).trans (hfresh y hy)) (restoresOperands_pendingInputs hin)⟩

/-- An operation on single elements hands on what is pending. -/
theorem visited_pointwise {x y : ValueId} (hk : o.kind.isPointwise) (hin : o.inputs = [x]) (hout : o.outputs = [y])
    (hfresh : s.pending? y = none) (hne : x ≠ y) {t : Sweep}
    (ht : t = match s.pending? x with
      | some p => s.setPending o.outputs p
      | none => s)
    (hx : pend x = t.pending? x) (hy : pend y = t.pending? y) :
    ∃ d, t.analysis = s.analysis.append d ∧ Visited b excluded pend o d := by
  refine ⟨{}, ?_, ?_⟩
  · rw [ht, Analysis.append_empty]
    split <;> rfl
  · cases hp : s.pending? x with
    | none =>
      rw [hp] at ht
      subst ht
      have hnone : ∀ v ∈ o.inputs, pend v = none := fun v hv => by
        rw [hin, List.mem_singleton] at hv
        rw [hv, hx, hp]
      have hnot : ∀ q, o.kind ≠ .transpose q := fun q h => by rw [h] at hk; cases hk
      refine .restores (fun _ => rfl) ⟨fun _ => hnone, fun q h => absurd h (hnot q), fun q h => absurd h (hnot q)⟩
        (fun v hv => by rw [hout, List.mem_singleton] at hv; rw [hv]; exact hy.trans hfresh)
        ⟨fun r hr => (by cases hr), fun v hv q hq => ?_, List.nodup_nil⟩
      rw [hnone v hv] at hq
      cases hq
    | some q =>
      rw [hp] at ht
      subst ht
      rw [pending?_setPending, hout] at hx hy
      rw [if_neg (by simpa using hne)] at hx
      rw [if_pos (List.mem_singleton_self y)] at hy
      exact .passes ⟨x, y, q, hk, hin, hout, hx.trans hp, hy⟩

/-- What the sweep does at one operation. -/
theorem visit_spec (har : ∀ op ∈ b.operations, op.FitsArity) (ho : o.FitsArity)
    (hfresh : ∀ y ∈ o.outputs, s.pending? y = none) (hdisj : ∀ x ∈ o.inputs, x ∉ o.outputs)
    (ht : visit b excluded s o = .ok t) (hpend : ∀ v ∈ o.inputs ++ o.outputs, pend v = t.pending? v) :
    ∃ d, t.analysis = s.analysis.append d ∧ Visited b excluded pend o d := by
  have hin : ∀ x ∈ o.inputs, pend x = s.pending? x := fun x hx =>
    (hpend x (List.mem_append_left _ hx)).trans (pending?_visit ht (hdisj x hx))
  have hout : ∀ y ∈ o.outputs, pend y = t.pending? y := fun y hy => hpend y (List.mem_append_right _ hy)
  have hone : o.kind.arity? = some (.exactly 1) → ∃ x y, o.inputs = [x] ∧ o.outputs = [y] ∧ x ≠ y := fun hk => by
    obtain ⟨hi, ho⟩ := ho _ hk
    obtain ⟨x, hx⟩ := List.length_eq_one_iff.1 (show o.inputs.length = 1 by simpa [Arity.admits] using hi)
    obtain ⟨y, hy⟩ := List.length_eq_one_iff.1 ho
    exact ⟨x, y, hx, hy, fun he => hdisj x (by rw [hx]; exact List.mem_singleton_self x)
      (by rw [hy, he]; exact List.mem_singleton_self y)⟩
  have hpointwise : o.kind.isPointwise → o.kind.arity? = some (.exactly 1) →
      visit b excluded s o = (match o.inputs.head?.bind s.pending? with
        | some p => .ok (s.setPending o.outputs p)
        | none => .ok s) →
      ∃ d, t.analysis = s.analysis.append d ∧ Visited b excluded pend o d := fun hk har heq => by
    obtain ⟨x, y, hx, hy, hne⟩ := hone har
    refine visited_pointwise hk hx hy (hfresh y (by rw [hy]; exact List.mem_singleton_self y)) hne ?_
      (hpend x (by rw [hx]; exact List.mem_cons_self)) (hpend y (by rw [hy]; simp))
    rw [ht, hx] at heq
    change Except.ok t = (match s.pending? x with
      | some p => .ok (s.setPending o.outputs p)
      | none => .ok s) at heq
    split at heq <;> exact Except.ok.inj heq
  have hgeneral : o.kind.isConst = false → o.kind.isPointwise = false → o.kind.isTranspose = false →
      visit b excluded s o = s.visitGeneral b o →
      ∃ d, t.analysis = s.analysis.append d ∧ Visited b excluded pend o d := fun hk hk₁ hk₂ heq =>
    visited_general har hk hk₁ hk₂ hfresh hin (heq ▸ ht) hout
  cases hk : o.kind with
  | const literal =>
    have heq : visit b excluded s o = .ok s := by simp only [visit, hk]
    rw [heq] at ht
    cases ht
    obtain ⟨hi, _⟩ := ho (.exactly 0) (by rw [hk]; rfl)
    have hnil : o.inputs = [] := List.length_eq_zero_iff.1 (by simpa [Arity.admits] using hi)
    refine ⟨{}, (s.analysis.append_empty).symm,
      .restores (fun _ => rfl) (.of_other (by rw [hk]; rfl) (by rw [hk]; rfl))
        (fun y hy => (hout y hy).trans (hfresh y hy)) ⟨fun r hr => (by cases hr), fun x hx => ?_, List.nodup_nil⟩⟩
    rw [hnil] at hx
    cases hx
  | transpose p =>
    obtain ⟨x, y, hx, hy, hne⟩ := hone (by rw [hk]; rfl)
    have heq : visit b excluded s o = .ok (s.visitTranspose b excluded o.id p x y) := by simp only [visit, hk, hx, hy]
    rw [heq] at ht
    cases ht
    exact visited_transpose hk hx hy (hfresh y (by rw [hy]; exact List.mem_singleton_self y)) hne
      (hpend x (by rw [hx]; exact List.mem_cons_self)) (hpend y (by rw [hy]; simp))
  | unary f => exact hpointwise (by rw [hk]; rfl) (by rw [hk]; rfl) (by cases o; cases hk; rfl)
  | activation f => exact hpointwise (by rw [hk]; rfl) (by rw [hk]; rfl) (by cases o; cases hk; rfl)
  | _ => exact hgeneral (by rw [hk]; rfl) (by rw [hk]; rfl) (by rw [hk]; rfl) (by simp only [visit, hk])

/-! ### The whole sweep -/

theorem foldlM_cons {ops : List Operation} {u : Sweep} (h : (o :: ops).foldlM (visit b excluded) s = .ok u) :
    ∃ t, visit b excluded s o = .ok t ∧ ops.foldlM (visit b excluded) t = .ok u := by
  rw [List.foldlM_cons] at h
  exact bind_eq_ok.1 h

theorem pending?_foldlM {v : ValueId} : ∀ {ops : List Operation} {s t : Sweep},
    ops.foldlM (visit b excluded) s = .ok t → v ∉ results ops → t.pending? v = s.pending? v
  | [], _, _, h, _ => by
    cases h
    rfl
  | o :: ops, s, u, h, hv => by
    rw [results_cons, List.mem_append, not_or] at hv
    obtain ⟨t, ht, hu⟩ := foldlM_cons h
    rw [pending?_foldlM hu hv.2, pending?_visit ht hv.1]

/-- What the sweep does at operations, one after another: what is pending on their operands and results in the end was
pending when they were visited. -/
theorem foldlM_spec (har : ∀ op ∈ b.operations, op.FitsArity) : ∀ {ops : List Operation} {scope : List ValueId}
    {s u : Sweep}, (∀ op ∈ ops, op.FitsArity) → Scoped scope ops → (scope ++ results ops).Nodup →
    (∀ v, s.pending? v ≠ none → v ∈ scope) → ops.foldlM (visit b excluded) s = .ok u →
    ∃ ds, List.Forall₂ (Visited b excluded u.pending?) ops ds ∧ u.analysis = s.analysis.append (.ofSteps ds)
  | [], _, s, _, _, _, _, _, h => by
    cases h
    exact ⟨[], .nil, (s.analysis.append_empty).symm⟩
  | o :: ops, scope, s, u, hops, hscope, hnd, hkeys, h => by
    obtain ⟨t, ht, hu⟩ := foldlM_cons h
    rw [results_cons, ← List.append_assoc, List.nodup_append] at hnd
    obtain ⟨hnd₁, hnd₂, hdisj⟩ := hnd
    have hout : ∀ y ∈ o.outputs, y ∉ scope := fun y hy hin => (List.nodup_append.1 hnd₁).2.2 y hin y hy rfl
    have hlater : ∀ v ∈ scope ++ o.outputs, v ∉ results ops := fun v hv hin => hdisj v hv v hin rfl
    have hkeys' : ∀ v, t.pending? v ≠ none → v ∈ scope ++ o.outputs := fun v hv => by
      by_cases hv' : v ∈ o.outputs
      · exact List.mem_append_right _ hv'
      · rw [pending?_visit ht hv'] at hv
        exact List.mem_append_left _ (hkeys v hv)
    obtain ⟨ds, hds, heq⟩ := foldlM_spec har (fun op hop => hops op (List.mem_cons_of_mem _ hop)) hscope.2
      (List.nodup_append.2 ⟨hnd₁, hnd₂, hdisj⟩) hkeys' hu
    have hpend : ∀ v ∈ o.inputs ++ o.outputs, u.pending? v = t.pending? v := fun v hv => by
      refine pending?_foldlM hu (hlater v ?_)
      rcases List.mem_append.1 hv with hv | hv
      · exact List.mem_append_left _ (hscope.1 v hv)
      · exact List.mem_append_right _ hv
    have hfresh : ∀ y ∈ o.outputs, s.pending? y = none := fun y hy => by
      by_contra hne
      exact hout y hy (hkeys y hne)
    obtain ⟨d, hd, hvisit⟩ := visit_spec har (hops o List.mem_cons_self) hfresh
      (fun x hx hxo => hout x hxo (hscope.1 x hx)) ht hpend
    refine ⟨d :: ds, .cons hvisit hds, ?_⟩
    rw [heq, hd, Analysis.append_append, Analysis.ofSteps_cons]

/-- The entries of a list at their first positions. -/
def distinct (xs : List ValueId) : List ValueId :=
  xs.zipIdx.filterMap fun (id, slot) => if (xs.take slot).contains id then none else some id

theorem distinct_concat (xs : List ValueId) (x : ValueId) :
    distinct (xs ++ [x]) = distinct xs ++ if x ∈ xs then [] else [x] := by
  rw [distinct, List.zipIdx_append, List.filterMap_append]
  congr 1
  · refine List.filterMap_congr fun e he => ?_
    have hlt : e.2 < xs.length := by
      have := List.mem_zipIdx_iff_getElem?.1 he
      exact (List.getElem?_eq_some_iff.1 this).1
    dsimp only
    rw [List.take_append_of_le_length hlt.le]
  · by_cases hx : x ∈ xs <;> simp [hx]

theorem mem_distinct {xs : List ValueId} {v : ValueId} : v ∈ distinct xs ↔ v ∈ xs := by
  induction xs using List.reverseRecOn with
  | nil => exact Iff.rfl
  | append_singleton xs x ih =>
    rw [distinct_concat, List.mem_append, ih, List.mem_append, List.mem_singleton]
    by_cases hx : x ∈ xs
    · rw [if_pos hx]
      constructor
      · rintro (h | h)
        · exact .inl h
        · cases h
      · rintro (h | rfl)
        · exact .inl h
        · exact .inl hx
    · rw [if_neg hx, List.mem_singleton]

theorem distinct_once (xs : List ValueId) : (distinct xs).Nodup := by
  induction xs using List.reverseRecOn with
  | nil => exact List.nodup_nil
  | append_singleton xs x ih =>
    rw [distinct_concat, List.nodup_append]
    refine ⟨ih, by split <;> simp, fun v hv w hw => ?_⟩
    split at hw
    · cases hw
    · rename_i hx
      rw [List.mem_singleton] at hw
      rintro rfl
      exact hx (hw ▸ mem_distinct.1 hv)

end Sweep

/-! ## Regions -/

section Steps

variable {b : Block} {pend : ValueId → Option Pending} {ops : List Operation} {f : Operation → Analysis} {o : Operation}
  {d : Analysis}

theorem exists_map_of_forall₂ {α β : Type} [DecidableEq α] {R : α → β → Prop} {xs : List α} {ys : List β}
    (hnd : xs.Nodup) (h : List.Forall₂ R xs ys) (d : β) : ∃ f : α → β, ys = xs.map f ∧ ∀ x ∈ xs, R x (f x) := by
  induction h with
  | nil => exact ⟨fun _ => d, rfl, fun x hx => (by cases hx)⟩
  | @cons x y xs ys hxy _ ih =>
    rw [List.nodup_cons] at hnd
    obtain ⟨f, rfl, hf⟩ := ih hnd.2
    have hne : ∀ z ∈ xs, z ≠ x := fun z hz he => hnd.1 (he ▸ hz)
    refine ⟨Function.update f x y, ?_, fun z hz => ?_⟩
    · rw [List.map_cons, Function.update_self]
      congr 1
      exact List.map_congr_left fun z hz => (Function.update_of_ne (hne z hz) ..).symm
    · rcases List.mem_cons.1 hz with rfl | hz
      · rw [Function.update_self]
        exact hxy
      · rw [Function.update_of_ne (hne z hz)]
        exact hf z hz

theorem mem_ofSteps {α : Type} {g : Analysis → List α} {r : α} :
    r ∈ (ops.map f).flatMap g ↔ ∃ o ∈ ops, r ∈ g (f o) := by
  simp [List.mem_flatMap]

namespace Visited

theorem marked_eq (h : Visited b excluded pend o d) : d.marked = [] ∨ d.marked = [o.id] := by
  cases h with
  | seed h => exact .inr rfl
  | cancels h => exact .inr rfl
  | absorbs hop hk h hseeds => exact .inr (congrArg (fun id => [id]) hop)
  | passes h => exact .inl rfl
  | restores hk hstay hout h => exact .inl rfl

theorem id_of_marked (h : Visited b excluded pend o d) {id : OpId} (hid : id ∈ d.marked) : id = o.id := by
  rcases h.marked_eq with he | he
  · rw [he] at hid
    cases hid
  · rw [he] at hid
    exact List.mem_singleton.1 hid

theorem of_seed (h : Visited b excluded pend o d) {id : OpId} (hid : id ∈ d.seeds) : o.id = id ∧ IsSeed b pend o := by
  cases h with
  | seed h => exact ⟨(List.mem_singleton.1 hid).symm, h⟩
  | _ => cases hid

theorem of_cancellation (h : Visited b excluded pend o d) {c : Cancellation} (hc : c ∈ d.cancellations) :
    o.id = c.op ∧ IsCancellation pend o c.seeds := by
  cases h with
  | cancels h =>
    rw [List.mem_singleton] at hc
    subst hc
    exact ⟨rfl, h⟩
  | _ => cases hc

theorem of_absorbed (h : Visited b excluded pend o d) {r : Absorbed} (hr : r ∈ d.absorbed) :
    o.id = r.op ∧ Absorbs True b pend o r ∧
      ∀ id ∈ r.seeds, ∃ x ∈ o.inputs, ∃ q, pend x = some q ∧ id ∈ q.seeds := by
  cases h with
  | absorbs hop hk h hseeds =>
    rw [List.mem_singleton] at hr
    subst hr
    exact ⟨hop.symm, h, hseeds⟩
  | _ => cases hr

theorem of_unmarked (h : Visited b excluded pend o d) (hm : d.marked = []) :
    Passes pend o ∨ (∀ y ∈ o.outputs, pend y = none) ∧ RestoresOperands pend o d.restorations := by
  cases h with
  | passes h => exact .inl h
  | restores hk hstay hout h => exact .inr ⟨hout, h⟩
  | _ => cases hm

theorem restored (h : Visited b excluded pend o d) {r : Restoration} (hr : r ∈ d.restorations) :
    d.marked = [] ∧ o.kind.isConst = false ∧ (∀ y ∈ o.outputs, pend y = none) ∧ RestoresOperands pend o d.restorations := by
  cases h with
  | restores hk hstay hout h =>
    refine ⟨rfl, ?_, hout, h⟩
    cases hc : o.kind.isConst with
    | false => rfl
    | true =>
      rw [hk hc] at hr
      cases hr
  | _ => cases hr

/-- A restoration that a sweep finds at an operation is for that operation. -/
theorem restored_eq (h : Visited b excluded pend o d) {r : Restoration} (hr : r ∈ d.restorations) :
    r.value ∈ o.inputs ∧ pend r.value = some ⟨r.perm, r.seeds⟩ ∧
      r.consumer = .op o.id (Sweep.slotsOf o.inputs r.value) := by
  obtain ⟨q, hin, hq, he⟩ := (h.restored hr).2.2.2.sound r hr
  refine ⟨hin, ?_, by rw [he]⟩
  rw [hq, he]

end Visited

theorem marked_append (d e : Analysis) : (d.append e).marked.Perm (d.marked ++ e.marked) := by
  rw [List.perm_iff_count]
  intro id
  simp only [Analysis.append, Analysis.marked, Analysis.removed, List.map_append, List.count_append]
  omega

theorem mem_marked_ofSteps {id : OpId} : id ∈ (Analysis.ofSteps (ops.map f)).marked ↔ ∃ o ∈ ops, id ∈ (f o).marked := by
  induction ops with
  | nil => simp [Analysis.ofSteps, Analysis.marked, Analysis.removed]
  | cons o ops ih =>
    rw [List.map_cons, Analysis.ofSteps_cons, (marked_append (f o) _).mem_iff, List.mem_append, ih]
    simp

theorem marked_once (h : ∀ o ∈ ops, Visited b excluded pend o (f o)) (hnd : (ops.map (·.id)).Nodup) :
    (Analysis.ofSteps (ops.map f)).marked.Nodup := by
  induction ops with
  | nil => exact List.nodup_nil
  | cons o ops ih =>
    rw [List.map_cons, List.nodup_cons] at hnd
    have hrest := fun o ho => h o (List.mem_cons_of_mem _ ho)
    rw [List.map_cons, Analysis.ofSteps_cons, (marked_append (f o) _).nodup_iff, List.nodup_append]
    refine ⟨?_, ih hrest hnd.2, fun id hid id' hid' he => ?_⟩
    · rcases (h o List.mem_cons_self).marked_eq with he | he <;> rw [he]
      · exact List.nodup_nil
      · exact List.nodup_singleton _
    · obtain ⟨o', ho', hid'⟩ := mem_marked_ofSteps.1 hid'
      have heq : o.id = o'.id :=
        ((h o List.mem_cons_self).id_of_marked hid).symm.trans (he.trans ((hrest o' ho').id_of_marked hid'))
      exact hnd.1 (heq ▸ List.mem_map_of_mem (f := (·.id)) ho')

theorem restored_once (h : ∀ o ∈ ops, Visited b excluded pend o (f o)) (hnd : (ops.map (·.id)).Nodup) :
    ((Analysis.ofSteps (ops.map f)).restorations.map fun r => (r.value, r.consumer.op?)).Nodup := by
  induction ops with
  | nil => exact List.nodup_nil
  | cons o ops ih =>
    rw [List.map_cons, List.nodup_cons] at hnd
    have hrest := fun o ho => h o (List.mem_cons_of_mem _ ho)
    rw [List.map_cons, Analysis.ofSteps_cons, Analysis.append, List.map_append, List.nodup_append]
    refine ⟨?_, ih hrest hnd.2, fun e he e' he' heq => ?_⟩
    · cases hrs : (f o).restorations with
      | nil => exact List.nodup_nil
      | cons r rs =>
        have hmem : r ∈ (f o).restorations := by rw [hrs]; exact List.mem_cons_self
        rw [← hrs]
        refine List.Nodup.of_map Prod.fst ?_
        rw [List.map_map]
        exact ((h o List.mem_cons_self).restored hmem).2.2.2.once
    · obtain ⟨r, hr, rfl⟩ := List.mem_map.1 he
      obtain ⟨r', hr', rfl⟩ := List.mem_map.1 he'
      obtain ⟨o', ho', hr'⟩ := mem_ofSteps.1 hr'
      have hid : r.consumer.op? = r'.consumer.op? := congrArg Prod.snd heq
      rw [((h o List.mem_cons_self).restored_eq hr).2.2, ((hrest o' ho').restored_eq hr').2.2] at hid
      have hid' : o.id = o'.id := Option.some.inj hid
      exact hnd.1 (hid' ▸ List.mem_map_of_mem (f := (·.id)) ho')

end Steps

/-- What a sweep leaves pending on the values of a block. -/
def sweptPending (b : Block) (excluded : List OpId) : ValueId → Option Pending :=
  match b.operations.foldlM (Sweep.visit b excluded) {} with
  | .ok s => s.pending?
  | .error _ => fun _ => none

section Swept

variable {b : Block} {excluded : List OpId} {a : Analysis}

/-- Restorations for the outputs of a block, each value once. -/
def outputRestorations (b : Block) (pend : ValueId → Option Pending) : List Restoration :=
  (Sweep.distinct b.outputs).filterMap fun id =>
    (pend id).map fun p => ⟨id, p.perm, .output (Sweep.slotsOf b.outputs id), p.seeds⟩

theorem mem_outputRestorations {pend : ValueId → Option Pending} {r : Restoration} :
    r ∈ outputRestorations b pend ↔ r.value ∈ b.outputs ∧ pend r.value = some ⟨r.perm, r.seeds⟩ ∧
      r.consumer = .output (Sweep.slotsOf b.outputs r.value) := by
  simp only [outputRestorations, List.mem_filterMap, Sweep.mem_distinct, Option.map_eq_some_iff]
  constructor
  · rintro ⟨v, hv, q, hq, rfl⟩
    exact ⟨hv, hq, rfl⟩
  · rintro ⟨hv, hq, hc⟩
    exact ⟨r.value, hv, _, hq, by rw [← hc]⟩

theorem outputRestorations_once (pend : ValueId → Option Pending) :
    ((outputRestorations b pend).map (·.value)).Nodup := by
  rw [outputRestorations, Sweep.map_filterMap_pending fun _ _ => rfl]
  exact (Sweep.distinct_once b.outputs).filter _

/-- The records of all operations and those of the outputs. -/
def Analysis.ofVisits (b : Block) (pend : ValueId → Option Pending) (f : Operation → Analysis) : Analysis :=
  (Analysis.ofSteps (b.operations.map f)).append { restorations := outputRestorations b pend }

section Visits

variable {pend : ValueId → Option Pending} {f : Operation → Analysis}

theorem mem_seeds_ofVisits {id : OpId} :
    id ∈ (Analysis.ofVisits b pend f).seeds ↔ ∃ o ∈ b.operations, id ∈ (f o).seeds := by
  simp [Analysis.ofVisits, Analysis.append, Analysis.ofSteps]

theorem mem_cancellations_ofVisits {c : Cancellation} :
    c ∈ (Analysis.ofVisits b pend f).cancellations ↔ ∃ o ∈ b.operations, c ∈ (f o).cancellations := by
  simp [Analysis.ofVisits, Analysis.append, Analysis.ofSteps]

theorem mem_absorbed_ofVisits {r : Absorbed} :
    r ∈ (Analysis.ofVisits b pend f).absorbed ↔ ∃ o ∈ b.operations, r ∈ (f o).absorbed := by
  simp [Analysis.ofVisits, Analysis.append, Analysis.ofSteps]

theorem mem_restorations_ofVisits {r : Restoration} : r ∈ (Analysis.ofVisits b pend f).restorations ↔
    (∃ o ∈ b.operations, r ∈ (f o).restorations) ∨ r ∈ outputRestorations b pend := by
  rw [Analysis.ofVisits, Analysis.append, List.mem_append, Analysis.ofSteps, mem_ofSteps]

/-- An operation has a record if its visit has left one. -/
theorem marked_ofVisits (hs : b.Sound) (hf : ∀ o ∈ b.operations, Visited b excluded pend o (f o)) {o : Operation}
    (ho : o ∈ b.operations) : o.id ∈ (Analysis.ofVisits b pend f).marked ↔ (f o).marked ≠ [] := by
  have hmarked : o.id ∈ (Analysis.ofVisits b pend f).marked ↔ ∃ o' ∈ b.operations, o.id ∈ (f o').marked := by
    rw [Analysis.ofVisits, (marked_append _ _).mem_iff, List.mem_append, mem_marked_ofSteps]
    simp [Analysis.marked, Analysis.removed]
  rw [hmarked]
  constructor
  · rintro ⟨o', ho', hid⟩
    rw [hs.op_ext ho' ho ((hf o' ho').id_of_marked hid).symm] at hid
    exact List.ne_nil_of_mem hid
  · intro hne
    exact ⟨o, ho, by rw [(hf o ho).marked_eq.resolve_left hne]; exact List.mem_singleton_self _⟩

theorem marked_once_ofVisits (hs : b.Sound) (hf : ∀ o ∈ b.operations, Visited b excluded pend o (f o)) :
    (Analysis.ofVisits b pend f).marked.Nodup := by
  rw [Analysis.ofVisits, (marked_append _ _).nodup_iff]
  simpa [Analysis.marked, Analysis.removed] using marked_once hf hs.opsOnce

theorem restored_once_ofVisits (hs : b.Sound) (hf : ∀ o ∈ b.operations, Visited b excluded pend o (f o)) :
    ((Analysis.ofVisits b pend f).restorations.map fun r => (r.value, r.consumer.op?)).Nodup := by
  rw [Analysis.ofVisits, Analysis.append, List.map_append, List.nodup_append]
  refine ⟨restored_once hf hs.opsOnce, ?_, fun e he e' he' heq => ?_⟩
  · refine List.Nodup.of_map Prod.fst ?_
    rw [List.map_map]
    exact outputRestorations_once pend
  · obtain ⟨r, hr, rfl⟩ := List.mem_map.1 he
    obtain ⟨r', hr', rfl⟩ := List.mem_map.1 he'
    obtain ⟨o, ho, hr⟩ := mem_ofSteps.1 hr
    have hop : r.consumer.op? = r'.consumer.op? := congrArg Prod.snd heq
    rw [((hf o ho).restored_eq hr).2.2, (mem_outputRestorations.1 hr').2.2] at hop
    cases hop

/-- The records of visits, and what these leave pending, are a region. -/
theorem describes_ofVisits (hs : b.Sound) (hf : ∀ o ∈ b.operations, Visited b excluded pend o (f o))
    (hdef : ∀ v q, pend v = some q → v ∈ results b.operations) :
    Describes True (Analysis.ofVisits b pend f) b pend where
  seeds id hid := by
    obtain ⟨o, ho, hid⟩ := mem_seeds_ofVisits.1 hid
    exact ⟨o, ho, (hf o ho).of_seed hid⟩
  cancellations c hc := by
    obtain ⟨o, ho, hc⟩ := mem_cancellations_ofVisits.1 hc
    exact ⟨o, ho, (hf o ho).of_cancellation hc⟩
  absorbed r hr := by
    obtain ⟨o, ho, hr⟩ := mem_absorbed_ofVisits.1 hr
    obtain ⟨hop, habs, _⟩ := (hf o ho).of_absorbed hr
    exact ⟨o, ho, hop, habs⟩
  restorations r hr := by
    rcases mem_restorations_ofVisits.1 hr with ⟨o, ho, hr⟩ | hr
    · obtain ⟨hin, hq, hc⟩ := (hf o ho).restored_eq hr
      obtain ⟨hnil, hk, hout, _⟩ := (hf o ho).restored hr
      refine ⟨hq, ?_⟩
      rw [hc]
      exact ⟨o, ho, rfl, fun hid => (marked_ofVisits hs hf ho).1 hid hnil, hin, rfl, hout, hk⟩
    · obtain ⟨hv, hq, hc⟩ := mem_outputRestorations.1 hr
      refine ⟨hq, ?_⟩
      rw [hc]
      exact ⟨hv, rfl⟩
  others o ho hid := by
    have hnil : (f o).marked = [] := not_ne_iff.1 fun hne => hid ((marked_ofVisits hs hf ho).2 hne)
    rcases (hf o ho).of_unmarked hnil with hp | ⟨hout, hres⟩
    · exact .inl hp
    · refine .inr ⟨fun x hx q hq => ?_, hout⟩
      obtain ⟨r, hr, he⟩ := hres.complete x hx q hq
      exact ⟨r, mem_restorations_ofVisits.2 (.inl ⟨o, ho, hr⟩), he, _, ((hf o ho).restored_eq hr).2.2⟩
  outputs v hv q hq := ⟨⟨v, q.perm, .output (Sweep.slotsOf b.outputs v), q.seeds⟩,
    mem_restorations_ofVisits.2 (.inr (mem_outputRestorations.2 ⟨hv, hq, rfl⟩)), rfl, _, rfl⟩
  inputs v hv := by
    by_contra hne
    obtain ⟨q, hq⟩ := Option.ne_none_iff_exists'.1 hne
    exact (List.nodup_append.1 hs.definedOnce).2.2 v hv v (hdef v q hq) rfl
  defined v q hq := List.mem_append_right _ (hdef v q hq)
  markedOnce := marked_once_ofVisits hs hf
  restoredOnce := restored_once_ofVisits hs hf

end Visits

theorem analyse_eq_ok (h : analyse b excluded = .ok a) : ∃ s, b.operations.foldlM (Sweep.visit b excluded) {} = .ok s ∧
    sweptPending b excluded = s.pending? ∧ a = (s.visitOutputs b).analysis := by
  obtain ⟨s, hs, h⟩ := bind_eq_ok.1 h
  exact ⟨s, hs, by rw [sweptPending, hs], (Except.ok.inj h).symm⟩

/-- An analysis, operation by operation. -/
theorem analyse_steps (hs : b.Sound) (har : ∀ op ∈ b.operations, op.FitsArity) (ha : analyse b excluded = .ok a) :
    ∃ f, (∀ o ∈ b.operations, Visited b excluded (sweptPending b excluded) o (f o)) ∧
      a = Analysis.ofVisits b (sweptPending b excluded) f := by
  obtain ⟨s, hsweep, hpend, rfl⟩ := analyse_eq_ok ha
  obtain ⟨ds, hds, heq⟩ := Sweep.foldlM_spec har har hs.scopes hs.definedOnce (fun v hv => absurd rfl hv) hsweep
  obtain ⟨f, rfl, hf⟩ := exists_map_of_forall₂ (List.Nodup.of_map _ hs.opsOnce) hds {}
  rw [hpend]
  refine ⟨f, hf, ?_⟩
  rw [Sweep.visitOutputs, Sweep.addRestorations, heq]
  simp [Analysis.ofVisits, Analysis.append, outputRestorations, Sweep.distinct]

/-- An analysis and what the sweep leaves pending are a region. -/
theorem analyse_describes (hs : b.Sound) (har : ∀ op ∈ b.operations, op.FitsArity) (ha : analyse b excluded = .ok a) :
    Describes True a b (sweptPending b excluded) := by
  obtain ⟨f, hf, rfl⟩ := analyse_steps hs har ha
  obtain ⟨s, hsweep, hpend, _⟩ := analyse_eq_ok ha
  refine describes_ofVisits hs hf fun v q hq => ?_
  by_contra hv
  rw [hpend, Sweep.pending?_foldlM hsweep hv] at hq
  cases hq

theorem analyse_absorbed (hs : b.Sound) (har : ∀ op ∈ b.operations, op.FitsArity) (ha : analyse b excluded = .ok a)
    {r : Absorbed} (hr : r ∈ a.absorbed) : ∃ o ∈ b.operations, o.id = r.op ∧
      ∀ id ∈ r.seeds, ∃ x ∈ o.inputs, ∃ q, sweptPending b excluded x = some q ∧ id ∈ q.seeds := by
  obtain ⟨f, hf, rfl⟩ := analyse_steps hs har ha
  obtain ⟨o, ho, hr⟩ := mem_absorbed_ofVisits.1 hr
  obtain ⟨hop, _, hseeds⟩ := (hf o ho).of_absorbed hr
  exact ⟨o, ho, hop, hseeds⟩

/-! ### Sweeps that come to an end -/

theorem Sweep.exists_visitGeneral (hb : ∀ l ∈ b.literals, l.Movable) (s : Sweep) (o : Operation) :
    ∃ t, s.visitGeneral b o = .ok t := by
  rw [visitGeneral.eq_def]
  split
  · exact ⟨s, rfl⟩
  · dsimp only
    split
    · split <;> exact ⟨_, rfl⟩
    · exact ⟨_, rfl⟩
    · rename_i crash hcrash
      split at hcrash
      · refine absurd hcrash ((answers_orRefuse _).bind (fun views hviews => answers_absorb (fun l hl => ?_) _ _) crash)
        obtain ⟨i, hi⟩ := List.mem_iff_getElem?.1 hl
        obtain ⟨v, _, hv⟩ := exists_getElem?_of_forall₂ (mapM_eq_some.1 (orRefuse_eq_ok.1 hviews)).flip hi
        exact hb l (mem_literals_of_view? hv)
      · cases hcrash

/-- A sweep comes to an end if all constants can be moved. -/
theorem exists_analyse (hb : ∀ l ∈ b.literals, l.Movable) (excluded : List OpId) : ∃ a, analyse b excluded = .ok a := by
  have hvisit : ∀ s o, ∃ t, Sweep.visit b excluded s o = .ok t := fun s o => by
    rw [Sweep.visit.eq_def]
    split
    · exact ⟨s, rfl⟩
    · split <;> exact ⟨_, rfl⟩
    · split <;> exact ⟨_, rfl⟩
    · split <;> exact ⟨_, rfl⟩
    · exact s.exists_visitGeneral hb o
  have hsweep : ∀ (ops : List Operation) s, ∃ t, ops.foldlM (Sweep.visit b excluded) s = .ok t := fun ops => by
    induction ops with
    | nil => exact fun s => ⟨s, rfl⟩
    | cons o ops ih =>
      intro s
      obtain ⟨t, ht⟩ := hvisit s o
      rw [List.foldlM_cons, ht]
      exact ih t
  obtain ⟨s, hs⟩ := hsweep b.operations {}
  rw [analyse, hs]
  exact ⟨_, rfl⟩

end Swept

/-! ## Where seeds come from -/

/-- All that is pending goes back to seeds. -/
structure Seeded (a : Analysis) (pend : ValueId → Option Pending) : Prop where
  values : ∀ v q, pend v = some q → q.seeds ≠ [] ∧ q.seeds ⊆ a.seeds ∧
    ((∃ id, q.seeds = [id]) ∨ ∃ r ∈ a.absorbed, r.seeds = q.seeds)
  absorbed : ∀ r ∈ a.absorbed, r.seeds ≠ [] ∧ r.seeds ⊆ a.seeds

section Seeded

variable {typed : Prop} {a : Analysis} {b : Block} {pend : ValueId → Option Pending}

/-- The seeds of a record go back to those of operands. -/
theorem Absorbs.seeded {o : Operation} {r : Absorbed} (h : Absorbs typed b pend o r)
    (hseeds : ∀ id ∈ r.seeds, ∃ x ∈ o.inputs, ∃ q, pend x = some q ∧ id ∈ q.seeds)
    (hins : ∀ x ∈ o.inputs, ∀ q, pend x = some q → q.seeds ≠ [] ∧ q.seeds ⊆ a.seeds) :
    r.seeds ≠ [] ∧ r.seeds ⊆ a.seeds := by
  obtain ⟨x, hx, q, hq, hsub⟩ := h.exists_pending
  refine ⟨fun hnil => ?_, fun id hid => ?_⟩
  · rw [hnil] at hsub
    exact (hins x hx q hq).1 (List.subset_nil.1 hsub)
  · obtain ⟨x', hx', q', hq', hid'⟩ := hseeds id hid
    exact (hins x' hx' q' hq').2 hid'

/-- Operands come before results, so seeds are traced back along the block. -/
theorem Describes.seeded (hd : Describes typed a b pend) (hs : b.Sound)
    (hseeds : ∀ r ∈ a.absorbed, ∃ o ∈ b.operations, o.id = r.op ∧
      ∀ id ∈ r.seeds, ∃ x ∈ o.inputs, ∃ q, pend x = some q ∧ id ∈ q.seeds) : Seeded a pend := by
  have hvalues : ∀ n v q, b.defined.idxOf v < n → pend v = some q → q.seeds ≠ [] ∧ q.seeds ⊆ a.seeds ∧
      ((∃ id, q.seeds = [id]) ∨ ∃ r ∈ a.absorbed, r.seeds = q.seeds) := by
    intro n
    induction n with
    | zero => exact fun v q hlt => absurd hlt (Nat.not_lt_zero _)
    | succ n ih =>
      intro v q hlt hq
      rcases Block.mem_defined.1 (hd.defined v q hq) with hin | ⟨o, ho, hv⟩
      · rw [hd.inputs v hin] at hq
        cases hq
      · have hins : ∀ x ∈ o.inputs, ∀ q, pend x = some q → q.seeds ≠ [] ∧ q.seeds ⊆ a.seeds ∧
            ((∃ id, q.seeds = [id]) ∨ ∃ r ∈ a.absorbed, r.seeds = q.seeds) := fun x hx q hq =>
          ih x q (lt_of_lt_of_le (hs.idxOf_lt ho hx hv) (Nat.le_of_lt_succ hlt)) hq
        by_cases hmark : o.id ∈ a.marked
        · rcases List.mem_append.1 hmark with hid | hid
          · rcases List.mem_append.1 hid with hid | hid
            · obtain ⟨x, y, p, _, _, hout, _, hy, _⟩ := hd.isSeed hs ho hid
              rw [hout, List.mem_singleton] at hv
              rw [hv, hy, Option.some.injEq] at hq
              subst hq
              exact ⟨List.cons_ne_nil _ _, List.cons_subset.2 ⟨hid, List.nil_subset _⟩, .inl ⟨o.id, rfl⟩⟩
            · obtain ⟨c, hc, he⟩ := List.mem_map.1 hid
              obtain ⟨x, y, _, _, _, _, hout, _, _, hy⟩ := hd.isCancellation hs ho hc he
              rw [hout, List.mem_singleton] at hv
              rw [hv, hy] at hq
              cases hq
          · obtain ⟨r, hr, he⟩ := List.mem_map.1 hid
            have habs := hd.absorbs hs ho hr he
            obtain ⟨o', ho', he', hseeds'⟩ := hseeds r hr
            rw [hs.op_ext ho' ho (he'.trans he)] at hseeds'
            obtain ⟨hne, hsub⟩ := habs.seeded hseeds' fun x hx q hq => ⟨(hins x hx q hq).1, (hins x hx q hq).2.1⟩
            obtain ⟨_, _, _, _, hout, _⟩ := habs
            rw [hout v hv, Option.map_eq_some_iff] at hq
            obtain ⟨p, _, rfl⟩ := hq
            exact ⟨hne, hsub, .inr ⟨r, hr, rfl⟩⟩
        · rcases hd.others o ho hmark with ⟨x, y, q', _, hin, hout, hx, hy⟩ | ⟨_, hout⟩
          · rw [hout, List.mem_singleton] at hv
            rw [hv, hy, Option.some.injEq] at hq
            subst hq
            exact hins x (by rw [hin]; exact List.mem_singleton_self x) q' hx
          · rw [hout v hv] at hq
            cases hq
  refine ⟨fun v q hq => hvalues _ v q (Nat.lt_succ_self _) hq, fun r hr => ?_⟩
  obtain ⟨o, ho, he, hseeds'⟩ := hseeds r hr
  refine (hd.absorbs hs ho hr he.symm).seeded hseeds' fun x _ q hq => ?_
  obtain ⟨hne, hsub, _⟩ := hvalues _ x q (Nat.lt_succ_self _) hq
  exact ⟨hne, hsub⟩

theorem analyse_seeded {excluded : List OpId} (hs : b.Sound) (har : ∀ op ∈ b.operations, op.FitsArity)
    (ha : analyse b excluded = .ok a) : Seeded a (sweptPending b excluded) :=
  (analyse_describes hs har ha).seeded hs fun _ hr => analyse_absorbed hs har ha hr

end Seeded

end Relayout.Layout
