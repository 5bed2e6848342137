import Relayout.Proofs.Check
import Relayout.Proofs.Rules
import Relayout.Proofs.Separation

/-!
# Types recomputed

Recomputing types changes nothing but recorded types (`Block.Retyped`), under any inference and also if it stops half
way. So the structure of a block stays (`Retyped.sound`), and a region does as well (`Describes.retyped`).
-/

namespace Relayout

/-- Two blocks differ in recorded types at most. -/
structure Block.Retyped (b b' : Block) : Prop where
  name : b'.name = b.name
  inputs : b'.inputs = b.inputs
  outputs : b'.outputs = b.outputs
  operations : b'.operations = b.operations
  records : (b'.values.map fun r => (r.id, r.name)) = b.values.map fun r => (r.id, r.name)

namespace Block

variable {b b' b'' : Block}

theorem Retyped.refl (b : Block) : b.Retyped b :=
  ⟨rfl, rfl, rfl, rfl, rfl⟩

theorem Retyped.trans (h : b.Retyped b') (h' : b'.Retyped b'') : b.Retyped b'' :=
  ⟨h'.name.trans h.name, h'.inputs.trans h.inputs, h'.outputs.trans h.outputs, h'.operations.trans h.operations,
    h'.records.trans h.records⟩

theorem retyped_setType (b : Block) (id : ValueId) (type : TensorType) : b.Retyped (b.setType id type) := by
  refine ⟨rfl, rfl, rfl, rfl, ?_⟩
  rw [setType, Records.modify, List.map_map]
  refine List.map_congr_left fun r _ => ?_
  simp only [Function.comp_apply]
  split <;> rfl

theorem retyped_recordTypes : ∀ (pairs : List (ValueId × TensorType)) (b : Block), b.Retyped (b.recordTypes pairs).1
  | [], b => .refl b
  | (id, type) :: rest, b => by
    rw [recordTypes]
    split
    · exact (b.retyped_setType id type).trans (retyped_recordTypes rest _)
    · exact .refl b

theorem retyped_retypeOp (infer : Typing.Inference) (op : Operation) (b : Block) : b.Retyped (b.retypeOp infer op).1 := by
  rw [retypeOp]
  split
  · exact .refl b
  · split
    · exact retyped_recordTypes _ b
    · exact .refl b

theorem retyped_retypeOps (infer : Typing.Inference) : ∀ (ops : List Operation) (b : Block),
    b.Retyped (b.retypeOps infer ops).1
  | [], b => .refl b
  | op :: ops, b => by
    have hop := retyped_retypeOp infer op b
    rw [retypeOps]
    split
    · rename_i b₁ h
      rw [h] at hop
      exact hop.trans (retyped_retypeOps infer ops b₁)
    · exact hop

/-- Recomputing types changes nothing but recorded types. -/
theorem retyped_of_retype {infer : Typing.Inference} {e : Option ShapeError} (h : b.retype infer = (b', e)) :
    b.Retyped b' := by
  have hops := retyped_retypeOps infer b.operations b
  rw [show b.retypeOps infer b.operations = (b', e) from h] at hops
  exact hops

namespace Retyped

theorem defined_eq (h : b.Retyped b') : b'.defined = b.defined := by
  rw [defined, defined, h.inputs, h.operations]

theorem ids_eq (h : b.Retyped b') : b'.values.map (·.id) = b.values.map (·.id) := by
  have := congrArg (List.map Prod.fst) h.records
  simpa [List.map_map, Function.comp_def] using this

theorem names_eq (h : b.Retyped b') : b'.values.map (·.name) = b.values.map (·.name) := by
  have := congrArg (List.map Prod.snd) h.records
  simpa [List.map_map, Function.comp_def] using this

theorem sound (h : b.Retyped b') (hs : b.Sound) : b'.Sound where
  sorted := by
    have hsorted : (b.values.map (·.id)).Pairwise fun i j => i.index < j.index := by
      rw [List.pairwise_map]
      exact hs.sorted
    rw [← h.ids_eq, List.pairwise_map] at hsorted
    exact hsorted
  names := h.names_eq ▸ hs.names
  definedOnce := h.defined_eq ▸ hs.definedOnce
  recorded id := by rw [h.defined_eq, h.ids_eq]; exact hs.recorded id
  opsOnce := h.operations ▸ hs.opsOnce
  scopes := by rw [h.inputs, h.operations]; exact hs.scopes
  outputsDefined := by rw [h.outputs, h.defined_eq]; exact hs.outputsDefined

/-- Blocks that differ in no recorded type do not differ. -/
theorem eq_of_types (h : b.Retyped b') (hs : b.Sound) (ht : ∀ v ∈ b.defined, b'.type? v = b.type? v) : b' = b := by
  have hvalues : b'.values = b.values := by
    have hlen : b'.values.length = b.values.length := by simpa using congrArg List.length h.records
    refine List.ext_getElem hlen fun i hi' hi => ?_
    have hpair : (b'.values[i].id, b'.values[i].name) = (b.values[i].id, b.values[i].name) := by
      have := congrArg (·[i]?) h.records
      simpa [hi, hi'] using this
    obtain ⟨hid, hname⟩ := Prod.mk.inj hpair
    have hv := (value?_eq_some hs.sorted).2 ⟨List.getElem_mem hi, rfl⟩
    have hv' := (value?_eq_some (h.sound hs).sorted).2 ⟨List.getElem_mem hi', hid⟩
    have htype := ht b.values[i].id ((hs.recorded _).2 (List.mem_map_of_mem (f := (·.id)) (List.getElem_mem hi)))
    rw [type?, type?, hv, hv'] at htype
    rw [Value.mk.injEq]
    exact ⟨hid, hname, Option.some.inj htype⟩
  obtain ⟨name, inputs, outputs, operations, values⟩ := b
  obtain ⟨name', inputs', outputs', operations', values'⟩ := b'
  simp only at hvalues
  rw [Block.mk.injEq]
  exact ⟨h.name, h.inputs, h.outputs, h.operations, hvalues⟩

theorem transposes_eq (h : b.Retyped b') : b'.transposes = b.transposes := by
  rw [transposes, h.operations, transposes]

end Retyped

end Block

/-! ## Types that operations have -/

namespace Block

variable {b b' : Block}

theorem type?_isSome {v : ValueId} : (b.type? v).isSome ↔ v ∈ b.values.map (·.id) := by
  rw [type?, Option.isSome_map, value?_isSome]

theorem type?_setType {v id : ValueId} {type : TensorType} :
    (b.setType id type).type? v = if v = id then (b.type? v).map fun _ => type else b.type? v := by
  have hfind := @Records.find?_modify b.values id ({ · with type := type }) (fun _ => rfl) v
  rw [type?, value?, setType, hfind, type?, value?]
  cases Records.find? b.values v with
  | none => simp
  | some r => by_cases hv : v = id <;> simp [hv]

/-- The recorded types of values, where they have records. -/
theorem recorded_eq_ok {ids : List ValueId} {types : List TensorType} :
    Typing.recorded b ids = .ok types ↔ List.Forall₂ (fun id type => b.type? id = some type) ids types := by
  rw [Typing.recorded, mapM_eq_ok]
  constructor
  all_goals
    refine fun h => h.imp fun id type hid => ?_
    cases ht : b.type? id <;> simp_all

theorem static_eq_ok {op : Operation} (hk : op.kind.isCustom = false) {types : List TensorType} :
    Typing.static b op = .ok types ↔ ∃ ins t, List.Forall₂ (fun id type => b.type? id = some type) op.inputs ins ∧
      Typing.resultType op.kind ins = .ok t ∧ types = [t] := by
  rw [Typing.static, bind_eq_ok]
  simp only [recorded_eq_ok]
  refine exists_congr fun ins => ?_
  cases hkind : op.kind with
  | custom name => rw [hkind] at hk; cases hk
  | _ =>
    simp only [bind_eq_ok, pure_eq_ok, exists_and_left]
    exact and_congr_right fun _ => exists_congr fun t => and_congr_right fun _ => eq_comm

/-- The types of results are those that the operation has. -/
def TypedOp (b : Block) (op : Operation) : Prop :=
  ∃ types, Typing.static b op = .ok types ∧ Typing.recorded b op.outputs = .ok types

theorem recorded_congr {ids : List ValueId} (h : ∀ id ∈ ids, b'.type? id = b.type? id) :
    Typing.recorded b' ids = Typing.recorded b ids := by
  induction ids with
  | nil => rfl
  | cons id ids ih =>
    rw [Typing.recorded, Typing.recorded] at ih
    rw [Typing.recorded, Typing.recorded, List.mapM_cons, List.mapM_cons, h id List.mem_cons_self,
      ih fun v hv => h v (List.mem_cons_of_mem _ hv)]

theorem static_congr {op : Operation} (hin : ∀ id ∈ op.inputs, b'.type? id = b.type? id)
    (hout : op.kind.isCustom → ∀ id ∈ op.outputs, b'.type? id = b.type? id) :
    Typing.static b' op = Typing.static b op := by
  rw [Typing.static, Typing.static, recorded_congr hin]
  cases hk : op.kind with
  | custom spec => rw [recorded_congr (hout (by rw [hk]; rfl))]
  | _ => rfl

/-- Recording types one by one. -/
theorem recordTypes_spec : ∀ {ids : List ValueId} {types : List TensorType} {b : Block}, ids.Nodup →
    (∀ id ∈ ids, (b.type? id).isSome) → ids.length = types.length →
    ∃ b', b.recordTypes (ids.zip types) = (b', none) ∧ (∀ v, v ∉ ids → b'.type? v = b.type? v) ∧
      List.Forall₂ (fun id type => b'.type? id = some type) ids types
  | [], [], b, _, _, _ => ⟨b, rfl, fun _ _ => rfl, .nil⟩
  | id :: ids, type :: types, b, hnd, hsome, hlen => by
    rw [List.nodup_cons] at hnd
    have hvalue : ∃ r, b.value? id = some r := by
      have := hsome id List.mem_cons_self
      rw [type?, Option.isSome_map] at this
      exact Option.isSome_iff_exists.1 this
    obtain ⟨r, hr⟩ := hvalue
    have hsome' : ∀ v ∈ ids, ((b.setType id type).type? v).isSome := fun v hv => by
      rw [type?_setType]
      have := hsome v (List.mem_cons_of_mem _ hv)
      split <;> simpa using this
    obtain ⟨b', hb', hother, hall⟩ := recordTypes_spec hnd.2 hsome' (Nat.succ.inj hlen)
    refine ⟨b', ?_, fun v hv => ?_, .cons ?_ hall⟩
    · rw [List.zip_cons_cons, recordTypes, hr]
      exact hb'
    · rw [List.mem_cons, not_or] at hv
      rw [hother v hv.2, type?_setType, if_neg hv.1]
    · rw [hother id hnd.1, type?_setType, if_pos rfl]
      obtain ⟨t, ht⟩ := Option.isSome_iff_exists.1 (hsome id List.mem_cons_self)
      rw [ht]
      rfl

theorem static_length {op : Operation} {types : List TensorType} (har : op.FitsArity)
    (h : Typing.static b op = .ok types) : types.length = op.outputs.length := by
  rw [Typing.static, bind_eq_ok] at h
  obtain ⟨ins, _, h⟩ := h
  have hone : ∀ arity, op.kind.arity? = some arity → op.outputs.length = 1 := fun arity ha => (har arity ha).2
  cases hk : op.kind with
  | custom spec =>
    rw [hk] at h
    exact (recorded_eq_ok.1 h).length_eq.symm
  | _ =>
    rw [hk] at h hone
    obtain ⟨t, _, h⟩ := bind_eq_ok.1 h
    cases h
    exact (hone _ rfl).symm

/-- Recomputing the types of one operation. -/
theorem retypeOp_spec {op : Operation} (har : op.FitsArity) (hnd : op.outputs.Nodup)
    (hsome : ∀ v ∈ op.outputs, (b.type? v).isSome) (hdisj : ∀ v ∈ op.inputs, v ∉ op.outputs) {types : List TensorType}
    (h : Typing.static b op = .ok types) :
    ∃ b', b.retypeOp Typing.static op = (b', none) ∧ (∀ v, v ∉ op.outputs → b'.type? v = b.type? v) ∧
      Typing.static b' op = .ok types ∧ Typing.recorded b' op.outputs = .ok types := by
  have hlen := static_length har h
  obtain ⟨b', hb', hother, hall⟩ := recordTypes_spec hnd hsome hlen.symm
  refine ⟨b', ?_, hother, ?_, recorded_eq_ok.2 hall⟩
  · rw [retypeOp, h]
    dsimp only
    rw [if_pos hlen]
    exact hb'
  · -- the results of a custom operation get the types that they have
    rw [static_congr (b := b) (fun v hv => hother v (hdisj v hv)) fun hk v hv => ?_]
    · exact h
    · rw [Typing.static, bind_eq_ok] at h
      obtain ⟨_, _, h⟩ := h
      cases hkind : op.kind with
      | custom spec =>
        rw [hkind] at h
        have hold := recorded_eq_ok.1 h
        obtain ⟨i, hi⟩ := List.mem_iff_get.1 hv
        have hlt : i < types.length := by rw [← hold.length_eq]; exact i.2
        rw [← hi]
        exact (hall.get i.2 hlt).trans (hold.get i.2 hlt).symm
      | _ => rw [hkind] at hk; cases hk

/-- After types have been recomputed, results have the types of their operations. -/
theorem retypeOps_typed : ∀ {ops : List Operation} {scope : List ValueId} {b b' : Block}, (∀ op ∈ ops, op.FitsArity) →
    Scoped scope ops → (scope ++ results ops).Nodup → (∀ v ∈ results ops, (b.type? v).isSome) →
    b.retypeOps Typing.static ops = (b', none) →
    (∀ v, v ∉ results ops → b'.type? v = b.type? v) ∧ ∀ op ∈ ops, b'.TypedOp op
  | [], _, b, b', _, _, _, _, h => by
    cases h
    exact ⟨fun _ _ => rfl, fun op hop => (by cases hop)⟩
  | op :: ops, scope, b, b', har, hscope, hnd, hsome, h => by
    rw [results_cons, ← List.append_assoc, List.nodup_append] at hnd
    obtain ⟨hnd₁, hnd₂, hdisj⟩ := hnd
    have hout : ∀ v ∈ op.outputs, v ∉ scope := fun v hv hin => (List.nodup_append.1 hnd₁).2.2 v hin v hv rfl
    cases hstatic : Typing.static b op with
    | error e =>
      rw [retypeOps, retypeOp, hstatic] at h
      cases h
    | ok types =>
      obtain ⟨b₁, hb₁, hother, htyped, hrec⟩ := retypeOp_spec (har op List.mem_cons_self) (List.nodup_append.1 hnd₁).2.1
        (fun v hv => hsome v (List.mem_append_left _ hv)) (fun v hv hv' => hout v hv' (hscope.1 v hv)) hstatic
      rw [retypeOps, hb₁] at h
      have hsome₁ : ∀ v ∈ results ops, (b₁.type? v).isSome := fun v hv => by
        rw [hother v fun hin => hdisj v (List.mem_append_right _ hin) v hv rfl]
        exact hsome v (List.mem_append_right _ hv)
      obtain ⟨hkeep, hall⟩ := retypeOps_typed (fun o ho => har o (List.mem_cons_of_mem _ ho)) hscope.2
        (List.nodup_append.2 ⟨hnd₁, hnd₂, hdisj⟩) hsome₁ h
      have hstable : ∀ v ∈ scope ++ op.outputs, b'.type? v = b₁.type? v := fun v hv =>
        hkeep v fun hin => hdisj v hv v hin rfl
      refine ⟨fun v hv => ?_, fun o ho => ?_⟩
      · rw [results_cons, List.mem_append, not_or] at hv
        rw [hkeep v hv.2, hother v hv.1]
      · rcases List.mem_cons.1 ho with rfl | ho
        · refine ⟨types, ?_, ?_⟩
          · rw [static_congr (b := b₁) (fun v hv => hstable v (List.mem_append_left _ (hscope.1 v hv)))
              fun _ v hv => hstable v (List.mem_append_right _ hv)]
            exact htyped
          · rw [recorded_congr (b := b₁) fun v hv => hstable v (List.mem_append_right _ hv)]
            exact hrec
        · exact hall o ho

theorem retype_typed (hs : b.Sound) (har : ∀ op ∈ b.operations, op.FitsArity)
    (h : b.retype Typing.static = (b', none)) :
    (∀ v ∈ b.inputs, b'.type? v = b.type? v) ∧ ∀ op ∈ b'.operations, b'.TypedOp op := by
  have hr := retyped_of_retype h
  have hsome : ∀ v ∈ results b.operations, (b.type? v).isSome := fun v hv => by
    obtain ⟨t, ht⟩ := hs.exists_type (List.mem_append_right _ hv)
    rw [ht]
    rfl
  obtain ⟨hkeep, hall⟩ := retypeOps_typed har hs.scopes hs.definedOnce hsome h
  refine ⟨fun v hv => hkeep v fun hin => ?_, fun op hop => hall op (hr.operations ▸ hop)⟩
  exact (List.nodup_append.1 hs.definedOnce).2.2 v hv v hin rfl

/-- A block whose types are those of its operations passes the check if its structure does. -/
theorem check_of_typed (hs : b.Sound) (har : ∀ op ∈ b.operations, op.FitsArity)
    (ht : ∀ op ∈ b.operations, b.TypedOp op) : b.check = .ok () := by
  refine check_eq_ok.2 ⟨hs, har, fun op hop perm hk id hid type htype => ?_⟩
  obtain ⟨types, hstatic, _⟩ := ht op hop
  obtain ⟨ins, t, hins, hresult, _⟩ := (static_eq_ok (by rw [hk]; rfl)).1 hstatic
  rw [hk] at hresult
  obtain ⟨u, rfl, hperm, _⟩ := Typing.transpose_eq_ok.1 hresult
  obtain ⟨v, vs, hv, hnil, heq⟩ := List.forall₂_cons_right_iff.1 hins
  rw [heq, List.forall₂_nil_right_iff.1 hnil, List.mem_singleton] at hid
  rw [hid, hv] at htype
  rw [← Option.some.inj htype]
  exact hperm

end Block

namespace Layout

variable {typed : Prop} {a : Analysis} {b b' : Block} {pend : ValueId → Option Pending}

theorem Viewed.retyped (h : b.Retyped b')
    (hrank : typed → ∀ v t, b.type? v = some t → ∃ t', b'.type? v = some t' ∧ t'.rank = t.rank) {v : ValueId} {view : View}
    (hv : Viewed typed b pend v view) : Viewed typed b' pend v view := by
  cases hv with
  | pending hq => exact .pending hq
  | constant hq hop hout hk => exact .constant hq (h.operations ▸ hop) hout hk
  | concrete hq ht =>
    refine .concrete hq fun hty => ?_
    obtain ⟨t, ht, hr⟩ := ht hty
    obtain ⟨t', ht', hr'⟩ := hrank hty v t ht
    exact ⟨t', ht', hr'.trans hr⟩

/-- A region fits whatever types are recorded, as long as ranks stay what they were. -/
theorem Describes.retyped (hd : Describes typed a b pend) (h : b.Retyped b')
    (hrank : typed → ∀ v t, b.type? v = some t → ∃ t', b'.type? v = some t' ∧ t'.rank = t.rank) :
    Describes typed a b' pend where
  seeds id hid := by
    obtain ⟨o, ho, he, x, y, p, hk, hin, hout, hx, hy, hnot⟩ := hd.seeds id hid
    exact ⟨o, h.operations ▸ ho, he, x, y, p, hk, hin, hout, hx, hy, h.outputs ▸ hnot⟩
  cancellations := by rw [h.operations]; exact hd.cancellations
  absorbed r hr := by
    obtain ⟨o, ho, he, views, p, hviews, hrest⟩ := hd.absorbed r hr
    exact ⟨o, h.operations ▸ ho, he, views, p, hviews.imp fun _ _ hv => hv.retyped h hrank, hrest⟩
  restorations r hr := by
    obtain ⟨hpend, hc⟩ := hd.restorations r hr
    refine ⟨hpend, ?_⟩
    cases hcons : r.consumer with
    | op id slots =>
      rw [hcons] at hc
      rw [h.operations]
      exact hc
    | output slots =>
      rw [hcons] at hc
      rw [h.outputs]
      exact hc
  others := by rw [h.operations]; exact hd.others
  outputs := by rw [h.outputs]; exact hd.outputs
  inputs := by rw [h.inputs]; exact hd.inputs
  defined := by rw [h.defined_eq]; exact hd.defined
  markedOnce := hd.markedOnce
  restoredOnce := hd.restoredOnce

end Layout

end Relayout
