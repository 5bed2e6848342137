import Relayout.Proofs.Cost
import Relayout.Proofs.Interpretation

/-!
# Runs keep meanings

A block `Reads` a meaning if all operations hold and recorded types are those of the meanings. Under a lawful reading, a
block from which a component of a sweep has been taken out passes the check, its types can be recomputed, and what it
returns has the meaning that it had (`Reads.spliced`). So whatever the number of rounds and whatever is done about
rejections, a run keeps meanings (`Reads.of_reduceTransposes`).

If there is always another id, none of the edits fails, and if constants can be moved, no sweep breaks off. Then a run
succeeds (`Reads.exists_reduction`).
-/

namespace Relayout

open Layout

/-! ## Types from meanings -/

namespace Interpretation

variable {V : Type} {I : Interpretation V} {b b' : Block} {meaning meaning' : ValueId → V} {o : Operation}

theorem Holds.fitsArity (hI : I.Lawful) (h : I.Holds meaning o) : o.FitsArity := by
  intro arity harity
  cases hk : o.kind.isCustom with
  | true =>
    cases hkind : o.kind with
    | custom name => rw [hkind] at harity; cases harity
    | _ => rw [hkind] at hk; cases hk
  | false =>
    obtain ⟨y, hout, happ⟩ := (holds_iff hk).1 h
    have := Typing.arity_of_resultType (hI.typed happ) arity harity
    rw [List.length_map, List.length_map] at this
    exact ⟨this, by rw [hout]; rfl⟩

theorem recorded_of_types {ids : List ValueId} (h : ∀ v ∈ ids, b.type? v = some (I.type (meaning v))) :
    Typing.recorded b ids = .ok ((ids.map meaning).map I.type) := by
  rw [Block.recorded_eq_ok, List.map_map, List.forall₂_map_right_iff, List.forall₂_same]
  exact h

theorem types_of_recorded {ids : List ValueId} (h : Typing.recorded b ids = .ok ((ids.map meaning).map I.type)) :
    ∀ v ∈ ids, b.type? v = some (I.type (meaning v)) := by
  rw [Block.recorded_eq_ok, List.map_map, List.forall₂_map_right_iff, List.forall₂_same] at h
  exact h

/-- An operation that holds has the types of the meanings of its results. -/
theorem Holds.static_eq (hI : I.Lawful) (h : I.Holds meaning o)
    (hin : ∀ v ∈ o.inputs, b.type? v = some (I.type (meaning v)))
    (hcustom : o.kind.isCustom → ∀ v ∈ o.outputs, b.type? v = some (I.type (meaning v))) :
    Typing.static b o = .ok ((o.outputs.map meaning).map I.type) := by
  rw [Typing.static, recorded_of_types hin]
  cases hk : o.kind.isCustom with
  | true =>
    cases hkind : o.kind with
    | custom name => exact recorded_of_types (hcustom hk)
    | _ => rw [hkind] at hk; cases hk
  | false =>
    obtain ⟨y, hout, happ⟩ := (holds_iff hk).1 h
    have htyped := hI.typed happ
    rw [hout]
    cases hkind : o.kind with
    | custom name => rw [hkind] at hk; cases hk
    | _ =>
      rw [hkind] at htyped
      exact bind_eq_ok.2 ⟨_, rfl, bind_eq_ok.2 ⟨_, htyped, rfl⟩⟩

/-- Types are recomputed in the order of operations, and are those of the meanings. -/
theorem exists_retypeOps (hI : I.Lawful) : ∀ {ops : List Operation} {scope : List ValueId} {b : Block},
    (∀ o ∈ ops, I.Holds meaning o) → Scoped scope ops → (scope ++ results ops).Nodup →
    (∀ v ∈ scope, b.type? v = some (I.type (meaning v))) → (∀ v ∈ results ops, (b.type? v).isSome) →
    (∀ o ∈ ops, o.kind.isCustom → ∀ v ∈ o.outputs, b.type? v = some (I.type (meaning v))) →
    ∃ b', b.retypeOps Typing.static ops = (b', none) ∧ ∀ v ∈ scope ++ results ops, b'.type? v = some (I.type (meaning v))
  | [], scope, b, _, _, _, hscope, _, _ => ⟨b, rfl, fun v hv => hscope v (by simpa using hv)⟩
  | o :: ops, scope, b, hops, hscoped, hnd, hscope, hsome, hcustom => by
    rw [results_cons, ← List.append_assoc] at hnd
    obtain ⟨hnd₁, _, hdisj⟩ := List.nodup_append.1 hnd
    obtain ⟨_, hndo, hfresh⟩ := List.nodup_append.1 hnd₁
    have hold := hops o List.mem_cons_self
    obtain ⟨b₁, hb₁, hother, _, hrec⟩ := Block.retypeOp_spec (hold.fitsArity hI) hndo
      (fun v hv => hsome v (List.mem_append_left _ hv)) (fun v hv hv' => hfresh v (hscoped.1 v hv) v hv' rfl)
      (hold.static_eq hI (fun v hv => hscope v (hscoped.1 v hv)) (hcustom o List.mem_cons_self))
    have hscope₁ : ∀ v ∈ scope ++ o.outputs, b₁.type? v = some (I.type (meaning v)) := fun v hv => by
      by_cases hout : v ∈ o.outputs
      · exact types_of_recorded hrec v hout
      · rw [hother v hout]
        exact hscope v ((List.mem_append.1 hv).resolve_right hout)
    have hlater : ∀ v ∈ results ops, b₁.type? v = b.type? v := fun v hv =>
      hother v fun hout => hdisj v (List.mem_append_right _ hout) v hv rfl
    obtain ⟨b', hb', htypes⟩ := exists_retypeOps hI (fun p hp => hops p (List.mem_cons_of_mem _ hp)) hscoped.2 hnd hscope₁
      (fun v hv => by rw [hlater v hv]; exact hsome v (List.mem_append_right _ hv)) fun p hp hk v hv => by
        rw [hlater v (mem_results.2 ⟨p, hp, hv⟩)]
        exact hcustom p (List.mem_cons_of_mem _ hp) hk v hv
    refine ⟨b', ?_, fun v hv => htypes v (by rw [List.append_assoc]; exact hv)⟩
    rw [Block.retypeOps, hb₁]
    exact hb'

/-- Recomputing the types of a block succeeds, with the types of the meanings. -/
theorem Solution.exists_retype (hI : I.Lawful) (hs : b.Sound) (h : I.Solution b meaning)
    (hin : ∀ v ∈ b.inputs, b.type? v = some (I.type (meaning v)))
    (hcustom : ∀ o ∈ b.operations, o.kind.isCustom → ∀ v ∈ o.outputs, b.type? v = some (I.type (meaning v))) :
    ∃ b', b.retype Typing.static = (b', none) ∧ ∀ v ∈ b.defined, b'.type? v = some (I.type (meaning v)) :=
  exists_retypeOps hI h hs.scopes hs.definedOnce hin
    (fun v hv => by
      obtain ⟨t, ht⟩ := hs.exists_type (List.mem_append_right _ hv)
      rw [ht]
      rfl) hcustom

/-! ## Blocks with meanings -/

/-- All operations hold, and recorded types are those of the meanings. -/
structure Reads (I : Interpretation V) (b : Block) (meaning : ValueId → V) : Prop where
  sound : b.Sound
  solution : I.Solution b meaning
  types : ∀ v ∈ b.defined, b.type? v = some (I.type (meaning v))

/-- The same goes in, and the same comes out. -/
structure Agree (b : Block) (meaning : ValueId → V) (b' : Block) (meaning' : ValueId → V) : Prop where
  inputs : b'.inputs = b.inputs
  inputs_eq : ∀ v ∈ b.inputs, meaning' v = meaning v
  outputs : b'.outputs.map meaning' = b.outputs.map meaning

theorem Agree.refl (b : Block) (meaning : ValueId → V) : Agree b meaning b meaning :=
  ⟨rfl, fun _ _ => rfl, rfl⟩

theorem Agree.trans {b'' : Block} {meaning'' : ValueId → V} (h : Agree b meaning b' meaning')
    (h' : Agree b' meaning' b'' meaning'') : Agree b meaning b'' meaning'' :=
  ⟨h'.inputs.trans h.inputs, fun v hv => (h'.inputs_eq v (h.inputs ▸ hv)).trans (h.inputs_eq v hv),
    h'.outputs.trans h.outputs⟩

theorem Solution.check (hI : I.Lawful) (hs : b.Sound) (h : I.Solution b meaning)
    (hrank : ∀ v ∈ b.defined, ∃ t, b.type? v = some t ∧ (I.type (meaning v)).rank = t.rank) : b.check = .ok () := by
  refine Block.check_eq_ok.2 ⟨hs, fun o ho => (h o ho).fitsArity hI, fun o ho p hk id hid t ht => ?_⟩
  obtain ⟨y, _, happ⟩ := (holds_iff (by rw [hk]; rfl)).1 (h o ho)
  rw [hk] at happ
  obtain ⟨u, hu, hp, _⟩ := Typing.transpose_eq_ok.1 (hI.typed happ)
  obtain ⟨t', ht', hr⟩ := hrank id (hs.input_defined ho hid)
  have hmem : I.type (meaning id) ∈ [u] :=
    hu ▸ List.mem_map_of_mem (f := I.type) (List.mem_map_of_mem (f := meaning) hid)
  rw [Option.mem_def, ht', Option.some.injEq] at ht
  rw [← ht, ← hr, List.mem_singleton.1 hmem]
  exact hp

namespace Reads

theorem check (hI : I.Lawful) (h : I.Reads b meaning) : b.check = .ok () :=
  h.solution.check hI h.sound fun v hv => ⟨_, h.types v hv, rfl⟩

theorem wellTyped (hI : I.Lawful) (h : I.Reads b meaning) : b.WellTyped := by
  obtain ⟨b', hb', htypes⟩ := h.solution.exists_retype hI h.sound
    (fun v hv => h.types v (Block.mem_defined.2 (.inl hv)))
    fun o ho _ v hv => h.types v (Block.Sound.output_defined ho hv)
  have heq : b' = b := (Block.retyped_of_retype hb').eq_of_types h.sound fun v hv => by rw [htypes v hv, h.types v hv]
  rw [heq] at hb'
  exact hb'

theorem outputTypes_eq (h : I.Reads b meaning) : b.outputTypes = (b.outputs.map meaning).map fun x => some (I.type x) := by
  rw [Block.outputTypes, List.map_map]
  exact List.map_congr_left fun v hv => h.types v (h.sound.outputsDefined v hv)

/-- The type of a transpose that goes away fits that of its operand. -/
theorem typesFit (hI : I.Lawful) (h : I.Reads b meaning) {typed : Prop} {a : Analysis} {pend : ValueId → Option Pending}
    (hd : Describes typed a b pend) : TypesFit False a b := by
  rintro y x t u ⟨o, ho, hid, hin, hout⟩ ht hu
  obtain ⟨_, _, p, hk, _⟩ := hd.of_removed h.sound ho hid
  have happ := h.solution.apply_eq ho (by rw [hk]; rfl) hout
  rw [hk, hin, List.map_singleton] at happ
  rw [h.types y (Block.Sound.output_defined ho (by rw [hout]; exact List.mem_singleton_self y)), Option.some.injEq] at ht
  rw [h.types x (h.sound.input_defined ho (by rw [hin]; exact List.mem_singleton_self x)), Option.some.injEq] at hu
  rw [← ht, ← hu]
  exact .inl (hI.transpose_compatible happ)

end Reads

end Interpretation

theorem Block.Retyped.literals_eq {b b' : Block} (h : b.Retyped b') : b'.literals = b.literals := by
  rw [Block.literals, Block.literals, h.operations]

/-! ## Components -/

namespace Layout

open Interpretation

/-- The outcome has the declared types and no kinds of operations that were not there. -/
structure Expectation.Meets (expected : Expectation) (b : Block) : Prop where
  outputTypes : b.outputTypes = expected.outputTypes
  kinds : ∀ o ∈ b.operations, o.kind.name ∈ expected.kinds

theorem Expectation.Meets.checks {expected : Expectation} {b : Block} (h : expected.Meets b) :
    expected.checkOutputs b = .ok () ∧ expected.checkKinds b = .ok () := by
  constructor
  · rw [checkOutputs, h.outputTypes, List.find?_eq_none.2]
    rintro ⟨⟨before, after⟩, i⟩ hmem
    have hzip := List.fst_mem_of_mem_zipIdx hmem
    rw [List.zip, List.zipWith_self, List.mem_map] at hzip
    obtain ⟨t, _, he⟩ := hzip
    obtain ⟨rfl, rfl⟩ := Prod.mk.inj he
    simp
  · rw [checkKinds, List.find?_eq_none.2]
    intro o ho
    simpa using h.kinds o ho

theorem Spliced.name_mem {typed : Prop} {a : Analysis} {b b' : Block} {pend : ValueId → Option Pending} {L : Ledger}
    (hsp : Spliced a b pend L b') (hd : Describes typed a b pend) (hs : b.Sound) {names : List String}
    (h : ∀ o ∈ b.operations, o.kind.name ∈ names) (hnew : ∀ name ∈ ["transpose", "identity", "const"], name ∈ names) :
    ∀ o' ∈ b'.operations, o'.kind.name ∈ names := by
  intro o' ho'
  rcases hsp.ops o' ho' with ⟨o, ho, hid, hf⟩ | ⟨_, y, m, _, hm, hk, _⟩
  · by_cases hmark : o.id ∈ a.marked
    · obtain ⟨r, hr, he⟩ := List.mem_map.1 ((List.mem_append.1 hmark).resolve_left hid)
      obtain ⟨_, _, _, habs, _⟩ := hd.absorbs hs ho hr he
      rw [hsp.kind_of_absorbed hf hr he, (absorb_kind habs).2.2.2.2.1]
      exact h o ho
    · rw [hsp.kind_of_unmarked hmark hf]
      exact h o ho
  · rw [← hk]
    exact hnew _ (hsp.justified.made y m hm).kind.2

/-- Payloads can be moved, as the constants in their slots can. -/
theorem Absorbs.movable {typed : Prop} {b : Block} {pend : ValueId → Option Pending} {o : Operation} {r : Absorbed}
    (h : Absorbs typed b pend o r) (hb : ∀ l ∈ b.literals, l.Movable) {c : Nat × Literal}
    (hc : c ∈ r.absorption.constants) : c.2.Movable := by
  obtain ⟨views, p, hviews, habs, _⟩ := h
  obtain ⟨old, hold, hpay⟩ := (absorb_constants habs).2 _ hc
  obtain ⟨hi, hget⟩ := List.getElem?_eq_some_iff.1 hold
  have hviewed := hviews.get (hviews.length_eq.symm ▸ hi) hi
  rw [List.get_eq_getElem, List.get_eq_getElem, hget] at hviewed
  have hmem : old ∈ b.literals := by
    cases hviewed with
    | constant _ hop _ hk => exact Block.mem_literals.2 ⟨_, hop, hk⟩
  exact hpay.movable (Perm.isPermutation_iff.1 (absorb_cases habs).1.2.1) (hb old hmem)

/-- The constants that are left are old ones and payloads. -/
theorem Spliced.movable {typed : Prop} {a : Analysis} {b b' : Block} {pend : ValueId → Option Pending} {L : Ledger}
    (hsp : Spliced a b pend L b') (hd : Describes typed a b pend) (hs : b.Sound) (hb : ∀ l ∈ b.literals, l.Movable) :
    ∀ l ∈ b'.literals, l.Movable := by
  intro l hl
  obtain ⟨o', ho', hk⟩ := Block.mem_literals.1 hl
  rcases hsp.ops o' ho' with ⟨o, ho, hid, hf⟩ | ⟨_, y, m, _, hm, hkind, _⟩
  · by_cases hmark : o.id ∈ a.marked
    · obtain ⟨r, hr, he⟩ := List.mem_map.1 ((List.mem_append.1 hmark).resolve_left hid)
      obtain ⟨_, _, _, habs, _⟩ := hd.absorbs hs ho hr he
      obtain ⟨_, _, hconst, harity, _, _, hcustom⟩ := absorb_kind habs
      rw [← hsp.kind_of_absorbed hf hr he, hk] at harity
      -- only constants have no operands
      cases hold : o.kind with
      | const l' => rw [hold] at hconst; cases hconst
      | custom name => rw [hold] at hcustom; cases hcustom
      | _ => rw [hold] at harity; cases harity
    · rw [hsp.kind_of_unmarked hmark hf] at hk
      exact hb l (Block.mem_literals.2 ⟨o, ho, hk⟩)
  · rw [hk] at hkind
    rcases hsp.justified.made y m hm with ⟨f, hf, rfl⟩ | ⟨r, _, hnew, _⟩ | ⟨_, _, _, _, hnew, _⟩
    · obtain ⟨r, hr, hf⟩ := List.mem_flatMap.1 hf
      obtain ⟨c, hc, rfl⟩ := List.mem_map.1 hf
      obtain ⟨o, _, _, habs⟩ := hd.absorbed r hr
      cases hkind
      exact habs.movable hb hc
    · rw [hnew] at hkind
      cases hkind
    · rw [hnew] at hkind
      cases hkind

end Layout

namespace Interpretation

/-! ## Runs -/

section Run

variable [IdSpace] {V : Type} {I : Interpretation V} {a : Analysis} {pend : ValueId → Option Pending} {b b' : Block}
  {meaning : ValueId → V} {expected : Expectation} {c : Component} {cs : List Component} {n : Nat}

/-- What is left of a block when a component has been taken out of it passes the check and has types, and what goes in and
comes out keeps its meaning. -/
theorem Reads.spliced (hI : I.Lawful) (h : I.Reads b meaning) (hst : Stage True a pend b (c :: cs))
    (happly : applyComponent b a c = .ok (b', n)) : ∃ b₂ meaning', b'.check = .ok () ∧
      b'.retype Typing.static = (b₂, none) ∧ I.Reads b₂ meaning' ∧ Agree b meaning b₂ meaning' ∧
      Stage True a pend b₂ cs := by
  have hd := hst.regions c List.mem_cons_self
  have hs := h.sound
  have hfit := h.typesFit hI hd
  obtain ⟨L, hsp⟩ := applyComponent_spliced hd hs happly
  have hsol := hsp.solution hI hd hs h.solution h.types
  have hrank := fun v hv => hsp.exists_type_rank hI hd hs h.solution h.types (v := v) hv
  obtain ⟨b₂, hretype, htypes⟩ := hsol.exists_retype hI hsp.sound
    (fun v hv => by
      have hv' : v ∈ b.inputs := hsp.inputs ▸ hv
      have hdef := Block.mem_defined.2 (.inl hv')
      rw [hsp.types v hdef (Block.mem_defined.2 (.inl hv)), h.types v hdef, hsp.reading_input hd hv'])
    fun o ho hk v hv => by
      obtain ⟨hdef, heq⟩ : v ∈ b.defined ∧ L.reading I (restrict pend c.seeds) meaning v = meaning v :=
        hsp.reading_custom hd hs ho hk hv
      rw [hsp.types v hdef (Block.Sound.output_defined ho hv), h.types v hdef, heq]
  have hr := Block.retyped_of_retype hretype
  have hreads : I.Reads b₂ (L.reading I (restrict pend c.seeds) meaning) :=
    ⟨hr.sound hsp.sound, fun o ho => hsol o (hr.operations ▸ ho), fun v hv => htypes v (hr.defined_eq ▸ hv)⟩
  have hagree : Agree b meaning b₂ (L.reading I (restrict pend c.seeds) meaning) :=
    ⟨hr.inputs.trans hsp.inputs, fun v hv => hsp.reading_input hd hv, by
      rw [hr.outputs]
      exact hsp.outputs_reading hI hd hs h.solution h.types⟩
  refine ⟨b₂, _, hsol.check hI hsp.sound hrank, hretype, hreads, hagree,
    hst.next hsp (fun _ => hfit) hr (fun _ v t ht => ?_) fun o ho => (hsol o ho).fitsArity hI⟩
  have hv : v ∈ b'.defined := (hsp.sound.recorded v).2 (Block.type?_isSome.1 (by rw [ht]; rfl))
  obtain ⟨t', ht', hr'⟩ := hrank v hv
  rw [ht, Option.some.injEq] at ht'
  exact ⟨_, htypes v hv, by rw [hr', ht']⟩

/-- A component that is taken out leaves what goes in and comes out with its meaning. -/
theorem Reads.of_attempt (hI : I.Lawful) (h : I.Reads b meaning) (hst : Stage True a pend b (c :: cs))
    (hatt : attempt Typing.static expected a c b = .ok (b', n)) :
    ∃ meaning', I.Reads b' meaning' ∧ Agree b meaning b' meaning' ∧ Stage True a pend b' cs := by
  obtain ⟨b₁, happly, _, hretype, _⟩ := attempt_eq_ok.1 hatt
  obtain ⟨b₂, meaning', _, hretype', hreads, hagree, hst'⟩ := h.spliced hI hst happly
  obtain rfl : b' = b₂ := congrArg Prod.fst (hretype.symm.trans hretype')
  exact ⟨meaning', hreads, hagree, hst'⟩

/-- A run keeps what goes in and comes out. -/
theorem Reads.of_reduceTransposes (hI : I.Lawful) (h : I.Reads b meaning) {config : Config} {r : PassResult}
    (hrun : reduceTransposes config Typing.static b = .ok (r, b')) :
    ∃ meaning', I.Reads b' meaning' ∧ Agree b meaning b' meaning' := by
  obtain ⟨p, hp, rfl⟩ := exists_rounds hrun
  refine rounds_keep (Q := fun b' => ∃ meaning', I.Reads b' meaning' ∧ Agree b meaning b' meaning')
    (fun hq => ?_) (fun (hst : Stage True _ _ _ _) hq hatt => ?_) (p := { block := b }) ⟨meaning, h, .refl _ _⟩ hp
  · obtain ⟨_, hreads, _⟩ := hq
    exact ⟨hreads.sound, fun o ho => (hreads.solution o ho).fitsArity hI⟩
  · obtain ⟨_, hreads, hagree⟩ := hq
    obtain ⟨meaning', hreads', hagree', hst'⟩ := hreads.of_attempt hI hst hatt
    exact ⟨hst', meaning', hreads', hagree.trans hagree'⟩

/-! ## Runs succeed -/

/-- A block that a run can go on with. -/
structure Ready (I : Interpretation V) (expected : Expectation) (b : Block) : Prop where
  reads : ∃ meaning, I.Reads b meaning
  meets : expected.Meets b
  movable : ∀ l ∈ b.literals, l.Movable

/-- If there is always another id, a component can be taken out. -/
theorem Ready.attempt (hspace : IdSpace.Unbounded) (hI : I.Lawful) (h : I.Ready expected b)
    (hst : Stage True a pend b (c :: cs)) (hnew : ∀ name ∈ ["transpose", "identity", "const"], name ∈ expected.kinds) :
    ∃ b' n, attempt Typing.static expected a c b = .ok (b', n) ∧ I.Ready expected b' ∧ Stage True a pend b' cs := by
  obtain ⟨meaning, hreads⟩ := h.reads
  have hd := hst.regions c List.mem_cons_self
  have hs := hreads.sound
  obtain ⟨b₁, n, happly⟩ := exists_applyComponent hspace hd hs (hreads.typesFit hI hd)
  obtain ⟨L, hsp⟩ := applyComponent_spliced hd hs happly
  obtain ⟨b₂, meaning', hcheck, hretype, hreads', hagree, hst'⟩ := hreads.spliced hI hst happly
  have hr := Block.retyped_of_retype hretype
  have hmeets : expected.Meets b₂ := by
    refine ⟨?_, fun o ho => hsp.name_mem hd hs h.meets.kinds hnew o (hr.operations ▸ ho)⟩
    rw [hreads'.outputTypes_eq, hagree.outputs, ← hreads.outputTypes_eq, h.meets.outputTypes]
  have hmovable : ∀ l ∈ b₂.literals, l.Movable := by
    rw [hr.literals_eq]
    exact hsp.movable hd hs h.movable
  exact ⟨b₂, n, attempt_eq_ok.2 ⟨b₁, happly, hcheck, hretype, hmeets.checks⟩, ⟨⟨meaning', hreads'⟩, hmeets, hmovable⟩, hst'⟩

/-- A run over the components of a sweep succeeds. -/
theorem Ready.applyAll (hspace : IdSpace.Unbounded) (hI : I.Lawful) (onRejection : OnRejection)
    (hnew : ∀ name ∈ ["transpose", "identity", "const"], name ∈ expected.kinds) :
    ∀ {cs : List Component} {p : Progress}, I.Ready expected p.block → Stage True a pend p.block cs →
      ∃ p', applyAll Typing.static onRejection expected a cs p = .ok p' ∧ I.Ready expected p'.block
  | [], p, h, _ => ⟨p, rfl, h⟩
  | c :: cs, p, h, hst => by
    obtain ⟨b', n, hatt, hready, hst'⟩ := h.attempt hspace hI hst hnew
    obtain ⟨p', hp', hready'⟩ := Ready.applyAll hspace hI onRejection hnew (p := p.accept b' n) hready hst'
    refine ⟨p', ?_, hready'⟩
    unfold Layout.applyAll
    rw [hatt]
    exact hp'

/-- All rounds succeed. -/
theorem Ready.rounds (hspace : IdSpace.Unbounded) (hI : I.Lawful) (onRejection : OnRejection)
    (hnew : ∀ name ∈ ["transpose", "identity", "const"], name ∈ expected.kinds) :
    ∀ {n : Nat} {p : Progress}, I.Ready expected p.block →
      ∃ p', rounds Typing.static onRejection expected n p = .ok p'
  | 0, p, _ => ⟨p, rfl⟩
  | n + 1, p, h => by
    obtain ⟨meaning, hreads⟩ := h.reads
    obtain ⟨a, ha⟩ := exists_analyse h.movable p.excluded
    have hst := Stage.round hreads.sound (fun o ho => (hreads.solution o ho).fitsArity hI) ha
    unfold Layout.rounds
    dsimp only
    rw [ha]
    dsimp only
    split
    · exact ⟨_, rfl⟩
    · have hp : I.Ready expected p.tick.block := h
      obtain ⟨q, hq, hready⟩ := hp.applyAll hspace hI onRejection hnew hst
      obtain ⟨p', hp'⟩ := Ready.rounds hspace hI onRejection hnew hready
      exact ⟨p', bind_eq_ok.2 ⟨q, hq, hp'⟩⟩

/-- The pass succeeds on a block with a meaning whose constants can be moved. -/
theorem Reads.exists_reduction (hspace : IdSpace.Unbounded) (hI : I.Lawful) (h : I.Reads b meaning)
    (hb : ∀ l ∈ b.literals, l.Movable) (config : Config) :
    ∃ r b', reduceTransposes config Typing.static b = .ok (r, b') := by
  have hready : I.Ready (.ofBlock b) b :=
    ⟨⟨meaning, h⟩, ⟨rfl, fun o ho => List.mem_append_left _ (List.mem_map_of_mem (f := (·.kind.name)) ho)⟩, hb⟩
  obtain ⟨p, hp⟩ := Ready.rounds hspace hI config.onRejection (fun name hname => List.mem_append_right _ hname)
    (n := config.maxRounds) (p := { block := b }) hready
  exact ⟨_, _, reduceTransposes_eq_ok.2 ⟨h.check hI, p, hp, rfl, rfl⟩⟩

end Run

end Interpretation

end Relayout
