import Relayout.Builder
import Relayout.Proofs.Coherence
import Relayout.Proofs.Retyping

/-!
# Rebuilding a block

A builder that is given the inputs and the operations of a well-typed block one after the other puts the block together
again, with its values and operations numbered in the order in which they are defined (`Block.numbered`), if there are
as many ids (`Block.Numberable`). On the way its state is known from what it has been given (`Block.building`), and each
call takes this state to the next one (`Block.run_addInput`, `Block.run_emitChecked`, `Block.run_emitCustom`).
-/

namespace Relayout

/-- An operation that is not custom has one result. -/
theorem Operation.FitsArity.exists_output {op : Operation} (h : op.FitsArity) (hk : op.kind.isCustom = false) :
    ∃ v, op.outputs = [v] := by
  have hsome : op.kind.arity?.isSome := by
    revert hk
    cases op.kind <;> simp [OpKind.arity?, OpKind.isCustom]
  obtain ⟨arity, harity⟩ := Option.isSome_iff_exists.1 hsome
  exact List.length_eq_one_iff.1 (h arity harity).2

namespace Block

variable {b : Block}

/-! ## Numbers in order of definition -/

/-- The number of a value in the order of definition, inputs first. -/
def number (b : Block) (v : ValueId) : ValueId :=
  ⟨b.defined.idxOf v⟩

def numberedRecord? (b : Block) (v : ValueId) : Option Value :=
  (b.value? v).map ({ · with id := b.number v })

def numberedOp (b : Block) (position : Nat) (op : Operation) : Operation :=
  ⟨⟨position⟩, op.kind, op.inputs.map b.number, op.outputs.map b.number⟩

/-- The block with its values and operations numbered in the order of definition. -/
def numbered (b : Block) : Block where
  name := b.name
  inputs := b.inputs.map b.number
  outputs := b.outputs.map b.number
  operations := b.operations.mapIdx b.numberedOp
  values := b.defined.filterMap b.numberedRecord?

/-- There are ids for the values and for the operations of a block. -/
structure Numberable [IdSpace] (b : Block) : Prop where
  values : IdSpace.admits b.defined.length
  operations : IdSpace.admits b.operations.length

theorem number_inj {v w : ValueId} (hv : v ∈ b.defined) (h : b.number v = b.number w) : v = w :=
  (List.idxOf_inj hv).1 (ValueId.mk.inj h)

theorem number_eq {ids rest : List ValueId} {v : ValueId} (hs : b.Sound) (heq : b.defined = ids ++ v :: rest) :
    b.number v = ⟨ids.length⟩ := by
  have hnd := hs.definedOnce
  rw [heq, List.nodup_append] at hnd
  have hv : v ∉ ids := fun hin => hnd.2.2 v hin v List.mem_cons_self rfl
  rw [number, heq, List.idxOf_append_of_notMem hv, List.idxOf_cons_self, Nat.add_zero]

theorem number_lt {ids rest : List ValueId} (heq : b.defined = ids ++ rest) {v : ValueId} (hv : v ∈ ids) :
    (b.number v).index < ids.length := by
  rw [number, heq, List.idxOf_append_of_mem hv]
  exact List.idxOf_lt_length_of_mem hv

theorem numberedRecord?_eq {v : ValueId} {r : Value} (hr : b.value? v = some r) :
    b.numberedRecord? v = some { r with id := b.number v } := by
  rw [numberedRecord?, hr]
  rfl

/-- Values of one name are the same. -/
theorem Sound.value_ext (hs : b.Sound) {v w : ValueId} {r q : Value} (hr : b.value? v = some r) (hq : b.value? w = some q)
    (hname : r.name = q.name) : v = w := by
  obtain ⟨hr', rfl⟩ := mem_of_value? hr
  obtain ⟨hq', rfl⟩ := mem_of_value? hq
  rw [List.inj_on_of_nodup_map hs.names hr' hq' hname]

/-! ## Consecutive ids -/

/-- The ids are 0, 1, 2 and so on in the order of definition. -/
def Consecutive (b : Block) : Prop :=
  b.defined.map (·.index) = List.range b.defined.length ∧
    b.operations.map (·.id.index) = List.range b.operations.length

instance (b : Block) : Decidable b.Consecutive :=
  inferInstanceAs (Decidable (_ ∧ _))

theorem Consecutive.number_eq (hs : b.Sound) (h : b.Consecutive) {v : ValueId} (hv : v ∈ b.defined) :
    b.number v = v := by
  obtain ⟨i, hi, rfl⟩ := List.getElem_of_mem hv
  have hindex : (b.defined.map (·.index))[i]? = some i := by rw [h.1, List.getElem?_range hi]
  rw [List.getElem?_map, List.getElem?_eq_getElem hi] at hindex
  rw [number, hs.definedOnce.idxOf_getElem i hi]
  exact congrArg ValueId.mk (Option.some.inj hindex).symm

/-- The records are then in the order of definition too. -/
theorem Consecutive.ids_eq (hs : b.Sound) (h : b.Consecutive) : b.values.map (·.id) = b.defined := by
  have hperm : (b.values.map (·.id)).Perm b.defined :=
    (List.perm_ext_iff_of_nodup (idsNodup hs.sorted) hs.definedOnce).2 fun v => (hs.recorded v).symm
  have hsorted : b.defined.Pairwise fun v w => v.index < w.index := by
    rw [← List.pairwise_map (R := (· < ·)), h.1]
    exact List.pairwise_lt_range
  refine hperm.eq_of_pairwise ?_ (List.pairwise_map.2 hs.sorted) hsorted
  intro v w _ _ hvw hwv
  omega

/-- A block that is numbered in the order of definition is left as it is. -/
theorem numbered_eq_self (hs : b.Sound) (h : b.Consecutive) : b.numbered = b := by
  have hmap : ∀ {ids : List ValueId}, (∀ v ∈ ids, v ∈ b.defined) → ids.map b.number = ids := fun hids =>
    (List.map_congr_left fun v hv => h.number_eq hs (hids v hv)).trans (List.map_id _)
  have hops : b.operations.mapIdx b.numberedOp = b.operations := by
    refine List.ext_getElem? fun i => ?_
    rw [List.getElem?_mapIdx]
    cases hop : b.operations[i]? with
    | none => rfl
    | some op =>
      have hindex : (b.operations.map (·.id.index))[i]? = some i := by
        rw [h.2, List.getElem?_range (List.getElem?_eq_some_iff.1 hop).1]
      rw [List.getElem?_map, hop] at hindex
      have hmem := List.mem_of_getElem? hop
      rw [Option.map_some, numberedOp, hmap fun v hv => hs.input_defined hmem hv,
        hmap fun v hv => Sound.output_defined hmem hv, ← Option.some.inj hindex]
  have hvalues : b.defined.filterMap b.numberedRecord? = b.values := by
    rw [← h.ids_eq hs, List.filterMap_map]
    refine (List.filterMap_congr fun r hr => ?_).trans List.filterMap_some
    have hdef := (hs.recorded r.id).2 (List.mem_map_of_mem hr)
    rw [Function.comp_apply, numberedRecord?_eq ((value?_eq_some hs.sorted).2 ⟨hr, rfl⟩), h.number_eq hs hdef]
  rw [numbered, hops, hvalues, hmap fun v hv => List.mem_append_left _ hv, hmap hs.outputsDefined]

/-! ## States of the builder -/

/-- A builder that has been given some inputs and operations of a block and has defined some of its values. -/
def building (b : Block) (ins : List ValueId) (ops : List Operation) (ids : List ValueId) : Builder where
  block := ⟨b.name, ins.map b.number, [], ops.mapIdx b.numberedOp, ids.filterMap b.numberedRecord?⟩
  names := (ids.filterMap b.name?).reverse
  nextValue := ids.length
  nextOp := ops.length

section Building

variable {ins ids : List ValueId} {ops : List Operation} {v : ValueId} {r : Value}

/-- A record is found by what it shares with no other. -/
theorem find?_numberedRecords {p : Value → Bool} (hv : v ∈ ids) (hr : b.numberedRecord? v = some r) (hp : p r)
    (hext : ∀ w ∈ ids, ∀ q ∈ b.numberedRecord? w, p q → w = v) :
    (ids.filterMap b.numberedRecord?).find? p = some r := by
  induction ids with
  | nil => cases hv
  | cons w ids ih =>
    rw [List.forall_mem_cons] at hext
    by_cases hw : w = v
    · rw [List.filterMap_cons_some (by rw [hw]; exact hr), List.find?_cons_of_pos hp]
    · have hv' := (List.mem_cons.1 hv).resolve_left (Ne.symm hw)
      cases hq : b.numberedRecord? w with
      | none => rw [List.filterMap_cons_none hq, ih hv' hext.2]
      | some q =>
        rw [List.filterMap_cons_some hq, List.find?_cons_of_neg fun hp => hw (hext.1 q hq hp), ih hv' hext.2]

theorem value?_building (ins : List ValueId) (ops : List Operation) (hv : v ∈ ids) (hdef : v ∈ b.defined)
    (hr : b.value? v = some r) :
    (b.building ins ops ids).block.value? (b.number v) = some { r with id := b.number v } := by
  refine find?_numberedRecords hv (numberedRecord?_eq hr) (by simp) fun w hw q hq hp => ?_
  obtain ⟨q, _, rfl⟩ := Option.map_eq_some_iff.1 hq
  exact (number_inj hdef (beq_iff_eq.1 hp).symm).symm

theorem type?_building (hs : b.Sound) (hv : v ∈ ids) (hdef : v ∈ b.defined) :
    (b.building ins ops ids).block.type? (b.number v) = b.type? v := by
  obtain ⟨r, hr⟩ := hs.exists_value hdef
  rw [type?, value?_building ins ops hv hdef hr, type?, hr]
  rfl

theorem valueNamed?_building (hs : b.Sound) (hv : v ∈ ids) (hr : b.value? v = some r) :
    (b.building ins ops ids).block.valueNamed? r.name = some { r with id := b.number v } := by
  refine find?_numberedRecords hv (numberedRecord?_eq hr) (by simp) fun w hw q hq hp => ?_
  obtain ⟨q, hw, rfl⟩ := Option.map_eq_some_iff.1 hq
  exact hs.value_ext hw hr (beq_iff_eq.1 hp)

end Building

end Block

/-! ## Calls of the builder -/

namespace Builder

variable [IdSpace] {α β : Type} {s t : Builder}

omit [IdSpace] in
theorem run_bind {x : Build α} {f : α → Build β} {a : α} (h : x.run s = .ok a t) : (x >>= f).run s = (f a).run t := by
  rw [EStateM.run] at h
  rw [EStateM.run, show (x >>= f) s = EStateM.bind x f s from rfl, EStateM.bind, h]
  rfl

theorem run_defineValue {name : String} (h : name ∉ s.names) (hid : IdSpace.admits (s.nextValue + 1)) (type : TensorType) :
    (defineValue name type).run s = .ok ⟨s.nextValue⟩ { s with
      block := s.block.upsertValue ⟨⟨s.nextValue⟩, name, type⟩
      names := name :: s.names
      nextValue := s.nextValue + 1 } := by
  have hcontains : s.names.contains name = false := by simpa using h
  change (if s.names.contains name then _ else if !IdSpace.admits (s.nextValue + 1) then _ else _ : Build ValueId).run s = _
  rw [hcontains, hid]
  rfl

theorem run_pushOp {kind : OpKind} {inputs outputs : List ValueId} (hid : IdSpace.admits (s.nextOp + 1)) :
    (pushOp kind inputs outputs).run s = .ok () { s with
      block := { s.block with operations := s.block.operations ++ [⟨⟨s.nextOp⟩, kind, inputs, outputs⟩] }
      nextOp := s.nextOp + 1 } := by
  change (if !IdSpace.admits (s.nextOp + 1) then _ else _ : Build Unit).run s = _
  rw [hid]
  rfl

omit [IdSpace] in
theorem find?_unknown_eq_none {b : Block} {ids : List ValueId} :
    (ids.find? fun id => (b.value? id).isNone) = none ↔ ∀ id ∈ ids, (b.value? id).isSome := by
  rw [List.find?_eq_none]
  refine forall₂_congr fun id _ => ?_
  rw [Bool.not_eq_true, Option.isNone_eq_false_iff]

omit [IdSpace] in
theorem run_checkKnown_eq {ids : List ValueId} : (checkKnown ids).run s =
    match ids.find? fun id => (s.block.value? id).isNone with
    | some id => .error (.unknownValue id) s
    | none => .ok () s := by
  rw [checkKnown, run_bind (show (get : Build Builder).run s = .ok s s from rfl)]
  cases ids.find? fun id => (s.block.value? id).isNone with
  | some id => rfl
  | none => rfl

omit [IdSpace] in
theorem run_checkKnown {ids : List ValueId} (h : ∀ id ∈ ids, (s.block.value? id).isSome) :
    (checkKnown ids).run s = .ok () s := by
  rw [run_checkKnown_eq, find?_unknown_eq_none.2 h]

theorem run_emitChecked {name : String} {kind : OpKind} {inputs : List ValueId} {type : TensorType}
    (hknown : ∀ id ∈ inputs, (s.block.value? id).isSome) (hfree : name ∉ s.names)
    (hinfer : inferOne s.block ⟨⟨s.nextOp⟩, kind, inputs, []⟩ = .ok type) :
    (emitChecked name kind inputs (some type)).run s =
      (defineValue name type >>= fun id => pushOp kind inputs [id] >>= fun _ => pure id : Build ValueId).run s := by
  have hcontains : s.names.contains name = false := by simpa using hfree
  rw [emitChecked, run_bind (run_checkKnown hknown), run_bind (show (get : Build Builder).run s = .ok s s from rfl), hcontains]
  dsimp only
  have hsame : Option.any (· != type) (some type) = false := by simp
  rw [hinfer, if_neg Bool.false_ne_true]
  dsimp only
  rw [hsame, if_neg Bool.false_ne_true]

end Builder

namespace Block

variable {b : Block} {ins ids rest : List ValueId} {ops : List Operation} {op : Operation} {v : ValueId} {r : Value}

/-- The name of a value is free until it is defined. -/
theorem free_building (hs : b.Sound) (heq : b.defined = ids ++ v :: rest) (hr : b.value? v = some r) :
    r.name ∉ (b.building ins ops ids).names := by
  intro hmem
  obtain ⟨w, hw, hname⟩ := List.mem_filterMap.1 (List.mem_reverse.1 hmem)
  obtain ⟨q, hq, hname⟩ := Option.map_eq_some_iff.1 hname
  have hnd := hs.definedOnce
  rw [heq, List.nodup_append] at hnd
  exact hnd.2.2 w hw v List.mem_cons_self (hs.value_ext hq hr hname)

/-- A value is defined next in the order of definition. -/
theorem run_defineValue [IdSpace] (hs : b.Sound) (hn : b.Numberable) (heq : b.defined = ids ++ v :: rest)
    (hr : b.value? v = some r) :
    (Builder.defineValue r.name r.type).run (b.building ins ops ids) = .ok (b.number v) (b.building ins ops (ids ++ [v])) := by
  have hsmall : ∀ q ∈ ids.filterMap b.numberedRecord?, q.id.index < (b.number v).index := by
    intro q hq
    obtain ⟨w, hw, hq⟩ := List.mem_filterMap.1 hq
    obtain ⟨q, _, rfl⟩ := Option.map_eq_some_iff.1 hq
    rw [number_eq hs heq]
    exact number_lt heq hw
  have hrecords : (ids ++ [v]).filterMap b.numberedRecord? =
      Records.upsert ⟨b.number v, r.name, r.type⟩ (ids.filterMap b.numberedRecord?) := by
    rw [Records.upsert_eq_append hsmall, List.filterMap_append, List.filterMap_cons_some (numberedRecord?_eq hr)]
    rfl
  have hnames : (ids ++ [v]).filterMap b.name? = ids.filterMap b.name? ++ [r.name] := by
    rw [List.filterMap_append, List.filterMap_cons_some (by rw [name?, hr]; rfl)]
    rfl
  have hnumber : b.number v = ⟨(b.building ins ops ids).nextValue⟩ := number_eq hs heq
  have hid : IdSpace.admits (ids.length + 1) := IdSpace.admits_of_le (by simp [heq]) hn.values
  rw [Builder.run_defineValue (free_building hs heq hr) hid, ← hnumber]
  simp only [building, upsertValue, hrecords, hnames, List.reverse_append, List.reverse_singleton, List.singleton_append,
    List.length_append, List.length_singleton]

/-- Names and types of values. -/
def declared (b : Block) (ids : List ValueId) : List (String × TensorType) :=
  (ids.filterMap b.value?).map fun r => (r.name, r.type)

theorem run_defineValues [IdSpace] (hs : b.Sound) (hn : b.Numberable) {new : List ValueId}
    (heq : b.defined = ids ++ (new ++ rest)) :
    (Builder.defineValues (b.declared new)).run (b.building ins ops ids) =
      .ok (new.map b.number) (b.building ins ops (ids ++ new)) := by
  induction new generalizing ids with
  | nil =>
    rw [List.append_nil]
    rfl
  | cons v new ih =>
    have hdef : v ∈ b.defined := by simp [heq]
    obtain ⟨r, hr⟩ := hs.exists_value hdef
    have hdeclared : b.declared (v :: new) = (r.name, r.type) :: b.declared new := by
      rw [declared, List.filterMap_cons_some hr]
      rfl
    have heq' : b.defined = (ids ++ [v]) ++ (new ++ rest) := by simp [heq]
    have hrest := ih heq'
    rw [List.append_assoc, List.singleton_append] at hrest
    rw [hdeclared, Builder.defineValues, Builder.run_bind (run_defineValue hs hn heq hr), Builder.run_bind hrest]
    rfl

theorem run_pushOp [IdSpace] (hn : b.Numberable) (ins : List ValueId) (hlt : ops.length < b.operations.length)
    (op : Operation) (ids : List ValueId) :
    (Builder.pushOp op.kind (op.inputs.map b.number) (op.outputs.map b.number)).run (b.building ins ops ids) =
      .ok () (b.building ins (ops ++ [op]) ids) := by
  have hops : (ops ++ [op]).mapIdx b.numberedOp = ops.mapIdx b.numberedOp ++ [b.numberedOp ops.length op] :=
    List.mapIdx_concat
  rw [Builder.run_pushOp (IdSpace.admits_of_le hlt hn.operations)]
  simp only [building, hops, List.length_append, List.length_singleton, numberedOp]

theorem known_building (hs : b.Sound) (heq : b.defined = ids ++ rest) {known : List ValueId} (h : ∀ v ∈ known, v ∈ ids) :
    ∀ id ∈ known.map b.number, ((b.building ins ops ids).block.value? id).isSome := by
  rw [List.forall_mem_map]
  intro v hv
  have hdef : v ∈ b.defined := by
    rw [heq]
    exact List.mem_append_left _ (h v hv)
  obtain ⟨r, hr⟩ := hs.exists_value hdef
  rw [value?_building ins ops (h v hv) hdef hr]
  rfl

/-- The next input is added. -/
theorem run_addInput [IdSpace] (hs : b.Sound) (hn : b.Numberable) (heq : b.defined = ins ++ v :: rest)
    (hr : b.value? v = some r) :
    (Builder.addInput r.name r.type).run (b.building ins [] ins) =
      .ok (b.number v) (b.building (ins ++ [v]) [] (ins ++ [v])) := by
  rw [Builder.addInput, Builder.run_bind (run_defineValue hs hn heq hr)]
  simp only [building, List.map_append]
  rfl

/-- The type of a result is inferred again. -/
theorem inferOne_building (hs : b.Sound) (heq : b.defined = ids ++ rest) (hin : ∀ v ∈ op.inputs, v ∈ ids)
    (hk : op.kind.isCustom = false) (ht : b.TypedOp op) (hout : op.outputs = [v]) (hr : b.value? v = some r) (n : Nat) :
    Builder.inferOne (b.building ins ops ids).block ⟨⟨n⟩, op.kind, op.inputs.map b.number, []⟩ = .ok r.type := by
  obtain ⟨types, hstatic, hrec⟩ := ht
  obtain ⟨inTypes, t, hins, hresult, rfl⟩ := (static_eq_ok hk).1 hstatic
  have htype : t = r.type := by
    rw [hout, recorded_eq_ok, List.forall₂_cons, type?, hr] at hrec
    exact (Option.some.inj hrec.1).symm
  have hstatic' : Typing.static (b.building ins ops ids).block ⟨⟨n⟩, op.kind, op.inputs.map b.number, []⟩ = .ok [t] := by
    have hk' : (⟨⟨n⟩, op.kind, op.inputs.map b.number, []⟩ : Operation).kind.isCustom = false := hk
    refine (static_eq_ok hk').2 ⟨inTypes, t, ?_, hresult, rfl⟩
    rw [List.forall₂_map_left_iff]
    refine ((List.forall₂_and_left _ _).2 ⟨hin, hins⟩).imp fun v t h => ?_
    rw [type?_building hs h.1 (by rw [heq]; exact List.mem_append_left _ h.1), h.2]
  rw [Builder.inferOne, hstatic', htype]

/-- The next operation is added, with the types that it has. -/
theorem run_emitChecked [IdSpace] (ins : List ValueId) (hs : b.Sound) (hn : b.Numberable)
    (hlt : ops.length < b.operations.length) (heq : b.defined = ids ++ v :: rest) (hin : ∀ v ∈ op.inputs, v ∈ ids)
    (hk : op.kind.isCustom = false) (ht : b.TypedOp op) (hout : op.outputs = [v]) (hr : b.value? v = some r) :
    (Builder.emitChecked r.name op.kind (op.inputs.map b.number) (some r.type)).run (b.building ins ops ids) =
      .ok (b.number v) (b.building ins (ops ++ [op]) (ids ++ [v])) := by
  have hpush := run_pushOp hn ins hlt op (ids ++ [v])
  rw [hout, List.map_singleton] at hpush
  rw [Builder.run_emitChecked (known_building hs heq hin) (free_building hs heq hr)
    (inferOne_building hs heq hin hk ht hout hr ops.length), Builder.run_bind (run_defineValue hs hn heq hr),
    Builder.run_bind hpush]
  rfl

theorem run_emitCustom [IdSpace] (ins : List ValueId) (hs : b.Sound) (hn : b.Numberable)
    (hlt : ops.length < b.operations.length) (heq : b.defined = ids ++ (op.outputs ++ rest)) (hin : ∀ v ∈ op.inputs, v ∈ ids)
    {name : String} (hk : op.kind = .custom name) :
    (Builder.emitCustom name (op.inputs.map b.number) (b.declared op.outputs)).run (b.building ins ops ids) =
      .ok (op.outputs.map b.number) (b.building ins (ops ++ [op]) (ids ++ op.outputs)) := by
  rw [Builder.emitCustom, Builder.run_bind (Builder.run_checkKnown (known_building hs heq hin)),
    Builder.run_bind (run_defineValues hs hn heq), ← hk, Builder.run_bind (run_pushOp hn ins hlt op _)]
  rfl

/-- With all its inputs and operations the block is complete. -/
theorem finish_building (hs : b.Sound) :
    (b.building b.inputs b.operations b.defined).finish (b.outputs.map b.number) = .ok b.numbered := by
  have hfind : ((b.outputs.map b.number).find? fun id =>
      ((b.building b.inputs b.operations b.defined).block.value? id).isNone) = none := by
    rw [List.find?_eq_none, List.forall_mem_map]
    intro v hv
    have hdef := hs.outputsDefined v hv
    obtain ⟨r, hr⟩ := hs.exists_value hdef
    rw [value?_building b.inputs b.operations hdef hdef hr]
    exact Bool.false_ne_true
  rw [Builder.finish, hfind]
  rfl

end Block

end Relayout
