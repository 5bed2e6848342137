import Relayout.Block.Reader
import Relayout.Proofs.Rebuilding

/-!
# What is built is well formed

A builder that has only been called with success holds a block that is sound and well typed (`Builder.Valid`). None of the
rules that `Block.check` looks for is tested by the calls as such: values are defined once because ids are counted up,
names differ because a taken one is refused, and the numbers of operands and the permutations are those for which a type
is inferred. A call takes an id only if another one is left, so an id is free in what has been built.
-/

namespace Relayout

/-! ## Runs of calls -/

namespace Builder

section Runs

variable {α β : Type} {s t u : Builder}

theorem run_bind_eq_ok {x : Build α} {f : α → Build β} {c : β} :
    (x >>= f).run s = .ok c u ↔ ∃ a t, x.run s = .ok a t ∧ (f a).run t = .ok c u := by
  rw [EStateM.run, show (x >>= f) s = EStateM.bind x f s from rfl, EStateM.bind, EStateM.run]
  cases x s with
  | ok a t => simp [EStateM.run]
  | error e t => simp

theorem run_pure_eq_ok {a c : α} : (pure a : Build α).run s = .ok c t ↔ a = c ∧ s = t := by
  change EStateM.Result.ok a s = .ok c t ↔ _
  rw [EStateM.Result.ok.injEq]

theorem run_bind_error {x : Build α} {f : α → Build β} {e : BuildError} (h : x.run s = .error e t) :
    (x >>= f).run s = .error e t := by
  rw [EStateM.run] at h
  rw [EStateM.run, show (x >>= f) s = EStateM.bind x f s from rfl, EStateM.bind, h]

theorem run_defineValue_error [IdSpace] {name : String} (h : name ∈ s.names) (type : TensorType) :
    (defineValue name type).run s = .error (.duplicateName name) s := by
  have hcontains : s.names.contains name = true := by simpa using h
  change (if s.names.contains name then _ else _ : Build ValueId).run s = _
  rw [hcontains]
  rfl

theorem run_defineValue_crash [IdSpace] {name : String} (h : name ∉ s.names) (hid : ¬IdSpace.admits (s.nextValue + 1))
    (type : TensorType) : (defineValue name type).run s = .error (.crash .overflow) s := by
  have hcontains : s.names.contains name = false := by simpa using h
  rw [Bool.not_eq_true] at hid
  change (if s.names.contains name then _ else if !IdSpace.admits (s.nextValue + 1) then _ else _ : Build ValueId).run s = _
  rw [hcontains, hid]
  rfl

theorem run_pushOp_crash [IdSpace] {kind : OpKind} {inputs outputs : List ValueId} (hid : ¬IdSpace.admits (s.nextOp + 1)) :
    (pushOp kind inputs outputs).run s = .error (.crash .overflow) s := by
  rw [Bool.not_eq_true] at hid
  change (if !IdSpace.admits (s.nextOp + 1) then _ else _ : Build Unit).run s = _
  rw [hid]
  rfl

theorem run_checkKnown_error {ids : List ValueId} (h : ¬∀ id ∈ ids, (s.block.value? id).isSome) :
    ∃ id, (checkKnown ids).run s = .error (.unknownValue id) s := by
  cases hfind : ids.find? fun id => (s.block.value? id).isNone with
  | some id =>
    rw [run_checkKnown_eq, hfind]
    exact ⟨id, rfl⟩
  | none => exact absurd (find?_unknown_eq_none.1 hfind) h

/-- A call stops at a check and leaves the builder as it was, or has passed the checks and goes on to define its result. -/
theorem emitChecked_run [IdSpace] (s : Builder) (name : String) (kind : OpKind) (inputs : List ValueId)
    (declared : Option TensorType) : (∃ e, (emitChecked name kind inputs declared).run s = .error e s) ∨
      (∀ id ∈ inputs, (s.block.value? id).isSome) ∧ ∃ type, inferOne s.block ⟨⟨s.nextOp⟩, kind, inputs, []⟩ = .ok type ∧
        (emitChecked name kind inputs declared).run s =
          (defineValue name type >>= fun id => pushOp kind inputs [id] >>= fun _ => pure id : Build ValueId).run s := by
  by_cases hknown : ∀ id ∈ inputs, (s.block.value? id).isSome
  · rw [emitChecked, run_bind (run_checkKnown hknown), run_bind (show (get : Build Builder).run s = .ok s s from rfl)]
    cases s.names.contains name with
    | true => exact .inl ⟨_, rfl⟩
    | false =>
      rw [if_neg Bool.false_ne_true]
      cases inferOne s.block ⟨⟨s.nextOp⟩, kind, inputs, []⟩ with
      | error e => exact .inl ⟨_, rfl⟩
      | ok type =>
        dsimp only
        cases declared.any (· != type) with
        | true => exact .inl ⟨_, rfl⟩
        | false => exact .inr ⟨hknown, type, rfl, rfl⟩
  · obtain ⟨id, hcheck⟩ := run_checkKnown_error hknown
    exact .inl ⟨_, run_bind_error hcheck⟩

end Runs

/-! ## Definitions -/

section Definitions

variable {s t : Builder}

/-- The ids of the values that are defined next. -/
def nextIds (s : Builder) (count : Nat) : List ValueId :=
  (List.range' s.nextValue count).map ValueId.mk

/-- The builder with values that no operation defines yet. -/
def defining (s : Builder) (outputs : List (String × TensorType)) : Builder where
  block := { s.block with values := s.block.values ++ newRecords (s.nextIds outputs.length) outputs }
  names := (outputs.map (·.1)).reverse ++ s.names
  nextValue := s.nextValue + outputs.length
  nextOp := s.nextOp

/-- Names that are free and differ. -/
structure Free (s : Builder) (outputs : List (String × TensorType)) : Prop where
  names : (outputs.map (·.1)).Nodup
  free : ∀ name ∈ outputs.map (·.1), name ∉ s.names

theorem defining_nil (s : Builder) : s.defining [] = s := by
  simp [defining, newRecords]

theorem defining_cons (s : Builder) (output : String × TensorType) (outputs : List (String × TensorType)) :
    s.defining (output :: outputs) = (s.defining [output]).defining outputs := by
  simp [defining, newRecords, nextIds, List.range'_succ, Nat.add_comm, Nat.add_left_comm]

theorem free_nil (s : Builder) : s.Free [] :=
  ⟨List.nodup_nil, by simp⟩

theorem free_cons {output : String × TensorType} {outputs : List (String × TensorType)} :
    s.Free (output :: outputs) ↔ output.1 ∉ s.names ∧ (s.defining [output]).Free outputs := by
  constructor
  · rintro ⟨hnodup, hfree⟩
    rw [List.map_cons, List.nodup_cons] at hnodup
    rw [List.map_cons, List.forall_mem_cons] at hfree
    refine ⟨hfree.1, hnodup.2, fun name hname => ?_⟩
    refine List.not_mem_cons_of_ne_of_not_mem ?_ (hfree.2 name hname)
    rintro rfl
    exact hnodup.1 hname
  · rintro ⟨hname, hrest⟩
    refine ⟨?_, ?_⟩
    · rw [List.map_cons, List.nodup_cons]
      exact ⟨fun hmem => hrest.free _ hmem List.mem_cons_self, hrest.names⟩
    · rw [List.map_cons, List.forall_mem_cons]
      exact ⟨hname, fun name hmem hold => hrest.free name hmem (List.mem_cons_of_mem _ hold)⟩

/-- The builder with an operation that defines new values. -/
def withOp (s : Builder) (kind : OpKind) (inputs : List ValueId) (outputs : List (String × TensorType)) : Builder where
  block := s.block.withOp s.block.operations [] ⟨⟨s.nextOp⟩, kind, inputs, s.nextIds outputs.length⟩ outputs
  names := (outputs.map (·.1)).reverse ++ s.names
  nextValue := s.nextValue + outputs.length
  nextOp := s.nextOp + 1

/-- The builder with one more input. -/
def withInput (s : Builder) (name : String) (type : TensorType) : Builder where
  block := { s.block with
    inputs := s.block.inputs ++ [⟨s.nextValue⟩]
    values := s.block.values ++ [⟨⟨s.nextValue⟩, name, type⟩] }
  names := name :: s.names
  nextValue := s.nextValue + 1
  nextOp := s.nextOp

theorem pushOp_defining [IdSpace] {kind : OpKind} {inputs : List ValueId} {outputs : List (String × TensorType)}
    (hid : IdSpace.admits (s.nextOp + 1)) :
    (pushOp kind inputs (s.nextIds outputs.length)).run (s.defining outputs) = .ok () (s.withOp kind inputs outputs) :=
  run_pushOp hid

/-- An id is left after some values and an operation more. -/
def HasRoom [IdSpace] (s : Builder) (count : Nat) : Prop :=
  IdSpace.admits (s.nextValue + count) ∧ IdSpace.admits (s.nextOp + 1)

section Outcomes

variable [IdSpace] (hvalues : ∀ r ∈ s.block.values, r.id.index < s.nextValue)

include hvalues

theorem run_defineValue_defining {name : String} (h : name ∉ s.names) (hid : IdSpace.admits (s.nextValue + 1))
    (type : TensorType) : (defineValue name type).run s = .ok ⟨s.nextValue⟩ (s.defining [(name, type)]) := by
  rw [run_defineValue h hid, Block.upsertValue, Records.upsert_eq_append hvalues]
  rfl

/-- All values are defined, or those in front of a name that is taken, or ids run out. -/
theorem defineValues_cases (outputs : List (String × TensorType)) :
    (s.Free outputs ∧ (outputs ≠ [] → IdSpace.admits (s.nextValue + outputs.length)) ∧
      (defineValues outputs).run s = .ok (s.nextIds outputs.length) (s.defining outputs)) ∨
    (∃ front output back, outputs = front ++ output :: back ∧ s.Free front ∧ output.1 ∈ (s.defining front).names ∧
      (defineValues outputs).run s = .error (.duplicateName output.1) (s.defining front)) ∨
    ∃ t, (defineValues outputs).run s = .error (.crash .overflow) t := by
  induction outputs generalizing s with
  | nil => exact .inl ⟨free_nil s, fun h => absurd rfl h, by rw [defining_nil]; rfl⟩
  | cons output outputs ih =>
    obtain ⟨name, type⟩ := output
    by_cases hname : name ∈ s.names
    · refine .inr (.inl ⟨[], (name, type), outputs, rfl, free_nil s, ?_, ?_⟩)
      · rwa [defining_nil]
      · rw [defineValues, run_bind_error (run_defineValue_error hname type), defining_nil]
    by_cases hid : IdSpace.admits (s.nextValue + 1)
    · have hvalues' : ∀ r ∈ (s.defining [(name, type)]).block.values, r.id.index < s.nextValue + 1 := by
        refine List.forall_mem_append.2 ⟨fun r hr => Nat.lt_succ_of_lt (hvalues r hr), ?_⟩
        exact List.forall_mem_singleton.2 (Nat.lt_succ_self _)
      rw [defineValues, run_bind (run_defineValue_defining hvalues hname hid type)]
      obtain ⟨hfree, hids, hrun⟩ | ⟨front, output, back, rfl, hfree, htaken, hrun⟩ | ⟨t, hrun⟩ := ih hvalues'
      · refine .inl ⟨free_cons.2 ⟨hname, hfree⟩, fun _ => ?_, ?_⟩
        · by_cases hnil : outputs = []
          · rwa [hnil]
          · rw [List.length_cons, Nat.add_comm outputs.length, ← Nat.add_assoc]
            exact hids hnil
        · rw [run_bind hrun, defining_cons s (name, type) outputs]
          rfl
      · refine .inr (.inl ⟨(name, type) :: front, output, back, rfl, free_cons.2 ⟨hname, hfree⟩, ?_, ?_⟩)
        · rwa [defining_cons]
        · rw [run_bind_error hrun, defining_cons s (name, type) front]
      · exact .inr (.inr ⟨t, run_bind_error hrun⟩)
    · exact .inr (.inr ⟨s, run_bind_error (run_defineValue_crash hname hid type)⟩)

theorem addInput_cases (name : String) (type : TensorType) : (∃ e, (addInput name type).run s = .error e s) ∨
    name ∉ s.names ∧ IdSpace.admits (s.nextValue + 1) ∧ ∃ id, (addInput name type).run s = .ok id (s.withInput name type) := by
  by_cases hname : name ∈ s.names
  · exact .inl ⟨_, run_bind_error (run_defineValue_error hname type)⟩
  by_cases hid : IdSpace.admits (s.nextValue + 1)
  · refine .inr ⟨hname, hid, ⟨s.nextValue⟩, ?_⟩
    rw [addInput, run_bind (run_defineValue_defining hvalues hname hid type)]
    rfl
  · exact .inl ⟨_, run_bind_error (run_defineValue_crash hname hid type)⟩

/-- The one call that can fail with some of its work done. -/
theorem emitCustom_cases (op : String) (inputs : List ValueId) (outputs : List (String × TensorType)) :
    (¬(∀ id ∈ inputs, (s.block.value? id).isSome) ∧ ∃ e, (emitCustom op inputs outputs).run s = .error e s) ∨
    ((∀ id ∈ inputs, (s.block.value? id).isSome) ∧ s.Free outputs ∧
      (IdSpace.admits s.nextValue → s.HasRoom outputs.length) ∧
      ∃ ids, (emitCustom op inputs outputs).run s = .ok ids (s.withOp (.custom op) inputs outputs)) ∨
    ((∀ id ∈ inputs, (s.block.value? id).isSome) ∧ ∃ front output back, outputs = front ++ output :: back ∧
      s.Free front ∧ output.1 ∈ (s.defining front).names ∧
        (emitCustom op inputs outputs).run s = .error (.duplicateName output.1) (s.defining front)) ∨
    ∃ t, (emitCustom op inputs outputs).run s = .error (.crash .overflow) t := by
  by_cases hknown : ∀ id ∈ inputs, (s.block.value? id).isSome
  · rw [emitCustom, run_bind (run_checkKnown hknown)]
    obtain ⟨hnames, hids, hrun⟩ | ⟨front, output, back, heq, hnames, htaken, hrun⟩ | ⟨t, hrun⟩ :=
      defineValues_cases hvalues outputs
    · rw [run_bind hrun]
      by_cases hid : IdSpace.admits (s.nextOp + 1)
      · refine .inr (.inl ⟨hknown, hnames, fun hfree => ⟨?_, hid⟩, s.nextIds outputs.length, ?_⟩)
        · by_cases hnil : outputs = []
          · rwa [hnil]
          · exact hids hnil
        · rw [run_bind (pushOp_defining hid)]
          rfl
      · exact .inr (.inr (.inr ⟨_, run_bind_error (run_pushOp_crash hid)⟩))
    · exact .inr (.inr (.inl ⟨hknown, front, output, back, heq, hnames, htaken, run_bind_error hrun⟩))
    · exact .inr (.inr (.inr ⟨t, run_bind_error hrun⟩))
  · obtain ⟨id, hcheck⟩ := run_checkKnown_error hknown
    exact .inl ⟨hknown, _, run_bind_error hcheck⟩

/-- An operation with one result has the type that is inferred, and all checks come before its result is defined. -/
theorem emitChecked_cases (name : String) (kind : OpKind) (inputs : List ValueId) (declared : Option TensorType) :
    (∃ e, (emitChecked name kind inputs declared).run s = .error e s) ∨
    ((∀ id ∈ inputs, (s.block.value? id).isSome) ∧ ∃ type, inferOne s.block ⟨⟨s.nextOp⟩, kind, inputs, []⟩ = .ok type ∧
      s.Free [(name, type)] ∧ s.HasRoom 1 ∧ ∃ id, (emitChecked name kind inputs declared).run s =
        .ok id (s.withOp kind inputs [(name, type)])) ∨
    ∃ t, (emitChecked name kind inputs declared).run s = .error (.crash .overflow) t := by
  obtain hfail | ⟨hknown, type, hinfer, hrun⟩ := emitChecked_run s name kind inputs declared
  · exact .inl hfail
  rw [hrun]
  by_cases hname : name ∈ s.names
  · exact .inl ⟨_, run_bind_error (run_defineValue_error hname type)⟩
  by_cases hid : IdSpace.admits (s.nextValue + 1)
  · rw [run_bind (run_defineValue_defining hvalues hname hid type)]
    by_cases hop : IdSpace.admits (s.nextOp + 1)
    · refine .inr (.inl ⟨hknown, type, hinfer, free_cons.2 ⟨hname, free_nil _⟩, ⟨hid, hop⟩, ⟨s.nextValue⟩, ?_⟩)
      have hpush : (pushOp kind inputs [⟨s.nextValue⟩]).run (s.defining [(name, type)]) =
          .ok () (s.withOp kind inputs [(name, type)]) := pushOp_defining hop
      rw [run_bind hpush]
      rfl
    · exact .inr (.inr ⟨_, run_bind_error (run_pushOp_crash hop)⟩)
  · exact .inl ⟨_, run_bind_error (run_defineValue_crash hname hid type)⟩

end Outcomes

end Definitions

end Builder

/-! ## Blocks that grow -/

namespace Block

variable {b b' : Block}

/-- Records that are added do not change those that are found. -/
theorem type?_of_append {new : List Value} (h : b'.values = b.values ++ new) {v : ValueId}
    (hv : (b.value? v).isSome) : b'.type? v = b.type? v := by
  obtain ⟨r, hr⟩ := Option.isSome_iff_exists.1 hv
  have hr' : b'.value? v = some r := by
    rw [value?, Records.find?, h, List.find?_append]
    rw [value?, Records.find?] at hr
    rw [hr]
    rfl
  rw [type?, hr', type?, hr]

/-- An operation keeps the types that it has. -/
theorem TypedOp.congr {op : Operation} (h : b.TypedOp op) (hin : ∀ v ∈ op.inputs, b'.type? v = b.type? v)
    (hout : ∀ v ∈ op.outputs, b'.type? v = b.type? v) : b'.TypedOp op := by
  obtain ⟨types, hstatic, hrec⟩ := h
  exact ⟨types, (static_congr hin fun _ => hout).trans hstatic, (recorded_congr hout).trans hrec⟩

/-- A new input comes into scope for all operations. -/
theorem Sound.addInput (hs : b.Sound) {r : Value} (hlarge : ∀ q ∈ b.values, q.id.index < r.id.index)
    (hfree : ∀ q ∈ b.values, q.name ≠ r.name) :
    ({ b with inputs := b.inputs ++ [r.id], values := b.values ++ [r] } : Block).Sound := by
  have hnew : r.id ∉ b.defined := by
    intro hdef
    obtain ⟨q, hq, he⟩ := List.mem_map.1 ((hs.recorded r.id).1 hdef)
    have := hlarge q hq
    rw [he] at this
    exact lt_irrefl _ this
  have hperm : (b.inputs ++ [r.id] ++ results b.operations).Perm (b.defined ++ [r.id]) := by
    rw [defined_eq, List.append_assoc, List.append_assoc]
    exact List.Perm.append_left _ List.perm_append_comm
  exact
    { sorted := by
        rw [List.pairwise_append]
        exact ⟨hs.sorted, List.pairwise_singleton _ _, by simpa using hlarge⟩
      names := by
        rw [List.map_append, List.nodup_append]
        exact ⟨hs.names, List.nodup_singleton _, by simpa using hfree⟩
      definedOnce := by
        rw [defined_eq, hperm.nodup_iff, List.nodup_append]
        refine ⟨hs.definedOnce, List.nodup_singleton _, fun v hv w hw he => hnew ?_⟩
        rwa [← List.mem_singleton.1 hw, ← he]
      recorded := fun v => by
        rw [defined_eq, hperm.mem_iff, List.mem_append, hs.recorded v]
        simp
      opsOnce := hs.opsOnce
      scopes := hs.scopes.mono fun v hv => List.mem_append_left _ hv
      outputsDefined := fun v hv => by
        rw [defined_eq, hperm.mem_iff]
        exact List.mem_append_left _ (hs.outputsDefined v hv) }

/-- Types that are recorded already are recorded again. -/
theorem setType_self (hs : b.Sound) {v : ValueId} {type : TensorType} (h : b.type? v = some type) :
    b.setType v type = b := by
  have hmodify : Records.modify v ({ · with type := type }) b.values = b.values := by
    refine (List.map_congr_left fun r hr => ?_).trans (List.map_id _)
    dsimp only
    split
    · rename_i hv
      rw [type?, (value?_eq_some hs.sorted).2 ⟨hr, hv⟩] at h
      rw [← Option.some.inj h]
      rfl
    · rfl
  rw [setType, hmodify]

theorem recordTypes_self (hs : b.Sound) {ids : List ValueId} {types : List TensorType}
    (h : List.Forall₂ (fun v type => b.type? v = some type) ids types) : b.recordTypes (ids.zip types) = (b, none) := by
  induction h with
  | nil => rfl
  | cons hv _ ih =>
    obtain ⟨r, hr, _⟩ := Option.map_eq_some_iff.1 hv
    rw [List.zip_cons_cons, recordTypes, hr]
    dsimp only
    rw [setType_self hs hv, ih]

/-- A block is well typed if every operation has the types of its results. -/
theorem wellTyped_of_typedOp (hs : b.Sound) (ht : ∀ op ∈ b.operations, b.TypedOp op) : b.WellTyped := by
  have hops : ∀ ops, (∀ op ∈ ops, b.TypedOp op) → b.retypeOps Typing.static ops = (b, none) := by
    intro ops
    induction ops with
    | nil => exact fun _ => rfl
    | cons op ops ih =>
      intro h
      rw [List.forall_mem_cons] at h
      obtain ⟨types, hstatic, hrec⟩ := h.1
      rw [recorded_eq_ok] at hrec
      rw [retypeOps, retypeOp, hstatic]
      dsimp only
      rw [if_pos hrec.length_eq.symm, recordTypes_self hs hrec]
      exact ih h.2
  exact hops b.operations ht

end Block

/-! ## Builders -/

namespace Builder

variable {s t : Builder}

/-- What holds after any number of calls that succeeded. -/
structure Valid [IdSpace] (s : Builder) : Prop where
  sound : s.block.Sound
  arity : ∀ op ∈ s.block.operations, op.FitsArity
  typed : ∀ op ∈ s.block.operations, s.block.TypedOp op
  names : ∀ r ∈ s.block.values, r.name ∈ s.names
  values : ∀ r ∈ s.block.values, r.id.index < s.nextValue
  ops : ∀ op ∈ s.block.operations, op.id.index < s.nextOp
  free : IdSpace.admits s.nextValue ∧ IdSpace.admits s.nextOp

theorem valid_empty [IdSpace] (name : String) : (empty name).Valid := by
  refine ⟨⟨.nil, .nil, .nil, fun v => ?_, .nil, trivial, ?_⟩, ?_, ?_, ?_, ?_, ?_, ?_, ?_⟩
  all_goals simp [empty, Block.empty, Block.defined, IdSpace.admits_iff]

theorem Valid.known [IdSpace] (h : s.Valid) {v : ValueId} (hv : v ∈ s.block.defined) : (s.block.value? v).isSome :=
  Block.value?_isSome.2 ((h.sound.recorded v).1 hv)

/-- Operations stay typed when records are added. -/
theorem Valid.typedOp_append [IdSpace] (h : s.Valid) {b : Block} {new : List Value} (hb : b.values = s.block.values ++ new)
    {op : Operation} (hop : op ∈ s.block.operations) : b.TypedOp op :=
  (h.typed op hop).congr (fun _ hv => Block.type?_of_append hb (h.known (h.sound.input_defined hop hv)))
    fun _ hv => Block.type?_of_append hb (h.known (Block.Sound.output_defined hop hv))

theorem Valid.withInput [IdSpace] (h : s.Valid) {name : String} (hname : name ∉ s.names)
    (hid : IdSpace.admits (s.nextValue + 1)) (type : TensorType) :
    (s.withInput name type).Valid where
  sound := by
    refine h.sound.addInput (r := ⟨⟨s.nextValue⟩, name, type⟩) h.values ?_
    rintro q hq rfl
    exact hname (h.names q hq)
  arity := h.arity
  typed _ hop := h.typedOp_append rfl hop
  names := by
    refine List.forall_mem_append.2 ⟨fun r hr => List.mem_cons_of_mem _ (h.names r hr), ?_⟩
    exact List.forall_mem_singleton.2 List.mem_cons_self
  values := by
    refine List.forall_mem_append.2 ⟨fun r hr => Nat.lt_succ_of_lt (h.values r hr), ?_⟩
    exact List.forall_mem_singleton.2 (Nat.lt_succ_self _)
  ops := h.ops
  free := ⟨hid, h.free.2⟩

section WithOp

variable {kind : OpKind} {inputs : List ValueId} {outputs : List (String × TensorType)}

theorem length_nextIds (s : Builder) (count : Nat) : (s.nextIds count).length = count := by
  simp [nextIds]

theorem mem_nextIds {count : Nat} {v : ValueId} :
    v ∈ s.nextIds count ↔ s.nextValue ≤ v.index ∧ v.index < s.nextValue + count := by
  simp only [nextIds, List.mem_map, List.mem_range'_1]
  exact ⟨by rintro ⟨i, hi, rfl⟩; exact hi, fun hv => ⟨v.index, hv, rfl⟩⟩

theorem sorted_nextIds (s : Builder) (count : Nat) : (s.nextIds count).Pairwise (·.index < ·.index) :=
  List.pairwise_map.2 List.pairwise_lt_range'

theorem Valid.sound_withOp [IdSpace] (h : s.Valid) (kind : OpKind) (hknown : ∀ id ∈ inputs, (s.block.value? id).isSome)
    (hfree : s.Free outputs) :
    (s.withOp kind inputs outputs).block.Sound := by
  refine h.sound.insert (List.append_nil _).symm (length_nextIds s _) (fun v hv => ?_) (fun hmem => ?_)
    (fun r hr v hv => (h.values r hr).trans_le (mem_nextIds.1 hv).1) (sorted_nextIds s _) hfree.names
    fun name hname hmem => ?_
  · exact (h.sound.recorded v).2 (Block.value?_isSome.1 (hknown v hv))
  · obtain ⟨op, hop, hid⟩ := List.mem_map.1 hmem
    have := h.ops op hop
    rw [hid] at this
    exact lt_irrefl _ this
  · obtain ⟨r, hr, rfl⟩ := List.mem_map.1 hmem
    exact hfree.free _ hname (h.names r hr)

/-- The results of an operation are recorded with the types that they are defined with. -/
theorem recorded_withOp (hs : (s.withOp kind inputs outputs).block.Sound) :
    Typing.recorded (s.withOp kind inputs outputs).block (s.nextIds outputs.length) = .ok (outputs.map (·.2)) := by
  rw [Block.recorded_eq_ok]
  refine forall₂_of_getElem? (by simp [length_nextIds]) fun i v type hv htype => ?_
  rw [List.getElem?_map] at htype
  obtain ⟨output, houtput, rfl⟩ := Option.map_eq_some_iff.1 htype
  have hrecord : (⟨v, output.1, output.2⟩ : Value) ∈ newRecords (s.nextIds outputs.length) outputs := by
    refine List.mem_map.2 ⟨(v, output), List.mem_of_getElem? (i := i) ?_, rfl⟩
    rw [List.getElem?_zip_eq_some]
    exact ⟨hv, houtput⟩
  rw [Block.type?, (Block.value?_eq_some hs.sorted).2 ⟨List.mem_append_right _ hrecord, rfl⟩]
  rfl

/-- An operation on known values, with numbers of operands and types that fit, keeps everything. -/
theorem Valid.withOp [IdSpace] (h : s.Valid) (hs : (s.withOp kind inputs outputs).block.Sound)
    (har : ∀ arity ∈ kind.arity?, arity.admits inputs.length ∧ outputs.length = 1)
    (ht : Typing.static (s.withOp kind inputs outputs).block ⟨⟨s.nextOp⟩, kind, inputs, s.nextIds outputs.length⟩ =
      .ok (outputs.map (·.2))) (hroom : s.HasRoom outputs.length) : (s.withOp kind inputs outputs).Valid where
  sound := hs
  arity := by
    refine List.forall_mem_append.2 ⟨h.arity, List.forall_mem_singleton.2 fun arity ha => ?_⟩
    exact ⟨(har arity ha).1, (length_nextIds s _).trans (har arity ha).2⟩
  typed := by
    refine List.forall_mem_append.2 ⟨fun op hop => h.typedOp_append rfl hop, List.forall_mem_singleton.2 ?_⟩
    exact ⟨_, ht, recorded_withOp hs⟩
  names := by
    refine List.forall_mem_append.2 ⟨fun r hr => List.mem_append_right _ (h.names r hr), fun r hr => ?_⟩
    have hname := List.mem_map_of_mem (f := fun r : Value => r.name) hr
    rw [map_name_newRecords (length_nextIds s _)] at hname
    exact List.mem_append_left _ (List.mem_reverse.2 hname)
  values := by
    refine List.forall_mem_append.2 ⟨fun r hr => (h.values r hr).trans_le (Nat.le_add_right _ _), fun r hr => ?_⟩
    have hid := List.mem_map_of_mem (f := fun r : Value => r.id) hr
    rw [map_id_newRecords (length_nextIds s _)] at hid
    exact (mem_nextIds.1 hid).2
  ops := by
    refine List.forall_mem_append.2 ⟨fun op hop => Nat.lt_succ_of_lt (h.ops op hop), ?_⟩
    exact List.forall_mem_singleton.2 (Nat.lt_succ_self _)
  free := hroom

theorem Valid.emitCustom [IdSpace] (h : s.Valid) {op : String} {ids : List ValueId}
    (hrun : (emitCustom op inputs outputs).run s = .ok ids t) : t.Valid := by
  obtain ⟨hknown, hfree, hroom, rfl⟩ : (∀ id ∈ inputs, (s.block.value? id).isSome) ∧ s.Free outputs ∧
      s.HasRoom outputs.length ∧ t = s.withOp (.custom op) inputs outputs := by
    obtain ⟨_, _, heq⟩ | ⟨hknown, hfree, hroom, _, heq⟩ | ⟨_, _, _, _, _, _, _, heq⟩ | ⟨_, heq⟩ :=
      emitCustom_cases h.values op inputs outputs
    all_goals
      rw [heq] at hrun
      cases hrun
    exact ⟨hknown, hfree, hroom h.free.1, rfl⟩
  have hs := h.sound_withOp (.custom op) hknown hfree
  refine h.withOp hs (by simp [OpKind.arity?]) ?_ hroom
  obtain ⟨types, htypes⟩ : ∃ types, Typing.recorded (s.withOp (.custom op) inputs outputs).block inputs = .ok types := by
    refine exists_mapM fun v hv => ?_
    obtain ⟨r, hr⟩ := Option.isSome_iff_exists.1 (hknown v hv)
    rw [Block.type?_of_append rfl (hknown v hv), Block.type?, hr]
    exact ⟨r.type, rfl⟩
  rw [Typing.static, htypes]
  exact recorded_withOp hs

/-- No type is inferred for a custom operation without results. -/
theorem inferOne_eq_ok {b : Block} {id : OpId} {type : TensorType} (h : inferOne b ⟨id, kind, inputs, []⟩ = .ok type) :
    kind.isCustom = false ∧ ∃ types, List.Forall₂ (fun v type => b.type? v = some type) inputs types ∧
      Typing.resultType kind types = .ok type := by
  obtain ⟨rest, hstatic⟩ : ∃ rest, Typing.static b ⟨id, kind, inputs, []⟩ = .ok (type :: rest) := by
    rw [inferOne] at h
    split at h
    · cases h
    · rename_i type' rest hstatic
      cases h
      exact ⟨rest, hstatic⟩
    · cases h
  cases hk : kind.isCustom with
  | false =>
    obtain ⟨types, t, htypes, hresult, heq⟩ := (Block.static_eq_ok hk).1 hstatic
    cases heq
    exact ⟨rfl, types, htypes, hresult⟩
  | true =>
    cases kind with
    | custom name =>
      obtain ⟨_, _, hrec⟩ := bind_eq_ok.1 hstatic
      cases hrec
    | _ => cases hk

theorem Valid.emitChecked [IdSpace] (h : s.Valid) {name : String} {declared : Option TensorType} {id : ValueId}
    (hrun : (emitChecked name kind inputs declared).run s = .ok id t) : t.Valid := by
  obtain ⟨_, heq⟩ | ⟨hknown, type, hinfer, hfree, hroom, _, heq⟩ | ⟨_, heq⟩ :=
    emitChecked_cases h.values name kind inputs declared
  all_goals
    rw [heq] at hrun
    cases hrun
  obtain ⟨hk, types, htypes, hresult⟩ := inferOne_eq_ok hinfer
  have hs := h.sound_withOp kind hknown hfree
  refine h.withOp hs (fun arity ha => ⟨?_, rfl⟩) ?_ hroom
  · rw [htypes.length_eq]
    exact Typing.arity_of_resultType hresult arity ha
  · have hk' : (⟨⟨s.nextOp⟩, kind, inputs, s.nextIds 1⟩ : Operation).kind.isCustom = false := hk
    refine (Block.static_eq_ok hk').2 ⟨types, type, ?_, hresult, rfl⟩
    refine ((List.forall₂_and_left _ _).2 ⟨hknown, htypes⟩).imp fun v type hv => ?_
    rw [Block.type?_of_append rfl hv.1, hv.2]

end WithOp

theorem Valid.addInput [IdSpace] (h : s.Valid) {name : String} {type : TensorType} {id : ValueId}
    (hrun : (addInput name type).run s = .ok id t) : t.Valid := by
  obtain ⟨_, heq⟩ | ⟨hname, hid, _, heq⟩ := addInput_cases h.values name type
  all_goals
    rw [heq] at hrun
    cases hrun
  exact h.withInput hname hid type

theorem finish_eq_ok {outputs : List ValueId} {b : Block} : s.finish outputs = .ok b ↔
    (∀ id ∈ outputs, (s.block.value? id).isSome) ∧ { s.block with outputs := outputs } = b := by
  rw [Builder.finish, ← find?_unknown_eq_none]
  cases outputs.find? fun id => (s.block.value? id).isNone with
  | some id => simp
  | none => simp

/-- A valid builder is finished with a block that passes the check and is well typed. -/
theorem Valid.finish [IdSpace] (h : s.Valid) {outputs : List ValueId} {b : Block} (hfinish : s.finish outputs = .ok b) :
    b.check = .ok () ∧ (∃ x, UseIndex.build b = .ok x) ∧ b.WellTyped := by
  obtain ⟨houtputs, rfl⟩ := finish_eq_ok.1 hfinish
  have hs : ({ s.block with outputs := outputs } : Block).Sound :=
    { h.sound with outputsDefined := fun v hv => (h.sound.recorded v).2 (Block.value?_isSome.1 (houtputs v hv)) }
  have hids : ({ s.block with outputs := outputs } : Block).HasFreeIds :=
    ⟨fun r hr => IdSpace.admits_of_le (h.values r hr) h.free.1, fun op hop => IdSpace.admits_of_le (h.ops op hop) h.free.2⟩
  obtain ⟨x, hx, _⟩ := UseIndex.exists_build hs hids
  exact ⟨Block.check_of_typed hs h.arity h.typed, ⟨x, hx⟩, Block.wellTyped_of_typedOp hs h.typed⟩

end Builder

/-! ## Sequences of calls -/

inductive BuildCall where
  | addInput (name : String) (type : TensorType)
  | emit (kind : OpKind) (inputs : List ValueId)
  | emitNamed (name : String) (kind : OpKind) (inputs : List ValueId)
  | emitChecked (name : String) (kind : OpKind) (inputs : List ValueId) (declared : Option TensorType)
  | constant (name : String) (literal : Literal)
  | emitCustom (op : String) (inputs : List ValueId) (outputs : List (String × TensorType))

namespace BuildCall

def run [IdSpace] : BuildCall → Build Unit
  | addInput name type => discard (Builder.addInput name type)
  | emit kind inputs => discard (Builder.emit kind inputs)
  | emitNamed name kind inputs => discard (Builder.emitNamed name kind inputs)
  | emitChecked name kind inputs declared => discard (Builder.emitChecked name kind inputs declared)
  | constant name literal => discard (Builder.constant name literal)
  | emitCustom op inputs outputs => discard (Builder.emitCustom op inputs outputs)

def runAll [IdSpace] : List BuildCall → Build Unit
  | [] => pure ()
  | call :: calls => do
    call.run
    runAll calls

variable {s t : Builder} {call : BuildCall} {calls : List BuildCall}

theorem run_discard_eq_ok {α : Type} {x : Build α} (h : (discard x).run s = .ok () t) : ∃ a, x.run s = .ok a t := by
  obtain ⟨a, t', hx, h⟩ := Builder.run_bind_eq_ok.1 h
  obtain ⟨_, rfl⟩ := Builder.run_pure_eq_ok.1 h
  exact ⟨a, hx⟩

/-- A call that succeeds keeps a builder valid. -/
theorem valid_run [IdSpace] (h : s.Valid) (hrun : call.run.run s = .ok () t) : t.Valid := by
  cases call with
  | addInput name type =>
    rw [run] at hrun
    obtain ⟨_, hrun⟩ := run_discard_eq_ok hrun
    exact h.addInput hrun
  | emit kind inputs =>
    rw [run, Builder.emit] at hrun
    obtain ⟨_, hrun⟩ := run_discard_eq_ok hrun
    obtain ⟨_, _, hget, hrun⟩ := Builder.run_bind_eq_ok.1 hrun
    cases hget
    exact h.emitChecked hrun
  | emitNamed name kind inputs =>
    rw [run, Builder.emitNamed] at hrun
    obtain ⟨_, hrun⟩ := run_discard_eq_ok hrun
    exact h.emitChecked hrun
  | emitChecked name kind inputs declared =>
    rw [run] at hrun
    obtain ⟨_, hrun⟩ := run_discard_eq_ok hrun
    exact h.emitChecked hrun
  | constant name literal =>
    rw [run, Builder.constant, Builder.emitNamed] at hrun
    obtain ⟨_, hrun⟩ := run_discard_eq_ok hrun
    exact h.emitChecked hrun
  | emitCustom op inputs outputs =>
    rw [run] at hrun
    obtain ⟨_, hrun⟩ := run_discard_eq_ok hrun
    exact h.emitCustom hrun

theorem valid_runAll [IdSpace] (h : s.Valid) (hrun : (runAll calls).run s = .ok () t) : t.Valid := by
  induction calls generalizing s with
  | nil =>
    obtain ⟨_, rfl⟩ := Builder.run_pure_eq_ok.1 hrun
    exact h
  | cons call calls ih =>
    obtain ⟨_, _, hcall, hrest⟩ := Builder.run_bind_eq_ok.1 hrun
    exact ih (valid_run h hcall) hrest

theorem run_discard_of_run {α : Type} {x : Build α} {a : α} (h : x.run s = .ok a t) : (discard x).run s = .ok () t :=
  Builder.run_bind_eq_ok.2 ⟨a, t, h, rfl⟩

theorem runAll_append [IdSpace] {first second : List BuildCall} {u : Builder} (hfirst : (runAll first).run s = .ok () t)
    (hsecond : (runAll second).run t = .ok () u) : (runAll (first ++ second)).run s = .ok () u := by
  induction first generalizing s with
  | nil =>
    obtain ⟨_, rfl⟩ := Builder.run_pure_eq_ok.1 hfirst
    exact hsecond
  | cons call first ih =>
    obtain ⟨_, _, hcall, hrest⟩ := Builder.run_bind_eq_ok.1 hfirst
    exact Builder.run_bind_eq_ok.2 ⟨_, _, hcall, ih hrest⟩

end BuildCall

/-! ## Texts

Reading makes calls to a builder and does nothing else to it, so that what has been read has been built. -/

namespace Builder

/-- Calls lead from one builder to another, and all of them succeed. -/
def Reaches [IdSpace] (s t : Builder) : Prop :=
  ∃ calls, (BuildCall.runAll calls).run s = .ok () t

theorem Reaches.refl [IdSpace] (s : Builder) : s.Reaches s :=
  ⟨[], rfl⟩

theorem Reaches.trans [IdSpace] {s t u : Builder} (hst : s.Reaches t) (htu : t.Reaches u) : s.Reaches u := by
  obtain ⟨first, hfirst⟩ := hst
  obtain ⟨second, hsecond⟩ := htu
  exact ⟨first ++ second, BuildCall.runAll_append hfirst hsecond⟩

theorem reaches_of_run [IdSpace] {s t : Builder} {call : BuildCall} (h : call.run.run s = .ok () t) : s.Reaches t :=
  ⟨[call], run_bind_eq_ok.2 ⟨(), t, h, rfl⟩⟩

end Builder

namespace Reader

variable {s t : Builder}

theorem run_eq_ok [IdSpace] {α : Type} {call : Build α} {r : α × Builder} :
    Reader.run call s = .ok r ↔ call.run s = .ok r.1 r.2 := by
  rw [Reader.run]
  cases call.run s with
  | ok a t => simp [Prod.ext_iff]
  | error e t => simp

theorem reaches_emitCustom [IdSpace] {op : String} {results : List String} {inputs : List ValueId}
    {declared : Option (List TensorType)} (h : Reader.emitCustom op results inputs declared s = .ok t) :
    s.Reaches t := by
  obtain ⟨types, _, h⟩ := bind_eq_ok.1 h
  split at h
  · cases h
  · obtain ⟨r, hrun, h⟩ := bind_eq_ok.1 h
    cases h
    have hcall := BuildCall.run_discard_of_run (run_eq_ok.1 hrun)
    exact Builder.reaches_of_run (show (BuildCall.run (.emitCustom op inputs (results.zip types))).run s = _ from hcall)

theorem reaches_emitOne [IdSpace] {op : String} {results : List String} {inputs : List ValueId} {args : Arguments}
    {declared : Option (List TensorType)} (h : Reader.emitOne op results inputs args declared s = .ok t) :
    s.Reaches t := by
  unfold Reader.emitOne at h
  split at h
  · rename_i result
    obtain ⟨type, h⟩ : ∃ type, (readKind op args type >>= fun kind =>
        Reader.run (Builder.emitChecked result kind inputs type) s >>= fun r => pure r.2 : Read Builder) = .ok t := by
      dsimp only at h
      split at h <;> obtain ⟨type, _, h⟩ := bind_eq_ok.1 h <;> exact ⟨type, h⟩
    obtain ⟨kind, _, h⟩ := bind_eq_ok.1 h
    obtain ⟨r, hrun, h⟩ := bind_eq_ok.1 h
    cases h
    have hcall := BuildCall.run_discard_of_run (run_eq_ok.1 hrun)
    exact Builder.reaches_of_run (show (BuildCall.run (.emitChecked result kind inputs type)).run s = _ from hcall)
  · cases h

theorem reaches_readStatement [IdSpace] {line : List Char} (h : readStatement line s = .ok t) : s.Reaches t := by
  obtain ⟨⟨left, right⟩, _, h⟩ := bind_eq_ok.1 h
  dsimp only at h
  split at h
  · cases h
  · obtain ⟨⟨op, rest⟩, _, h⟩ := bind_eq_ok.1 h
    obtain ⟨args, _, h⟩ := bind_eq_ok.1 h
    obtain ⟨inputs, _, h⟩ := bind_eq_ok.1 h
    obtain ⟨declared, _, h⟩ := bind_eq_ok.1 h
    split at h
    · exact reaches_emitCustom h
    · exact reaches_emitOne h

theorem reaches_readLines [IdSpace] {lines : List (List Char)} {results : Option (List ValueId)} {outputs : List ValueId}
    (h : readLines lines s results = .ok (t, outputs)) : s.Reaches t := by
  induction lines generalizing s results with
  | nil =>
    obtain ⟨_, _, h⟩ := bind_eq_ok.1 h
    cases h
    exact .refl _
  | cons line lines ih =>
    rw [readLines] at h
    split at h
    · exact ih h
    split at h
    · cases h
    split at h
    · obtain ⟨_, _, h⟩ := bind_eq_ok.1 h
      exact ih h
    · obtain ⟨_, hstatement, h⟩ := bind_eq_ok.1 h
      exact (reaches_readStatement hstatement).trans (ih h)

theorem reaches_addParameters [IdSpace] {parameters : List Parameter} (h : addParameters parameters s = .ok t) :
    s.Reaches t := by
  induction parameters generalizing s with
  | nil =>
    cases h
    exact .refl _
  | cons p ps ih =>
    obtain ⟨type, _, h⟩ := bind_eq_ok.1 h
    obtain ⟨r, hrun, h⟩ := bind_eq_ok.1 h
    have hcall := BuildCall.run_discard_of_run (run_eq_ok.1 hrun)
    have hreach := Builder.reaches_of_run (show (BuildCall.run (.addInput p.name type)).run s = _ from hcall)
    exact hreach.trans (ih h)

end Reader

namespace Block

variable {b : Block}

/-- A new builder can be finished with the block after calls that all succeed. -/
def Built [IdSpace] (b : Block) : Prop :=
  ∃ name s outputs, (Builder.empty name).Reaches s ∧ s.finish outputs = .ok b

open Reader in
theorem built_of_read [IdSpace] {text : String} (h : Block.read text = .ok b) : b.Built := by
  rw [Block.read] at h
  dsimp only at h
  split at h
  · cases h
  · obtain ⟨⟨header, body⟩, _, h⟩ := bind_eq_ok.1 h
    obtain ⟨⟨name, parameters⟩, _, h⟩ := bind_eq_ok.1 h
    obtain ⟨s, hparameters, h⟩ := bind_eq_ok.1 h
    obtain ⟨⟨t, outputs⟩, hlines, h⟩ := bind_eq_ok.1 h
    split at h
    · rename_i hfinish
      cases h
      exact ⟨name, t, outputs, (reaches_addParameters hparameters).trans (reaches_readLines hlines), hfinish⟩
    · cases h

/-- What has been built passes the check, has an index of its uses, and keeps its types when they are inferred again. -/
theorem check_of_built [IdSpace] (h : b.Built ∨ ∃ text, Block.read text = .ok b) :
    b.check = .ok () ∧ (∃ x, UseIndex.build b = .ok x) ∧ b.WellTyped := by
  obtain ⟨name, s, outputs, ⟨calls, hrun⟩, hfinish⟩ : b.Built := by
    rcases h with hbuilt | ⟨text, hread⟩
    · exact hbuilt
    · exact built_of_read hread
  exact (BuildCall.valid_runAll (Builder.valid_empty name) hrun).finish hfinish

/-- The block that `assembly` leads to. -/
def assembled : Block where
  name := "f"
  inputs := [⟨0⟩]
  outputs := [⟨5⟩, ⟨0⟩]
  operations := [⟨⟨0⟩, .const ⟨.ofExtents .f32 [], [0, 0, 128, 63]⟩, [], [⟨1⟩]⟩, ⟨⟨1⟩, .transpose [1, 0], [⟨0⟩], [⟨2⟩]⟩,
    ⟨⟨2⟩, .binary .add, [⟨2⟩, ⟨1⟩], [⟨3⟩]⟩, ⟨⟨3⟩, .unary .relu, [⟨3⟩], [⟨4⟩]⟩,
    ⟨⟨4⟩, .custom "split", [⟨4⟩], [⟨5⟩, ⟨6⟩]⟩]
  values := [⟨⟨0⟩, "x", ⟨.f32, [.fixed 2, .dynamic "n"]⟩⟩, ⟨⟨1⟩, "one", .ofExtents .f32 []⟩,
    ⟨⟨2⟩, "transpose_2", ⟨.f32, [.dynamic "n", .fixed 2]⟩⟩, ⟨⟨3⟩, "y", ⟨.f32, [.dynamic "n", .fixed 2]⟩⟩,
    ⟨⟨4⟩, "z", ⟨.f32, [.dynamic "n", .fixed 2]⟩⟩, ⟨⟨5⟩, "u", .ofExtents .f32 []⟩, ⟨⟨6⟩, "v", .ofExtents .f16 [3]⟩]

/-- One call of each kind. -/
def assembly : List BuildCall :=
  [.addInput "x" ⟨.f32, [.fixed 2, .dynamic "n"]⟩, .constant "one" ⟨.ofExtents .f32 [], [0, 0, 128, 63]⟩,
    .emit (.transpose [1, 0]) [⟨0⟩], .emitNamed "y" (.binary .add) [⟨2⟩, ⟨1⟩],
    .emitChecked "z" (.unary .relu) [⟨3⟩] (some ⟨.f32, [.dynamic "n", .fixed 2]⟩),
    .emitCustom "split" [⟨4⟩] [("u", .ofExtents .f32 []), ("v", .ofExtents .f16 [3])]]

def sketch : String :=
  "func @f(%x: tensor<f32, ?n>) \x7b\n  %u, %v = custom<g> %x -> (tensor<f32>, tensor<f16>)\n  return %v, %x\n\x7d"

deriving instance DecidableEq for EStateM.Result

theorem check_assembled : (assembled.Built ∧ assembled.check = .ok () ∧ (∃ x, UseIndex.build assembled = .ok x) ∧
    assembled.WellTyped) ∧
    ∃ b, Block.read sketch = .ok b ∧ b.check = .ok () ∧ (∃ x, UseIndex.build b = .ok x) ∧ b.WellTyped := by
  constructor
  · let s : Builder := ⟨{ assembled with outputs := [] }, ["v", "u", "z", "y", "transpose_2", "one", "x"], 7, 5⟩
    have hbuilt : assembled.Built := ⟨"f", s, [⟨5⟩, ⟨0⟩], ⟨assembly, by decide +kernel⟩, by decide +kernel⟩
    exact ⟨hbuilt, check_of_built (.inl hbuilt)⟩
  · have hok : (Block.read sketch).isOk := by decide +kernel
    obtain ⟨b, hread⟩ := exists_of_isOk hok
    exact ⟨b, hread, check_of_built (.inr ⟨sketch, hread⟩)⟩

end Block

end Relayout
