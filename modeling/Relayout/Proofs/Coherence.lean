import Relayout.Editor
import Relayout.Proofs.Index

/-!
# Coherent editors

An editor is `Coherent` if its block is sound and its index agrees with it. The four ways in which edits change an editor
keep it so, whatever else they are for:

- operands, kinds and outputs change, and what operations define does not (`Coherent.rewire`);
- a value gets another name (`Coherent.rename`);
- an operation comes in, with new results (`Coherent.insert`);
- an operation goes that nothing reads or returns, with the records of its results (`Coherent.remove`).

Of this, what concerns definitions alone needs neither users nor names, and is kept also by edits that get these wrong. An
editor of which that much is known is `Anchored`.
-/

namespace Relayout

structure Coherent [IdSpace] (s : Editor) : Prop where
  sound : s.block.Sound
  agrees : s.index.Agrees s.block

/-- The index of an editor knows where operations stand, what they define and which ids are free. Users and names may be out
of step, and operands out of scope. -/
structure Anchored [IdSpace] (s : Editor) : Prop where
  registered : s.block.Registered
  positions : ∀ op pos, s.index.position? op = some pos ↔ (s.block.operations.map (·.id))[pos]? = some op
  producers : ∀ value op, s.index.producer? value = some op ↔ ∃ o ∈ s.block.operations, o.id = op ∧ value ∈ o.outputs
  inputs : s.index.inputs = s.block.inputs
  nextValue : ∀ r ∈ s.block.values, r.id.index < s.index.nextValue
  nextOp : ∀ o ∈ s.block.operations, o.id.index < s.index.nextOp
  free : IdSpace.admits s.index.nextValue ∧ IdSpace.admits s.index.nextOp

theorem Coherent.anchored [IdSpace] {s : Editor} (h : Coherent s) : Anchored s :=
  ⟨h.sound.registered, h.agrees.positions, h.agrees.producers, h.agrees.inputs, h.agrees.nextValue, h.agrees.nextOp,
    h.agrees.free⟩

/-- An editor of a sound block. -/
theorem Block.Sound.exists_editor [IdSpace] {b : Block} (h : b.Sound) (hids : b.HasFreeIds) :
    ∃ s, Editor.ofBlock b = .ok s ∧ s.block = b ∧ Coherent s := by
  obtain ⟨x, hx, hagrees⟩ := UseIndex.exists_build h hids
  exact ⟨⟨b, x⟩, by rw [Editor.ofBlock, hx]; rfl, rfl, h, hagrees⟩

/-- An editor of a sound block is there only if ids are free, and then it is coherent. -/
theorem Block.Sound.ofBlock_eq_ok [IdSpace] {b : Block} {s : Editor} (h : b.Sound) (hs : Editor.ofBlock b = .ok s) :
    s.block = b ∧ Coherent s := by
  by_cases hids : b.HasFreeIds
  · obtain ⟨s', hs', hb, hco⟩ := h.exists_editor hids
    rw [hs] at hs'
    cases hs'
    exact ⟨hb, hco⟩
  · rw [Editor.ofBlock, UseIndex.build_overflow h hids] at hs
    cases hs

/-! ## Records -/

namespace Records

theorem upsert_eq_append {records : List Value} {r : Value} (h : ∀ s ∈ records, s.id.index < r.id.index) :
    upsert r records = records ++ [r] := by
  induction records with
  | nil => rfl
  | cons s records ih =>
    have hs := h s List.mem_cons_self
    have hne : r.id ≠ s.id := fun he => by rw [he] at hs; omega
    rw [upsert, if_neg (by omega), if_neg hne, ih fun t ht => h t (List.mem_cons_of_mem _ ht)]
    rfl

theorem erase_eq_filter {records : List Value} (h : (records.map (·.id)).Nodup) (id : ValueId) :
    erase records id = records.filter (·.id != id) := by
  induction records with
  | nil => rfl
  | cons r records ih =>
    rw [List.map_cons, List.nodup_cons] at h
    rw [erase, List.eraseP_cons, ← erase]
    by_cases hr : r.id = id
    · have hnot : ∀ s ∈ records, (s.id != id) = true := fun s hs => by
        simp only [bne_iff_ne, ne_eq]
        exact fun he => h.1 (List.mem_map.2 ⟨s, hs, he.trans hr.symm⟩)
      simp [hr, List.filter_eq_self.2 hnot]
    · simp [beq_false_of_ne hr, hr, ih h.2]

theorem foldl_erase_eq_filter {records : List Value} (h : (records.map (·.id)).Nodup) (ids : List ValueId) :
    ids.foldl erase records = records.filter (·.id ∉ ids) := by
  induction ids generalizing records with
  | nil => simp
  | cons id ids ih =>
    have hnd : ((erase records id).map (·.id)).Nodup := by
      rw [erase_eq_filter h]
      exact h.sublist (List.filter_sublist.map _)
    rw [List.foldl_cons, ih hnd, erase_eq_filter h, List.filter_filter]
    refine List.filter_congr fun r _ => ?_
    rw [Bool.eq_iff_iff]
    simp only [Bool.and_eq_true, decide_eq_true_eq, bne_iff_ne, List.mem_cons, not_or]
    exact and_comm

theorem map_id_modify {records : List Value} {id : ValueId} {f : Value → Value} (hf : ∀ r, (f r).id = r.id) :
    (modify id f records).map (·.id) = records.map (·.id) := by
  rw [modify, List.map_map]
  refine List.map_congr_left fun r _ => ?_
  simp only [Function.comp]
  split
  · exact hf r
  · rfl

theorem find?_modify {records : List Value} {id : ValueId} {f : Value → Value} (hf : ∀ r, (f r).id = r.id)
    (v : ValueId) : find? (modify id f records) v = (find? records v).map fun r => if v = id then f r else r := by
  induction records with
  | nil => rfl
  | cons r records ih =>
    rw [modify, List.map_cons, ← modify, find?, find?, List.find?_cons, List.find?_cons]
    rw [find?, find?] at ih
    have hid : (if r.id = id then f r else r).id = r.id := by split <;> simp [hf]
    rw [hid]
    by_cases hr : r.id = v
    · subst hr
      simp
    · simp only [beq_false_of_ne hr]
      exact ih

end Records

theorem Block.map_id_setName (b : Block) (id : ValueId) (name : String) :
    (b.setName id name).values.map (·.id) = b.values.map (·.id) :=
  Records.map_id_modify (f := ({ · with name := name })) fun _ => rfl

theorem Block.value?_setName (b : Block) (id v : ValueId) (name : String) :
    (b.setName id name).value? v = (b.value? v).map fun r => if v = id then { r with name := name } else r :=
  Records.find?_modify (f := ({ · with name := name })) (fun _ => rfl) v

theorem Block.type?_setName (b : Block) (id v : ValueId) (name : String) : (b.setName id name).type? v = b.type? v := by
  rw [type?, value?_setName, type?, Option.map_map]
  congr 1
  funext r
  simp only [Function.comp]
  split <;> rfl

/-! ## Operands, kinds and outputs -/

/-- What an operation defines. -/
def Operation.defines (op : Operation) : OpId × List ValueId :=
  (op.id, op.outputs)

section Defines

variable {ops ops' : List Operation} (h : ops'.map (·.defines) = ops.map (·.defines))

include h

theorem map_id_of_defines : ops'.map (·.id) = ops.map (·.id) := by
  have := congrArg (List.map Prod.fst) h
  simpa only [List.map_map, Function.comp_def, Operation.defines] using this

theorem results_of_defines : results ops' = results ops := by
  have := congrArg (List.flatMap Prod.snd) h
  rw [List.flatMap_map, List.flatMap_map] at this
  exact this

theorem defines_iff {op : OpId} {value : ValueId} :
    (∃ o ∈ ops', o.id = op ∧ value ∈ o.outputs) ↔ ∃ o ∈ ops, o.id = op ∧ value ∈ o.outputs := by
  have key : ∀ l : List Operation, (∃ o ∈ l, o.id = op ∧ value ∈ o.outputs) ↔
      ∃ d ∈ l.map (·.defines), d.1 = op ∧ value ∈ d.2 := fun l => by
    simp [Operation.defines]
  rw [key, key, h]

end Defines

theorem Block.Registered.of_defines {b b' : Block} (h : b.Registered) (hin : b'.inputs = b.inputs)
    (hops : b'.operations.map (·.defines) = b.operations.map (·.defines))
    (hids : b'.values.map (·.id) = b.values.map (·.id)) : b'.Registered := by
  have hdef : b'.defined = b.defined := by
    rw [Block.defined_eq, Block.defined_eq, hin, results_of_defines hops]
  refine ⟨?_, by rw [hdef]; exact h.definedOnce, fun id => by rw [hdef, hids]; exact h.recorded id, ?_⟩
  · refine (List.pairwise_map (f := fun r : Value => r.id) (R := fun r s => r.index < s.index)).1 ?_
    rw [hids]
    exact List.pairwise_map.2 h.sorted
  · rw [map_id_of_defines hops]
    exact h.opsOnce

/-- Two editors that define the same, at the same places. -/
structure Editor.SameDefinitions (s t : Editor) : Prop where
  inputs : t.block.inputs = s.block.inputs
  defines : t.block.operations.map (·.defines) = s.block.operations.map (·.defines)
  ids : t.block.values.map (·.id) = s.block.values.map (·.id)
  positions : t.index.positions = s.index.positions
  producers : t.index.producers = s.index.producers
  indexInputs : t.index.inputs = s.index.inputs
  nextValue : t.index.nextValue = s.index.nextValue
  nextOp : t.index.nextOp = s.index.nextOp

theorem Anchored.of_sameDefinitions [IdSpace] {s t : Editor} (h : Anchored s) (ht : s.SameDefinitions t) : Anchored t where
  registered := h.registered.of_defines ht.inputs ht.defines ht.ids
  positions op pos := by
    rw [UseIndex.position?, ht.positions, map_id_of_defines ht.defines]
    exact h.positions op pos
  producers value op := by
    rw [UseIndex.producer?, ht.producers, defines_iff ht.defines]
    exact h.producers value op
  inputs := by rw [ht.indexInputs, ht.inputs, h.inputs]
  nextValue r hr := by
    have hid := List.mem_map_of_mem (f := fun r : Value => r.id) hr
    rw [ht.ids] at hid
    obtain ⟨r', hr', he⟩ := List.mem_map.1 hid
    rw [ht.nextValue, ← he]
    exact h.nextValue r' hr'
  nextOp o ho := by
    have hid := List.mem_map_of_mem (f := fun o : Operation => o.id) ho
    rw [map_id_of_defines ht.defines] at hid
    obtain ⟨o', ho', he⟩ := List.mem_map.1 hid
    rw [ht.nextOp, ← he]
    exact h.nextOp o' ho'
  free := by
    rw [ht.nextValue, ht.nextOp]
    exact h.free

/-- A block with other operations and outputs. -/
def Block.rewired (b : Block) (ops : List Operation) (outputs : List ValueId) : Block :=
  { b with operations := ops, outputs := outputs }

section Rewired

variable (b : Block) (ops : List Operation) (outputs : List ValueId)

@[simp] theorem Block.rewired_inputs : (b.rewired ops outputs).inputs = b.inputs := rfl

@[simp] theorem Block.rewired_operations : (b.rewired ops outputs).operations = ops := rfl

@[simp] theorem Block.rewired_outputs : (b.rewired ops outputs).outputs = outputs := rfl

@[simp] theorem Block.rewired_values : (b.rewired ops outputs).values = b.values := rfl

@[simp] theorem Block.rewired_type? (v : ValueId) : (b.rewired ops outputs).type? v = b.type? v := rfl

@[simp] theorem Block.rewired_value? (v : ValueId) : (b.rewired ops outputs).value? v = b.value? v := rfl

@[simp] theorem Block.rewired_rewired (ops' : List Operation) (outputs' : List ValueId) :
    (b.rewired ops outputs).rewired ops' outputs' = b.rewired ops' outputs' := rfl

end Rewired

/-- Blocks with other operands and kinds. -/
theorem Block.Sound.rewire {b : Block} (hs : b.Sound) {ops : List Operation} {outputs : List ValueId}
    (hsame : ops.map (·.defines) = b.operations.map (·.defines)) (hscope : Scoped b.inputs ops)
    (houts : ∀ v ∈ outputs, v ∈ b.defined) : (b.rewired ops outputs).Sound := by
  have hr : (b.rewired ops outputs).Registered := hs.registered.of_defines rfl hsame rfl
  refine ⟨hr.sorted, hs.names, hr.definedOnce, hr.recorded, hr.opsOnce, hscope, fun v hv => ?_⟩
  rw [Block.defined_eq, Block.rewired_operations, results_of_defines hsame]
  exact houts v hv

/-- Operands, kinds and outputs may change as long as operations define the same and read what is in scope. -/
theorem Coherent.rewire [IdSpace] {s : Editor} (h : Coherent s) {ops : List Operation} {outputs : List ValueId}
    {users : Table ValueId (List OpId)} (hsame : ops.map (·.defines) = s.block.operations.map (·.defines))
    (hscope : Scoped s.block.inputs ops) (houts : ∀ v ∈ outputs, v ∈ s.block.defined)
    (husers : ∀ value op, op ∈ UseIndex.usersIn users value ↔ ∃ o ∈ ops, o.id = op ∧ value ∈ o.inputs)
    (honce : ∀ value, (UseIndex.usersIn users value).Nodup) :
    Coherent ⟨s.block.rewired ops outputs, { s.index with users := users }⟩ := by
  have ha : Anchored ⟨s.block.rewired ops outputs, { s.index with users := users }⟩ :=
    h.anchored.of_sameDefinitions ⟨rfl, hsame, rfl, rfl, rfl, rfl, rfl, rfl⟩
  exact ⟨h.sound.rewire hsame hscope houts,
    ⟨⟨ha.positions, ha.producers, husers, honce, ha.inputs⟩, h.agrees.names, ha.nextValue, ha.nextOp, ha.free⟩⟩

/-- One operation gets other operands. -/
theorem Coherent.rewireOp [IdSpace] {s : Editor} (h : Coherent s) {l r : List Operation} {o : Operation} {ins : List ValueId}
    (heq : s.block.operations = l ++ o :: r) (hins : ∀ v ∈ ins, v ∈ s.block.inputs ++ results l)
    {users : Table ValueId (List OpId)}
    (husers : ∀ value op, op ∈ UseIndex.usersIn users value ↔
      (op = o.id ∧ value ∈ ins) ∨ (op ≠ o.id ∧ op ∈ s.index.usersOf value))
    (honce : ∀ value, (UseIndex.usersIn users value).Nodup) :
    Coherent ⟨s.block.rewired (l ++ { o with inputs := ins } :: r) s.block.outputs,
      { s.index with users := users }⟩ := by
  have hscope := h.sound.scopes
  rw [heq, scoped_append] at hscope
  have hnd := h.sound.opsOnce
  rw [heq] at hnd
  refine h.rewire (by rw [heq]; simp [Operation.defines]) (scoped_append.2 ⟨hscope.1, hins, hscope.2.2⟩)
    h.sound.outputsDefined (fun value op => ?_) honce
  rw [husers, h.agrees.users, heq]
  constructor
  · rintro (⟨rfl, hv⟩ | ⟨hne, o', ho', rfl, hv⟩)
    · exact ⟨{ o with inputs := ins }, by simp, rfl, hv⟩
    · have hmem : o' ∈ l ++ { o with inputs := ins } :: r := by
        simp only [List.mem_append, List.mem_cons] at ho' ⊢
        rcases ho' with h1 | rfl | h1
        · exact .inl h1
        · exact absurd rfl hne
        · exact .inr (.inr h1)
      exact ⟨o', hmem, rfl, hv⟩
  · rintro ⟨o', ho', rfl, hv⟩
    have hother : ∀ p ∈ l ++ r, p.id ≠ o.id := (nodup_ids_middle.1 hnd).1
    simp only [List.mem_append, List.mem_cons] at ho'
    rcases ho' with h1 | rfl | h1
    · exact .inr ⟨hother o' (List.mem_append_left _ h1), o', by simp [h1], rfl, hv⟩
    · exact .inl ⟨rfl, hv⟩
    · exact .inr ⟨hother o' (List.mem_append_right _ h1), o', by simp [h1], rfl, hv⟩

/-! ## Names -/

theorem Block.Sound.rename {b : Block} (hs : b.Sound) {id : ValueId} {name : String}
    (hfree : name ∉ b.values.map (·.name)) : (b.setName id name).Sound := by
  have hreg : (b.setName id name).Registered := hs.registered.of_defines rfl rfl (b.map_id_setName id name)
  refine ⟨hreg.sorted, ?_, hreg.definedOnce, hreg.recorded, hreg.opsOnce, hs.scopes, hs.outputsDefined⟩
  -- the renamed record is the only one with its id, so no other gets the new name
  have hnd : (b.values.map (·.id)).Nodup := Block.idsNodup hs.sorted
  rw [Block.setName, Records.modify, List.map_map, List.Nodup, List.pairwise_map]
  have hboth : b.values.Pairwise fun r s => r.id ≠ s.id ∧ r.name ≠ s.name ∧ r.name ≠ name ∧ s.name ≠ name := by
    have hfresh : ∀ r ∈ b.values, r.name ≠ name := fun r hr he => hfree (List.mem_map.2 ⟨r, hr, he⟩)
    refine (List.pairwise_map.1 hnd).imp_of_mem ?_ |>.and ((List.pairwise_map.1 hs.names).imp_of_mem ?_)
    · exact fun _ _ h => h
    · exact fun hr hs' h => ⟨h, hfresh _ hr, hfresh _ hs'⟩
  refine hboth.imp ?_
  rintro r s ⟨hid, hname, hr, hs'⟩
  simp only [Function.comp]
  split
  · split
    · rename_i h1 h2
      exact absurd (h1.trans h2.symm) hid
    · exact hs'.symm
  · split
    · exact hr
    · exact hname

theorem Coherent.rename [IdSpace] {s : Editor} (h : Coherent s) {id : ValueId} {r : Value} {name : String}
    (hr : s.block.value? id = some r) (hfree : name ∉ s.block.values.map (·.name)) :
    Coherent ⟨s.block.setName id name, { s.index with names := (s.index.names.remove r.name).put name id }⟩ := by
  obtain ⟨hmem, hid⟩ := Block.mem_of_value? hr
  subst hid
  have hnd := Block.idsNodup h.sound.sorted
  have ha : Anchored ⟨s.block.setName r.id name, { s.index with names := (s.index.names.remove r.name).put name r.id }⟩ :=
    h.anchored.of_sameDefinitions ⟨rfl, rfl, s.block.map_id_setName r.id name, rfl, rfl, rfl, rfl, rfl⟩
  refine ⟨h.sound.rename hfree, ⟨⟨ha.positions, ha.producers, h.agrees.users, h.agrees.usersOnce, ha.inputs⟩, fun n v => ?_,
    ha.nextValue, ha.nextOp, ha.free⟩⟩
  show ((s.index.names.remove r.name).put name r.id).get? n = some v ↔ _
  have hnames := h.agrees.names n v
  rw [UseIndex.named?] at hnames
  rw [Table.get?_put, Table.get?_remove]
  simp only [Block.setName, Records.modify, List.mem_map]
  by_cases hn : n = name
  · subst hn
    simp only [if_true, Option.some.injEq]
    constructor
    · rintro rfl
      exact ⟨{ r with name := n }, ⟨r, hmem, by simp⟩, rfl, rfl⟩
    · rintro ⟨t, ⟨u, hu, rfl⟩, htn, rfl⟩
      split at htn
      · rename_i he
        simp [he]
      · exact absurd (List.mem_map.2 ⟨u, hu, htn⟩) hfree
  · rw [if_neg hn]
    by_cases hrn : n = r.name
    · subst hrn
      simp only [if_true, reduceCtorEq, false_iff]
      rintro ⟨t, ⟨u, hu, rfl⟩, htn, _⟩
      split at htn
      · exact hn htn.symm
      · rename_i hne
        exact hne (congrArg (·.id) (List.inj_on_of_nodup_map h.sound.names hu hmem htn))
    · rw [if_neg hrn, hnames]
      constructor
      · rintro ⟨u, hu, hun, huv⟩
        have hne : u.id ≠ r.id := fun he => hrn (by rw [← hun, List.inj_on_of_nodup_map hnd hu hmem he])
        exact ⟨u, ⟨u, hu, by simp [hne]⟩, hun, huv⟩
      · rintro ⟨t, ⟨u, hu, rfl⟩, htn, htv⟩
        split at htn
        · exact absurd htn.symm hn
        · rename_i hne
          simp only [hne, if_false] at htv
          exact ⟨u, hu, htn, htv⟩

/-! ## Insertion -/

/-- The records of new values. -/
def newRecords (ids : List ValueId) (outputs : List (String × TensorType)) : List Value :=
  (ids.zip outputs).map fun (id, name, type) => ⟨id, name, type⟩

section NewRecords

variable {ids : List ValueId} {outputs : List (String × TensorType)} (hlen : ids.length = outputs.length)

include hlen

theorem map_id_newRecords : (newRecords ids outputs).map (·.id) = ids := by
  rw [newRecords, List.map_map]
  exact List.map_fst_zip hlen.le

theorem map_name_newRecords : (newRecords ids outputs).map (·.name) = outputs.map (·.1) := by
  rw [newRecords, List.map_map]
  have h := congrArg (List.map Prod.fst) (List.map_snd_zip hlen.ge)
  rw [List.map_map] at h
  exact h

end NewRecords

/-- Records of larger ids go to the end. -/
theorem foldl_upsert {b : Block} {ids : List ValueId} {outputs : List (String × TensorType)}
    (hlarge : ∀ r ∈ b.values, ∀ id ∈ ids, r.id.index < id.index) (hsorted : ids.Pairwise (·.index < ·.index)) :
    (ids.zip outputs).foldl (fun b (id, name, type) => b.upsertValue ⟨id, name, type⟩) b =
      { b with values := b.values ++ newRecords ids outputs } := by
  induction ids generalizing b outputs with
  | nil => simp [newRecords]
  | cons id ids ih =>
    cases outputs with
    | nil => simp [newRecords]
    | cons o outputs =>
      rw [List.pairwise_cons] at hsorted
      have hup : b.upsertValue ⟨id, o.1, o.2⟩ = { b with values := b.values ++ [⟨id, o.1, o.2⟩] } := by
        rw [Block.upsertValue, Records.upsert_eq_append fun s hs => hlarge s hs id List.mem_cons_self]
      rw [List.zip_cons_cons, List.foldl_cons]
      show (ids.zip outputs).foldl _ (b.upsertValue ⟨id, o.1, o.2⟩) = _
      rw [hup, ih (fun r hr i hi => ?_) hsorted.2]
      · simp [newRecords]
      · rcases List.mem_append.1 hr with hr | hr
        · exact hlarge r hr i (List.mem_cons_of_mem _ hi)
        · rw [List.mem_singleton.1 hr]
          exact hsorted.1 i hi

section Insert

variable {s : Editor} {l r : List Operation} {new : Operation} {outputs : List (String × TensorType)}

/-- The block after the insertion of an operation. -/
def Block.withOp (b : Block) (l r : List Operation) (new : Operation) (outputs : List (String × TensorType)) : Block :=
  { b with values := b.values ++ newRecords new.outputs outputs, operations := l ++ new :: r }

theorem Block.type?_withOp {b : Block} (hs : b.Sound) {v : ValueId} (hv : v ∈ b.defined) :
    (b.withOp l r new outputs).type? v = b.type? v := by
  obtain ⟨t, ht⟩ := hs.exists_value hv
  have hvalue : (b.withOp l r new outputs).value? v = b.value? v := by
    rw [Block.value?, Records.find?, Block.withOp, List.find?_append]
    rw [Block.value?, Records.find?] at ht
    rw [ht, Block.value?, Records.find?, ht]
    rfl
  rw [Block.type?, hvalue, Block.type?]

theorem Block.mem_operations_withOp {b : Block} (heq : b.operations = l ++ r) {o : Operation} :
    o ∈ (b.withOp l r new outputs).operations ↔ o = new ∨ o ∈ b.operations := by
  rw [heq, Block.withOp]
  simp only [List.mem_append, List.mem_cons]
  tauto

theorem Block.mem_defined_withOp {b : Block} (heq : b.operations = l ++ r) {v : ValueId} :
    v ∈ (b.withOp l r new outputs).defined ↔ v ∈ b.defined ∨ v ∈ new.outputs := by
  rw [Block.defined_eq, Block.defined_eq, heq]
  simp only [Block.withOp, results_append, results_cons, List.mem_append]
  tauto

theorem Block.Registered.insert {b : Block} (hb : b.Registered) (heq : b.operations = l ++ r)
    (hlen : new.outputs.length = outputs.length) (hid : new.id ∉ b.operations.map (·.id))
    (hlarge : ∀ t ∈ b.values, ∀ v ∈ new.outputs, t.id.index < v.index)
    (hsorted : new.outputs.Pairwise (·.index < ·.index)) : (b.withOp l r new outputs).Registered := by
  have hnew : ∀ v ∈ new.outputs, v ∉ b.defined := fun v hv hdef => by
    obtain ⟨t, ht, he⟩ := List.mem_map.1 ((hb.recorded v).1 hdef)
    have := hlarge t ht v hv
    rw [he] at this
    exact lt_irrefl _ this
  have hnd : new.outputs.Nodup := hsorted.imp fun h he => by rw [he] at h; exact lt_irrefl _ h
  refine ⟨?_, ?_, fun v => ?_, ?_⟩
  · refine List.pairwise_append.2 ⟨hb.sorted, ?_, fun t ht u hu => ?_⟩
    · refine (List.pairwise_map (f := fun r : Value => r.id) (R := fun r s => r.index < s.index)).1 ?_
      rw [map_id_newRecords hlen]
      exact hsorted
    · have hu' : u.id ∈ new.outputs := by
        rw [← map_id_newRecords hlen]
        exact List.mem_map_of_mem (f := fun r : Value => r.id) hu
      exact hlarge t ht u.id hu'
  · have hperm : (b.withOp l r new outputs).defined.Perm (b.defined ++ new.outputs) := by
      rw [Block.defined_eq, Block.defined_eq, heq]
      simp only [Block.withOp, results_append, results_cons, List.append_assoc]
      exact (List.Perm.append_left _ (List.Perm.append_left _ List.perm_append_comm))
    rw [hperm.nodup_iff, List.nodup_append]
    exact ⟨hb.definedOnce, hnd, fun a ha c hc he => hnew c hc (he ▸ ha)⟩
  · rw [Block.mem_defined_withOp heq, hb.recorded]
    show _ ↔ v ∈ (b.values ++ newRecords new.outputs outputs).map (·.id)
    rw [List.map_append, map_id_newRecords hlen, List.mem_append]
  · show ((l ++ new :: r).map (·.id)).Nodup
    have := hb.opsOnce
    rw [heq] at this hid
    exact nodup_ids_middle.2 ⟨fun p hp he => hid (he ▸ List.mem_map_of_mem (f := (·.id)) hp), this⟩

theorem Block.Sound.insert {b : Block} (hs : b.Sound) (heq : b.operations = l ++ r)
    (hlen : new.outputs.length = outputs.length) (hins : ∀ v ∈ new.inputs, v ∈ b.inputs ++ results l)
    (hid : new.id ∉ b.operations.map (·.id)) (hlarge : ∀ t ∈ b.values, ∀ v ∈ new.outputs, t.id.index < v.index)
    (hsorted : new.outputs.Pairwise (·.index < ·.index)) (hnames : (outputs.map (·.1)).Nodup)
    (hfree : ∀ name ∈ outputs.map (·.1), name ∉ b.values.map (·.name)) : (b.withOp l r new outputs).Sound := by
  have hreg : (b.withOp l r new outputs).Registered := hs.registered.insert heq hlen hid hlarge hsorted
  have hscope := hs.scopes
  rw [heq, scoped_append] at hscope
  refine ⟨hreg.sorted, ?_, hreg.definedOnce, hreg.recorded, hreg.opsOnce, ?_, fun v hv => ?_⟩
  · show ((b.values ++ newRecords new.outputs outputs).map (·.name)).Nodup
    rw [List.map_append, map_name_newRecords hlen, List.nodup_append]
    exact ⟨hs.names, hnames, fun a ha c hc he => hfree c hc (he ▸ ha)⟩
  · exact scoped_append.2 ⟨hscope.1, hins, hscope.2.mono fun v hv => List.mem_append_left _ hv⟩
  · exact (Block.mem_defined_withOp heq).2 (.inl (hs.outputsDefined v hv))

/-- The position of an entry after an insertion. -/
def movedDown (pos p : Nat) : Nat :=
  if pos ≤ p then p + 1 else p

theorem getElem?_middle_self {l r : List OpId} {new : OpId} (hnot : new ∉ l ++ r) {pos : Nat} :
    (l ++ new :: r)[pos]? = some new ↔ pos = l.length := by
  constructor
  · intro hget
    rw [List.getElem?_append] at hget
    split at hget
    · exact absurd (List.mem_append_left _ (List.mem_of_getElem? hget)) hnot
    · rename_i hle
      cases hk : pos - l.length with
      | zero => omega
      | succ k =>
        rw [hk, List.getElem?_cons_succ] at hget
        exact absurd (List.mem_append_right _ (List.mem_of_getElem? hget)) hnot
  · rintro rfl
    simp

theorem getElem?_middle {l r : List OpId} {o new : OpId} (hne : o ≠ new) {pos : Nat} :
    (l ++ new :: r)[pos]? = some o ↔ ∃ p, (l ++ r)[p]? = some o ∧ movedDown l.length p = pos := by
  constructor
  · intro hget
    rw [List.getElem?_append] at hget
    split at hget
    · rename_i hlt
      exact ⟨pos, by rw [List.getElem?_append_left hlt]; exact hget, by rw [movedDown, if_neg (by omega)]⟩
    · rename_i hle
      cases hk : pos - l.length with
      | zero =>
        rw [hk, List.getElem?_cons_zero, Option.some.injEq] at hget
        exact absurd hget.symm hne
      | succ k =>
        rw [hk, List.getElem?_cons_succ] at hget
        refine ⟨l.length + k, ?_, by rw [movedDown, if_pos (by omega)]; omega⟩
        rw [List.getElem?_append_right (by omega), Nat.add_sub_cancel_left]
        exact hget
  · rintro ⟨p, hp, rfl⟩
    rw [movedDown]
    rw [List.getElem?_append] at hp
    split at hp
    · rename_i hlt
      rw [if_neg (by omega), List.getElem?_append_left hlt]
      exact hp
    · rename_i hle
      rw [if_pos (by omega), List.getElem?_append_right (by omega), show p + 1 - l.length = p - l.length + 1 by omega,
        List.getElem?_cons_succ]
      exact hp

theorem get?_shiftDown (positions : Table OpId Nat) (pos : Nat) (op : OpId) :
    Table.get? (UseIndex.shiftDown positions pos) op =
      (positions.get? op).map fun p => if pos ≤ p then p + 1 else p :=
  Table.get?_map_snd (fun p => if pos ≤ p then p + 1 else p) positions op

theorem get?_shiftUp (positions : Table OpId Nat) (pos : Nat) (op : OpId) :
    Table.get? (UseIndex.shiftUp positions pos) op =
      (positions.get? op).map fun p => if pos < p then p - 1 else p :=
  Table.get?_map_snd (fun p => if pos < p then p - 1 else p) positions op

theorem get?_foldl_putNames {pairs : List (ValueId × String)} {t : Table String ValueId} {name : String} {v : ValueId}
    (hnd : (pairs.map (·.2)).Nodup) (hfree : ∀ p ∈ pairs, t.get? p.2 = none) :
    (pairs.foldl (fun names (id, name) => names.put name id) t).get? name = some v ↔
      t.get? name = some v ∨ (v, name) ∈ pairs := by
  induction pairs generalizing t with
  | nil => simp
  | cons p pairs ih =>
    obtain ⟨id, n⟩ := p
    rw [List.map_cons, List.nodup_cons] at hnd
    have hput : ∀ q ∈ pairs, (t.put n id).get? q.2 = none := fun q hq => by
      have hne : q.2 ≠ n := fun he => hnd.1 (he ▸ List.mem_map_of_mem (f := (·.2)) hq)
      rw [Table.get?_put, if_neg hne]
      exact hfree q (List.mem_cons_of_mem _ hq)
    rw [List.foldl_cons, ih hnd.2 hput, Table.get?_put]
    by_cases hn : name = n
    · subst hn
      have hnone : t.get? name = none := hfree (id, name) List.mem_cons_self
      simp [hnone, eq_comm]
    · simp [hn]

/-- The index after the insertion of an operation. -/
def UseIndex.withOp (x : UseIndex) (pos : Nat) (new : Operation) (names : List String) : UseIndex :=
  { x with
    positions := (shiftDown x.positions pos).put new.id pos
    producers := new.outputs.foldl (·.put · new.id) x.producers
    names := (new.outputs.zip names).foldl (fun names (id, name) => names.put name id) x.names
    users := addUsers x.users new.id new.inputs
    nextValue := x.nextValue + names.length
    nextOp := x.nextOp + 1 }

/-- The operation that comes in next. -/
def Editor.newOp (s : Editor) (kind : OpKind) (inputs : List ValueId) (count : Nat) : Operation :=
  ⟨⟨s.index.nextOp⟩, kind, inputs, (List.range' s.index.nextValue count).map ValueId.mk⟩

/-- There are ids for an operation with `count` outputs. -/
def Editor.HasRoom [IdSpace] (s : Editor) (count : Nat) : Prop :=
  IdSpace.admits (s.index.nextValue + count) ∧ IdSpace.admits (s.index.nextOp + 1)

section NewOp

variable {kind : OpKind} {inputs : List ValueId} {count : Nat}

theorem length_newOp_outputs : (s.newOp kind inputs count).outputs.length = count := by
  simp [Editor.newOp]

theorem newOp_outputs_sorted : (s.newOp kind inputs count).outputs.Pairwise (·.index < ·.index) := by
  rw [Editor.newOp, List.pairwise_map]
  exact List.pairwise_lt_range' ..

variable [IdSpace]

theorem Anchored.lt_newOp_outputs (h : Anchored s) {t : Value} (ht : t ∈ s.block.values) {v : ValueId}
    (hv : v ∈ (s.newOp kind inputs count).outputs) : t.id.index < v.index := by
  obtain ⟨i, hi, rfl⟩ := List.mem_map.1 hv
  exact lt_of_lt_of_le (h.nextValue t ht) (List.mem_range'_1.1 hi).1

theorem Anchored.newOp_id (h : Anchored s) : (s.newOp kind inputs count).id ∉ s.block.operations.map (·.id) := by
  intro hmem
  obtain ⟨p, hp, he⟩ := List.mem_map.1 hmem
  have := h.nextOp p hp
  rw [he] at this
  exact lt_irrefl _ this

theorem Anchored.newOp_outputs (h : Anchored s) {v : ValueId} (hv : v ∈ (s.newOp kind inputs count).outputs) :
    v ∉ s.block.defined := by
  intro hdef
  obtain ⟨t, ht, rfl⟩ := List.mem_map.1 ((h.registered.recorded v).1 hdef)
  exact lt_irrefl _ (h.lt_newOp_outputs ht hv)

theorem Coherent.lt_newOp_outputs (h : Coherent s) {t : Value} (ht : t ∈ s.block.values) {v : ValueId}
    (hv : v ∈ (s.newOp kind inputs count).outputs) : t.id.index < v.index :=
  h.anchored.lt_newOp_outputs ht hv

theorem Coherent.newOp_id (h : Coherent s) : (s.newOp kind inputs count).id ∉ s.block.operations.map (·.id) :=
  h.anchored.newOp_id

theorem Coherent.nextValue_new (h : Coherent s) : (⟨s.index.nextValue⟩ : ValueId) ∉ s.block.defined := by
  intro hdef
  obtain ⟨t, ht, he⟩ := List.mem_map.1 ((h.sound.recorded _).1 hdef)
  have hlt := h.agrees.nextValue t ht
  rw [he] at hlt
  exact lt_irrefl _ hlt

end NewOp

/-- What concerns definitions stays right whatever the new operation reads and its results are called. -/
theorem Anchored.insert [IdSpace] (h : Anchored s) (heq : s.block.operations = l ++ r) (kind : OpKind) (inputs : List ValueId)
    (outputs : List (String × TensorType)) (hroom : s.HasRoom outputs.length) :
    Anchored ⟨s.block.withOp l r (s.newOp kind inputs outputs.length) outputs,
      s.index.withOp l.length (s.newOp kind inputs outputs.length) (outputs.map (·.1))⟩ := by
  have hlen : (s.newOp kind inputs outputs.length).outputs.length = outputs.length := length_newOp_outputs
  have hnot : (s.newOp kind inputs outputs.length).id ∉ s.block.operations.map (·.id) := h.newOp_id
  have hnewdef : ∀ v ∈ (s.newOp kind inputs outputs.length).outputs, ∀ o ∈ s.block.operations, v ∉ o.outputs :=
    fun v hv o ho hvo => h.newOp_outputs hv (Block.mem_defined.2 (.inr ⟨o, ho, hvo⟩))
  have hout : ∀ v ∈ (s.newOp kind inputs outputs.length).outputs, v.index < s.index.nextValue + outputs.length := by
    intro v hv
    obtain ⟨i, hi, rfl⟩ := List.mem_map.1 hv
    exact (List.mem_range'_1.1 hi).2
  have hid : (s.newOp kind inputs outputs.length).id.index = s.index.nextOp := rfl
  have hreg := h.registered.insert heq hlen hnot (fun t ht v hv => h.lt_newOp_outputs ht hv) newOp_outputs_sorted
  generalize s.newOp kind inputs outputs.length = new at *
  refine ⟨hreg, fun o pos => ?_, fun value o => ?_, h.inputs, fun t ht => ?_, fun o ho => ?_, ?_⟩
  · show ((UseIndex.shiftDown s.index.positions l.length).put new.id l.length).get? o = some pos ↔
      ((l ++ new :: r).map (·.id))[pos]? = some o
    have hpos := h.positions
    simp only [UseIndex.position?, heq] at hpos
    rw [heq, List.map_append] at hnot
    rw [Table.get?_put, get?_shiftDown, List.map_append, List.map_cons]
    by_cases ho : o = new.id
    · subst ho
      rw [if_pos rfl, Option.some.injEq, getElem?_middle_self hnot, List.length_map, eq_comm]
    · rw [if_neg ho, Option.map_eq_some_iff, getElem?_middle ho]
      simp only [hpos, List.map_append, List.length_map, movedDown]
  · exact UseIndex.get?_foldl_put_iff h.producers (fun _ => Block.mem_operations_withOp heq) hnewdef value o
  · show t.id.index < s.index.nextValue + (outputs.map (·.1)).length
    rw [Block.withOp, List.mem_append] at ht
    rcases ht with ht | ht
    · have := h.nextValue t ht
      omega
    · have hmem : t.id ∈ new.outputs := by
        rw [← map_id_newRecords hlen]
        exact List.mem_map_of_mem (f := fun r : Value => r.id) ht
      simpa using hout t.id hmem
  · show o.id.index < s.index.nextOp + 1
    rcases (Block.mem_operations_withOp heq).1 ho with rfl | ho
    · omega
    · exact Nat.lt_succ_of_lt (h.nextOp o ho)
  · rw [UseIndex.withOp, List.length_map]
    exact hroom

theorem Coherent.insert [IdSpace] (h : Coherent s) (heq : s.block.operations = l ++ r) {kind : OpKind} {inputs : List ValueId}
    (hins : ∀ v ∈ inputs, v ∈ s.block.inputs ++ results l) (hnames : (outputs.map (·.1)).Nodup)
    (hfree : ∀ name ∈ outputs.map (·.1), name ∉ s.block.values.map (·.name)) (hroom : s.HasRoom outputs.length) :
    Coherent ⟨s.block.withOp l r (s.newOp kind inputs outputs.length) outputs,
      s.index.withOp l.length (s.newOp kind inputs outputs.length) (outputs.map (·.1))⟩ := by
  have hlen : (s.newOp kind inputs outputs.length).outputs.length = outputs.length := length_newOp_outputs
  have hin : ∀ v ∈ (s.newOp kind inputs outputs.length).inputs, v ∈ s.block.inputs ++ results l := hins
  have hsound := h.sound.insert heq hlen hin h.newOp_id (fun t ht v hv => h.lt_newOp_outputs ht hv) newOp_outputs_sorted
    hnames hfree
  have ha := h.anchored.insert heq kind inputs outputs hroom
  generalize s.newOp kind inputs outputs.length = new at *
  refine ⟨hsound, ⟨⟨ha.positions, ha.producers, fun value o => ?_, fun value => UseIndex.nodup_addUsers h.agrees.usersOnce,
    ha.inputs⟩, fun name v => ?_, ha.nextValue, ha.nextOp, ha.free⟩⟩
  · exact UseIndex.mem_addUsers_iff h.agrees.users (fun _ => Block.mem_operations_withOp heq) value o
  · show ((new.outputs.zip (outputs.map (·.1))).foldl (fun names (id, name) => names.put name id)
      s.index.names).get? name = some v ↔ ∃ t ∈ s.block.values ++ newRecords new.outputs outputs, _
    have hold := h.agrees.names name v
    rw [UseIndex.named?] at hold
    have hzip : (new.outputs.zip (outputs.map (·.1))).map (·.2) = outputs.map (·.1) :=
      List.map_snd_zip (by simp [hlen])
    rw [get?_foldl_putNames (by rw [hzip]; exact hnames) fun p hp => ?_, hold]
    · simp only [List.mem_append, newRecords, List.mem_map, List.zip_map_right]
      constructor
      · rintro (⟨t, ht, hrest⟩ | ⟨p, hp, he⟩)
        · exact ⟨t, .inl ht, hrest⟩
        · simp only [Prod.map, id, Prod.mk.injEq] at he
          exact ⟨_, .inr ⟨p, hp, rfl⟩, he.2, he.1⟩
      · rintro ⟨t, ht | ⟨p, hp, rfl⟩, hn, hv⟩
        · exact .inl ⟨t, ht, hn, hv⟩
        · exact .inr ⟨p, hp, Prod.ext hv hn⟩
    · have hin : p.2 ∈ outputs.map (·.1) := by
        rw [← hzip]
        exact List.mem_map_of_mem (f := (·.2)) hp
      by_contra hsome
      obtain ⟨w, hw⟩ := Option.ne_none_iff_exists'.1 hsome
      obtain ⟨t, ht, hn, _⟩ := (h.agrees.names p.2 w).1 hw
      exact hfree p.2 hin (List.mem_map.2 ⟨t, ht, hn⟩)

end Insert

/-! ## Removal -/

section Remove

variable {s : Editor} {l r : List Operation} {o : Operation}

/-- The block after the removal of an operation. -/
def Block.withoutOp (b : Block) (l r : List Operation) (o : Operation) : Block :=
  { b with values := b.values.filter (·.id ∉ o.outputs), operations := l ++ r }

theorem Block.value?_withoutOp {b : Block} {v : ValueId} (hv : v ∉ o.outputs) :
    (b.withoutOp l r o).value? v = b.value? v := by
  rw [Block.value?, Records.find?, Block.withoutOp, List.find?_filter, Block.value?, Records.find?]
  congr 1
  funext t
  by_cases ht : t.id = v
  · subst ht
    simp [hv]
  · simp [ht]

/-- Nothing reads or returns the results of an operation. -/
def Block.Dead (b : Block) (o : Operation) : Prop :=
  ∀ v ∈ o.outputs, v ∉ b.outputs ∧ ∀ p ∈ b.operations, v ∉ p.inputs

instance (b : Block) (o : Operation) : Decidable (b.Dead o) :=
  inferInstanceAs (Decidable (∀ v ∈ o.outputs, v ∉ b.outputs ∧ ∀ p ∈ b.operations, v ∉ p.inputs))

theorem Block.perm_defined_withoutOp {b : Block} (heq : b.operations = l ++ o :: r) :
    b.defined.Perm (o.outputs ++ (b.withoutOp l r o).defined) := by
  rw [Block.defined_eq, Block.defined_eq, heq]
  simp only [Block.withoutOp, results_append, results_cons]
  refine (List.Perm.append_left _ (List.perm_append_comm_assoc _ _ _)).trans ?_
  exact List.perm_append_comm_assoc _ _ _

theorem Block.Registered.mem_defined_withoutOp {b : Block} (hb : b.Registered) (heq : b.operations = l ++ o :: r)
    {v : ValueId} : v ∈ (b.withoutOp l r o).defined ↔ v ∈ b.defined ∧ v ∉ o.outputs := by
  have hnd := hb.definedOnce
  rw [(perm_defined_withoutOp heq).nodup_iff, List.nodup_append] at hnd
  rw [(perm_defined_withoutOp heq).mem_iff, List.mem_append]
  constructor
  · exact fun hv => ⟨.inr hv, fun hv' => hnd.2.2 v hv' v hv rfl⟩
  · rintro ⟨hv | hv, hnot⟩
    · exact absurd hv hnot
    · exact hv

theorem Block.Registered.remove {b : Block} (hb : b.Registered) (heq : b.operations = l ++ o :: r) :
    (b.withoutOp l r o).Registered := by
  have hnd := hb.definedOnce
  rw [(perm_defined_withoutOp heq).nodup_iff, List.nodup_append] at hnd
  refine ⟨hb.sorted.filter _, hnd.2.1, fun v => ?_, ?_⟩
  · rw [hb.mem_defined_withoutOp heq, hb.recorded]
    simp only [Block.withoutOp, List.mem_map, List.mem_filter, decide_eq_true_eq]
    constructor
    · rintro ⟨⟨t, ht, rfl⟩, hnot⟩
      exact ⟨t, ⟨ht, hnot⟩, rfl⟩
    · rintro ⟨t, ⟨ht, hnot⟩, rfl⟩
      exact ⟨⟨t, ht, rfl⟩, hnot⟩
  · have hids := hb.opsOnce
    rw [heq, nodup_ids_middle] at hids
    exact hids.2

theorem Block.Sound.remove {b : Block} (hs : b.Sound) (heq : b.operations = l ++ o :: r) (hdead : b.Dead o) :
    (b.withoutOp l r o).Sound := by
  have hreg : (b.withoutOp l r o).Registered := hs.registered.remove heq
  have hscope := hs.scopes
  rw [heq, scoped_append] at hscope
  refine ⟨hreg.sorted, hs.names.sublist (List.filter_sublist.map _), hreg.definedOnce, hreg.recorded, hreg.opsOnce, ?_,
    fun v hv => ?_⟩
  · refine scoped_append.2 ⟨hscope.1, hscope.2.2.without fun p hp v hv hin => ?_⟩
    rcases List.mem_append.1 hin with hin | hin
    · exact hin
    · exact absurd hv ((hdead v hin).2 p (by rw [heq]; simp [hp]))
  · exact (hs.registered.mem_defined_withoutOp heq).2 ⟨hs.outputsDefined v hv, fun hv' => (hdead v hv').1 hv⟩

/-- The position of an entry after a removal. -/
theorem getElem?_removed {l r : List OpId} {o n : OpId} (hne : o ≠ n) {pos : Nat} :
    (l ++ r)[pos]? = some o ↔ ∃ p, (l ++ n :: r)[p]? = some o ∧ (if l.length < p then p - 1 else p) = pos := by
  have hup : ∀ p, (if l.length < movedDown l.length p then movedDown l.length p - 1 else movedDown l.length p) = p :=
    fun p => by
      rw [movedDown]
      split <;> split <;> omega
  constructor
  · intro hget
    exact ⟨movedDown l.length pos, (getElem?_middle hne).2 ⟨pos, hget, rfl⟩, hup pos⟩
  · rintro ⟨p, hp, rfl⟩
    obtain ⟨q, hq, rfl⟩ := (getElem?_middle hne).1 hp
    rw [hup]
    exact hq

/-- What concerns definitions stays right also when the results of the operation are still read. -/
theorem Anchored.remove [IdSpace] (h : Anchored s) (heq : s.block.operations = l ++ o :: r) (names : List String) :
    Anchored ⟨s.block.withoutOp l r o, s.index.removeOp o names⟩ := by
  have hmem : o ∈ s.block.operations := by rw [heq]; simp
  have hpos : s.index.position? o.id = some l.length := (h.positions _ _).2 (by simp [heq])
  have hops := h.registered.mem_others heq
  refine ⟨h.registered.remove heq, fun o' pos => ?_, fun value o' => ?_, h.inputs, fun t ht => ?_, fun p hp => ?_,
    h.free⟩
  · show Table.get? (s.index.removeOp o names).positions o' = some pos ↔ ((l ++ r).map (·.id))[pos]? = some o'
    have hold := h.positions o'
    simp only [UseIndex.position?, heq, List.map_append, List.map_cons] at hold
    simp only [UseIndex.removeOp, hpos]
    rw [get?_shiftUp, Table.get?_remove, List.map_append]
    by_cases ho : o' = o.id
    · subst ho
      have hnot : o.id ∉ l.map (·.id) ++ r.map (·.id) := by
        rw [← List.map_append, List.mem_map]
        rintro ⟨p, hp, he⟩
        exact ((hops p).1 hp).2 he
      simp only [if_true, Option.map_none, reduceCtorEq, false_iff]
      exact fun hget => hnot (List.mem_of_getElem? hget)
    · rw [if_neg ho, Option.map_eq_some_iff, getElem?_removed (n := o.id) ho]
      simp only [hold, List.length_map]
  · show (o.outputs.foldl (·.remove ·) s.index.producers).get? value = some o' ↔
      ∃ p ∈ l ++ r, p.id = o' ∧ value ∈ p.outputs
    have hprod := h.producers value o'
    rw [UseIndex.producer?] at hprod
    simp only [hops]
    rw [Table.get?_foldl_remove]
    by_cases hv : value ∈ o.outputs
    · simp only [hv, if_true, reduceCtorEq, false_iff]
      rintro ⟨p, ⟨hp, hne⟩, rfl, hv'⟩
      exact hne (congrArg (·.id) (h.registered.producer_ext hp hmem hv' hv))
    · rw [if_neg hv, hprod]
      constructor
      · rintro ⟨p, hp, rfl, hv'⟩
        refine ⟨p, ⟨hp, fun he => hv ?_⟩, rfl, hv'⟩
        rw [← h.registered.op_ext hp hmem he]
        exact hv'
      · rintro ⟨p, ⟨hp, _⟩, hrest⟩
        exact ⟨p, hp, hrest⟩
  · exact h.nextValue t (List.mem_filter.1 ht).1
  · exact h.nextOp p ((hops p).1 hp).1

theorem Coherent.remove [IdSpace] (h : Coherent s) (heq : s.block.operations = l ++ o :: r) (hdead : s.block.Dead o) :
    Coherent ⟨s.block.withoutOp l r o, s.index.removeOp o (o.outputs.filterMap s.block.name?)⟩ := by
  have hmem : o ∈ s.block.operations := by rw [heq]; simp
  have hops := h.sound.registered.mem_others heq
  have ha := h.anchored.remove heq (o.outputs.filterMap s.block.name?)
  refine ⟨h.sound.remove heq hdead, ⟨⟨ha.positions, ha.producers, fun value o' => ?_, fun value => ?_, ha.inputs⟩,
    fun name v => ?_, ha.nextValue, ha.nextOp, ha.free⟩⟩
  · show o' ∈ UseIndex.usersIn (o.inputs.foldl (UseIndex.removeUser · · o.id)
      (o.outputs.foldl (·.remove ·) s.index.users)) value ↔ ∃ p ∈ l ++ r, p.id = o' ∧ value ∈ p.inputs
    have husers := h.agrees.users value o'
    simp only [hops]
    rw [UseIndex.mem_foldl_removeUser, UseIndex.usersIn, Table.get?_foldl_remove]
    by_cases hv : value ∈ o.outputs
    · simp only [hv, if_true, Option.getD_none, List.not_mem_nil, false_and, false_iff]
      rintro ⟨p, ⟨hp, _⟩, _, hv'⟩
      exact (hdead value hv).2 p hp hv'
    · rw [if_neg hv]
      rw [UseIndex.usersOf] at husers
      rw [husers]
      constructor
      · rintro ⟨⟨p, hp, rfl, hv'⟩, hnot⟩
        refine ⟨p, ⟨hp, fun he => hnot ⟨?_, he⟩⟩, rfl, hv'⟩
        rw [← h.sound.op_ext hp hmem he]
        exact hv'
      · rintro ⟨p, ⟨hp, hne⟩, rfl, hv'⟩
        exact ⟨⟨p, hp, rfl, hv'⟩, fun hc => hne hc.2⟩
  · refine UseIndex.nodup_foldl_removeUser fun v => ?_
    rw [UseIndex.usersIn, Table.get?_foldl_remove]
    split
    · simp
    · exact h.agrees.usersOnce v
  · show ((o.outputs.filterMap s.block.name?).foldl (·.remove ·) s.index.names).get? name = some v ↔
      ∃ t ∈ s.block.values.filter (·.id ∉ o.outputs), t.name = name ∧ t.id = v
    have hold := h.agrees.names name v
    rw [UseIndex.named?] at hold
    rw [Table.get?_foldl_remove]
    have hgone : name ∈ o.outputs.filterMap s.block.name? ↔ ∃ t ∈ s.block.values, t.id ∈ o.outputs ∧ t.name = name := by
      rw [List.mem_filterMap]
      constructor
      · rintro ⟨w, hw, hname⟩
        obtain ⟨t, ht, rfl⟩ := Option.map_eq_some_iff.1 hname
        obtain ⟨ht', rfl⟩ := Block.mem_of_value? ht
        exact ⟨t, ht', hw, rfl⟩
      · rintro ⟨t, ht, hw, rfl⟩
        exact ⟨t.id, hw, by rw [Block.name?, (Block.value?_eq_some h.sound.sorted).2 ⟨ht, rfl⟩]; rfl⟩
    by_cases hname : name ∈ o.outputs.filterMap s.block.name?
    · simp only [hname, if_true, reduceCtorEq, false_iff]
      obtain ⟨t, ht, hid, htn⟩ := hgone.1 hname
      rintro ⟨u, hu, hun, _⟩
      obtain ⟨hu, hnot⟩ := List.mem_filter.1 hu
      rw [List.inj_on_of_nodup_map h.sound.names hu ht (hun.trans htn.symm)] at hnot
      simp [hid] at hnot
    · rw [if_neg hname, hold]
      constructor
      · rintro ⟨t, ht, htn, htv⟩
        refine ⟨t, List.mem_filter.2 ⟨ht, ?_⟩, htn, htv⟩
        simp only [decide_eq_true_eq]
        exact fun hid => hname (hgone.2 ⟨t, ht, hid, htn⟩)
      · rintro ⟨t, ht, hrest⟩
        exact ⟨t, (List.mem_filter.1 ht).1, hrest⟩

end Remove

end Relayout
