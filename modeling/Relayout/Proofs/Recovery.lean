import Relayout.Proofs.Sessions

/-!
# Sessions of any edits

An edit may be given arguments that bring the index of an editor out of step with its block: an operation becomes a user of
what it does not read, or two results get one name. Yet no edit loses track of definitions. Unless it runs past the end of
the block it leaves an anchored editor anchored (`EditCall.anchored_after`), so a session of any edits that ends with an index
in step ends with a coherent editor, however it got there (`Visits.coherent`).
-/

namespace Relayout

open Editor

/-! ## Anchored editors -/

section Maintains

variable [IdSpace] {α β : Type}

/-- The edit leaves an anchored editor anchored, unless it runs past the end of the block. -/
def Maintains (x : Edit α) : Prop :=
  ∀ s, Anchored s → Ends (fun e t => e ≠ .crash .outOfBounds → Anchored t) x s fun _ t => Anchored t

theorem Maintains.bind {x : Edit α} {f : α → Edit β} (hx : Maintains x) (hf : ∀ a, Maintains (f a)) :
    Maintains (x >>= f) := by
  intro s hs
  have hend := hx s hs
  refine Ends.bind ?_
  unfold Ends at hend ⊢
  cases hrun : x.run s with
  | ok a t => rw [hrun] at hend; exact hf a t hend
  | error e t => rw [hrun] at hend; exact hend

theorem maintains_pure (a : α) : Maintains (pure a) := fun _ hs => hs

theorem maintains_throw (e : EditError) : Maintains (throw e : Edit α) := fun _ hs _ => hs

theorem maintains_get : Maintains (get : Edit Editor) := fun _ hs => hs

theorem maintains_modifyBlock {f : Block → Block} (hin : ∀ b, (f b).inputs = b.inputs)
    (hops : ∀ b, (f b).operations.map (·.defines) = b.operations.map (·.defines))
    (hids : ∀ b, (f b).values.map (·.id) = b.values.map (·.id)) : Maintains (modifyBlock f) := fun s hs =>
  ends_modifyBlock (hs.of_sameDefinitions ⟨hin s.block, hops s.block, hids s.block, rfl, rfl, rfl, rfl, rfl⟩)

theorem maintains_modifyOp (pos : Nat) {f : Operation → Operation} (hf : ∀ o, (f o).defines = o.defines) :
    Maintains (modifyOp pos f) := by
  refine maintains_modifyBlock (fun _ => rfl) (fun b => ?_) fun _ => rfl
  refine List.ext_getElem? fun i => ?_
  simp only [List.getElem?_map, List.getElem?_modify]
  cases b.operations[i]? with
  | none => split <;> rfl
  | some o =>
    split
    · exact congrArg some (hf o)
    · rfl

theorem maintains_updateIndex {step : UseIndex → Except IndexError UseIndex}
    (hstep : ∀ x y, step x = .ok y → ∃ users names, y = { x with users := users, names := names }) :
    Maintains (updateIndex step) := by
  refine fun s hs => ends_updateIndex (fun _ _ _ => hs) fun x hx => ?_
  obtain ⟨users, names, rfl⟩ := hstep _ _ hx
  exact hs.of_sameDefinitions ⟨rfl, rfl, rfl, rfl, rfl, rfl, rfl, rfl⟩

/-! ### Queries and checks -/

theorem maintains_position (op : OpId) : Maintains (position op) := by
  refine maintains_get.bind fun s => ?_
  split
  · exact maintains_pure _
  · exact maintains_throw _

theorem maintains_operation (op : OpId) : Maintains (operation op) := by
  refine (maintains_position op).bind fun pos => maintains_get.bind fun s => ?_
  split
  · exact maintains_pure _
  · exact maintains_throw _

theorem maintains_value (id : ValueId) : Maintains (value id) := by
  refine maintains_get.bind fun s => ?_
  split
  · exact maintains_pure _
  · exact maintains_throw _

theorem maintains_checkAvailable (id : ValueId) (pos : Nat) : Maintains (checkAvailable id pos) :=
  fun _ hs => ends_checkAvailable (fun _ _ _ => hs) fun _ => hs

theorem maintains_checkReplaceable (old new : ValueId) : Maintains (checkReplaceable old new) := by
  refine (maintains_value old).bind fun v => (maintains_value new).bind fun w => ?_
  dsimp only
  split
  · exact maintains_pure _
  · exact maintains_throw _

/-! ### Edits -/

theorem maintains_moveUse (op : OpId) (source target : ValueId) (used : Bool) :
    Maintains (updateIndex (·.moveUse op source target used)) := by
  refine maintains_updateIndex fun x y hy => ?_
  rw [UseIndex.moveUse] at hy
  split at hy
  · cases hy
  · exact ⟨_, _, (Except.ok.inj hy).symm⟩

theorem maintains_replaceUsesIn (op : OpId) (old new : ValueId) : Maintains (replaceUsesIn op old new) := by
  rw [replaceUsesIn]
  split
  · exact maintains_pure _
  · refine (maintains_checkReplaceable old new).bind fun _ => (maintains_position op).bind fun pos => ?_
    refine (maintains_checkAvailable new pos).bind fun _ => Maintains.bind (maintains_modifyOp pos ?_) fun _ => ?_
    · exact fun _ => rfl
    · exact maintains_moveUse op old new false

theorem maintains_replaceUsesInAll (old new : ValueId) (ops : List OpId) : Maintains (replaceUsesInAll old new ops) := by
  induction ops with
  | nil => exact maintains_pure _
  | cons op ops ih => exact (maintains_replaceUsesIn op old new).bind fun _ => ih

theorem maintains_replaceUses (old new : ValueId) : Maintains (replaceUses old new) := by
  rw [replaceUses]
  split
  · exact maintains_pure _
  · refine (maintains_checkReplaceable old new).bind fun _ => maintains_get.bind fun s => ?_
    refine (maintains_replaceUsesInAll old new _).bind fun _ => ?_
    exact maintains_modifyBlock (fun _ => rfl) (fun _ => rfl) fun _ => rfl

theorem maintains_setInput (op : OpId) (slot : Nat) (id : ValueId) : Maintains (setInput op slot id) := by
  refine (maintains_position op).bind fun pos => (maintains_value id).bind fun _ => ?_
  refine (maintains_checkAvailable id pos).bind fun _ => (maintains_operation op).bind fun o => ?_
  split
  · exact maintains_throw _
  · refine Maintains.bind (maintains_modifyOp pos ?_) fun _ => (maintains_operation op).bind fun o' => ?_
    · exact fun _ => rfl
    · exact maintains_moveUse op _ id _

theorem maintains_setOutput (slot : Nat) (id : ValueId) : Maintains (setOutput slot id) := by
  refine maintains_get.bind fun s => ?_
  dsimp only
  split
  · exact fun _ hs _ => hs
  · split
    · exact fun _ hs _ => hs
    · exact maintains_modifyBlock (fun _ => rfl) (fun _ => rfl) fun _ => rfl

theorem maintains_setKind (op : OpId) (kind : OpKind) : Maintains (setKind op kind) :=
  (maintains_position op).bind fun pos => maintains_modifyOp pos fun _ => rfl

theorem maintains_renameValue (id : ValueId) (name : String) : Maintains (renameValue id name) := by
  refine (maintains_value id).bind fun r => ?_
  dsimp only
  split
  · exact maintains_pure _
  · refine (maintains_updateIndex fun x y hy => ?_).bind fun _ => ?_
    · rw [UseIndex.rename] at hy
      split at hy
      · cases hy
      · exact ⟨_, _, (Except.ok.inj hy).symm⟩
    · exact maintains_modifyBlock (fun _ => rfl) (fun _ => rfl) fun b => b.map_id_setName id name

theorem maintains_transferName (source target : ValueId) : Maintains (transferName source target) := by
  refine (maintains_value source).bind fun r => maintains_get.bind fun s => ?_
  exact (maintains_renameValue source _).bind fun _ => maintains_renameValue target r.name

theorem maintains_setValueType (id : ValueId) (type : TensorType) : Maintains (setValueType id type) := by
  refine (maintains_value id).bind fun _ => maintains_modifyBlock (fun _ => rfl) (fun _ => rfl) fun b => ?_
  exact Records.map_id_modify (f := ({ · with type := type })) fun _ => rfl

theorem maintains_insertOp (pos : Nat) (kind : OpKind) (inputs : List ValueId) (outputs : List (String × TensorType)) :
    Maintains (insertOp pos kind inputs outputs) := by
  refine fun s hs => hs.ends_insertOp (fun _ _ _ => hs) (fun _ _ => hs) (fun _ hroom _ _ => hs.skip hroom)
    (fun _ _ hne => absurd rfl hne) ?_
  exact fun l r heq _ _ hroom _ => hs.insert heq kind inputs outputs hroom

theorem maintains_removeOp (op : OpId) : Maintains (removeOp op) := by
  refine fun s hs => hs.ends_removeOp (fun _ _ _ => hs) (fun _ _ _ _ _ _ => hs) ?_
  exact fun l o r heq _ _ => hs.remove heq _

theorem maintains_eraseIfDead (op : OpId) : Maintains (eraseIfDead op) := by
  refine (maintains_operation op).bind fun o => maintains_get.bind fun s => ?_
  split
  · exact maintains_pure _
  · exact (maintains_removeOp op).bind fun _ => maintains_pure _

end Maintains

/-! ## Sessions -/

namespace EditCall

theorem maintains_run [IdSpace] (call : EditCall) : Maintains call.run := by
  cases call with
  | replaceUses old new => exact maintains_replaceUses old new
  | replaceUsesIn op old new => exact maintains_replaceUsesIn op old new
  | setInput op slot id => exact maintains_setInput op slot id
  | setOutput slot id => exact maintains_setOutput slot id
  | setKind op kind => exact maintains_setKind op kind
  | renameValue id name => exact maintains_renameValue id name
  | transferName source target => exact maintains_transferName source target
  | setValueType id type => exact maintains_setValueType id type
  | insertBefore next kind inputs outputs =>
    exact ((maintains_position next).bind fun _ => maintains_insertOp _ kind inputs outputs).bind fun _ => maintains_pure _
  | append kind inputs outputs =>
    exact (maintains_get.bind fun _ => maintains_insertOp _ kind inputs outputs).bind fun _ => maintains_pure _
  | insertOp pos kind inputs outputs =>
    exact (maintains_insertOp pos kind inputs outputs).bind fun _ => maintains_pure _
  | removeOp op => exact maintains_removeOp op
  | eraseIfDead op => exact (maintains_eraseIfDead op).bind fun _ => maintains_pure _

/-- The edit does not run past the end of the block. -/
def lands [IdSpace] (call : EditCall) (s : Editor) : Bool :=
  match call.run.run s with
  | .error (.crash .outOfBounds) _ => false
  | _ => true

theorem anchored_after [IdSpace] {s : Editor} (h : Anchored s) {call : EditCall} (hl : call.lands s) :
    Anchored (call.after s) := by
  have hend := call.maintains_run s h
  rw [Ends] at hend
  rw [lands] at hl
  rw [after]
  cases hrun : call.run.run s with
  | ok a t => rw [hrun] at hend; exact hend
  | error e t =>
    rw [hrun] at hend hl
    refine hend fun he => ?_
    subst he
    cases hl

end EditCall

/-- Editors that a session of any edits leads to. -/
inductive Visits [IdSpace] (s : Editor) : Editor → Prop where
  | start : Visits s s
  | step {t : Editor} {call : EditCall} : Visits s t → call.lands t → Visits s (call.after t)

theorem Visits.anchored [IdSpace] {s t : Editor} (h : Visits s t) (hs : Anchored s) : Anchored t := by
  induction h with
  | start => exact hs
  | step _ hl ih => exact EditCall.anchored_after ih hl

/-! ## What an index in step says of the block -/

namespace UseIndex

theorem nodup_of_addNames {records : List Value} {names names' : Table String ValueId}
    (h : addNames records names = .ok names') :
    (records.map (·.name)).Nodup ∧ ∀ r ∈ records, names.contains r.name = false := by
  induction records generalizing names with
  | nil => simp
  | cons r records ih =>
    rw [addNames] at h
    split at h
    · cases h
    · rename_i hfree
      obtain ⟨hnd, hrest⟩ := ih h
      have hput : ∀ t ∈ records, t.name ≠ r.name ∧ names.contains t.name = false := fun t ht => by
        have := hrest t ht
        rw [Table.contains, Table.get?_put] at this
        split at this
        · cases this
        · rename_i hne
          exact ⟨hne, this⟩
      refine ⟨List.nodup_cons.2 ⟨fun hmem => ?_, hnd⟩, List.forall_mem_cons.2 ⟨by simpa using hfree, fun t ht => (hput t ht).2⟩⟩
      obtain ⟨t, ht, he⟩ := List.mem_map.1 hmem
      exact (hput t ht).1 he

theorem Underway.scoped {b : Block} {inputs : List ValueId} {before after : List Operation} {x y : UseIndex}
    (h : Underway b inputs before after x) (hrun : UseIndex.addOps b before.length after x = .ok y) :
    Scoped (inputs ++ results before) after ∧ y.Covers inputs (before ++ after) := by
  induction after generalizing before x with
  | nil =>
    obtain rfl := Except.ok.inj hrun
    exact ⟨trivial, by simpa using h.covers⟩
  | cons op after ih =>
    rw [UseIndex.addOps] at hrun
    obtain ⟨x', hop, hrest⟩ := bind_eq_ok.1 hrun
    have hscope : ∀ id ∈ op.inputs, id ∈ inputs ++ results before := by
      rw [addOp] at hop
      split at hop
      · cases hop
      · split at hop
        · cases hop
        · rename_i hfind
          intro id hid
          have hdef := List.find?_eq_none.1 hfind id hid
          exact h.covers.isDefined.1 (by simpa using hdef)
    obtain ⟨x'', hop', hunderway, _⟩ := h.step hscope
    obtain rfl := Except.ok.inj (hop.symm.trans hop')
    obtain ⟨hscoped, hcovers⟩ := ih hunderway (by rw [List.length_append]; exact hrest)
    exact ⟨⟨hscope, by simpa using hscoped⟩, by simpa using hcovers⟩

end UseIndex

/-- A block of which an index can be built is sound, if what it defines is registered. -/
theorem Block.Registered.sound_of_build [IdSpace] {b : Block} (hb : b.Registered) {x : UseIndex}
    (hx : UseIndex.build b = .ok x) : b.Sound := by
  rw [UseIndex.build] at hx
  obtain ⟨names, hnames, hx⟩ := bind_eq_ok.1 hx
  obtain ⟨y, hinputs, hx⟩ := bind_eq_ok.1 hx
  obtain ⟨z, hops, hend⟩ := bind_eq_ok.1 hx
  rw [UseIndex.addInputs_ok rfl (by simpa using (List.nodup_append.1 hb.definedOnce).1)
    fun id hid => (hb.recorded id).1 (List.mem_append_left _ hid)] at hinputs
  obtain rfl := Except.ok.inj hinputs
  obtain ⟨hscoped, hcovers⟩ := (UseIndex.Underway.start hb).scoped hops
  refine ⟨hb.sorted, (UseIndex.nodup_of_addNames hnames).1, hb.definedOnce, hb.recorded, hb.opsOnce, by simpa using hscoped,
    fun id hid => ?_⟩
  split at hend
  · cases hend
  · rename_i hfind
    have hdef := List.find?_eq_none.1 hfind id hid
    exact hcovers.isDefined.1 (by simpa using hdef)

/-- The index of an editor says what one that is built anew says. -/
def Editor.InStep [IdSpace] (s : Editor) : Prop :=
  ∃ x, UseIndex.build s.block = .ok x ∧ s.index.Matches x

theorem Coherent.inStep [IdSpace] {s : Editor} (h : Coherent s) : s.InStep := by
  obtain ⟨x, hx, hagrees⟩ := UseIndex.exists_build h.sound h.agrees.hasFreeIds
  exact ⟨x, hx, h.agrees.matches hagrees⟩

theorem Anchored.coherent [IdSpace] {s : Editor} (h : Anchored s) (hin : s.InStep) : Coherent s := by
  obtain ⟨x, hx, hmatches⟩ := hin
  have hsound := h.registered.sound_of_build hx
  have hids : s.block.HasFreeIds :=
    ⟨fun r hr => IdSpace.admits_of_le (h.nextValue r hr) h.free.1, fun o ho => IdSpace.admits_of_le (h.nextOp o ho) h.free.2⟩
  obtain ⟨y, hy, hagrees⟩ := UseIndex.exists_build hsound hids
  obtain rfl := Except.ok.inj (hx.symm.trans hy)
  refine ⟨hsound, ⟨⟨h.positions, h.producers, fun value op => ?_, fun value => (hmatches.usersOnce value).1, h.inputs⟩,
    fun name value => ?_, h.nextValue, h.nextOp, h.free⟩⟩
  · exact (hmatches.users value op).trans (hagrees.users value op)
  · rw [hmatches.names]
    exact hagrees.names name value

/-- A session of any edits of a block that passes the check ends with a coherent editor, if its index is in step then. -/
theorem Visits.coherent [IdSpace] {b : Block} (hc : b.check = .ok ()) {s t : Editor} (hs : Editor.ofBlock b = .ok s)
    (ht : Visits s t) (hin : t.InStep) : Coherent t := by
  have hcoherent := ((Block.check_eq_ok.1 hc).1.ofBlock_eq_ok hs).2
  exact (ht.anchored hcoherent.anchored).coherent hin

end Relayout
