import Relayout.Proofs.Edits
import Relayout.Proofs.Retyping

/-!
# Editing sessions

A session is any number of edits of one block, with any arguments; each of them may succeed, or fail half way. Whatever an
edit does, it leaves a coherent editor (`EditCall.coherent_after`), so at every point of a session the index is the one
that would be built anew (`build_of_reaches`).

`Keeps x s Q` is the form in which this goes through the steps of an edit: an error may stop it at any point, and then
the editor is coherent there.
-/

namespace Relayout

open Editor

/-! ## Runs -/

section Keeps

variable [IdSpace] {α β : Type} {s : Editor}

/-- The run of an edit ends with `Q`, or stops at a coherent editor. -/
def Keeps (x : Edit α) (s : Editor) (Q : α → Editor → Prop) : Prop :=
  match x.run s with
  | .ok a t => Q a t
  | .error _ t => Coherent t

theorem keeps_of_ends {x : Edit α} {Q : α → Editor → Prop} (h : Ends (fun _ t => Coherent t) x s Q) : Keeps x s Q := h

theorem Keeps.bind {x : Edit α} {f : α → Edit β} {Q : β → Editor → Prop}
    (h : Keeps x s fun a t => Keeps (f a) t Q) : Keeps (x >>= f) s Q :=
  keeps_of_ends (Ends.bind h)

theorem Keeps.mono {x : Edit α} {Q R : α → Editor → Prop} (h : Keeps x s Q) (hQR : ∀ a t, Q a t → R a t) :
    Keeps x s R := by
  unfold Keeps at h ⊢
  cases hx : x.run s with
  | ok a t => rw [hx] at h; exact hQR a t h
  | error e t => rw [hx] at h; exact h

theorem keeps_of_ensures {x : Edit α} {Q : α → Editor → Prop} (h : Ensures False x s Q) : Keeps x s Q := by
  obtain ⟨a, t, hx, hQ⟩ := h.exists_ok
  unfold Keeps
  rw [hx]
  exact hQ

theorem keeps_get {Q : Editor → Editor → Prop} (h : Q s s) : Keeps (get : Edit Editor) s Q := h

theorem keeps_modifyBlock {f : Block → Block} {Q : Unit → Editor → Prop} (h : Q () ⟨f s.block, s.index⟩) :
    Keeps (modifyBlock f) s Q := h

/-! ## Queries and checks -/

variable {l r : List Operation} {o : Operation} {op : OpId} {id : ValueId}

theorem keeps_position (h : Coherent s) {Q : Nat → Editor → Prop}
    (hQ : ∀ l o r, s.block.operations = l ++ o :: r → o.id = op → Q l.length s) : Keeps (position op) s Q :=
  keeps_of_ends (h.anchored.ends_position (fun _ _ => h) hQ)

theorem keeps_operation (h : Coherent s) {Q : Operation → Editor → Prop}
    (hQ : ∀ l o r, s.block.operations = l ++ o :: r → o.id = op → Q o s) : Keeps (operation op) s Q :=
  keeps_of_ends (h.anchored.ends_operation (fun _ _ => h) hQ)

theorem keeps_value (h : Coherent s) {Q : Value → Editor → Prop} (hQ : ∀ v, s.block.value? id = some v → Q v s) :
    Keeps (value id) s Q :=
  keeps_of_ends (ends_value (fun _ _ => h) hQ)

theorem keeps_checkAvailable (h : Coherent s) (heq : s.block.operations = l ++ r) {Q : Unit → Editor → Prop}
    (hQ : id ∈ s.block.inputs ++ results l → Q () s) : Keeps (checkAvailable id l.length) s Q :=
  keeps_of_ends (ends_checkAvailable (fun _ _ => h) fun havail => hQ ((h.agrees.availableFrom h.sound heq).1 havail))

end Keeps

/-! ## Edits -/

section Edits

variable [IdSpace] {s : Editor} {op : OpId} {id : ValueId}

theorem keeps_replaceUsesIn (h : Coherent s) {old new : ValueId}
    (hreads : ∀ o ∈ s.block.operations, o.id = op → old ∈ o.inputs) :
    Keeps (replaceUsesIn op old new) s fun _ t => Coherent t := by
  by_cases hne : old = new
  · rw [replaceUsesIn, if_pos hne]
    exact h
  · refine keeps_of_ends (h.anchored.ends_replaceUsesIn hne (fun _ _ => h) fun _ l o r heq hid havail => ?_)
    have hold := hreads o (by simp [heq]) hid
    exact h.substituteOp heq (mem_substitute.2 (.inl ⟨rfl, hold⟩)) ((h.agrees.availableFrom h.sound heq).1 havail)

theorem keeps_replaceUses (h : Coherent s) (old new : ValueId) :
    Keeps (replaceUses old new) s fun _ t => Coherent t :=
  keeps_of_ends (h.ends_replaceUses (fun _ _ _ ht => ht) fun _ _ hx => hx)

theorem keeps_setInput (h : Coherent s) (op : OpId) (slot : Nat) (id : ValueId) :
    Keeps (setInput op slot id) s fun _ t => Coherent t := by
  by_cases hok : ∃ l o r, s.block.operations = l ++ o :: r ∧ o.id = op ∧ slot < o.inputs.length ∧
      id ∈ s.block.inputs ++ results l
  · obtain ⟨l, o, r, heq, rfl, hslot, hid⟩ := hok
    exact keeps_of_ensures (ensures_setInput h heq hslot hid fun _ hx => hx)
  · refine Keeps.bind (keeps_position h fun l o r heq ho => Keeps.bind (keeps_value h fun _ _ => ?_))
    refine Keeps.bind (keeps_checkAvailable h heq fun hid => ?_)
    subst ho
    refine Keeps.bind (keeps_of_ensures (ensures_operation (h.agrees.position_of_append heq) heq ?_))
    rw [List.getElem?_eq_none (not_lt.1 fun hslot => hok ⟨l, o, r, heq, rfl, hslot, hid⟩)]
    exact h

theorem keeps_setOutput (h : Coherent s) (slot : Nat) (id : ValueId) :
    Keeps (setOutput slot id) s fun _ t => Coherent t := by
  by_cases hid : id ∈ s.block.defined
  · by_cases hslot : slot < s.block.outputs.length
    · exact keeps_of_ensures (ensures_setOutput h hslot hid fun _ hx => hx)
    · refine Keeps.bind (keeps_get ?_)
      rw [h.isDefined hid, if_neg (by simp), if_pos (not_lt.1 hslot)]
      exact h
  · have hundef : s.index.isDefined id = false := by
      rw [← Bool.not_eq_true, h.agrees.isDefined]
      exact hid
    refine Keeps.bind (keeps_get ?_)
    rw [hundef]
    exact h

theorem keeps_setKind (h : Coherent s) (op : OpId) (kind : OpKind) :
    Keeps (setKind op kind) s fun _ t => Coherent t := by
  refine Keeps.bind (keeps_position h fun l o r heq ho => keeps_of_ensures ?_)
  exact ensures_modifyOp heq (h.setKind heq kind)

theorem keeps_renameValue (h : Coherent s) (id : ValueId) (name : String) :
    Keeps (renameValue id name) s fun _ t => Coherent t := by
  cases hr : s.block.value? id with
  | none =>
    exact Keeps.bind (keeps_value h fun v hv => by rw [hr] at hv; cases hv)
  | some v =>
    by_cases hname : name = v.name ∨ name ∉ s.block.values.map (·.name)
    · exact keeps_of_ensures (ensures_renameValue h hr hname fun _ hx => hx)
    · rw [not_or, not_not] at hname
      have htaken := h.agrees.contains_names.2 hname.2
      refine Keeps.bind (keeps_of_ensures (ensures_value hr ?_))
      dsimp only
      rw [if_neg (Ne.symm hname.1)]
      refine Keeps.bind (keeps_of_ends (ends_updateIndex (fun _ _ => h) fun x hx => ?_))
      rw [UseIndex.rename, if_pos htaken] at hx
      cases hx

theorem keeps_transferName (h : Coherent s) (source target : ValueId) :
    Keeps (transferName source target) s fun _ t => Coherent t := by
  refine Keeps.bind (keeps_value h fun v _ => Keeps.bind (keeps_get (Keeps.bind ?_)))
  exact (keeps_renameValue h source _).mono fun _ t ht => keeps_renameValue ht target v.name

theorem Coherent.retype (h : Coherent s) {b : Block} (hb : s.block.Retyped b) : Coherent ⟨b, s.index⟩ where
  sound := hb.sound h.sound
  agrees := by
    have hrecords : ∀ {p : ValueId × String → Prop}, (∃ r ∈ b.values, p (r.id, r.name)) ↔
        ∃ r ∈ s.block.values, p (r.id, r.name) := fun {p} => by
      have := congrArg (fun rs => ∃ e ∈ rs, p e) hb.records
      simpa using this
    have hcovers := h.agrees.toCovers
    rw [← hb.inputs, ← hb.operations] at hcovers
    refine ⟨hcovers, fun name value => ?_, fun r hr => ?_, fun o ho => h.agrees.nextOp o (hb.operations ▸ ho),
      h.agrees.free⟩
    · rw [h.agrees.names]
      exact (hrecords (p := fun e => e.2 = name ∧ e.1 = value)).symm
    · obtain ⟨t, ht, he⟩ := (hrecords (p := fun e => e.1 = r.id)).1 ⟨r, hr, rfl⟩
      exact he ▸ h.agrees.nextValue t ht

theorem keeps_setValueType (h : Coherent s) (id : ValueId) (type : TensorType) :
    Keeps (setValueType id type) s fun _ t => Coherent t :=
  Keeps.bind (keeps_value h fun _ _ => keeps_modifyBlock (h.retype (s.block.retyped_setType id type)))

/-- Ids that there is room for may be left out. -/
theorem Coherent.skip (h : Coherent s) {count : Nat} (hroom : s.HasRoom count) : Coherent (s.skip count 1) where
  sound := h.sound
  agrees := by
    have hcovers := h.agrees.toCovers
    exact ⟨⟨hcovers.positions, hcovers.producers, hcovers.users, hcovers.usersOnce, hcovers.inputs⟩, h.agrees.names,
      fun r hr => Nat.lt_add_right _ (h.agrees.nextValue r hr), fun o ho => Nat.lt_add_right _ (h.agrees.nextOp o ho), hroom⟩

theorem keeps_insertOp (h : Coherent s) {pos : Nat} (hpos : pos ≤ s.block.operations.length) (kind : OpKind)
    (inputs : List ValueId) {outputs : List (String × TensorType)} (hnames : (outputs.map (·.1)).Nodup) :
    Keeps (insertOp pos kind inputs outputs) s fun _ t => Coherent t := by
  refine keeps_of_ends (h.anchored.ends_insertOp (fun _ _ => h) (fun _ => h) (fun _ hroom _ => h.skip hroom)
    (fun hlt => absurd hpos (not_le.2 hlt)) fun l r heq hlen hins hroom hfree => ?_)
  subst hlen
  refine h.insert heq (fun v hv => (h.agrees.availableFrom h.sound heq).1 (hins v hv)) hnames (fun name hname hmem => ?_) hroom
  rw [← h.agrees.contains_names, hfree name hname] at hmem
  cases hmem

theorem keeps_insertBefore (h : Coherent s) (next : OpId) (kind : OpKind) (inputs : List ValueId)
    {outputs : List (String × TensorType)} (hnames : (outputs.map (·.1)).Nodup) :
    Keeps (insertBefore next kind inputs outputs) s fun _ t => Coherent t := by
  refine Keeps.bind (keeps_position h fun l o r heq _ => keeps_insertOp h ?_ kind inputs hnames)
  rw [heq, List.length_append]
  exact Nat.le_add_right _ _

theorem keeps_append (h : Coherent s) (kind : OpKind) (inputs : List ValueId) {outputs : List (String × TensorType)}
    (hnames : (outputs.map (·.1)).Nodup) : Keeps (append kind inputs outputs) s fun _ t => Coherent t :=
  Keeps.bind (keeps_get (keeps_insertOp h le_rfl kind inputs hnames))

theorem keeps_removeOp (h : Coherent s) (op : OpId) : Keeps (removeOp op) s fun _ t => Coherent t :=
  keeps_of_ends (h.anchored.ends_removeOp (fun _ _ => h) (fun _ _ _ _ _ => h) fun _ _ _ heq _ hobs =>
    h.remove heq (h.obstacle?_eq_none.1 hobs))

theorem keeps_eraseIfDead (h : Coherent s) (op : OpId) : Keeps (eraseIfDead op) s fun _ t => Coherent t := by
  by_cases hok : ∃ l o r, s.block.operations = l ++ o :: r ∧ o.id = op
  · obtain ⟨l, o, r, heq, rfl⟩ := hok
    exact keeps_of_ensures (ensures_eraseIfDead h heq (fun _ => h) fun _ _ hx => hx)
  · exact Keeps.bind (keeps_operation h fun l o r heq ho => absurd ⟨l, o, r, heq, ho⟩ hok)

end Edits

/-! ## Sessions -/

/-- An edit with its arguments. -/
inductive EditCall where
  | replaceUses (old new : ValueId)
  | replaceUsesIn (op : OpId) (old new : ValueId)
  | setInput (op : OpId) (slot : Nat) (id : ValueId)
  | setOutput (slot : Nat) (id : ValueId)
  | setKind (op : OpId) (kind : OpKind)
  | renameValue (id : ValueId) (name : String)
  | transferName (source target : ValueId)
  | setValueType (id : ValueId) (type : TensorType)
  | insertBefore (next : OpId) (kind : OpKind) (inputs : List ValueId) (outputs : List (String × TensorType))
  | append (kind : OpKind) (inputs : List ValueId) (outputs : List (String × TensorType))
  | insertOp (pos : Nat) (kind : OpKind) (inputs : List ValueId) (outputs : List (String × TensorType))
  | removeOp (op : OpId)
  | eraseIfDead (op : OpId)

namespace EditCall

def run [IdSpace] : EditCall → Edit Unit
  | replaceUses old new => Editor.replaceUses old new
  | replaceUsesIn op old new => Editor.replaceUsesIn op old new
  | setInput op slot id => Editor.setInput op slot id
  | setOutput slot id => Editor.setOutput slot id
  | setKind op kind => Editor.setKind op kind
  | renameValue id name => Editor.renameValue id name
  | transferName source target => Editor.transferName source target
  | setValueType id type => Editor.setValueType id type
  | insertBefore next kind inputs outputs => discard (Editor.insertBefore next kind inputs outputs)
  | append kind inputs outputs => discard (Editor.append kind inputs outputs)
  | insertOp pos kind inputs outputs => discard (Editor.insertOp pos kind inputs outputs)
  | removeOp op => Editor.removeOp op
  | eraseIfDead op => discard (Editor.eraseIfDead op)

/-- The editor that an edit leaves, whether it succeeds or not. -/
def after [IdSpace] (call : EditCall) (s : Editor) : Editor :=
  match call.run.run s with
  | .ok _ t => t
  | .error _ t => t

/-- What a caller has to see to: uses are replaced in an operation that has them, and an operation comes in at a position
of the block, with different names for its outputs. -/
def Admitted (s : Editor) : EditCall → Prop
  | replaceUsesIn op old _ => ∀ o ∈ s.block.operations, o.id = op → old ∈ o.inputs
  | insertBefore _ _ _ outputs | append _ _ outputs => (outputs.map (·.1)).Nodup
  | insertOp pos _ _ outputs => pos ≤ s.block.operations.length ∧ (outputs.map (·.1)).Nodup
  | _ => True

theorem keeps_discard [IdSpace] {α : Type} {s : Editor} {x : Edit α} {P : Editor → Prop} (h : Keeps x s fun _ t => P t) :
    Keeps (discard x) s fun _ t => P t :=
  Keeps.bind h

theorem keeps_run [IdSpace] {s : Editor} (h : Coherent s) {call : EditCall} (hadm : call.Admitted s) :
    Keeps call.run s fun _ t => Coherent t := by
  cases call with
  | replaceUses old new => exact keeps_replaceUses h old new
  | replaceUsesIn op old new => exact keeps_replaceUsesIn h hadm
  | setInput op slot id => exact keeps_setInput h op slot id
  | setOutput slot id => exact keeps_setOutput h slot id
  | setKind op kind => exact keeps_setKind h op kind
  | renameValue id name => exact keeps_renameValue h id name
  | transferName source target => exact keeps_transferName h source target
  | setValueType id type => exact keeps_setValueType h id type
  | insertBefore next kind inputs outputs => exact keeps_discard (keeps_insertBefore h next kind inputs hadm)
  | append kind inputs outputs => exact keeps_discard (keeps_append h kind inputs hadm)
  | insertOp pos kind inputs outputs => exact keeps_discard (keeps_insertOp h hadm.1 kind inputs hadm.2)
  | removeOp op => exact keeps_removeOp h op
  | eraseIfDead op => exact keeps_discard (keeps_eraseIfDead h op)

/-- An edit leaves a coherent editor. -/
theorem coherent_after [IdSpace] {s : Editor} (h : Coherent s) {call : EditCall} (hadm : call.Admitted s) :
    Coherent (call.after s) := by
  have hkeeps := keeps_run h hadm
  rw [Keeps] at hkeeps
  rw [after]
  split <;> simp_all only

end EditCall

/-- Editors that a session leads to. -/
inductive Reaches [IdSpace] (s : Editor) : Editor → Prop where
  | start : Reaches s s
  | step {t : Editor} {call : EditCall} : Reaches s t → call.Admitted t → Reaches s (call.after t)

theorem Reaches.coherent [IdSpace] {s t : Editor} (h : Reaches s t) (hs : Coherent s) : Coherent t := by
  induction h with
  | start => exact hs
  | step _ hadm ih => exact EditCall.coherent_after ih hadm

/-- Two indices say the same. -/
structure UseIndex.Matches (x y : UseIndex) : Prop where
  positions : ∀ op, x.position? op = y.position? op
  producers : ∀ value, x.producer? value = y.producer? value
  names : ∀ name, x.named? name = y.named? name
  inputs : x.inputs = y.inputs
  users : ∀ value op, op ∈ x.usersOf value ↔ op ∈ y.usersOf value
  usersOnce : ∀ value, (x.usersOf value).Nodup ∧ (y.usersOf value).Nodup

theorem UseIndex.Agrees.matches [IdSpace] {x y : UseIndex} {b : Block} (hx : x.Agrees b) (hy : y.Agrees b) : x.Matches y where
  positions op := Option.ext fun pos => (hx.positions op pos).trans (hy.positions op pos).symm
  producers value := Option.ext fun op => (hx.producers value op).trans (hy.producers value op).symm
  names name := Option.ext fun value => (hx.names name value).trans (hy.names name value).symm
  inputs := hx.inputs.trans hy.inputs.symm
  users value op := (hx.users value op).trans (hy.users value op).symm
  usersOnce value := ⟨hx.usersOnce value, hy.usersOnce value⟩

/-- All ids of values that a block mentions. -/
def Block.valueIds (b : Block) : List ValueId :=
  b.values.map (·.id) ++ b.inputs ++ b.outputs ++ b.operations.flatMap fun o => o.inputs ++ o.outputs

theorem Block.Sound.mem_of_valueIds {b : Block} (h : b.Sound) {v : ValueId} (hv : v ∈ b.valueIds) :
    v ∈ b.values.map (·.id) := by
  simp only [valueIds, List.mem_append, List.mem_flatMap] at hv
  rcases hv with ((hv | hv) | hv) | ⟨o, ho, hv | hv⟩
  · exact hv
  · exact (h.recorded v).1 (mem_defined.2 (.inl hv))
  · exact (h.recorded v).1 (h.outputsDefined v hv)
  · exact (h.recorded v).1 (h.input_defined ho hv)
  · exact (h.recorded v).1 (mem_defined.2 (.inr ⟨o, ho, hv⟩))

/-- Edits keep the index of an editor in step with its block. A block that passes the check and has no last id has an
editor, and at every point of every session the index of the block as it is then can be built and says the same as that of
the editor, whose next ids are above all that the block mentions. -/
theorem build_of_reaches [IdSpace] {b : Block} (hc : b.check = .ok ()) (hids : b.HasFreeIds) :
    ∃ s, Editor.ofBlock b = .ok s ∧ ∀ t, Reaches s t →
      ∃ x, UseIndex.build t.block = .ok x ∧ t.index.Matches x ∧ (∀ v ∈ t.block.valueIds, v.index < t.index.nextValue) ∧
        ∀ o ∈ t.block.operations, o.id.index < t.index.nextOp := by
  obtain ⟨s, hs, _, hcoherent⟩ := (Block.check_eq_ok.1 hc).1.exists_editor hids
  refine ⟨s, hs, fun t ht => ?_⟩
  have h := ht.coherent hcoherent
  obtain ⟨x, hx, hagrees⟩ := UseIndex.exists_build h.sound h.agrees.hasFreeIds
  refine ⟨x, hx, h.agrees.matches hagrees, fun v hv => ?_, h.agrees.nextOp⟩
  obtain ⟨r, hr, rfl⟩ := List.mem_map.1 (h.sound.mem_of_valueIds hv)
  exact h.agrees.nextValue r hr

/-- Two functions, one after the other. -/
def chain : Block where
  name := "chain"
  inputs := [⟨0⟩]
  outputs := [⟨2⟩]
  operations := [⟨⟨0⟩, .unary .abs, [⟨0⟩], [⟨1⟩]⟩, ⟨⟨1⟩, .unary .sqrt, [⟨1⟩], [⟨2⟩]⟩]
  values := [⟨⟨0⟩, "x", .ofExtents .f32 [2]⟩, ⟨⟨1⟩, "y", .ofExtents .f32 [2]⟩, ⟨⟨2⟩, "z", .ofExtents .f32 [2]⟩]

/-- An insertion that fails, as the name is taken, and one that does not. -/
def extensions : List EditCall :=
  [.insertBefore ⟨1⟩ (.unary .identity) [⟨0⟩] [("y", .ofExtents .f32 [2])],
    .append (.unary .abs) [⟨2⟩] [("w", .ofExtents .f32 [2])],
    .setOutput 0 ⟨4⟩]

theorem build_extended_chain : chain.check = .ok () ∧ chain.HasFreeIds ∧ ∃ s t, Editor.ofBlock chain = .ok s ∧ Reaches s t ∧
    t.block.outputs = [⟨4⟩] ∧ ∃ x, UseIndex.build t.block = .ok x ∧ t.index.Matches x ∧
      (∀ v ∈ t.block.valueIds, v.index < t.index.nextValue) ∧ ∀ o ∈ t.block.operations, o.id.index < t.index.nextOp := by
  have hc : chain.check = .ok () := by decide
  have hids : chain.HasFreeIds := Block.hasFreeIds_iff.2 (by decide)
  obtain ⟨s, hs, hall⟩ := build_of_reaches hc hids
  have hreaches : Reaches s (extensions.foldl (fun t call => call.after t) s) :=
    .step (.step (.step .start (List.nodup_singleton _)) (List.nodup_singleton _)) trivial
  have houts : ((Editor.ofBlock chain).toOption.map fun s =>
      (extensions.foldl (fun t call => call.after t) s).block.outputs) = some [⟨4⟩] := by decide +kernel
  rw [hs] at houts
  exact ⟨hc, hids, s, _, hs, hreaches, Option.some.inj houts, hall _ hreaches⟩

/-- A function with the last id. -/
def brink : Block where
  name := "brink"
  inputs := [⟨0⟩]
  outputs := [⟨1⟩]
  operations := [⟨⟨4294967295⟩, .unary .sqrt, [⟨0⟩], [⟨1⟩]⟩]
  values := [⟨⟨0⟩, "x", .ofExtents .f32 [2]⟩, ⟨⟨1⟩, "y", .ofExtents .f32 [2]⟩]

theorem ofBlock_brink : brink.check = .ok () ∧ Editor.ofBlock brink = .error (.crash .overflow) :=
  ⟨by decide +kernel, rfl⟩

end Relayout
