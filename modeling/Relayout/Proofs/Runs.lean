import Relayout.Proofs.Coherence

/-!
# Runs of edits

`Ends R x s Q` says of an edit `x` that, run from `s`, it leaves a result and an editor with `Q` or stops with `R`. Checks,
replacements in one operation, insertions and removals have one rule each, which says where they stop and what they leave
otherwise. The rules ask of the index only that it knows where operations stand and what they define (`Anchored`); it may be
out of step with readers and names.
-/

namespace Relayout

open Editor

/-! ## Runs -/

section Ends

variable {α β : Type} {R : EditError → Editor → Prop} {s : Editor}

/-- The run of an edit ends with `Q`, or stops with `R`. -/
def Ends (R : EditError → Editor → Prop) (x : Edit α) (s : Editor) (Q : α → Editor → Prop) : Prop :=
  match x.run s with
  | .ok a t => Q a t
  | .error e t => R e t

theorem Ends.bind {x : Edit α} {f : α → Edit β} {Q : β → Editor → Prop}
    (h : Ends R x s fun a t => Ends R (f a) t Q) : Ends R (x >>= f) s Q := by
  unfold Ends at h ⊢
  rw [EStateM.run, show (x >>= f) s = EStateM.bind x f s from rfl, EStateM.bind]
  rw [EStateM.run] at h
  cases hx : x s with
  | ok a t => rw [hx] at h; exact h
  | error e t => rw [hx] at h; exact h

theorem Ends.of_ok {x : Edit α} {Q : α → Editor → Prop} (h : Ends R x s Q) {a : α} {t : Editor}
    (hx : x.run s = .ok a t) : Q a t := by
  unfold Ends at h
  rw [hx] at h
  exact h

theorem Ends.of_error {x : Edit α} {Q : α → Editor → Prop} (h : Ends R x s Q) {e : EditError} {t : Editor}
    (hx : x.run s = .error e t) : R e t := by
  unfold Ends at h
  rw [hx] at h
  exact h

theorem ends_get {Q : Editor → Editor → Prop} (h : Q s s) : Ends R (get : Edit Editor) s Q := h

theorem ends_modifyBlock {f : Block → Block} {Q : Unit → Editor → Prop} (h : Q () ⟨f s.block, s.index⟩) :
    Ends R (modifyBlock f) s Q := h

theorem ends_updateIndex {step : UseIndex → Except IndexError UseIndex} {Q : Unit → Editor → Prop}
    (herror : ∀ e, step s.index = .error e → R (.index e) s) (hok : ∀ x, step s.index = .ok x → Q () ⟨s.block, x⟩) :
    Ends R (updateIndex step) s Q := by
  refine Ends.bind (ends_get ?_)
  cases hx : step s.index with
  | error e => exact herror e hx
  | ok x => exact hok x hx

end Ends

/-! ## Queries and checks -/

section Checks

variable {R : EditError → Editor → Prop} {s : Editor} {op : OpId} {id old new : ValueId} {pos : Nat}

theorem Anchored.position_of_append [IdSpace] (h : Anchored s) {l r : List Operation} {o : Operation}
    (heq : s.block.operations = l ++ o :: r) : s.index.position? o.id = some l.length :=
  (h.positions _ _).2 (by simp [heq])

theorem Anchored.position_none [IdSpace] (h : Anchored s) (hop : op ∉ s.block.operations.map (·.id)) :
    s.index.position? op = none := by
  by_contra hsome
  obtain ⟨pos, hpos⟩ := Option.ne_none_iff_exists'.1 hsome
  exact hop (List.mem_of_getElem? ((h.positions op pos).1 hpos))

/-- An operation stands at one place. -/
theorem Anchored.split_ext [IdSpace] (h : Anchored s) {l l' r r' : List Operation} {o o' : Operation}
    (heq : s.block.operations = l ++ o :: r) (heq' : s.block.operations = l' ++ o' :: r') (hid : o'.id = o.id) :
    l' = l ∧ o' = o ∧ r' = r := by
  have hlen : l'.length = l.length := by
    rw [← Option.some_inj, ← h.position_of_append heq, ← h.position_of_append heq', hid]
  obtain ⟨hl, hcons⟩ := List.append_inj (heq'.symm.trans heq) hlen
  exact ⟨hl, List.cons.inj hcons⟩

theorem Anchored.ends_position [IdSpace] (h : Anchored s) {Q : Nat → Editor → Prop}
    (hstop : op ∉ s.block.operations.map (·.id) → ∀ e, R e s)
    (hQ : ∀ l o r, s.block.operations = l ++ o :: r → o.id = op → Q l.length s) : Ends R (position op) s Q := by
  refine Ends.bind (ends_get ?_)
  by_cases hop : op ∈ s.block.operations.map (·.id)
  · obtain ⟨o, ho, rfl⟩ := List.mem_map.1 hop
    obtain ⟨l, r, heq⟩ := List.append_of_mem ho
    rw [h.position_of_append heq]
    exact hQ l o r heq rfl
  · rw [h.position_none hop]
    exact hstop hop _

theorem Anchored.ends_operation [IdSpace] (h : Anchored s) {Q : Operation → Editor → Prop}
    (hstop : op ∉ s.block.operations.map (·.id) → ∀ e, R e s)
    (hQ : ∀ l o r, s.block.operations = l ++ o :: r → o.id = op → Q o s) : Ends R (operation op) s Q := by
  refine Ends.bind (h.ends_position hstop fun l o r heq hid => Ends.bind (ends_get ?_))
  rw [heq, List.getElem?_append_right (Nat.le_refl _), Nat.sub_self, List.getElem?_cons_zero]
  exact hQ l o r heq hid

theorem ends_value {Q : Value → Editor → Prop} (hstop : s.block.value? id = none → ∀ e, R e s)
    (hQ : ∀ v, s.block.value? id = some v → Q v s) : Ends R (value id) s Q := by
  refine Ends.bind (ends_get ?_)
  cases hv : s.block.value? id with
  | none => exact hstop hv _
  | some v => exact hQ v hv

/-- The value may be read at the position, by the index. -/
def Editor.Available (s : Editor) (id : ValueId) (pos : Nat) : Prop :=
  ∃ start, s.index.availableFrom? id = some start ∧ start ≤ pos

theorem ends_checkAvailable {Q : Unit → Editor → Prop}
    (hstop : ¬s.Available id pos → ∀ e, R e s) (hQ : s.Available id pos → Q () s) :
    Ends R (checkAvailable id pos) s Q := by
  refine Ends.bind (ends_get ?_)
  cases hstart : s.index.availableFrom? id with
  | none =>
    refine hstop ?_ _
    rintro ⟨start, hsome, _⟩
    rw [hstart] at hsome
    cases hsome
  | some start =>
    by_cases hle : start ≤ pos
    · simp only [hle, if_true]
      exact hQ ⟨start, hstart, hle⟩
    · simp only [hle, if_false]
      refine hstop ?_ _
      rintro ⟨start', hsome, hle'⟩
      rw [hstart] at hsome
      exact hle (Option.some.inj hsome ▸ hle')

theorem ends_checkAllAvailable {ids : List ValueId} {Q : Unit → Editor → Prop}
    (hstop : (¬∀ id ∈ ids, s.Available id pos) → ∀ e, R e s) (hQ : (∀ id ∈ ids, s.Available id pos) → Q () s) :
    Ends R (checkAllAvailable pos ids) s Q := by
  induction ids with
  | nil => exact hQ fun id hid => (by cases hid)
  | cons id ids ih =>
    refine Ends.bind (ends_checkAvailable (fun hnot => hstop fun hall => hnot (hall id List.mem_cons_self)) fun hid => ?_)
    refine ih (fun hnot => hstop fun hall => hnot fun i hi => hall i (List.mem_cons_of_mem _ hi)) fun hids => hQ ?_
    exact List.forall_mem_cons.2 ⟨hid, hids⟩

/-- Element type and rank of the two values agree. -/
def Block.Fits (b : Block) (old new : ValueId) : Prop :=
  ∃ p ∈ b.type? old, ∃ q ∈ b.type? new, p.compatible q

theorem ends_checkReplaceable {Q : Unit → Editor → Prop} (hstop : ¬s.block.Fits old new → ∀ e, R e s)
    (hQ : s.block.Fits old new → Q () s) : Ends R (checkReplaceable old new) s Q := by
  refine Ends.bind (ends_value (fun hnone => hstop ?_) fun v hv => ?_)
  · rintro ⟨p, hp, _⟩
    rw [Block.type?, hnone] at hp
    cases hp
  refine Ends.bind (ends_value (fun hnone => hstop ?_) fun w hw => ?_)
  · rintro ⟨_, _, q, hq, _⟩
    rw [Block.type?, hnone] at hq
    cases hq
  have hp : s.block.type? old = some v.type := by rw [Block.type?, hv]; rfl
  have hq : s.block.type? new = some w.type := by rw [Block.type?, hw]; rfl
  by_cases hfit : v.type.compatible w.type
  · simp only [hfit, if_true]
    exact hQ ⟨v.type, hp, w.type, hq, hfit⟩
  · simp only [hfit]
    refine hstop ?_ _
    rintro ⟨p, hp', q, hq', hfit'⟩
    rw [Option.mem_def, hp] at hp'
    rw [Option.mem_def, hq] at hq'
    rw [← Option.some.inj hp', ← Option.some.inj hq'] at hfit'
    exact hfit hfit'

end Checks

/-! ## Uses in one operation -/

section Uses

variable {R : EditError → Editor → Prop} {s : Editor} {l r : List Operation} {o : Operation}

/-- An operation that reads `new` where it read `old`. -/
def Operation.substitute (old new : ValueId) (op : Operation) : Operation :=
  { op with inputs := Editor.substitute old new op.inputs }

theorem modify_append (f : Operation → Operation) : (l ++ o :: r).modify l.length f = l ++ f o :: r := by
  induction l with
  | nil => rfl
  | cons p l ih => rw [List.cons_append, List.length_cons, List.modify_succ_cons, ih, List.cons_append]

theorem moveUse_eq_ok {x : UseIndex} {op : OpId} {old new : ValueId} {used : Bool} (hdef : x.isDefined new) :
    x.moveUse op old new used = .ok { x with
      users := UseIndex.addUser (if used then x.users else UseIndex.removeUser x.users old op) new op } := by
  rw [UseIndex.moveUse, hdef]
  rfl

/-- The value may be read by the operation, by the index. -/
def Editor.AvailableTo (s : Editor) (id : ValueId) (op : OpId) : Prop :=
  ∃ pos, s.index.position? op = some pos ∧ s.Available id pos

/-- Uses are replaced in an operation that may read the new value. It is listed as a user of that value, whether it read the
old one or not. -/
theorem Anchored.ends_replaceUsesIn [IdSpace] (h : Anchored s) {op : OpId} {old new : ValueId} (hne : old ≠ new)
    {Q : Unit → Editor → Prop} (hstop : ¬(s.block.Fits old new ∧ s.AvailableTo new op) → ∀ e, R e s)
    (hQ : s.block.Fits old new → ∀ l o r, s.block.operations = l ++ o :: r → o.id = op → s.Available new l.length →
      Q () ⟨s.block.rewired (l ++ o.substitute old new :: r) s.block.outputs,
        { s.index with users := UseIndex.addUser (UseIndex.removeUser s.index.users old o.id) new o.id }⟩) :
    Ends R (replaceUsesIn op old new) s Q := by
  rw [replaceUsesIn, if_neg hne]
  refine Ends.bind (ends_checkReplaceable (fun hnot => hstop fun hboth => hnot hboth.1) fun hfit => ?_)
  refine Ends.bind (h.ends_position (fun hop => hstop ?_) fun l o r heq hid => ?_)
  · rintro ⟨_, pos, hpos, _⟩
    rw [h.position_none hop] at hpos
    cases hpos
  · subst hid
    refine Ends.bind (ends_checkAvailable (fun hnot => hstop ?_) fun havail => ?_)
    · rintro ⟨_, pos, hpos, havail⟩
      rw [h.position_of_append heq] at hpos
      exact hnot (Option.some.inj hpos ▸ havail)
    · have hdef : s.index.isDefined new := by
        obtain ⟨start, hstart, _⟩ := havail
        exact UseIndex.isDefined_of_availableFrom? hstart
      have hmove := @moveUse_eq_ok s.index o.id old new false hdef
      refine Ends.bind (ends_modifyBlock ?_)
      rw [heq, modify_append]
      refine ends_updateIndex (fun e he => absurd (he.symm.trans hmove) (by simp)) fun x hx => ?_
      obtain rfl := Except.ok.inj (hx.symm.trans hmove)
      exact hQ hfit l o r heq rfl havail

end Uses

/-! ## Insertion and removal -/

section Insertion

variable {R : EditError → Editor → Prop} {s : Editor} {l r : List Operation} {o : Operation}

theorem insertIdx_append (new : Operation) : (l ++ r).insertIdx l.length new = l ++ new :: r := by
  induction l with
  | nil => rfl
  | cons p l ih => rw [List.cons_append, List.length_cons, List.insertIdx_succ_cons, ih, List.cons_append]

theorem eraseIdx_append : (l ++ o :: r).eraseIdx l.length = l ++ r := by
  induction l with
  | nil => rfl
  | cons p l ih => rw [List.cons_append, List.length_cons, List.eraseIdx_cons_succ, ih, List.cons_append]

/-- The editor with some free ids left out. -/
def Editor.skip (s : Editor) (values ops : Nat) : Editor :=
  ⟨s.block, { s.index with nextValue := s.index.nextValue + values, nextOp := s.index.nextOp + ops }⟩

theorem Anchored.skip [IdSpace] (h : Anchored s) {count : Nat} (hroom : s.HasRoom count) : Anchored (s.skip count 1) :=
  ⟨h.registered, h.positions, h.producers, h.inputs, fun r hr => Nat.lt_add_right _ (h.nextValue r hr),
    fun o ho => Nat.lt_add_right _ (h.nextOp o ho), hroom⟩

/-- An operation is refused whose outputs would have a name that is taken. -/
theorem UseIndex.insertOp_error (x : UseIndex) (pos : Nat) (o : Operation) {names : List String}
    (hlen : names.length ≤ o.outputs.length) {name : String} (hname : name ∈ names)
    (htaken : x.names.contains name = true) : ∃ e, x.insertOp pos o names = .error e := by
  rw [UseIndex.insertOp]
  dsimp only
  split
  · exact ⟨_, rfl⟩
  · exact ⟨_, rfl⟩
  · rename_i hclash _
    have hzip : (o.outputs.zip names).map (·.2) = names := List.map_snd_zip hlen
    rw [← hzip] at hname
    obtain ⟨e, he, rfl⟩ := List.mem_map.1 hname
    have hnone := List.findSome?_eq_none_iff.1 hclash e he
    rw [htaken, if_pos rfl] at hnone
    split at hnone <;> cases hnone

/-- New results clash with no value, and free names with no name. -/
theorem Anchored.findSome_clash [IdSpace] (h : Anchored s) (kind : OpKind) (inputs : List ValueId) {names : List String}
    (hfree : ∀ name ∈ names, s.index.names.contains name = false) :
    ((s.newOp kind inputs names.length).outputs.zip names).findSome? (fun (id, name) =>
      if (s.skip names.length 1).index.isDefined id then some (IndexError.duplicateValue id)
      else if (s.skip names.length 1).index.names.contains name then some (IndexError.duplicateName name)
      else none) = none := by
  rw [List.findSome?_eq_none_iff]
  rintro ⟨id, name⟩ hmem
  obtain ⟨hid, hname⟩ := List.of_mem_zip hmem
  have hundef : s.index.isDefined id = false := by
    rw [← Bool.not_eq_true, UseIndex.isDefined_iff h.inputs h.producers]
    exact h.newOp_outputs hid
  show (if s.index.isDefined id = true then _ else if s.index.names.contains name = true then _ else _) = none
  rw [hundef, hfree name hname]
  simp

/-- The index takes a new operation, unless a name is in use. -/
theorem Anchored.insertOp_eq [IdSpace] (h : Anchored s) {pos : Nat} (kind : OpKind) {inputs : List ValueId}
    (names : List String)
    (hins : ∀ id ∈ inputs, s.Available id pos) :
    (∀ name ∈ names, s.index.names.contains name = false) ∧
        (s.skip names.length 1).index.insertOp pos (s.newOp kind inputs names.length) names =
          .ok (s.index.withOp pos (s.newOp kind inputs names.length) names) ∨
      (∃ name ∈ names, s.index.names.contains name) ∧
        ∃ e, (s.skip names.length 1).index.insertOp pos (s.newOp kind inputs names.length) names = .error e := by
  by_cases hfree : ∀ name ∈ names, s.index.names.contains name = false
  · refine .inl ⟨hfree, ?_⟩
    have hfind : inputs.find? (fun id => !(s.skip names.length 1).index.isDefined id) = none := by
      rw [List.find?_eq_none]
      intro v hv
      obtain ⟨start, hstart, _⟩ := hins v hv
      show ¬(!s.index.isDefined v) = true
      simp [UseIndex.isDefined_of_availableFrom? hstart]
    rw [UseIndex.insertOp]
    simp only [h.findSome_clash kind inputs hfree]
    rw [show (s.newOp kind inputs names.length).inputs = inputs from rfl, hfind]
    rfl
  · simp only [not_forall, Bool.not_eq_false] at hfree
    obtain ⟨name, hname, htaken⟩ := hfree
    exact .inr ⟨⟨name, hname, htaken⟩, UseIndex.insertOp_error _ pos _ (by simp [Editor.newOp]) hname htaken⟩

instance [IdSpace] (s : Editor) (count : Nat) : Decidable (s.HasRoom count) :=
  inferInstanceAs (Decidable (_ ∧ _))

/-- New ids are handed out while there are any. -/
theorem ends_allocate [IdSpace] {count : Nat} {Q : OpId × List ValueId → Editor → Prop}
    (hfull : ¬s.HasRoom count → R (.crash .overflow) s)
    (hQ : s.HasRoom count → Q (⟨s.index.nextOp⟩, (List.range' s.index.nextValue count).map ValueId.mk) (s.skip count 1)) :
    Ends R (allocate count) s Q := by
  refine Ends.bind (ends_get ?_)
  by_cases hroom : s.HasRoom count
  · have hadmits : (IdSpace.admits (s.index.nextValue + count) && IdSpace.admits (s.index.nextOp + 1)) = true := by
      rw [hroom.1, hroom.2]
      rfl
    dsimp only
    rw [hadmits]
    exact hQ hroom
  · have hadmits : (IdSpace.admits (s.index.nextValue + count) && IdSpace.admits (s.index.nextOp + 1)) = false := by
      rw [Bool.eq_false_iff, ne_eq, Bool.and_eq_true]
      exact hroom
    dsimp only
    rw [hadmits]
    exact hfull hroom

/-- An insertion stops where an operand is not available, where ids run out, where a name is taken, or past the end of the
block. -/
theorem Anchored.ends_insertOp [IdSpace] (h : Anchored s) {pos : Nat} {kind : OpKind} {inputs : List ValueId}
    {outputs : List (String × TensorType)} {Q : OpId × List ValueId → Editor → Prop}
    (hstop : (¬∀ id ∈ inputs, s.Available id pos) → ∀ e, R e s)
    (hfull : ¬s.HasRoom outputs.length → R (.crash .overflow) s)
    (hclash : (∃ name ∈ outputs.map (·.1), s.index.names.contains name) → s.HasRoom outputs.length →
      ∀ e, R e (s.skip outputs.length 1))
    (hpast : s.block.operations.length < pos → ∀ t, R (.crash .outOfBounds) t)
    (hQ : ∀ l r, s.block.operations = l ++ r → l.length = pos → (∀ id ∈ inputs, s.Available id pos) →
      s.HasRoom outputs.length →
      (∀ name ∈ outputs.map (·.1), s.index.names.contains name = false) →
      Q ((s.newOp kind inputs outputs.length).id, (s.newOp kind inputs outputs.length).outputs)
        ⟨s.block.withOp l r (s.newOp kind inputs outputs.length) outputs,
          s.index.withOp l.length (s.newOp kind inputs outputs.length) (outputs.map (·.1))⟩) :
    Ends R (insertOp pos kind inputs outputs) s Q := by
  refine Ends.bind (ends_checkAllAvailable hstop fun hins => ?_)
  refine Ends.bind (ends_allocate hfull fun hroom => ?_)
  show Ends R (updateIndex _ >>= _) (s.skip outputs.length 1) Q
  have hstep := h.insertOp_eq kind (outputs.map (·.1)) hins
  rw [List.length_map] at hstep
  refine Ends.bind (ends_updateIndex (fun e he => ?_) fun x hx => ?_)
  · obtain ⟨_, hok⟩ | ⟨htaken, _⟩ := hstep
    · exact absurd (he.symm.trans hok) (by simp)
    · exact hclash htaken hroom _
  · obtain ⟨hfree, hok⟩ | ⟨_, e, he⟩ := hstep
    · obtain rfl := Except.ok.inj (hx.symm.trans hok)
      show Ends R (modifyBlock _ >>= _) ⟨s.block, s.index.withOp pos (s.newOp kind inputs outputs.length) _⟩ Q
      refine Ends.bind (ends_modifyBlock (Ends.bind (ends_get ?_)))
      have hfold := @foldl_upsert s.block (s.newOp kind inputs outputs.length).outputs outputs
        (fun t ht v hv => h.lt_newOp_outputs ht hv) newOp_outputs_sorted
      simp only [Editor.newOp] at hfold
      rw [hfold]
      by_cases hpos : s.block.operations.length < pos
      · rw [if_pos hpos]
        exact hpast hpos _
      · rw [if_neg hpos]
        obtain ⟨l, r, heq, rfl⟩ : ∃ l r, s.block.operations = l ++ r ∧ l.length = pos :=
          ⟨_, _, (List.take_append_drop pos _).symm, by rw [List.length_take, Nat.min_eq_left (not_lt.1 hpos)]⟩
        refine Ends.bind (ends_modifyBlock ?_)
        rw [heq, insertIdx_append]
        exact hQ l r heq rfl hins hroom hfree
    · exact absurd (hx.symm.trans he) (by simp)

theorem Block.foldl_eraseValue (ids : List ValueId) (b : Block) :
    ids.foldl (·.eraseValue ·) b = { b with values := ids.foldl Records.erase b.values } := by
  induction ids generalizing b with
  | nil => rfl
  | cons id ids ih => exact ih _

theorem Block.Registered.erased_eq {b : Block} (hb : b.Registered) (heq : b.operations = l ++ o :: r) :
    { o.outputs.foldl (·.eraseValue ·) b with
      operations := (o.outputs.foldl (·.eraseValue ·) b).operations.eraseIdx l.length } = b.withoutOp l r o := by
  rw [foldl_eraseValue, Records.foldl_erase_eq_filter (Block.idsNodup hb.sorted), withoutOp]
  simp only [heq, eraseIdx_append]

/-- A removal stops where the operation is unknown or something is in the way. -/
theorem Anchored.ends_removeOp [IdSpace] (h : Anchored s) {op : OpId} {Q : Unit → Editor → Prop}
    (hunknown : op ∉ s.block.operations.map (·.id) → ∀ e, R e s)
    (hstop : ∀ o ∈ s.block.operations, o.id = op → ∀ e, s.obstacle? o = some e → R e s)
    (hQ : ∀ l o r, s.block.operations = l ++ o :: r → o.id = op → s.obstacle? o = none →
      Q () ⟨s.block.withoutOp l r o, s.index.removeOp o (o.outputs.filterMap s.block.name?)⟩) :
    Ends R (removeOp op) s Q := by
  refine Ends.bind (h.ends_position hunknown fun l o r heq hid => ?_)
  refine Ends.bind (h.ends_operation hunknown fun l' o' r' heq' hid' => Ends.bind (ends_get ?_))
  obtain ⟨rfl, rfl, rfl⟩ := h.split_ext heq heq' (hid'.trans hid.symm)
  cases hobs : s.obstacle? o' with
  | some e => exact hstop o' (by simp [heq]) hid e hobs
  | none =>
    show Q () ⟨_, _⟩
    rw [h.registered.erased_eq heq]
    exact hQ _ _ _ heq hid hobs

end Insertion

end Relayout
