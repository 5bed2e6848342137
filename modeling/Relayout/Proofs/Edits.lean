import Relayout.Proofs.Names
import Relayout.Proofs.Runs

/-!
# What edits do

`Ensures fails x s Q` says of an edit `x` that, run from `s`, it leaves a result and an editor with `Q`; where `fails`
holds it may also stop with an error. Each edit of a coherent editor has one rule: it says what the block is afterwards
and that the editor is coherent again. The only error that these rules leave open is that of values whose types do not
fit (`ensures_replaceUses`), as types may be out of date while a block is being edited, and that of ids that have run out
(`ensures_insertOp`).
-/

namespace Relayout

open Editor

/-! ## Runs -/

section Ensures

variable {α β : Type} {fails : Prop} {s : Editor}

/-- The run of an edit ends with `Q`, or stops where that may happen. -/
def Ensures (fails : Prop) (x : Edit α) (s : Editor) (Q : α → Editor → Prop) : Prop :=
  match x.run s with
  | .ok a t => Q a t
  | .error _ _ => fails

theorem ensures_of_ends {x : Edit α} {Q : α → Editor → Prop} (h : Ends (fun _ _ => fails) x s Q) : Ensures fails x s Q := h

theorem Ensures.bind {x : Edit α} {f : α → Edit β} {Q : β → Editor → Prop}
    (h : Ensures fails x s fun a t => Ensures fails (f a) t Q) : Ensures fails (x >>= f) s Q :=
  ensures_of_ends (Ends.bind h)

theorem ensures_pure {a : α} {Q : α → Editor → Prop} (h : Q a s) : Ensures fails (pure a : Edit α) s Q := h

theorem ensures_get {Q : Editor → Editor → Prop} (h : Q s s) : Ensures fails (get : Edit Editor) s Q := h

theorem ensures_modifyBlock {f : Block → Block} {Q : Unit → Editor → Prop} (h : Q () ⟨f s.block, s.index⟩) :
    Ensures fails (modifyBlock f) s Q := h

theorem ensures_updateIndex {step : UseIndex → Except IndexError UseIndex} {x : UseIndex} {Q : Unit → Editor → Prop}
    (hx : step s.index = .ok x) (h : Q () ⟨s.block, x⟩) : Ensures fails (updateIndex step) s Q := by
  refine Ensures.bind (ensures_get ?_)
  rw [hx]
  exact h

/-- A run that cannot fail has a result. -/
theorem Ensures.exists_ok {x : Edit α} {Q : α → Editor → Prop} (h : Ensures False x s Q) :
    ∃ a t, x.run s = .ok a t ∧ Q a t := by
  unfold Ensures at h
  cases hx : x.run s with
  | ok a t => rw [hx] at h; exact ⟨a, t, rfl, h⟩
  | error e t => rw [hx] at h; exact h.elim

theorem Ensures.of_ok {x : Edit α} {Q : α → Editor → Prop} (h : Ensures fails x s Q) {a : α} {t : Editor}
    (hx : x.run s = .ok a t) : Q a t := by
  unfold Ensures at h
  rw [hx] at h
  exact h

theorem Ensures.imp {x : Edit α} {Q Q' : α → Editor → Prop} (h : Ensures fails x s Q) (hQ : ∀ a t, Q a t → Q' a t) :
    Ensures fails x s Q' := by
  unfold Ensures at h ⊢
  split at h
  · exact hQ _ _ h
  · exact h

theorem ensures_trivial (x : Edit α) (s : Editor) : Ensures True x s fun _ _ => True := by
  unfold Ensures
  split <;> trivial

end Ensures

/-! ## Queries and checks -/

section Queries

variable {fails : Prop} {s : Editor} {l r : List Operation} {o : Operation}

theorem ensures_position (hpos : s.index.position? o.id = some l.length) {Q : Nat → Editor → Prop}
    (hQ : Q l.length s) : Ensures fails (position o.id) s Q := by
  refine Ensures.bind (ensures_get ?_)
  rw [hpos]
  exact hQ

theorem ensures_operation (hpos : s.index.position? o.id = some l.length) (heq : s.block.operations = l ++ o :: r)
    {Q : Operation → Editor → Prop} (hQ : Q o s) : Ensures fails (operation o.id) s Q := by
  refine Ensures.bind (ensures_position hpos (Ensures.bind (ensures_get ?_)))
  rw [heq, List.getElem?_append_right (Nat.le_refl _), Nat.sub_self, List.getElem?_cons_zero]
  exact hQ

theorem ensures_value {id : ValueId} {v : Value} (hv : s.block.value? id = some v) {Q : Value → Editor → Prop}
    (hQ : Q v s) : Ensures fails (value id) s Q := by
  refine Ensures.bind (ensures_get ?_)
  rw [hv]
  exact hQ

theorem ensures_checkAvailable [IdSpace] (h : Coherent s) (heq : s.block.operations = l ++ r) {id : ValueId}
    (hid : id ∈ s.block.inputs ++ results l) {Q : Unit → Editor → Prop} (hQ : Q () s) :
    Ensures fails (checkAvailable id l.length) s Q :=
  ensures_of_ends (ends_checkAvailable (absurd ((h.agrees.availableFrom h.sound heq).2 hid)) fun _ => hQ)

end Queries

/-! ## Operands and outputs -/

section Operands

variable {fails : Prop} {R : EditError → Editor → Prop} {s : Editor} {l r : List Operation} {o : Operation}

theorem mem_substitute {old new v : ValueId} {ids : List ValueId} :
    v ∈ substitute old new ids ↔ (v = new ∧ old ∈ ids) ∨ (v ≠ old ∧ v ∈ ids) := by
  rw [substitute, List.mem_map]
  constructor
  · rintro ⟨w, hw, rfl⟩
    split
    · rename_i he
      exact .inl ⟨rfl, he ▸ hw⟩
    · rename_i hne
      exact .inr ⟨hne, hw⟩
  · rintro (⟨rfl, hold⟩ | ⟨hne, hv⟩)
    · exact ⟨old, hold, by simp⟩
    · exact ⟨v, hv, by simp [hne]⟩

theorem getElem?_substitute {old new : ValueId} {ids : List ValueId} {i : Nat} :
    (substitute old new ids)[i]? = (ids[i]?).map fun v => if v = old then new else v := by
  rw [substitute, List.getElem?_map]

theorem substitute_of_not_mem {old new : ValueId} {ids : List ValueId} (h : old ∉ ids) :
    substitute old new ids = ids := by
  rw [substitute]
  refine (List.map_congr_left fun v hv => ?_).trans (List.map_id ids)
  simp only [id, ite_eq_right_iff]
  rintro rfl
  exact absurd hv h

theorem ensures_modifyOp (heq : s.block.operations = l ++ o :: r) {f : Operation → Operation}
    {Q : Unit → Editor → Prop} (hQ : Q () ⟨s.block.rewired (l ++ f o :: r) s.block.outputs, s.index⟩) :
    Ensures fails (modifyOp l.length f) s Q := by
  refine ensures_modifyBlock ?_
  rw [heq, modify_append]
  exact hQ

theorem Coherent.isDefined [IdSpace] (h : Coherent s) {v : ValueId} (hv : v ∈ s.block.defined) : s.index.isDefined v :=
  h.agrees.isDefined.2 hv

theorem mem_defined_of_scope (heq : s.block.operations = l ++ r) {v : ValueId}
    (hv : v ∈ s.block.inputs ++ results l) : v ∈ s.block.defined := by
  rw [Block.defined_eq, heq, results_append, ← List.append_assoc]
  exact List.mem_append_left _ hv

/-- An operation is listed as a user of what it reads. -/
theorem Coherent.mem_usersOf [IdSpace] (h : Coherent s) (ho : o ∈ s.block.operations) {value : ValueId} :
    o.id ∈ s.index.usersOf value ↔ value ∈ o.inputs := by
  rw [h.agrees.users]
  constructor
  · rintro ⟨p, hp, he, hv⟩
    rw [← h.sound.op_ext hp ho he]
    exact hv
  · exact fun hv => ⟨o, ho, rfl, hv⟩

/-- An operation reads `new` where it read `old`. The index takes it for a user of `new`, so it must be one then. -/
theorem Coherent.substituteOp [IdSpace] (h : Coherent s) (heq : s.block.operations = l ++ o :: r) {old new : ValueId}
    (hreads : new ∈ (o.substitute old new).inputs) (hnew : new ∈ s.block.inputs ++ results l) :
    Coherent ⟨s.block.rewired (l ++ o.substitute old new :: r) s.block.outputs, { s.index with
      users := UseIndex.addUser (UseIndex.removeUser s.index.users old o.id) new o.id }⟩ := by
  have huser : ∀ value, o.id ∈ s.index.usersOf value ↔ value ∈ o.inputs := fun value => h.mem_usersOf (by simp [heq])
  refine h.rewireOp heq (fun v hv => ?_) (fun value op => ?_) fun value => ?_
  · rcases mem_substitute.1 hv with ⟨rfl, _⟩ | ⟨_, hv⟩
    · exact hnew
    · exact h.sound.operand_scope heq hv
  · have huser := huser value
    rw [UseIndex.usersOf_eq] at huser ⊢
    have hall := mem_substitute (v := new).1 hreads
    rw [UseIndex.mem_addUser, UseIndex.mem_removeUser, mem_substitute]
    by_cases hop : op = o.id
    · subst hop
      simp only [huser, and_true, true_and, not_true, false_and, or_false, ne_eq]
      constructor
      · rintro (⟨hv, hne⟩ | rfl)
        · exact .inr ⟨hne, hv⟩
        · exact hall
      · tauto
    · simp [hop]
  · exact UseIndex.nodup_addUser fun v => UseIndex.nodup_removeUser h.agrees.usersOnce

/-- Wherever `old` is in scope, `new` is. -/
def Block.Dominates (b : Block) (new old : ValueId) : Prop :=
  ∀ n, old ∈ b.inputs ++ results (b.operations.take n) → new ∈ b.inputs ++ results (b.operations.take n)

theorem Block.Dominates.mem {b : Block} {new old : ValueId} (h : b.Dominates new old)
    (heq : b.operations = l ++ r) (hin : old ∈ b.inputs ++ results l) : new ∈ b.inputs ++ results l := by
  have := h l.length
  rw [heq, List.take_left] at this
  exact this hin

/-- The operand of an operation is in scope wherever its result is. -/
theorem Block.Sound.dominates {b : Block} (hs : b.Sound) {o : Operation} (ho : o ∈ b.operations) {x y : ValueId}
    (hx : x ∈ o.inputs) (hy : y ∈ o.outputs) : b.Dominates x y := by
  intro n hin
  have hres : y ∈ results (b.operations.take n) := by
    rcases List.mem_append.1 hin with hin | hin
    · exact absurd hin (hs.input_not_output ho hy)
    · exact hin
  obtain ⟨p, hp, hyp⟩ := mem_results.1 hres
  rw [hs.producer_ext (List.mem_of_mem_take hp) ho hyp hy] at hp
  obtain ⟨l, r, heq⟩ := List.append_of_mem hp
  have hx' := hs.operand_scope (by rw [← List.take_append_drop n b.operations, heq, List.append_assoc]; rfl) hx
  rw [heq, results_append]
  simp only [List.mem_append] at hx' ⊢
  tauto

/-- A block in which some operations read `new` in place of `old`. -/
def Block.substituteIn (b : Block) (ids : List OpId) (old new : ValueId) : Block :=
  b.rewired (b.operations.map fun o => if o.id ∈ ids then o.substitute old new else o) b.outputs

theorem Block.substituteIn_nil {b : Block} {old new : ValueId} : b.substituteIn [] old new = b := by
  simp only [substituteIn, List.not_mem_nil, if_false, List.map_id']
  rfl

theorem Block.substituteIn_cons {b : Block} (honce : (b.operations.map (·.id)).Nodup) (heq : b.operations = l ++ o :: r)
    {ids : List OpId} (hnot : o.id ∉ ids) {old new : ValueId} :
    (b.rewired (l ++ o.substitute old new :: r) b.outputs).substituteIn ids old new =
      b.substituteIn (o.id :: ids) old new := by
  rw [heq, nodup_ids_middle] at honce
  rw [substituteIn, substituteIn, rewired_rewired, rewired_outputs, rewired_operations]
  congr 1
  have hsub : (o.substitute old new).id = o.id := rfl
  rw [heq, List.map_append, List.map_append, List.map_cons, List.map_cons, hsub, if_neg hnot, if_pos List.mem_cons_self]
  congr 1
  · refine List.map_congr_left fun p hp => ?_
    simp [honce.1 p (List.mem_append_left _ hp)]
  · congr 1
    refine List.map_congr_left fun p hp => ?_
    simp [honce.1 p (List.mem_append_right _ hp)]

theorem ends_replaceUsesInAll [IdSpace] {old new : ValueId} (hne : old ≠ new) {ids : List OpId} (hnd : ids.Nodup) :
    ∀ {s : Editor}, Coherent s → s.block.Fits old new → (∀ id ∈ ids, ∃ o ∈ s.block.operations, o.id = id ∧ old ∈ o.inputs) →
    ∀ {Q : Unit → Editor → Prop}, ((¬∀ id ∈ ids, s.AvailableTo new id) → ∀ e t, Coherent t → R e t) →
    ((∀ id ∈ ids, s.AvailableTo new id) → ∀ x, Coherent ⟨s.block.substituteIn ids old new, x⟩ →
      Q () ⟨s.block.substituteIn ids old new, x⟩) → Ends R (replaceUsesInAll old new ids) s Q := by
  induction ids with
  | nil =>
    intro s h _ _ Q _ hQ
    have := hQ (by simp) s.index
    rw [Block.substituteIn_nil] at this
    exact this h
  | cons id ids ih =>
    intro s h hfit husers Q hstop hQ
    rw [List.nodup_cons] at hnd
    have hhead : ¬(s.block.Fits old new ∧ s.AvailableTo new id) → ∀ e, R e s := fun hnot e =>
      hstop (fun hall => hnot ⟨hfit, hall id List.mem_cons_self⟩) e s h
    refine Ends.bind (h.anchored.ends_replaceUsesIn hne hhead fun _ l o r heq hid havail => ?_)
    subst hid
    have hat : s.AvailableTo new o.id := ⟨l.length, h.agrees.position_of_append heq, havail⟩
    have hold : old ∈ o.inputs := by
      obtain ⟨p, hp, hid, hold⟩ := husers o.id List.mem_cons_self
      rwa [← h.sound.op_ext hp (by simp [heq]) hid]
    have hnext := h.substituteOp heq (mem_substitute.2 (.inl ⟨rfl, hold⟩))
      ((h.agrees.availableFrom h.sound heq).1 havail)
    -- Positions and definitions are as before, so what may be read where is, too.
    refine ih hnd.2 hnext hfit (fun id hid => ?_)
      (fun hnot => hstop fun hall => hnot fun i hi => hall i (List.mem_cons_of_mem _ hi)) fun hall x hx => ?_
    · obtain ⟨p, hp, rfl, hpold⟩ := husers id (List.mem_cons_of_mem _ hid)
      refine ⟨p, ?_, rfl, hpold⟩
      rw [heq] at hp
      simp only [Block.rewired_operations, List.mem_append, List.mem_cons] at hp ⊢
      rcases hp with hp | rfl | hp
      · exact .inl hp
      · exact absurd hid hnd.1
      · exact .inr (.inr hp)
    · rw [Block.substituteIn_cons h.sound.opsOnce heq hnd.1] at hx ⊢
      exact hQ (List.forall_mem_cons.2 ⟨hat, hall⟩) x hx

/-- The block returns other values. -/
theorem Coherent.setOutputs [IdSpace] (h : Coherent s) {outputs : List ValueId} (houts : ∀ v ∈ outputs, v ∈ s.block.defined) :
    Coherent ⟨s.block.rewired s.block.operations outputs, s.index⟩ :=
  h.rewire rfl h.sound.scopes houts h.agrees.users h.agrees.usersOnce

/-- A block in which `new` is read and returned in place of `old`. -/
def Block.substitute (b : Block) (old new : ValueId) : Block :=
  b.rewired (b.operations.map (Operation.substitute old new)) (Editor.substitute old new b.outputs)

/-- To replace uses in those that have them is to replace them everywhere. -/
theorem Coherent.substituteIn_usersOf [IdSpace] (h : Coherent s) (old new : ValueId) :
    s.block.substituteIn (s.index.usersOf old) old new =
      s.block.rewired (s.block.operations.map (Operation.substitute old new)) s.block.outputs := by
  rw [Block.substituteIn]
  congr 1
  refine List.map_congr_left fun o ho => ?_
  split
  · rfl
  · rename_i hnot
    have hold : old ∉ o.inputs := fun hold => hnot ((h.agrees.users old o.id).2 ⟨o, ho, rfl, hold⟩)
    rw [Operation.substitute, substitute_of_not_mem hold]

theorem results_substitute (old new : ValueId) (ops : List Operation) :
    results (ops.map (Operation.substitute old new)) = results ops :=
  results_of_defines (by simp [Operation.defines, Operation.substitute, Function.comp_def])

/-- What is returned once `new` stands for `old` is defined. -/
theorem Block.Sound.substituted_defined {b : Block} (hs : b.Sound) {old new : ValueId} (hdef : new ∈ b.defined)
    {v : ValueId} (hv : v ∈ Editor.substitute old new b.outputs) : v ∈ b.defined := by
  rcases mem_substitute.1 hv with ⟨rfl, _⟩ | ⟨_, hv⟩
  · exact hdef
  · exact hs.outputsDefined v hv

theorem Block.substitute_self (b : Block) (v : ValueId) : b.substitute v v = b := by
  have hids : ∀ ids : List ValueId, Editor.substitute v v ids = ids := fun ids => by
    rw [Editor.substitute]
    refine (List.map_congr_left fun w _ => ?_).trans (List.map_id ids)
    split
    · rename_i he
      exact he.symm
    · rfl
  have hops : b.operations.map (Operation.substitute v v) = b.operations :=
    (List.map_congr_left fun o _ => by rw [Operation.substitute, hids]; rfl).trans (List.map_id _)
  rw [Block.substitute, hops, hids]
  rfl

theorem Block.Sound.defined_of_fits {b : Block} (hs : b.Sound) {old new : ValueId} (hfit : b.Fits old new) :
    new ∈ b.defined := by
  obtain ⟨_, _, q, hq, _⟩ := hfit
  obtain ⟨r, hr, _⟩ := Option.map_eq_some_iff.1 hq
  exact (hs.recorded new).2 (List.mem_map.2 ⟨r, Block.mem_of_value? hr⟩)

/-- All uses are replaced, or none if the values do not fit. At a reader to which the new value is not available, the run stops
half way, with a coherent editor. -/
theorem Coherent.ends_replaceUses [IdSpace] (h : Coherent s) {old new : ValueId} {Q : Unit → Editor → Prop}
    (hstop : ¬(old = new ∨ s.block.Fits old new ∧ ∀ id ∈ s.index.usersOf old, s.AvailableTo new id) →
      ∀ e t, Coherent t → R e t)
    (hQ : (old = new ∨ s.block.Fits old new ∧ ∀ id ∈ s.index.usersOf old, s.AvailableTo new id) →
      ∀ x, Coherent ⟨s.block.substitute old new, x⟩ → Q () ⟨s.block.substitute old new, x⟩) :
    Ends R (replaceUses old new) s Q := by
  rw [replaceUses]
  split
  · rename_i he
    subst he
    have := hQ (.inl rfl) s.index
    rw [Block.substitute_self] at this
    exact this h
  · rename_i hne
    refine Ends.bind (ends_checkReplaceable (fun hnot e => hstop (fun hok => ?_) e s h) fun hfit => ?_)
    · exact hnot (hok.resolve_left hne).1
    refine Ends.bind (ends_get (Ends.bind ?_))
    refine ends_replaceUsesInAll hne (h.agrees.usersOnce old) h hfit (fun id hid => (h.agrees.users old id).1 hid)
      (fun hnot => hstop fun hok => hnot (hok.resolve_left hne).2) fun hall x hx => ?_
    rw [h.substituteIn_usersOf] at hx ⊢
    refine ends_modifyBlock (hQ (.inr ⟨hfit, hall⟩) x (hx.setOutputs fun v hv => ?_))
    rw [Block.defined_eq, Block.rewired_inputs, Block.rewired_operations, results_substitute]
    exact h.sound.substituted_defined (h.sound.defined_of_fits hfit) hv

/-- By a coherent index, a value is available to its readers where it is in scope. -/
theorem Coherent.availableTo_iff [IdSpace] (h : Coherent s) {old new : ValueId} :
    (∀ id ∈ s.index.usersOf old, s.AvailableTo new id) ↔
    ∀ before o after, s.block.operations = before ++ o :: after → old ∈ o.inputs →
      new ∈ s.block.inputs ++ before.flatMap (·.outputs) := by
  constructor
  · intro hall before o after heq hold
    obtain ⟨pos, hpos, havail⟩ := hall o.id ((h.mem_usersOf (by simp [heq])).2 hold)
    rw [h.agrees.position_of_append heq] at hpos
    obtain rfl := Option.some.inj hpos
    exact (h.agrees.availableFrom h.sound heq).1 havail
  · intro hall id hid
    obtain ⟨o, ho, rfl, hold⟩ := (h.agrees.users old id).1 hid
    obtain ⟨before, after, heq⟩ := List.append_of_mem ho
    exact ⟨before.length, h.agrees.position_of_append heq,
      (h.agrees.availableFrom h.sound heq).2 (hall before o after heq hold)⟩

/-- Readers of one value read another, which is in scope wherever the first is. -/
theorem ensures_replaceUses [IdSpace] (h : Coherent s) {old new : ValueId} (hdom : s.block.Dominates new old) {a b : TensorType}
    (ha : s.block.type? old = some a) (hb : s.block.type? new = some b) (hfit : a.compatible b ∨ fails)
    {Q : Unit → Editor → Prop}
    (hQ : ∀ x, Coherent ⟨s.block.substitute old new, x⟩ → Q () ⟨s.block.substitute old new, x⟩) :
    Ensures fails (replaceUses old new) s Q := by
  refine ensures_of_ends (h.ends_replaceUses (fun hnot _ _ _ => hfit.resolve_left fun hab => hnot ?_) fun _ => hQ)
  refine .inr ⟨⟨a, ha, b, hb, hab⟩, h.availableTo_iff.2 fun before o after heq hold => ?_⟩
  exact hdom.mem heq (h.sound.operand_scope heq hold)

theorem mem_set_iff {ids : List ValueId} {slot : Nat} {old new v : ValueId} (hold : ids[slot]? = some old) :
    v ∈ ids.set slot new ↔ v = new ∨ (v ∈ ids ∧ (v = old → old ∈ ids.set slot new)) := by
  have hlt : slot < ids.length := (List.getElem?_eq_some_iff.1 hold).1
  constructor
  · intro hv
    rcases List.mem_or_eq_of_mem_set hv with h | h
    · exact .inr ⟨h, fun he => he ▸ hv⟩
    · exact .inl h
  · rintro (rfl | ⟨hv, himp⟩)
    · exact List.mem_set hlt v
    · by_cases he : v = old
      · exact he ▸ himp he
      · obtain ⟨j, hj⟩ := List.mem_iff_getElem?.1 hv
        have hne : slot ≠ j := fun h => he (by rw [← h, hold] at hj; exact (Option.some.inj hj).symm)
        exact List.mem_iff_getElem?.2 ⟨j, by rw [List.getElem?_set_ne hne]; exact hj⟩

/-- An operation reads `id` in one of its slots. -/
theorem Coherent.setOperand [IdSpace] (h : Coherent s) (heq : s.block.operations = l ++ o :: r) {slot : Nat} {old id : ValueId}
    (hold : o.inputs[slot]? = some old) (hid : id ∈ s.block.inputs ++ results l) :
    Coherent ⟨s.block.rewired (l ++ { o with inputs := o.inputs.set slot id } :: r) s.block.outputs, { s.index with
      users := UseIndex.addUser (if (o.inputs.set slot id).contains old then s.index.users
        else UseIndex.removeUser s.index.users old o.id) id o.id }⟩ := by
  have huser : ∀ value, o.id ∈ s.index.usersOf value ↔ value ∈ o.inputs := fun value => h.mem_usersOf (by simp [heq])
  refine h.rewireOp heq (fun w hw => ?_) (fun value op => ?_) fun value => ?_
  · rcases List.mem_or_eq_of_mem_set hw with hw | rfl
    · exact h.sound.operand_scope heq hw
    · exact hid
  · have huser := huser value
    rw [UseIndex.usersOf_eq] at huser ⊢
    rw [UseIndex.mem_addUser, mem_set_iff hold]
    by_cases hused : old ∈ o.inputs.set slot id
    · rw [if_pos (by simpa using hused)]
      by_cases hop : op = o.id
      · subst hop
        simp only [huser, hused, and_true, true_and, not_true, false_and, or_false, ne_eq, implies_true]
        tauto
      · simp [hop]
    · rw [if_neg (by simpa using hused), UseIndex.mem_removeUser]
      by_cases hop : op = o.id
      · subst hop
        simp only [huser, hused, and_true, true_and, not_true, false_and, or_false, ne_eq, imp_false]
        tauto
      · simp [hop]
  · refine UseIndex.nodup_addUser fun v => ?_
    split
    · exact h.agrees.usersOnce v
    · exact UseIndex.nodup_removeUser h.agrees.usersOnce

theorem ensures_setInput [IdSpace] (h : Coherent s) (heq : s.block.operations = l ++ o :: r) {slot : Nat} {id : ValueId}
    (hslot : slot < o.inputs.length) (hid : id ∈ s.block.inputs ++ results l) {Q : Unit → Editor → Prop}
    (hQ : ∀ x, Coherent ⟨s.block.rewired (l ++ { o with inputs := o.inputs.set slot id } :: r) s.block.outputs, x⟩ →
      Q () ⟨s.block.rewired (l ++ { o with inputs := o.inputs.set slot id } :: r) s.block.outputs, x⟩) :
    Ensures fails (setInput o.id slot id) s Q := by
  have hpos := h.agrees.position_of_append heq
  have hdef := mem_defined_of_scope heq hid
  obtain ⟨v, hv⟩ := h.sound.exists_value hdef
  have hold : o.inputs[slot]? = some o.inputs[slot] := List.getElem?_eq_getElem hslot
  refine Ensures.bind (ensures_position hpos (Ensures.bind (ensures_value hv ?_)))
  refine Ensures.bind (ensures_checkAvailable h heq hid (Ensures.bind (ensures_operation hpos heq ?_)))
  rw [hold]
  refine Ensures.bind (ensures_modifyOp heq (Ensures.bind ?_))
  refine ensures_operation (o := { o with inputs := o.inputs.set slot id }) (l := l) (r := r) ?_ rfl ?_
  · exact hpos
  refine ensures_updateIndex (moveUse_eq_ok (h.isDefined hdef)) ?_
  exact hQ _ (h.setOperand heq hold hid)

/-- The block returns `id` in one of its slots. -/
theorem Coherent.setOutput [IdSpace] (h : Coherent s) {slot : Nat} {id : ValueId} (hid : id ∈ s.block.defined) :
    Coherent ⟨s.block.rewired s.block.operations (s.block.outputs.set slot id), s.index⟩ := by
  refine h.setOutputs fun v hv => ?_
  rcases List.mem_or_eq_of_mem_set hv with hv | rfl
  · exact h.sound.outputsDefined v hv
  · exact hid

theorem ensures_setOutput [IdSpace] (h : Coherent s) {slot : Nat} {id : ValueId} (hslot : slot < s.block.outputs.length)
    (hid : id ∈ s.block.defined) {Q : Unit → Editor → Prop}
    (hQ : ∀ x, Coherent ⟨s.block.rewired s.block.operations (s.block.outputs.set slot id), x⟩ →
      Q () ⟨s.block.rewired s.block.operations (s.block.outputs.set slot id), x⟩) :
    Ensures fails (setOutput slot id) s Q := by
  refine Ensures.bind (ensures_get ?_)
  rw [h.isDefined hid, if_neg (by simp), if_neg (by omega)]
  exact ensures_modifyBlock (hQ _ (h.setOutput hid))

/-- An operation has another kind. -/
theorem Coherent.setKind [IdSpace] (h : Coherent s) (heq : s.block.operations = l ++ o :: r) (kind : OpKind) :
    Coherent ⟨s.block.rewired (l ++ { o with kind := kind } :: r) s.block.outputs, s.index⟩ := by
  have hscope := h.sound.scopes
  rw [heq, scoped_append] at hscope
  refine h.rewire (by rw [heq]; simp [Operation.defines]) (scoped_append.2 hscope) h.sound.outputsDefined
    (fun value op => ?_) h.agrees.usersOnce
  show op ∈ s.index.usersOf value ↔ _
  rw [h.agrees.users, heq]
  simp only [List.mem_append, List.mem_cons]
  constructor
  · rintro ⟨p, hp | rfl | hp, hrest⟩
    · exact ⟨p, .inl hp, hrest⟩
    · exact ⟨_, .inr (.inl rfl), hrest⟩
    · exact ⟨p, .inr (.inr hp), hrest⟩
  · rintro ⟨p, hp | rfl | hp, hrest⟩
    · exact ⟨p, .inl hp, hrest⟩
    · exact ⟨o, .inr (.inl rfl), hrest⟩
    · exact ⟨p, .inr (.inr hp), hrest⟩

theorem ensures_setKind [IdSpace] (h : Coherent s) (heq : s.block.operations = l ++ o :: r) {kind : OpKind}
    {Q : Unit → Editor → Prop}
    (hQ : ∀ x, Coherent ⟨s.block.rewired (l ++ { o with kind := kind } :: r) s.block.outputs, x⟩ →
      Q () ⟨s.block.rewired (l ++ { o with kind := kind } :: r) s.block.outputs, x⟩) :
    Ensures fails (setKind o.id kind) s Q := by
  exact Ensures.bind (ensures_position (h.agrees.position_of_append heq) (ensures_modifyOp heq (hQ _ (h.setKind heq kind))))

/-- A list with one value in several slots. -/
def setAll (id : ValueId) (slots : List Nat) (ids : List ValueId) : List ValueId :=
  slots.foldl (fun ids slot => ids.set slot id) ids

theorem setAll_cons (id : ValueId) (slot : Nat) (slots : List Nat) (ids : List ValueId) :
    setAll id (slot :: slots) ids = setAll id slots (ids.set slot id) := rfl

@[simp] theorem length_setAll {id : ValueId} {slots : List Nat} {ids : List ValueId} :
    (setAll id slots ids).length = ids.length := by
  induction slots generalizing ids with
  | nil => rfl
  | cons slot slots ih => rw [setAll_cons, ih, List.length_set]

theorem getElem?_setAll {id : ValueId} {slots : List Nat} {ids : List ValueId} {i : Nat} (hi : i < ids.length) :
    (setAll id slots ids)[i]? = if i ∈ slots then some id else ids[i]? := by
  induction slots generalizing ids with
  | nil => simp [setAll]
  | cons slot slots ih =>
    rw [setAll_cons, ih (by simpa using hi)]
    by_cases hslots : i ∈ slots
    · simp [hslots]
    · by_cases hslot : i = slot
      · subst hslot
        simp [hslots, hi]
      · rw [if_neg hslots, if_neg (by simp [hslot, hslots]), List.getElem?_set_ne (Ne.symm hslot)]

theorem ensures_setInputs [IdSpace] {slots : List Nat} {id : ValueId} :
    ∀ {s : Editor} {o : Operation}, Coherent s → s.block.operations = l ++ o :: r →
    (∀ slot ∈ slots, slot < o.inputs.length) → id ∈ s.block.inputs ++ results l → ∀ {Q : Unit → Editor → Prop},
    (∀ x, Coherent ⟨s.block.rewired (l ++ { o with inputs := setAll id slots o.inputs } :: r) s.block.outputs, x⟩ →
      Q () ⟨s.block.rewired (l ++ { o with inputs := setAll id slots o.inputs } :: r) s.block.outputs, x⟩) →
    Ensures fails (setInputs o.id id slots) s Q := by
  induction slots with
  | nil =>
    intro s o h heq _ _ Q hQ
    have hnil : s.block.rewired (l ++ { o with inputs := setAll id [] o.inputs } :: r) s.block.outputs = s.block := by
      rw [setAll, List.foldl_nil, ← heq]
      rfl
    rw [hnil] at hQ
    exact hQ s.index h
  | cons slot slots ih =>
    intro s o h heq hslots hid Q hQ
    refine Ensures.bind (ensures_setInput h heq (hslots slot List.mem_cons_self) hid fun x hx => ?_)
    exact ih (o := { o with inputs := o.inputs.set slot id }) hx rfl
      (fun j hj => by simpa using hslots j (List.mem_cons_of_mem _ hj)) hid hQ

theorem ensures_setOutputs [IdSpace] {slots : List Nat} {id : ValueId} :
    ∀ {s : Editor}, Coherent s → (∀ slot ∈ slots, slot < s.block.outputs.length) → id ∈ s.block.defined →
    ∀ {Q : Unit → Editor → Prop},
    (∀ x, Coherent ⟨s.block.rewired s.block.operations (setAll id slots s.block.outputs), x⟩ →
      Q () ⟨s.block.rewired s.block.operations (setAll id slots s.block.outputs), x⟩) →
    Ensures fails (setOutputs id slots) s Q := by
  induction slots with
  | nil => exact fun h _ _ Q hQ => hQ _ h
  | cons slot slots ih =>
    intro s h hslots hid Q hQ
    refine Ensures.bind (ensures_setOutput h (hslots slot List.mem_cons_self) hid fun x hx => ?_)
    exact ih hx (fun j hj => by simpa using hslots j (List.mem_cons_of_mem _ hj)) hid hQ

end Operands

/-! ## Names -/

section Names

variable {fails : Prop} {s : Editor}

theorem Block.Sound.setName_self {b : Block} (h : b.Sound) {r : Value} (hr : b.value? r.id = some r) :
    b.setName r.id r.name = b := by
  have hmap : Records.modify r.id ({ · with name := r.name }) b.values = b.values := by
    rw [Records.modify]
    refine (List.map_congr_left fun t ht => ?_).trans (List.map_id b.values)
    split
    · rename_i he
      have : some t = some r := by rw [← hr, (Block.value?_eq_some h.sorted).2 ⟨ht, he⟩]
      rw [Option.some.inj this]
      rfl
    · rfl
  rw [Block.setName, hmap]

theorem ensures_renameValue [IdSpace] (h : Coherent s) {id : ValueId} {r : Value} {name : String}
    (hr : s.block.value? id = some r) (hname : name = r.name ∨ name ∉ s.block.values.map (·.name))
    {Q : Unit → Editor → Prop}
    (hQ : ∀ x, Coherent ⟨s.block.setName id name, x⟩ → Q () ⟨s.block.setName id name, x⟩) :
    Ensures fails (renameValue id name) s Q := by
  refine Ensures.bind (ensures_value hr ?_)
  obtain ⟨hmem, rfl⟩ := Block.mem_of_value? hr
  dsimp only
  by_cases he : r.name = name
  · subst he
    rw [h.sound.setName_self hr] at hQ
    rw [if_pos rfl]
    exact hQ _ h
  · have hfree : name ∉ s.block.values.map (·.name) := hname.resolve_left (Ne.symm he)
    have hnot : s.index.names.contains name = false := by
      rw [← Bool.not_eq_true, h.agrees.contains_names]
      exact hfree
    rw [if_neg he]
    refine Ensures.bind (ensures_updateIndex (by rw [UseIndex.rename, hnot]; rfl) ?_)
    exact ensures_modifyBlock (hQ _ (h.rename hr hfree))

/-- A fresh name is not taken. -/
theorem Coherent.freshName_free [IdSpace] (h : Coherent s) (base : String) :
    s.freshName base ∉ s.block.values.map (·.name) := by
  rw [← h.agrees.mem_names]
  exact freshName_not_mem _ _

/-- A name is free once its value has another. -/
theorem Coherent.free_after_rename [IdSpace] (h : Coherent s) {id : ValueId} {r : Value} {name : String}
    (hr : s.block.value? id = some r) (hfree : name ∉ s.block.values.map (·.name)) :
    r.name ∉ (s.block.setName id name).values.map (·.name) := by
  obtain ⟨hmem, hid⟩ := Block.mem_of_value? hr
  simp only [Block.setName, Records.modify, List.map_map, List.mem_map, Function.comp, not_exists, not_and]
  intro u hu hun
  split at hun
  · exact hfree (List.mem_map.2 ⟨r, hmem, hun.symm⟩)
  · rename_i hne
    exact hne ((congrArg (·.id) (List.inj_on_of_nodup_map h.sound.names hu hmem hun)).trans hid)

theorem ensures_transferName [IdSpace] (h : Coherent s) {source target : ValueId} {r t : Value}
    (hr : s.block.value? source = some r) (ht : s.block.value? target = some t) {Q : Unit → Editor → Prop}
    (hQ : ∀ x, Coherent ⟨(s.block.setName source (s.freshName (r.name ++ "_old"))).setName target r.name, x⟩ →
      Q () ⟨(s.block.setName source (s.freshName (r.name ++ "_old"))).setName target r.name, x⟩) :
    Ensures fails (transferName source target) s Q := by
  refine Ensures.bind (ensures_value hr (Ensures.bind (ensures_get ?_)))
  have hfree := h.freshName_free (r.name ++ "_old")
  refine Ensures.bind (ensures_renameValue h hr (.inr hfree) fun x hx => ?_)
  have ht' : (s.block.setName source (s.freshName (r.name ++ "_old"))).value? target =
      some (if target = source then { t with name := s.freshName (r.name ++ "_old") } else t) := by
    rw [Block.value?_setName, ht]
    rfl
  exact ensures_renameValue hx ht' (.inr (h.free_after_rename hr hfree)) hQ

end Names

/-! ## Insertion and removal -/

section Insertion

variable {fails : Prop} {s : Editor} {l r : List Operation} {o : Operation}

theorem ensures_insertOp [IdSpace] (hspace : IdSpace.Unbounded ∨ fails) (h : Coherent s)
    (heq : s.block.operations = l ++ r) {kind : OpKind}
    {inputs : List ValueId} {outputs : List (String × TensorType)}
    (hins : ∀ v ∈ inputs, v ∈ s.block.inputs ++ results l) (hnames : (outputs.map (·.1)).Nodup)
    (hfree : ∀ name ∈ outputs.map (·.1), name ∉ s.block.values.map (·.name)) {Q : OpId × List ValueId → Editor → Prop}
    (hQ : ∀ x, Coherent ⟨s.block.withOp l r (s.newOp kind inputs outputs.length) outputs, x⟩ →
      Q ((s.newOp kind inputs outputs.length).id, (s.newOp kind inputs outputs.length).outputs)
        ⟨s.block.withOp l r (s.newOp kind inputs outputs.length) outputs, x⟩) :
    Ensures fails (insertOp l.length kind inputs outputs) s Q := by
  refine ensures_of_ends (h.anchored.ends_insertOp (fun hnot => absurd ?_ hnot) (fun hfull => ?_) (fun htaken _ => ?_)
    (fun hlt => ?_) ?_)
  · exact fun v hv => (h.agrees.availableFrom h.sound heq).2 (hins v hv)
  · exact hspace.resolve_left fun hids => hfull ⟨hids.admits _, hids.admits _⟩
  · obtain ⟨name, hname, htaken⟩ := htaken
    exact absurd (h.agrees.contains_names.1 htaken) (hfree name hname)
  · simp [heq] at hlt
  · intro l' r' heq' hlen _ hroom _
    obtain ⟨rfl, rfl⟩ := List.append_inj (heq'.symm.trans heq) hlen
    exact hQ _ (h.insert heq hins hnames hfree hroom)

theorem ensures_insertBefore [IdSpace] (hspace : IdSpace.Unbounded ∨ fails) (h : Coherent s)
    (heq : s.block.operations = l ++ o :: r) {kind : OpKind}
    {inputs : List ValueId} {outputs : List (String × TensorType)}
    (hins : ∀ v ∈ inputs, v ∈ s.block.inputs ++ results l) (hnames : (outputs.map (·.1)).Nodup)
    (hfree : ∀ name ∈ outputs.map (·.1), name ∉ s.block.values.map (·.name)) {Q : OpId × List ValueId → Editor → Prop}
    (hQ : ∀ x, Coherent ⟨s.block.withOp l (o :: r) (s.newOp kind inputs outputs.length) outputs, x⟩ →
      Q ((s.newOp kind inputs outputs.length).id, (s.newOp kind inputs outputs.length).outputs)
        ⟨s.block.withOp l (o :: r) (s.newOp kind inputs outputs.length) outputs, x⟩) :
    Ensures fails (insertBefore o.id kind inputs outputs) s Q :=
  Ensures.bind (ensures_position (h.agrees.position_of_append heq) (ensures_insertOp hspace h heq hins hnames hfree hQ))

theorem ensures_append [IdSpace] (hspace : IdSpace.Unbounded ∨ fails) (h : Coherent s) {kind : OpKind} {inputs : List ValueId}
    {outputs : List (String × TensorType)} (hins : ∀ v ∈ inputs, v ∈ s.block.defined)
    (hnames : (outputs.map (·.1)).Nodup) (hfree : ∀ name ∈ outputs.map (·.1), name ∉ s.block.values.map (·.name))
    {Q : OpId × List ValueId → Editor → Prop}
    (hQ : ∀ x, Coherent ⟨s.block.withOp s.block.operations [] (s.newOp kind inputs outputs.length) outputs, x⟩ →
      Q ((s.newOp kind inputs outputs.length).id, (s.newOp kind inputs outputs.length).outputs)
        ⟨s.block.withOp s.block.operations [] (s.newOp kind inputs outputs.length) outputs, x⟩) :
    Ensures fails (append kind inputs outputs) s Q :=
  Ensures.bind (ensures_get (ensures_insertOp hspace h (List.append_nil _).symm hins hnames hfree hQ))

/-- Nothing is in the way of a removal if nothing reads or returns the results. -/
theorem Coherent.obstacle?_eq_none [IdSpace] (h : Coherent s) : s.obstacle? o = none ↔ s.block.Dead o := by
  rw [Editor.obstacle?, List.findSome?_eq_none_iff, Block.Dead]
  refine forall₂_congr fun v _ => ?_
  have husers : s.index.usersOf v = [] ↔ ∀ p ∈ s.block.operations, v ∉ p.inputs := by
    rw [List.eq_nil_iff_forall_not_mem]
    constructor
    · exact fun hnone p hp hv => hnone p.id ((h.agrees.users v p.id).2 ⟨p, hp, rfl, hv⟩)
    · intro hnone id hid
      obtain ⟨p, hp, _, hv⟩ := (h.agrees.users v id).1 hid
      exact hnone p hp hv
  rw [← husers]
  by_cases hout : v ∈ s.block.outputs
  · simp [hout]
  · cases hu : s.index.usersOf v with
    | nil => simp [hout]
    | cons id ids => simp [hout]

theorem ensures_removeOp [IdSpace] (h : Coherent s) (heq : s.block.operations = l ++ o :: r) (hdead : s.block.Dead o)
    {Q : Unit → Editor → Prop}
    (hQ : ∀ x, Coherent ⟨s.block.withoutOp l r o, x⟩ → Q () ⟨s.block.withoutOp l r o, x⟩) :
    Ensures fails (removeOp o.id) s Q := by
  refine ensures_of_ends (h.anchored.ends_removeOp (fun hnot => ?_) (fun p hp hid e he => ?_) ?_)
  · simp [heq] at hnot
  · rw [h.sound.op_ext hp (by simp [heq]) hid, h.obstacle?_eq_none.2 hdead] at he
    cases he
  · intro l' p r' heq' hid _
    obtain ⟨rfl, rfl, rfl⟩ := h.anchored.split_ext heq heq' hid
    exact hQ _ (h.remove heq hdead)

/-- An operation is removed if nothing reads or returns its results, and otherwise stays. -/
theorem ensures_eraseIfDead [IdSpace] (h : Coherent s) (heq : s.block.operations = l ++ o :: r) {Q : Bool → Editor → Prop}
    (hkeep : ¬s.block.Dead o → Q false s)
    (hQ : s.block.Dead o → ∀ x, Coherent ⟨s.block.withoutOp l r o, x⟩ → Q true ⟨s.block.withoutOp l r o, x⟩) :
    Ensures fails (eraseIfDead o.id) s Q := by
  refine Ensures.bind (ensures_operation (h.agrees.position_of_append heq) heq (Ensures.bind (ensures_get ?_)))
  by_cases hdead : s.block.Dead o
  · rw [h.obstacle?_eq_none.2 hdead, if_neg (by simp)]
    exact Ensures.bind (ensures_removeOp h heq hdead fun x hx => hQ hdead x hx)
  · have hsome : (s.obstacle? o).isSome := by
      rw [Option.isSome_iff_ne_none, ne_eq, h.obstacle?_eq_none]
      exact hdead
    rw [if_pos hsome]
    exact hkeep hdead

end Insertion

end Relayout
