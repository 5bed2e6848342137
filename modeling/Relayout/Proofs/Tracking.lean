import Relayout.Layout.Splice
import Relayout.Proofs.Edits
import Relayout.Proofs.Region

/-!
# A block while a region is taken out of it

Taking a region out of a block is a long run of edits, and what a single one of them is good for shows only at the end.
`Track` says what the block under the edits has to do with the block before them: each operation is one of before, with
other operands, or a new one with one result. A `Ledger` says which operands are other ones for good, because they are
new values. All others are values of before, reached by following the operands of what goes away (`Leads`).

Each edit moves the ledger on (`Track.insert`, `Track.fill`, `Track.fillOutputs`, `Track.setKind`, `Track.retire`,
`Track.rename`).
-/

namespace Relayout

/-- Number of transposes of a block. -/
def Block.transposes (b : Block) : Nat :=
  b.operations.countP (·.kind.isTranspose)

theorem Block.transposes_withOp {b : Block} {l r : List Operation} (heq : b.operations = l ++ r) {new : Operation}
    {outputs : List (String × TensorType)} :
    (b.withOp l r new outputs).transposes = b.transposes + if new.kind.isTranspose then 1 else 0 := by
  rw [Block.transposes, Block.transposes, Block.withOp, heq]
  simp only [List.countP_append, List.countP_cons]
  omega

namespace Layout

/-! ## Ledgers -/

/-- A value that was not there before: the kind of its operation, the operands as values of the block before, and the
recorded type. -/
structure NewValue where
  kind : OpKind
  sources : List ValueId
  type : TensorType

/-- What has been done to a block so far. -/
structure Ledger where
  made : ValueId → Option NewValue := fun _ => none
  /-- Operations with another kind. -/
  kind : OpId → Option OpKind := fun _ => none
  /-- Operand slots with new values. -/
  slot : OpId → Nat → Option ValueId := fun _ _ => none
  /-- Output slots with new values. -/
  out : Nat → Option ValueId := fun _ => none
  /-- Values that nothing reads or returns any more. -/
  retired : List ValueId := []
  /-- Number of new transposes. -/
  restored : Nat := 0

namespace Ledger

def make (L : Ledger) (w : ValueId) (m : NewValue) : Ledger :=
  { L with
    made := Function.update L.made w (some m)
    restored := L.restored + if m.kind.isTranspose then 1 else 0 }

@[simp] theorem make_made_self (L : Ledger) (w : ValueId) (m : NewValue) : (L.make w m).made w = some m :=
  Function.update_self ..

theorem make_made_of_ne (L : Ledger) {w v : ValueId} (h : v ≠ w) (m : NewValue) : (L.make w m).made v = L.made v :=
  Function.update_of_ne h ..

/-- What has been made stays made. -/
theorem make_made_of_made {L : Ledger} {w v : ValueId} (hw : L.made w = none) {m n : NewValue} (hv : L.made v = some n) :
    (L.make w m).made v = some n := by
  have hne : v ≠ w := fun he => by rw [he, hw] at hv; cases hv
  rw [L.make_made_of_ne hne, hv]

def fill (L : Ledger) (op : OpId) (slots : List Nat) (w : ValueId) : Ledger :=
  { L with slot := fun id i => if id = op ∧ i ∈ slots then some w else L.slot id i }

def fillOutputs (L : Ledger) (slots : List Nat) (w : ValueId) : Ledger :=
  { L with out := fun i => if i ∈ slots then some w else L.out i }

def setKind (L : Ledger) (op : OpId) (kind : OpKind) : Ledger :=
  { L with kind := Function.update L.kind op (some kind) }

def retire (L : Ledger) (y : ValueId) : Ledger :=
  { L with retired := y :: L.retired }

end Ledger

/-! ## Tracking -/

section Track

variable (a : Analysis) (b : Block) (L : Ledger)

/-- What a slot holds: a new value, or one that the value of before leads to. -/
def Stands (filled : Option ValueId) (v v' : ValueId) : Prop :=
  match filled with
  | none => Leads a b v v'
  | some w => v' = w

/-- An operation of before, with what has become of its kind and operands. -/
structure Follows (o o' : Operation) : Prop where
  id : o'.id = o.id
  outputs : o'.outputs = o.outputs
  kind : o'.kind = (L.kind o.id).getD o.kind
  arity : o'.inputs.length = o.inputs.length
  slots : ∀ i v v', o.inputs[i]? = some v → o'.inputs[i]? = some v' → Stands a b (L.slot o.id i) v v'

/-- A new operation. -/
def Made (o' : Operation) : Prop :=
  o'.id ∉ b.operations.map (·.id) ∧ ∃ y m, o'.outputs = [y] ∧ L.made y = some m ∧ m.kind = o'.kind ∧
    List.Forall₂ (Leads a b) m.sources o'.inputs

/-- A block under edits, compared with the block before. -/
structure Track [IdSpace] (s : Editor) : Prop where
  coherent : Coherent s
  name : s.block.name = b.name
  inputs : s.block.inputs = b.inputs
  types : ∀ v ∈ b.defined, s.block.type? v = b.type? v
  ops : ∀ o' ∈ s.block.operations, (∃ o ∈ b.operations, Follows a b L o o') ∨ Made a b L o'
  order : (b.operations.map (·.id)).Sublist (s.block.operations.map (·.id))
  outputCount : s.block.outputs.length = b.outputs.length
  outs : ∀ i v v', b.outputs[i]? = some v → s.block.outputs[i]? = some v' → Stands a b (L.out i) v v'
  made : ∀ w m, L.made w = some m →
    w ∈ s.block.defined ∧ w ∉ b.defined ∧ s.block.type? w = some m.type ∧ ∀ u ∈ m.sources, u ∈ b.defined
  slotMade : ∀ id i w, L.slot id i = some w → L.made w ≠ none
  outMade : ∀ i w, L.out i = some w → L.made w ≠ none
  retired : ∀ y ∈ L.retired, y ∈ b.defined ∧ y ∉ s.block.outputs ∧ ∀ o' ∈ s.block.operations, y ∉ o'.inputs
  count : s.block.transposes = b.transposes + L.restored

end Track

section Moves

variable {a : Analysis} {b : Block} {L : Ledger} {s : Editor} {x : UseIndex} {l r : List Operation}
  {o o' : Operation} {v w y : ValueId}

theorem Follows.refl (o : Operation) : Follows a b {} o o :=
  ⟨rfl, rfl, rfl, rfl, fun i v v' h h' => by rw [h] at h'; rw [Option.some.inj h']; exact .refl⟩

/-- Nothing has been done yet. -/
theorem Track.start [IdSpace] (h : Coherent s) (hb : s.block = b) : Track a b {} s := by
  subst hb
  refine ⟨h, rfl, rfl, fun _ _ => rfl, fun o ho => .inl ⟨o, ho, Follows.refl o⟩, .refl _, rfl,
    fun i v v' hv hv' => ?_, fun w m hm => (by cases hm), fun id i w hw => (by cases hw), fun i w hw => (by cases hw),
    fun y hy => (by cases hy), rfl⟩
  rw [hv] at hv'
  rw [Option.some.inj hv']
  exact .refl

namespace Track

theorem sound [IdSpace] (h : Track a b L s) : s.block.Sound := h.coherent.sound

theorem present [IdSpace] (h : Track a b L s) (ho : o ∈ b.operations) : ∃ o' ∈ s.block.operations, o'.id = o.id :=
  List.mem_map.1 (h.order.subset (List.mem_map_of_mem (f := (·.id)) ho))

/-- The operation that an operation of before has become. -/
theorem follows [IdSpace] (h : Track a b L s) (hs : b.Sound) (ho : o ∈ b.operations) :
    ∃ o' ∈ s.block.operations, Follows a b L o o' := by
  obtain ⟨o', ho', he⟩ := h.present ho
  rcases h.ops o' ho' with ⟨p, hp, hf⟩ | ⟨hnew, _⟩
  · rw [hs.op_ext hp ho (hf.id.symm.trans he)] at hf
    exact ⟨o', ho', hf⟩
  · exact absurd (List.mem_map.2 ⟨o, ho, he.symm⟩) hnew

theorem follows_of_id [IdSpace] (h : Track a b L s) (hs : b.Sound) (ho : o ∈ b.operations) (ho' : o' ∈ s.block.operations)
    (he : o'.id = o.id) : Follows a b L o o' := by
  obtain ⟨p, hp, hf⟩ := h.follows hs ho
  rw [h.sound.op_ext ho' hp (he.trans hf.id.symm)]
  exact hf

/-- What was defined before still is. -/
theorem defined [IdSpace] (h : Track a b L s) (hs : b.Sound) (hv : v ∈ b.defined) : v ∈ s.block.defined := by
  rcases Block.mem_defined.1 hv with hv | ⟨o, ho, hv⟩
  · exact Block.mem_defined.2 (.inl (by rw [h.inputs]; exact hv))
  · obtain ⟨o', ho', hf⟩ := h.follows hs ho
    exact Block.mem_defined.2 (.inr ⟨o', ho', by rw [hf.outputs]; exact hv⟩)

theorem made_nextValue [IdSpace] (h : Track a b L s) : L.made ⟨s.index.nextValue⟩ = none := by
  by_contra hne
  obtain ⟨m, hm⟩ := Option.ne_none_iff_exists'.1 hne
  exact h.coherent.nextValue_new (h.made _ m hm).1

/-! ## Moves -/

/-- What has been made is there also next to a new value. -/
theorem made_withOp [IdSpace] (h : Track a b L s) (hs : b.Sound) (heq : s.block.operations = l ++ r) {new : Operation}
    (hnew : new.outputs = [⟨s.index.nextValue⟩]) {m : NewValue} (hdef : ∀ u ∈ m.sources, u ∈ b.defined) {name : String}
    (hs' : (s.block.withOp l r new [(name, m.type)]).Sound) {w : ValueId} {n : NewValue}
    (hw : (L.make ⟨s.index.nextValue⟩ m).made w = some n) :
    w ∈ (s.block.withOp l r new [(name, m.type)]).defined ∧ w ∉ b.defined ∧
      (s.block.withOp l r new [(name, m.type)]).type? w = some n.type ∧ ∀ u ∈ n.sources, u ∈ b.defined := by
  rw [Block.mem_defined_withOp heq, hnew, List.mem_singleton]
  by_cases he : w = ⟨s.index.nextValue⟩
  · subst he
    rw [Ledger.make_made_self, Option.some.injEq] at hw
    subst hw
    refine ⟨.inr rfl, fun hb => h.coherent.nextValue_new (h.defined hs hb), ?_, hdef⟩
    have hrecord : (⟨⟨s.index.nextValue⟩, name, m.type⟩ : Value) ∈ (s.block.withOp l r new [(name, m.type)]).values := by
      rw [Block.withOp, hnew]
      exact List.mem_append_right _ (List.mem_singleton_self _)
    rw [Block.type?, (Block.value?_eq_some hs'.sorted).2 ⟨hrecord, rfl⟩]
    rfl
  · rw [Ledger.make_made_of_ne L he] at hw
    obtain ⟨hdefined, hnb, htype, hrest⟩ := h.made w n hw
    exact ⟨.inl hdefined, hnb, (Block.type?_withOp h.sound hdefined).trans htype, hrest⟩

/-- A new operation comes in. -/
theorem insert [IdSpace] (h : Track a b L s) (hs : b.Sound) (heq : s.block.operations = l ++ r) {kind : OpKind}
    {ins sources : List ValueId} {name : String} {type : TensorType}
    (hsrc : List.Forall₂ (Leads a b) sources ins) (hdef : ∀ u ∈ sources, u ∈ b.defined)
    (hret : ∀ u ∈ ins, u ∉ L.retired)
    (hco : Coherent ⟨s.block.withOp l r (s.newOp kind ins 1) [(name, type)], x⟩) :
    Track a b (L.make ⟨s.index.nextValue⟩ ⟨kind, sources, type⟩)
      ⟨s.block.withOp l r (s.newOp kind ins 1) [(name, type)], x⟩ := by
  have hidb : (s.newOp kind ins 1).id ∉ b.operations.map (·.id) := fun hmem => h.coherent.newOp_id (h.order.subset hmem)
  have hmade : ∀ w, L.made w ≠ none →
      (L.make ⟨s.index.nextValue⟩ ⟨kind, sources, type⟩).made w ≠ none := fun w hw => by
    obtain ⟨m, hm⟩ := Option.ne_none_iff_exists'.1 hw
    rw [Ledger.make_made_of_made h.made_nextValue hm]
    exact Option.some_ne_none m
  refine ⟨hco, h.name, h.inputs, fun v hv => ?_, fun o' ho' => ?_, ?_, h.outputCount, h.outs,
    fun w m hm => h.made_withOp hs heq rfl hdef hco.sound hm, fun id i w hw => hmade w (h.slotMade id i w hw),
    fun i w hw => hmade w (h.outMade i w hw), fun y hy => ?_, ?_⟩
  · rw [Block.type?_withOp h.sound (h.defined hs hv)]
    exact h.types v hv
  · rcases (Block.mem_operations_withOp heq).1 ho' with rfl | ho'
    · exact .inr ⟨hidb, ⟨s.index.nextValue⟩, _, rfl, Ledger.make_made_self .., rfl, hsrc⟩
    · rcases h.ops o' ho' with ⟨o, ho, hf⟩ | ⟨hne, y, m, hy, hm, hl⟩
      · exact .inl ⟨o, ho, hf.id, hf.outputs, hf.kind, hf.arity, hf.slots⟩
      · exact .inr ⟨hne, y, m, hy, Ledger.make_made_of_made h.made_nextValue hm, hl⟩
  · have horder := h.order
    rw [heq, List.map_append] at horder
    refine horder.trans ?_
    rw [Block.withOp, List.map_append, List.map_cons]
    exact (List.Sublist.refl _).append (List.sublist_cons_self _ _)
  · obtain ⟨hb, ho, hreads⟩ := h.retired y hy
    refine ⟨hb, ho, fun o' ho' => ?_⟩
    rcases (Block.mem_operations_withOp heq).1 ho' with rfl | ho'
    · exact fun hin => hret y hin hy
    · exact hreads o' ho'
  · rw [Block.transposes_withOp heq, h.count, Nat.add_assoc]
    rfl

/-- One operation changes, with what the ledger says of it. -/
theorem changeOp [IdSpace] (h : Track a b L s) (heq : s.block.operations = l ++ o' :: r) (hid : o'.id = o.id)
    (ho : o ∈ b.operations) {p : Operation} {L' : Ledger} (hp : p.defines = o'.defines) (hf : Follows a b L' o p)
    (hmade : L'.made = L.made) (hout : L'.out = L.out) (hret : L'.retired = L.retired)
    (hres : L'.restored = L.restored) (hother : ∀ id, id ≠ o.id → L'.kind id = L.kind id ∧ L'.slot id = L.slot id)
    (hslot : ∀ i w, L'.slot o.id i = some w → L.made w ≠ none) (hreads : ∀ y ∈ L.retired, y ∉ p.inputs)
    (hkind : p.kind.isTranspose = o'.kind.isTranspose)
    (hco : Coherent ⟨s.block.rewired (l ++ p :: r) s.block.outputs, x⟩) :
    Track a b L' ⟨s.block.rewired (l ++ p :: r) s.block.outputs, x⟩ := by
  have hid' : p.id = o'.id := congrArg Prod.fst hp
  have hrest : ∀ {q}, q ∈ l ++ p :: r → q = p ∨ q ∈ s.block.operations ∧ q.id ≠ o.id := fun {q} hq => by
    rw [← hid, ← h.sound.registered.mem_others heq]
    simp only [List.mem_append, List.mem_cons] at hq ⊢
    tauto
  have hres' : results (l ++ p :: r) = results s.block.operations :=
    results_of_defines (by rw [heq]; simp [hp])
  refine ⟨hco, h.name, h.inputs, h.types, fun q hq => ?_, ?_, h.outputCount, fun i => ?_,
    fun w m hm => ?_, fun id i w hw => ?_, fun i w hw => ?_, fun y hy => ?_, ?_⟩
  · rcases hrest hq with rfl | ⟨hq, hne⟩
    · exact .inl ⟨o, ho, hf⟩
    · rcases h.ops q hq with ⟨t, ht, hf'⟩ | ⟨hnew, y, sources, hrest'⟩
      · obtain ⟨hk, hsl⟩ := hother t.id (fun he => hne (hf'.id.trans he))
        refine .inl ⟨t, ht, hf'.id, hf'.outputs, by rw [hk]; exact hf'.kind, hf'.arity, ?_⟩
        rw [hsl]
        exact hf'.slots
      · exact .inr ⟨hnew, y, sources, by rw [hmade]; exact hrest'⟩
  · have horder := h.order
    rw [heq, List.map_append, List.map_cons, ← hid'] at horder
    rw [Block.rewired_operations, List.map_append, List.map_cons]
    exact horder
  · rw [hout]
    exact h.outs i
  · rw [hmade] at hm
    obtain ⟨hw, hrest'⟩ := h.made w m hm
    refine ⟨?_, hrest'⟩
    rw [Block.defined_eq, Block.rewired_operations, hres']
    exact hw
  · rw [hmade]
    by_cases hne : id = o.id
    · subst hne
      exact hslot i w hw
    · rw [(hother id hne).2] at hw
      exact h.slotMade id i w hw
  · rw [hout] at hw
    rw [hmade]
    exact h.outMade i w hw
  · rw [hret] at hy
    obtain ⟨hb, houts, hall⟩ := h.retired y hy
    refine ⟨hb, houts, fun q hq => ?_⟩
    rcases hrest hq with rfl | ⟨hq, _⟩
    · exact hreads y hy
    · exact hall q hq
  · have hcount := h.count
    rw [Block.transposes, heq, List.countP_append, List.countP_cons] at hcount
    rw [Block.transposes, Block.rewired_operations, List.countP_append, List.countP_cons, hkind, hres]
    exact hcount

/-- Some operand slots of an operation get a new value. -/
theorem fill [IdSpace] (h : Track a b L s) (hs : b.Sound) (heq : s.block.operations = l ++ o' :: r) (ho : o ∈ b.operations)
    (hid : o'.id = o.id) {slots : List Nat} (hw : L.made w ≠ none)
    (hco : Coherent ⟨s.block.rewired (l ++ { o' with inputs := setAll w slots o'.inputs } :: r) s.block.outputs, x⟩) :
    Track a b (L.fill o.id slots w)
      ⟨s.block.rewired (l ++ { o' with inputs := setAll w slots o'.inputs } :: r) s.block.outputs, x⟩ := by
  have ho' : o' ∈ s.block.operations := by rw [heq]; simp
  have hf := h.follows_of_id hs ho ho' hid
  have hlt : ∀ {i v'}, (setAll w slots o'.inputs)[i]? = some v' → i < o'.inputs.length := fun hv' => by
    have := (List.getElem?_eq_some_iff.1 hv').1
    simpa using this
  refine h.changeOp heq hid ho rfl ⟨hid, hf.outputs, hf.kind, by simpa using hf.arity, fun i v v' hv hv' => ?_⟩
    rfl rfl rfl rfl (fun id hne => ⟨rfl, by simp only [Ledger.fill, hne, false_and, if_false]⟩) (fun i w' hw' => ?_)
    (fun y hy hin => ?_) rfl hco
  · rw [getElem?_setAll (hlt hv')] at hv'
    by_cases hslot : i ∈ slots
    · rw [if_pos hslot] at hv'
      simp only [Ledger.fill, hslot, and_self, if_true, Stands]
      exact (Option.some.inj hv').symm
    · rw [if_neg hslot] at hv'
      simp only [Ledger.fill, hslot, and_false, if_false]
      exact hf.slots i v v' hv hv'
  · simp only [Ledger.fill, true_and] at hw'
    split at hw'
    · rw [← Option.some.inj hw']
      exact hw
    · exact h.slotMade o.id i w' hw'
  · obtain ⟨hb, _, hreads⟩ := h.retired y hy
    obtain ⟨i, hi⟩ := List.mem_iff_getElem?.1 hin
    rw [getElem?_setAll (hlt hi)] at hi
    split at hi
    · obtain ⟨m, hm⟩ := Option.ne_none_iff_exists'.1 hw
      exact (h.made w m hm).2.1 (Option.some.inj hi ▸ hb)
    · exact hreads o' ho' (List.mem_of_getElem? hi)

/-- An operation gets another kind. -/
theorem setKind [IdSpace] (h : Track a b L s) (hs : b.Sound) (heq : s.block.operations = l ++ o' :: r) (ho : o ∈ b.operations)
    (hid : o'.id = o.id) {kind : OpKind} (hkind : kind.isTranspose = o'.kind.isTranspose)
    (hco : Coherent ⟨s.block.rewired (l ++ { o' with kind := kind } :: r) s.block.outputs, x⟩) :
    Track a b (L.setKind o.id kind) ⟨s.block.rewired (l ++ { o' with kind := kind } :: r) s.block.outputs, x⟩ := by
  have ho' : o' ∈ s.block.operations := by rw [heq]; simp
  have hf := h.follows_of_id hs ho ho' hid
  refine h.changeOp heq hid ho rfl ⟨hid, hf.outputs, ?_, hf.arity, hf.slots⟩ rfl rfl rfl rfl
    (fun id hne => ⟨Function.update_of_ne hne .., rfl⟩) (fun i w hw => h.slotMade o.id i w hw)
    (fun y hy => (h.retired y hy).2.2 o' ho') hkind hco
  simp only [Ledger.setKind, Function.update_self, Option.getD_some]

/-- Some output slots of the block get a new value. -/
theorem fillOutputs [IdSpace] (h : Track a b L s) {slots : List Nat} (hw : L.made w ≠ none)
    (hco : Coherent ⟨s.block.rewired s.block.operations (setAll w slots s.block.outputs), x⟩) :
    Track a b (L.fillOutputs slots w) ⟨s.block.rewired s.block.operations (setAll w slots s.block.outputs), x⟩ := by
  have hlt : ∀ {i v'}, (setAll w slots s.block.outputs)[i]? = some v' → i < s.block.outputs.length := fun hv' => by
    have := (List.getElem?_eq_some_iff.1 hv').1
    simpa using this
  refine ⟨hco, h.name, h.inputs, h.types, fun o' ho' => ?_, h.order, by simpa using h.outputCount,
    fun i v v' hv hv' => ?_, h.made, h.slotMade, fun i w' hw' => ?_, fun y hy => ?_, h.count⟩
  · rcases h.ops o' ho' with ⟨o, ho, hf⟩ | hmade
    · exact .inl ⟨o, ho, hf.id, hf.outputs, hf.kind, hf.arity, hf.slots⟩
    · exact .inr hmade
  · rw [Block.rewired_outputs, getElem?_setAll (hlt hv')] at hv'
    by_cases hslot : i ∈ slots
    · rw [if_pos hslot] at hv'
      simp only [Ledger.fillOutputs, hslot, if_true, Stands]
      exact (Option.some.inj hv').symm
    · rw [if_neg hslot] at hv'
      simp only [Ledger.fillOutputs, hslot, if_false]
      exact h.outs i v v' hv hv'
  · simp only [Ledger.fillOutputs] at hw'
    split at hw'
    · rw [← Option.some.inj hw']
      exact hw
    · exact h.outMade i w' hw'
  · obtain ⟨hb, hout, hreads⟩ := h.retired y hy
    refine ⟨hb, fun hin => ?_, hreads⟩
    obtain ⟨i, hi⟩ := List.mem_iff_getElem?.1 hin
    rw [Block.rewired_outputs, getElem?_setAll (hlt hi)] at hi
    split at hi
    · obtain ⟨m, hm⟩ := Option.ne_none_iff_exists'.1 hw
      exact (h.made w m hm).2.1 (Option.some.inj hi ▸ hb)
    · exact hout (List.mem_of_getElem? hi)

/-- Readers of a value read one that it leads to. -/
theorem retire [IdSpace] (h : Track a b L s) (hlead : Leads a b y v) (hy : y ∈ b.defined) (hne : y ≠ v) (hv : v ∉ L.retired)
    (hco : Coherent ⟨s.block.substitute y v, x⟩) : Track a b (L.retire y) ⟨s.block.substitute y v, x⟩ := by
  have hstands : ∀ {filled : Option ValueId} {u u'}, (∀ w, filled = some w → L.made w ≠ none) → Stands a b filled u u' →
      Stands a b filled u (if u' = y then v else u') := fun {filled u u'} hfilled hst => by
    cases filled with
    | none =>
      simp only [Stands] at hst ⊢
      split
      · rename_i he
        exact (he ▸ hst).trans hlead
      · exact hst
    | some w =>
      simp only [Stands] at hst ⊢
      subst hst
      obtain ⟨m, hm⟩ := Option.ne_none_iff_exists'.1 (hfilled u' rfl)
      have hne' : u' ≠ y := fun he => (h.made u' m hm).2.1 (he ▸ hy)
      rw [if_neg hne']
  have hsub : ∀ {z ids}, z ∈ (L.retire y).retired → (z ∈ L.retired → z ∉ ids) →
      z ∉ Editor.substitute y v ids := fun {z ids} hz hold hin => by
    rcases List.mem_cons.1 hz with rfl | hz
    · rcases mem_substitute.1 hin with ⟨he, _⟩ | ⟨hne', _⟩
      · exact hne he
      · exact hne' rfl
    · rcases mem_substitute.1 hin with ⟨rfl, _⟩ | ⟨_, hin⟩
      · exact hv hz
      · exact hold hz hin
  have hres : results (s.block.operations.map (Operation.substitute y v)) = results s.block.operations :=
    results_of_defines (by simp [Operation.defines, Operation.substitute, Function.comp_def])
  refine ⟨hco, h.name, h.inputs, h.types, fun o' ho' => ?_, ?_, ?_, fun i u u' hu hu' => ?_,
    fun w m hm => ?_, h.slotMade, h.outMade, fun z hz => ⟨?_, ?_, fun o' ho' => ?_⟩, ?_⟩
  · obtain ⟨p, hp, rfl⟩ := List.mem_map.1 ho'
    rcases h.ops p hp with ⟨o, ho, hf⟩ | ⟨hnew, z, m, hz, hm, hk, hl⟩
    · refine .inl ⟨o, ho, hf.id, hf.outputs, hf.kind, by
        rw [← hf.arity]; exact List.length_map .., fun i u u' hu hu' => ?_⟩
      rw [Operation.substitute, getElem?_substitute, Option.map_eq_some_iff] at hu'
      obtain ⟨u'', hu'', rfl⟩ := hu'
      exact hstands (fun w hw => h.slotMade o.id i w hw) (hf.slots i u u'' hu hu'')
    · refine .inr ⟨hnew, z, m, hz, hm, hk, ?_⟩
      rw [Operation.substitute, Editor.substitute, List.forall₂_map_right_iff]
      refine hl.imp fun u u' hlu => ?_
      split
      · rename_i he
        exact (he ▸ hlu).trans hlead
      · exact hlu
  · rw [Block.substitute, Block.rewired_operations, List.map_map]
    exact h.order
  · rw [← h.outputCount]
    exact List.length_map ..
  · rw [Block.substitute, Block.rewired_outputs, getElem?_substitute, Option.map_eq_some_iff] at hu'
    obtain ⟨u'', hu'', rfl⟩ := hu'
    exact hstands (fun w hw => h.outMade i w hw) (h.outs i u u'' hu hu'')
  · obtain ⟨hw, hrest⟩ := h.made w m hm
    refine ⟨?_, hrest⟩
    rw [Block.defined_eq, Block.substitute, Block.rewired_operations, hres]
    exact hw
  · rcases List.mem_cons.1 hz with rfl | hz
    · exact hy
    · exact (h.retired z hz).1
  · exact hsub hz fun hz => (h.retired z hz).2.1
  · obtain ⟨p, hp, rfl⟩ := List.mem_map.1 ho'
    exact hsub hz fun hz => (h.retired z hz).2.2 p hp
  · refine Eq.trans ?_ h.count
    rw [Block.transposes, Block.substitute, Block.rewired_operations, List.countP_map]
    rfl

/-- A value gets another name. -/
theorem rename [IdSpace] (h : Track a b L s) {name : String} (hco : Coherent ⟨s.block.setName v name, x⟩) :
    Track a b L ⟨s.block.setName v name, x⟩ :=
  ⟨hco, h.name, h.inputs, fun u hu => by rw [Block.type?_setName]; exact h.types u hu, h.ops, h.order, h.outputCount,
    h.outs, fun u m hm => by rw [Block.type?_setName]; exact h.made u m hm, h.slotMade, h.outMade, h.retired, h.count⟩

/-- A value gets the name of another, which gets a third. -/
theorem transferName [IdSpace] (h : Track a b L s) {name name' : String}
    (hco : Coherent ⟨(s.block.setName v name).setName w name', x⟩) :
    Track a b L ⟨(s.block.setName v name).setName w name', x⟩ :=
  ⟨hco, h.name, h.inputs, fun u hu => by rw [Block.type?_setName, Block.type?_setName]; exact h.types u hu, h.ops,
    h.order, h.outputCount, h.outs,
    fun u m hm => by rw [Block.type?_setName, Block.type?_setName]; exact h.made u m hm, h.slotMade, h.outMade,
    h.retired, h.count⟩

end Track

end Moves

end Layout

end Relayout
