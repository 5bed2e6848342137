import Relayout.Proofs.Facing
import Relayout.Proofs.Tracking

/-!
# Detaching a region

The edits in front of the restorations, each group as a move of the ledger: absorbing operations get payloads and kinds
(`ensures_absorbAll`), and results of transposes that go away are retired (`ensures_bypassSeeds`,
`ensures_bypassCancellations`). None of them can fail, unless types do not fit.

Nothing comes into a ledger without a reason: a ledger is `Justified` by the records that have been carried out.
-/

namespace Relayout

theorem TensorType.compatible_trans {t u v : TensorType} (h : t.compatible u) (h' : u.compatible v) :
    t.compatible v := by
  simp only [compatible, Bool.and_eq_true, beq_iff_eq] at h h' ⊢
  exact ⟨h.1.trans h'.1, h.2.trans h'.2⟩

namespace Layout

open Editor

/-! ## Why new values are there -/

/-- The payloads that absorbing operations get. -/
def payloads (records : List Absorbed) : List (OpId × Nat × Literal) :=
  records.flatMap fun r => r.absorption.constants.map (r.op, ·)

section Justified

variable (a : Analysis) (b : Block) (pend : ValueId → Option Pending) (done : List (OpId × Nat × Literal))
  (restored : List Restoration)

/-- A payload. -/
def NewValue.ofLiteral (literal : Literal) : NewValue :=
  ⟨.const literal, [], literal.type⟩

/-- A restored value, recorded with the type that it had. -/
def NewValue.Restores (r : Restoration) (m : NewValue) : Prop :=
  m.kind = .transpose r.perm ∧ m.sources = [r.value] ∧ b.type? r.value = some m.type

/-- A value passed on. -/
def NewValue.Passes (u : ValueId) (m : NewValue) : Prop :=
  m.kind = .unary .identity ∧ m.sources = [u]

/-- A new value is a payload, a restored value, or passes on what a cancellation left behind, with its type. -/
def MadeFor (m : NewValue) : Prop :=
  (∃ f ∈ done, m = .ofLiteral f.2.2) ∨ (∃ r ∈ restored, m.Restores b r) ∨
    ∃ y u, Relation.TransGen (Bypass a b) y u ∧ b.type? y = some m.type ∧ m.Passes u

variable {a b done restored} in
/-- What new operations are called. -/
theorem MadeFor.kind {m : NewValue} (h : MadeFor a b done restored m) :
    m.kind.isCustom = false ∧ m.kind.name ∈ ["transpose", "identity", "const"] := by
  rcases h with ⟨f, _, rfl⟩ | ⟨r, _, hk, _⟩ | ⟨_, u, _, _, hk, _⟩
  · exact ⟨rfl, by simp [NewValue.ofLiteral, OpKind.name]⟩
  · rw [hk]
    exact ⟨rfl, by simp [OpKind.name]⟩
  · rw [hk]
    exact ⟨rfl, by simp [OpKind.name, Unary.name]⟩

/-- An operand slot holds a payload or a restored value. -/
def SlotFor (id : OpId) (i : Nat) (m : NewValue) : Prop :=
  (∃ literal, (id, i, literal) ∈ done ∧ m = .ofLiteral literal) ∨
    ∃ r ∈ restored, ∃ slots, r.consumer = .op id slots ∧ i ∈ slots ∧ m.Restores b r

/-- An output slot holds a restored value, or one passed on in place of a value that nothing is pending on. -/
def OutFor (i : Nat) (m : NewValue) : Prop :=
  (∃ r ∈ restored, ∃ slots, r.consumer = .output slots ∧ i ∈ slots ∧ m.Restores b r) ∨
    ∃ u v, b.outputs[i]? = some v ∧ Relation.TransGen (Bypass a b) v u ∧ pend v = none ∧ m.Passes u

/-- Every entry of a ledger comes from a record. -/
structure Justified (L : Ledger) : Prop where
  made : ∀ w m, L.made w = some m → MadeFor a b done restored m
  kind : ∀ id k, L.kind id = some k → ∃ r ∈ a.absorbed, r.op = id ∧ k = r.absorption.kind
  slot : ∀ id i w, L.slot id i = some w → ∃ m, L.made w = some m ∧ SlotFor b done restored id i m
  out : ∀ i w, L.out i = some w → ∃ m, L.made w = some m ∧ OutFor a b pend restored i m

end Justified

/-- What has been done stays done. -/
structure Grows (L L' : Ledger) : Prop where
  kind : ∀ id k, L.kind id = some k → L'.kind id = some k
  slot : ∀ id i, L.slot id i ≠ none → L'.slot id i ≠ none
  out : ∀ i, L.out i ≠ none → L'.out i ≠ none

section Ledgers

variable {a : Analysis} {b : Block} {pend : ValueId → Option Pending} {done done' : List (OpId × Nat × Literal)}
  {restored restored' : List Restoration} {L L' L'' : Ledger} {w : ValueId}

theorem Grows.refl (L : Ledger) : Grows L L :=
  ⟨fun _ _ h => h, fun _ _ h => h, fun _ h => h⟩

theorem Grows.trans (h : Grows L L') (h' : Grows L' L'') : Grows L L'' :=
  ⟨fun id k hk => h'.kind id k (h.kind id k hk), fun id i hi => h'.slot id i (h.slot id i hi),
    fun i hi => h'.out i (h.out i hi)⟩

theorem Grows.make {m : NewValue} : Grows L (L.make w m) :=
  ⟨fun _ _ h => h, fun _ _ h => h, fun _ h => h⟩

theorem Grows.retire : Grows L (L.retire w) :=
  ⟨fun _ _ h => h, fun _ _ h => h, fun _ h => h⟩

theorem Grows.fill {op : OpId} {slots : List Nat} : Grows L (L.fill op slots w) := by
  refine ⟨fun _ _ h => h, fun id i hi => ?_, fun _ h => h⟩
  simp only [Ledger.fill]
  split
  · exact Option.some_ne_none w
  · exact hi

theorem Grows.fillOutputs {slots : List Nat} : Grows L (L.fillOutputs slots w) := by
  refine ⟨fun _ _ h => h, fun _ _ h => h, fun i hi => ?_⟩
  simp only [Ledger.fillOutputs]
  split
  · exact Option.some_ne_none w
  · exact hi

theorem Grows.setKind {op : OpId} {kind : OpKind} (h : ∀ k, L.kind op = some k → k = kind) :
    Grows L (L.setKind op kind) := by
  refine ⟨fun id k hk => ?_, fun _ _ h => h, fun _ h => h⟩
  by_cases he : id = op
  · subst he
    simp only [Ledger.setKind, Function.update_self, h k hk]
  · simp only [Ledger.setKind, Function.update_of_ne he]
    exact hk

namespace Justified

theorem start : Justified a b pend [] [] {} :=
  ⟨fun _ _ h => (by cases h), fun _ _ h => (by cases h), fun _ _ _ h => (by cases h), fun _ _ h => (by cases h)⟩

theorem mono (h : Justified a b pend done restored L) (hd : done ⊆ done') (hr : restored ⊆ restored') :
    Justified a b pend done' restored' L where
  made w m hm := by
    rcases h.made w m hm with ⟨f, hf, he⟩ | ⟨r, hr', he⟩ | he
    · exact .inl ⟨f, hd hf, he⟩
    · exact .inr (.inl ⟨r, hr hr', he⟩)
    · exact .inr (.inr he)
  kind := h.kind
  slot id i w hw := by
    obtain ⟨m, hm, ⟨literal, hl, he⟩ | ⟨r, hr', he⟩⟩ := h.slot id i w hw
    · exact ⟨m, hm, .inl ⟨literal, hd hl, he⟩⟩
    · exact ⟨m, hm, .inr ⟨r, hr hr', he⟩⟩
  out i w hw := by
    obtain ⟨m, hm, ⟨r, hr', he⟩ | he⟩ := h.out i w hw
    · exact ⟨m, hm, .inl ⟨r, hr hr', he⟩⟩
    · exact ⟨m, hm, .inr he⟩

theorem make (h : Justified a b pend done restored L) {m : NewValue} (hw : L.made w = none)
    (hm : MadeFor a b done restored m) : Justified a b pend done restored (L.make w m) := by
  refine ⟨fun v n hv => ?_, h.kind, fun id i v hv => ?_, fun i v hv => ?_⟩
  · by_cases he : v = w
    · subst he
      rw [Ledger.make_made_self] at hv
      rw [← Option.some.inj hv]
      exact hm
    · rw [L.make_made_of_ne he] at hv
      exact h.made v n hv
  · obtain ⟨n, hn, hfor⟩ := h.slot id i v hv
    exact ⟨n, Ledger.make_made_of_made hw hn, hfor⟩
  · obtain ⟨n, hn, hfor⟩ := h.out i v hv
    exact ⟨n, Ledger.make_made_of_made hw hn, hfor⟩

theorem fill (h : Justified a b pend done restored L) {op : OpId} {slots : List Nat} {m : NewValue}
    (hw : L.made w = some m) (hs : ∀ i ∈ slots, SlotFor b done restored op i m) :
    Justified a b pend done restored (L.fill op slots w) := by
  refine ⟨h.made, h.kind, fun id i v hv => ?_, h.out⟩
  simp only [Ledger.fill] at hv
  split at hv
  · rename_i hc
    rw [← Option.some.inj hv, hc.1]
    exact ⟨m, hw, hs i hc.2⟩
  · exact h.slot id i v hv

theorem fillOutputs (h : Justified a b pend done restored L) {slots : List Nat} {m : NewValue}
    (hw : L.made w = some m) (hs : ∀ i ∈ slots, OutFor a b pend restored i m) :
    Justified a b pend done restored (L.fillOutputs slots w) := by
  refine ⟨h.made, h.kind, h.slot, fun i v hv => ?_⟩
  simp only [Ledger.fillOutputs] at hv
  split at hv
  · rename_i hc
    rw [← Option.some.inj hv]
    exact ⟨m, hw, hs i hc⟩
  · exact h.out i v hv

theorem setKind (h : Justified a b pend done restored L) {r : Absorbed} (hr : r ∈ a.absorbed) :
    Justified a b pend done restored (L.setKind r.op r.absorption.kind) := by
  refine ⟨h.made, fun id k hk => ?_, h.slot, h.out⟩
  by_cases he : id = r.op
  · subst he
    simp only [Ledger.setKind, Function.update_self, Option.some.injEq] at hk
    exact ⟨r, hr, rfl, hk.symm⟩
  · simp only [Ledger.setKind, Function.update_of_ne he] at hk
    exact h.kind id k hk

theorem retire (h : Justified a b pend done restored L) (y : ValueId) : Justified a b pend done restored (L.retire y) :=
  ⟨h.made, h.kind, h.slot, h.out⟩

end Justified

end Ledgers

/-! ## New operations -/

section Insert

variable {a : Analysis} {b : Block} {L : Ledger} {s : Editor} {l r : List Operation} {o' : Operation} {fails : Prop}

/-- A new operation in front of another. -/
theorem ensures_insertOneBefore [IdSpace] (hspace : IdSpace.Unbounded ∨ fails) (h : Track a b L s) (hs : b.Sound)
    (heq : s.block.operations = l ++ o' :: r) {kind : OpKind} {ins sources : List ValueId} {name : String} {type : TensorType}
    (hsrc : List.Forall₂ (Leads a b) sources ins) (hdef : ∀ u ∈ sources, u ∈ b.defined)
    (hret : ∀ u ∈ ins, u ∉ L.retired) (hins : ∀ u ∈ ins, u ∈ s.block.inputs ++ results l)
    (hfree : name ∉ s.block.values.map (·.name)) {Q : ValueId → Editor → Prop}
    (hQ : ∀ w new x, new.outputs = [w] → w ∉ s.block.defined → L.made w = none →
      Track a b (L.make w ⟨kind, sources, type⟩) ⟨s.block.withOp l (o' :: r) new [(name, type)], x⟩ →
      Q w ⟨s.block.withOp l (o' :: r) new [(name, type)], x⟩) :
    Ensures fails (insertOneBefore o'.id kind ins name type) s Q := by
  have hnames : ([(name, type)].map (·.1)).Nodup := List.nodup_singleton name
  have hfree' : ∀ n ∈ [(name, type)].map (·.1), n ∉ s.block.values.map (·.name) := List.forall_mem_singleton.2 hfree
  refine Ensures.bind (ensures_insertBefore hspace h.coherent heq hins hnames hfree' fun x hx => ?_)
  exact hQ ⟨s.index.nextValue⟩ (s.newOp kind ins 1) x rfl h.coherent.nextValue_new h.made_nextValue
    (h.insert hs heq hsrc hdef hret hx)

end Insert

/-! ## Absorbing operations -/

/-- An operation that a constant is read from. -/
def IsConst (b : Block) (id : OpId) : Prop :=
  ∃ p ∈ b.operations, p.id = id ∧ p.kind.isConst

section Absorb

variable {typed : Prop} {a : Analysis} {b : Block} {pend : ValueId → Option Pending} {fails : Prop}

theorem Describes.const_not_removed (hd : Describes typed a b pend) (hs : b.Sound) {p : Operation}
    (hp : p ∈ b.operations) (hk : p.kind.isConst) : p.id ∉ a.removed := by
  intro hid
  obtain ⟨_, _, q, hq, _⟩ := hd.of_removed hs hp hid
  rw [hq] at hk
  cases hk

/-- A slot that held a constant does so until something comes into it. -/
theorem Follows.const_slot {L : Ledger} {o o' p : Operation} (hf : Follows a b L o o') (hd : Describes typed a b pend)
    (hs : b.Sound) {i : Nat} {v : ValueId} (hv : o.inputs[i]? = some v) (hnone : L.slot o.id i = none)
    (hp : p ∈ b.operations) (hpout : p.outputs = [v]) (hk : p.kind.isConst) : o'.inputs[i]? = some v := by
  have hlt : i < o'.inputs.length := by
    rw [hf.arity]
    exact (List.getElem?_eq_some_iff.1 hv).1
  have hget : o'.inputs[i]? = some o'.inputs[i] := List.getElem?_eq_getElem hlt
  have hstands := hf.slots i v _ hv hget
  rw [hnone] at hstands
  rw [hget, hstands.eq_self hs hp (by rw [hpout]; exact List.mem_singleton_self v) (hd.const_not_removed hs hp hk)]

/-- What produces a constant is what did before. -/
theorem Track.producer_isConst [IdSpace] {L : Ledger} {s : Editor} (h : Track a b L s) (hs : b.Sound) {p : Operation}
    (hp : p ∈ b.operations) {v : ValueId} (hpout : p.outputs = [v]) (hk : p.kind.isConst) :
    ∀ id ∈ (s.index.producer? v).toList, IsConst b id := by
  intro id hid
  obtain ⟨q, hq, rfl, hvq⟩ := (h.coherent.agrees.producers v id).1 (Option.mem_toList.1 hid)
  obtain ⟨p', hp', hfp⟩ := h.follows hs hp
  have hqp : q = p' := h.sound.producer_ext hq hp' hvq (by rw [hfp.outputs, hpout]; exact List.mem_singleton_self v)
  exact ⟨p, hp, by rw [hqp, hfp.id], hk⟩

/-- Payloads go into slots that hold constants. -/
theorem ensures_replaceConstants [IdSpace] (hspace : IdSpace.Unbounded ∨ fails) (hd : Describes typed a b pend)
    (hs : b.Sound) {o : Operation} (ho : o ∈ b.operations) : ∀ (cs : List (Nat × Literal)) {L : Ledger} {s : Editor}
    {done : List (OpId × Nat × Literal)}, Track a b L s → Justified a b pend done [] L → Steady b s.block →
    (∀ c ∈ cs, ∃ v, ∃ p ∈ b.operations, o.inputs[c.1]? = some v ∧ p.outputs = [v] ∧ p.kind.isConst) →
    (∀ c ∈ cs, ∀ literal, (o.id, c.1, literal) ∉ done) → (cs.map (·.1)).Nodup → ∀ {Q : List OpId → Editor → Prop},
    (∀ producers L' s', Track a b L' s' → Justified a b pend (done ++ cs.map (o.id, ·)) [] L' → Grows L L' →
      (∀ c ∈ cs, L'.slot o.id c.1 ≠ none) → L'.retired = L.retired → L'.restored = L.restored →
      (∀ id ∈ producers, IsConst b id) → Steady b s'.block → Q producers s') →
    Ensures fails (replaceConstants o.id cs) s Q := by
  intro cs
  induction cs with
  | nil =>
    intro L s done h hj hst _ _ _ Q hQ
    exact ensures_pure (hQ [] L s h (by simpa using hj) (Grows.refl L) (fun c hc => (by cases hc)) rfl rfl
      (fun id hid => (by cases hid)) hst)
  | cons c cs ih =>
    intro L s done h hj hst hconst hdone hnd Q hQ
    obtain ⟨slot, literal⟩ := c
    rw [List.map_cons, List.nodup_cons] at hnd
    obtain ⟨v, p, hp, hv, hpout, hpk⟩ := hconst (slot, literal) List.mem_cons_self
    obtain ⟨o', ho', hf⟩ := h.follows hs ho
    obtain ⟨l, r, heq⟩ := List.append_of_mem ho'
    have hnone : L.slot o.id slot = none := by
      by_contra hne
      obtain ⟨w, hw⟩ := Option.ne_none_iff_exists'.1 hne
      obtain ⟨_, _, ⟨m, hm, _⟩ | ⟨r, hr, _⟩⟩ := hj.slot o.id slot w hw
      · exact hdone (slot, literal) List.mem_cons_self m hm
      · cases hr
    have hold := hf.const_slot hd hs hv hnone hp hpout hpk
    have hvdef : v ∈ b.defined := Block.Sound.output_defined hp (by rw [hpout]; exact List.mem_singleton_self v)
    obtain ⟨record, hrecord⟩ := h.sound.exists_value (h.defined hs hvdef)
    rw [replaceConstants, ← hf.id]
    refine Ensures.bind (ensures_operation (h.coherent.agrees.position_of_append heq) heq ?_)
    rw [hold]
    refine Ensures.bind (ensures_get (Ensures.bind (ensures_get (Ensures.bind (ensures_value hrecord (Ensures.bind ?_))))))
    refine ensures_insertOneBefore hspace h hs heq .nil (fun u hu => (by cases hu)) (fun u hu => (by cases hu))
      (fun u hu => (by cases hu)) (h.coherent.freshName_free _) fun w new x hnew hwdef hw ht => Ensures.bind ?_
    have heq' : (s.block.withOp l (o' :: r) new [((s.freshName (record.name ++ "_permuted")), literal.type)]).operations =
        (l ++ [new]) ++ o' :: r := by simp [Block.withOp]
    refine ensures_setInput ht.coherent heq' (List.getElem?_eq_some_iff.1 hold).1 ?_ fun y hy => ?_
    · simp [hnew]
    have hmade : (L.make w (.ofLiteral literal)).made w ≠ none := by simp
    have ht' : Track a b ((L.make w (.ofLiteral literal)).fill o.id [slot] w) _ := ht.fill hs heq' ho hf.id hmade hy
    have hj' : Justified a b pend (done ++ [(o.id, slot, literal)]) []
        ((L.make w (.ofLiteral literal)).fill o.id [slot] w) := by
      refine ((hj.mono (List.subset_append_left _ _) (fun _ h => h)).make hw
        (.inl ⟨(o.id, slot, literal), by simp, rfl⟩)).fill (Ledger.make_made_self ..) fun i hi => ?_
      rw [List.mem_singleton.1 hi]
      exact .inl ⟨literal, by simp, rfl⟩
    rw [show replaceConstants o'.id cs = replaceConstants o.id cs by rw [hf.id]]
    have hderived : Derived (s.freshName (record.name ++ "_permuted")) := .freshName (.suffixed _ (by simp)) s
    have hst' : Steady b (s.block.withOp l (o' :: r) new [(s.freshName (record.name ++ "_permuted"), literal.type)]) :=
      hst.trans (Steady.withOp h.sound hnew hwdef hderived)
    refine Ensures.bind (ih ht' hj' (hst'.trans (Steady.rewired _ _)) (fun c hc => hconst c (List.mem_cons_of_mem _ hc))
      (fun c hc m hm => ?_) hnd.2 fun producers L' s' ht'' hj'' hg hfilled hret hres hprod hst'' => ?_)
    · rcases List.mem_append.1 hm with hm | hm
      · exact hdone c (List.mem_cons_of_mem _ hc) m hm
      · simp only [List.mem_singleton, Prod.mk.injEq] at hm
        exact hnd.1 (hm.2.1 ▸ List.mem_map_of_mem (f := (·.1)) hc)
    · refine ensures_pure (hQ _ L' s' ht'' (by simpa using hj'') ((Grows.make.trans Grows.fill).trans hg) ?_ hret hres ?_
        hst'')
      · intro c hc
        rcases List.mem_cons.1 hc with rfl | hc
        · refine hg.slot o.id slot ?_
          simp [Ledger.fill]
        · exact hfilled c hc
      · intro id hid
        rcases List.mem_append.1 hid with hid | hid
        · exact h.producer_isConst hs hp hpout hpk id hid
        · exact hprod id hid

/-- The operands of an absorbing operation that get payloads are constants. -/
theorem Absorbs.const_slot {o : Operation} {r : Absorbed} (h : Absorbs typed b pend o r) {c : Nat × Literal}
    (hc : c ∈ r.absorption.constants) :
    ∃ v, ∃ p ∈ b.operations, o.inputs[c.1]? = some v ∧ p.outputs = [v] ∧ p.kind.isConst := by
  obtain ⟨views, q, hviews, habs, _⟩ := h
  obtain ⟨literal, hl, _⟩ := (absorb_constants habs).2 c hc
  obtain ⟨hi, hget⟩ := List.getElem?_eq_some_iff.1 hl
  have hi' : c.1 < o.inputs.length := by
    rw [hviews.length_eq]
    exact hi
  have hview := hviews.get hi' hi
  rw [List.get_eq_getElem, List.get_eq_getElem, hget] at hview
  cases hview with
  | constant _ hop hout hkind => exact ⟨_, _, hop, List.getElem?_eq_getElem hi', hout, by rw [hkind]; rfl⟩

theorem Describes.absorbed_ext (hd : Describes typed a b pend) {r r' : Absorbed} (hr : r ∈ a.absorbed)
    (hr' : r' ∈ a.absorbed) (h : r.op = r'.op) : r = r' :=
  List.inj_on_of_nodup_map (List.nodup_append.1 hd.markedOnce).2.1 hr hr' h

/-- What was no transpose has not become one. -/
theorem Follows.not_transpose {L : Ledger} {o o' : Operation} (hf : Follows a b L o o') (hd : Describes typed a b pend)
    (hs : b.Sound) (ho : o ∈ b.operations) {done : List (OpId × Nat × Literal)} {restored : List Restoration}
    (hj : Justified a b pend done restored L) (hk : o.kind.isTranspose = false) : o'.kind.isTranspose = false := by
  rw [hf.kind]
  cases hkind : L.kind o.id with
  | none => exact hk
  | some k =>
    obtain ⟨r, hr, hop, rfl⟩ := hj.kind o.id k hkind
    obtain ⟨_, _, _, habs, _⟩ := hd.absorbs hs ho hr hop
    exact (absorb_kind habs).2.1

/-- Absorbing operations get their payloads and kinds. -/
theorem ensures_absorbAll [IdSpace] (hspace : IdSpace.Unbounded ∨ fails) (hd : Describes typed a b pend) (hs : b.Sound) :
    ∀ (rs : List Absorbed) {L : Ledger} {s : Editor} {done : List (OpId × Nat × Literal)}, Track a b L s →
    Justified a b pend done [] L → Steady b s.block →
    (∀ r ∈ rs, r ∈ a.absorbed) → (rs.map (·.op)).Nodup → (∀ r ∈ rs, ∀ e ∈ done, e.1 ≠ r.op) →
    ∀ {Q : List OpId → Editor → Prop},
    (∀ producers L' s', Track a b L' s' → Justified a b pend (done ++ payloads rs) [] L' → Grows L L' →
      (∀ r ∈ rs, L'.kind r.op = some r.absorption.kind ∧ ∀ c ∈ r.absorption.constants, L'.slot r.op c.1 ≠ none) →
      L'.retired = L.retired → L'.restored = L.restored → (∀ id ∈ producers, IsConst b id) → Steady b s'.block →
      Q producers s') →
    Ensures fails (absorbAll rs) s Q := by
  intro rs
  induction rs with
  | nil =>
    intro L s done h hj hst _ _ _ Q hQ
    exact ensures_pure (hQ [] L s h (by simpa [payloads] using hj) (Grows.refl L) (fun c hc => (by cases hc)) rfl rfl
      (fun id hid => (by cases hid)) hst)
  | cons r rs ih =>
    intro L s done h hj hst hmem hnd hdone Q hQ
    rw [List.map_cons, List.nodup_cons] at hnd
    have hr := hmem r List.mem_cons_self
    obtain ⟨o, ho, hid, habs⟩ := hd.absorbed r hr
    have habs' := habs
    obtain ⟨_, _, _, habs', _⟩ := habs'
    obtain ⟨hbefore, hafter, _⟩ := absorb_kind habs'
    rw [absorbAll, ← hid]
    refine Ensures.bind (ensures_replaceConstants hspace hd hs ho _ h hj hst (fun c hc => habs.const_slot hc)
      (fun c _ m hm => hdone r List.mem_cons_self _ hm hid) (absorb_constants habs').1
      fun producers L₁ s₁ h₁ hj₁ hg₁ hfilled hret₁ hres₁ hprod hst₁ => ?_)
    obtain ⟨o', ho', hf⟩ := h₁.follows hs ho
    obtain ⟨l, t, heq⟩ := List.append_of_mem ho'
    rw [← hf.id]
    refine Ensures.bind (ensures_setKind h₁.coherent heq fun x hx => ?_)
    have h₂ := h₁.setKind hs heq ho hf.id (hafter.trans (hf.not_transpose hd hs ho hj₁ hbefore).symm) hx
    have hsame : ∀ k, L₁.kind o.id = some k → k = r.absorption.kind := fun k hk => by
      obtain ⟨r', hr', he, rfl⟩ := hj₁.kind o.id k hk
      rw [hd.absorbed_ext hr' hr (he.trans hid)]
    have hj₂ := hj₁.setKind hr
    rw [← hid] at hj₂
    refine Ensures.bind (ih h₂ hj₂ (hst₁.trans (Steady.rewired _ _)) (fun r' hr' => hmem r' (List.mem_cons_of_mem _ hr'))
      hnd.2 (fun r' hr' e he => ?_) fun producers' L' s' h' hj' hg' hall hret hres hprod' hst' => ?_)
    · rcases List.mem_append.1 he with he | he
      · exact hdone r' (List.mem_cons_of_mem _ hr') e he
      · obtain ⟨c, _, rfl⟩ := List.mem_map.1 he
        exact fun heq' => hnd.1 (List.mem_map.2 ⟨r', hr', heq'.symm.trans hid⟩)
    · refine ensures_pure (hQ _ L' s' h' ?_ ((hg₁.trans (Grows.setKind hsame)).trans hg') ?_ (hret.trans hret₁)
        (hres.trans hres₁) ?_ hst')
      · have hpay : payloads (r :: rs) = r.absorption.constants.map (o.id, ·) ++ payloads rs := by
          rw [hid]
          rfl
        rw [hpay, ← List.append_assoc]
        exact hj'
      · intro r' hr'
        rcases List.mem_cons.1 hr' with rfl | hr'
        · refine ⟨hg'.kind _ _ ?_, fun c hc => hg'.slot _ _ ?_⟩
          · rw [hid]
            simp [Ledger.setKind]
          · rw [← hid]
            exact hfilled c hc
        · exact hall r' hr'
      · intro id hid'
        rcases List.mem_append.1 hid' with hid' | hid'
        · exact hprod id hid'
        · exact hprod' id hid'

end Absorb

/-! ## Results of transposes that go away -/

/-- The type of a result of a transpose that goes away fits that of its operand, or a mismatch stops the edits. -/
def TypesFit (fails : Prop) (a : Analysis) (b : Block) : Prop :=
  ∀ y x t u, Bypass a b y x → b.type? y = some t → b.type? x = some u → t.compatible u ∨ fails

/-- A list of values, each with one that is read in its place. -/
def Substitutes (a : Analysis) (b : Block) (subst : Substitution) : Prop :=
  ∀ e ∈ subst, Relation.TransGen (Bypass a b) e.1 e.2

/-- A value is the result of one of some operations. -/
def ResultOf (b : Block) (ids : List OpId) (y : ValueId) : Prop :=
  ∃ o ∈ b.operations, o.id ∈ ids ∧ y ∈ o.outputs

section Bypass

variable {typed : Prop} {a : Analysis} {b : Block} {pend : ValueId → Option Pending} {fails : Prop} {L : Ledger}
  {s : Editor} {done : List (OpId × Nat × Literal)} {restored : List Restoration}

theorem TypesFit.trans (h : TypesFit fails a b) (hs : b.Sound) {y x : ValueId}
    (hlead : Relation.TransGen (Bypass a b) y x) {t u : TensorType} (ht : b.type? y = some t)
    (hu : b.type? x = some u) : t.compatible u ∨ fails := by
  induction hlead generalizing u with
  | single hstep => exact h y _ t u hstep ht hu
  | @tail z w _ hstep ih =>
    obtain ⟨v, hv⟩ := hs.exists_type hstep.source_defined
    rcases ih hv with hfit | hfails
    · rcases h z w v u hstep hv hu with hfit' | hfails
      · exact .inl (TensorType.compatible_trans hfit hfit')
      · exact .inr hfails
    · exact .inr hfails

/-- Operations that go away keep their operand slots. -/
theorem Justified.slot_removed (hd : Describes typed a b pend) (hj : Justified a b pend done restored L)
    (hdone : ∀ e ∈ done, e.1 ∈ a.absorbed.map (·.op)) (hrest : restored ⊆ a.restorations) {id : OpId}
    (hid : id ∈ a.removed) (i : Nat) : L.slot id i = none := by
  by_contra hne
  obtain ⟨w, hw⟩ := Option.ne_none_iff_exists'.1 hne
  obtain ⟨_, _, ⟨m, hm, _⟩ | ⟨r, hr, slots, hc, _⟩⟩ := hj.slot id i w hw
  · exact (List.nodup_append.1 hd.markedOnce).2.2 id hid id (hdone _ hm) rfl
  · have := (hd.restorations r (hrest hr)).2
    rw [hc] at this
    obtain ⟨_, _, _, hnot, _⟩ := this
    exact hnot (List.mem_append_left _ hid)

/-- Operations that go away keep their kind. -/
theorem Justified.kind_removed (hd : Describes typed a b pend) (hj : Justified a b pend done restored L) {id : OpId}
    (hid : id ∈ a.removed) : L.kind id = none := by
  by_contra hne
  obtain ⟨k, hk⟩ := Option.ne_none_iff_exists'.1 hne
  obtain ⟨r, hr, rfl, _⟩ := hj.kind id k hk
  exact (List.nodup_append.1 hd.markedOnce).2.2 _ hid _ (List.mem_map_of_mem (f := (·.op)) hr) rfl

/-- An operation that goes away, as it is under edits. -/
structure GoesAway (a : Analysis) (b : Block) (L : Ledger) (s : Editor) (o o' : Operation) (y u : ValueId) : Prop where
  mem : o' ∈ s.block.operations
  id : o'.id = o.id
  inputs : o'.inputs = [u]
  outputs : o'.outputs = [y]
  before : o.outputs = [y]
  leads : Relation.TransGen (Bypass a b) y u
  live : u ∉ L.retired

theorem Track.goesAway [IdSpace] (h : Track a b L s) (hd : Describes typed a b pend) (hs : b.Sound) {o : Operation}
    (ho : o ∈ b.operations) (hid : o.id ∈ a.removed) (hslot : L.slot o.id 0 = none) :
    ∃ o' y u, GoesAway a b L s o o' y u := by
  obtain ⟨x, y, p, _, hin, hout, _⟩ := hd.of_removed hs ho hid
  obtain ⟨o', ho', hf⟩ := h.follows hs ho
  have hlen : o'.inputs.length = 1 := by rw [hf.arity, hin]; rfl
  obtain ⟨u, hu⟩ := List.length_eq_one_iff.1 hlen
  have hlead : Leads a b x u := by
    have := hf.slots 0 x u (by rw [hin]; rfl) (by rw [hu]; rfl)
    rw [hslot] at this
    exact this
  refine ⟨o', y, u, ho', hf.id, hu, hf.outputs.trans hout, hout, ?_, fun hret => ?_⟩
  · exact Relation.TransGen.head' ⟨o, ho, hid, hin, hout⟩ hlead
  · exact (h.retired u hret).2.2 o' ho' (by rw [hu]; exact List.mem_singleton_self u)

namespace GoesAway

variable {o o' : Operation} {y u : ValueId}

theorem ne (hg : GoesAway a b L s o o' y u) (hs : b.Sound) : y ≠ u := by
  intro he
  have := Leads.idxOf_lt hs hg.leads
  rw [he] at this
  exact lt_irrefl _ this

theorem source_defined (hg : GoesAway a b L s o o' y u) : y ∈ b.defined := by
  obtain ⟨z, hz, _⟩ := Relation.TransGen.head'_iff.1 hg.leads
  exact hz.source_defined

theorem defined (hg : GoesAway a b L s o o' y u) (hs : b.Sound) : u ∈ b.defined :=
  Leads.defined hs hg.source_defined hg.leads.to_reflTransGen

theorem ensures_operandAndResult [IdSpace] (hg : GoesAway a b L s o o' y u) (h : Track a b L s)
    {Q : ValueId × ValueId → Editor → Prop} (hQ : Q (u, y) s) : Ensures fails (operandAndResult o.id) s Q := by
  obtain ⟨l, r, heq⟩ := List.append_of_mem hg.mem
  rw [← hg.id]
  refine Ensures.bind (ensures_operation (h.coherent.agrees.position_of_append heq) heq ?_)
  rw [hg.inputs, hg.outputs]
  exact hQ

/-- Readers of the result read the operand. -/
theorem ensures_replaceUses [IdSpace] (hg : GoesAway a b L s o o' y u) (h : Track a b L s) (hs : b.Sound)
    (hfit : TypesFit fails a b) {Q : Unit → Editor → Prop}
    (hQ : ∀ x, Track a b (L.retire y) ⟨s.block.substitute y u, x⟩ → Q () ⟨s.block.substitute y u, x⟩) :
    Ensures fails (replaceUses y u) s Q := by
  have hy := hg.source_defined
  have hu := hg.defined hs
  obtain ⟨t, ht⟩ := hs.exists_type hy
  obtain ⟨t', ht'⟩ := hs.exists_type hu
  refine Relayout.ensures_replaceUses h.coherent ?_ ((h.types y hy).trans ht) ((h.types u hu).trans ht')
    (hfit.trans hs hg.leads ht ht') fun x hx => ?_
  · exact h.sound.dominates hg.mem (by rw [hg.inputs]; exact List.mem_singleton_self u)
      (by rw [hg.outputs]; exact List.mem_singleton_self y)
  · exact hQ x (h.retire hg.leads.to_reflTransGen hy (hg.ne hs) hg.live hx)

end GoesAway

/-- What is known of a ledger while results are retired. -/
structure Retiring (a : Analysis) (b : Block) (pend : ValueId → Option Pending) (L : Ledger) : Prop where
  justified : Justified a b pend (payloads a.absorbed) [] L
  retired : ∀ y ∈ L.retired, ∃ x, Bypass a b y x

theorem Retiring.slot (hr : Retiring a b pend L) (hd : Describes typed a b pend) {id : OpId} (hid : id ∈ a.removed)
    (i : Nat) : L.slot id i = none := by
  refine hr.justified.slot_removed hd (fun e he => ?_) (List.nil_subset _) hid i
  obtain ⟨r, hr, he⟩ := List.mem_flatMap.1 he
  obtain ⟨c, _, rfl⟩ := List.mem_map.1 he
  exact List.mem_map_of_mem (f := (·.op)) hr

theorem Retiring.retire (hr : Retiring a b pend L) {y u : ValueId} (h : Relation.TransGen (Bypass a b) y u) :
    Retiring a b pend (L.retire y) := by
  refine ⟨hr.justified.retire y, fun z hz => ?_⟩
  rcases List.mem_cons.1 hz with rfl | hz
  · obtain ⟨x, hx, _⟩ := Relation.TransGen.head'_iff.1 h
    exact ⟨x, hx⟩
  · exact hr.retired z hz

/-- What becomes of a ledger when a result is retired. -/
structure Retires (L L' : Ledger) (y : ValueId) : Prop where
  grows : Grows L L'
  restored : L'.restored = L.restored
  retired : L.retired ⊆ L'.retired
  mem : y ∈ L'.retired

theorem Ledger.retires (L : Ledger) (y : ValueId) : Retires L (L.retire y) y :=
  ⟨Grows.retire, rfl, fun _ hz => List.mem_cons_of_mem _ hz, List.mem_cons_self⟩

/-- What becomes of a ledger when the results of some operations are retired, and what is read in their place. -/
structure Bypassed (a : Analysis) (b : Block) (ids : List OpId) (L L' : Ledger) (subst : Substitution) : Prop where
  grows : Grows L L'
  restored : L'.restored = L.restored
  retired : L.retired ⊆ L'.retired
  results : ∀ y, ResultOf b ids y → y ∈ L'.retired ∧ y ∈ subst.map (·.1)
  substitutes : Substitutes a b subst

theorem Bypassed.nil : Bypassed a b [] L L [] := by
  refine ⟨Grows.refl L, rfl, fun _ h => h, fun y hy => ?_, fun e he => (by cases he)⟩
  obtain ⟨_, _, hid, _⟩ := hy
  cases hid

/-- One operation, and then the others. -/
theorem Bypassed.cons {ids : List OpId} {L₁ L' : Ledger} {subst : Substitution} (h : Bypassed a b ids L₁ L' subst)
    (hs : b.Sound) {o o' : Operation} {y u : ValueId} (ho : o ∈ b.operations) (hg : GoesAway a b L s o o' y u)
    (hret : Retires L L₁ y) : Bypassed a b (o.id :: ids) L L' ((y, u) :: subst) := by
  refine ⟨hret.grows.trans h.grows, h.restored.trans hret.restored, fun z hz => h.retired (hret.retired hz),
    fun z hz => ?_, fun e he => ?_⟩
  · obtain ⟨p, hp, hpid, hz⟩ := hz
    rcases List.mem_cons.1 hpid with he | hpid
    · rw [hs.op_ext hp ho he, hg.before, List.mem_singleton] at hz
      subst hz
      exact ⟨h.retired hret.mem, List.mem_cons_self⟩
    · obtain ⟨hretired, hkey⟩ := h.results z ⟨p, hp, hpid, hz⟩
      exact ⟨hretired, List.mem_cons_of_mem _ hkey⟩
  · rcases List.mem_cons.1 he with rfl | he
    · exact hg.leads
    · exact h.substitutes e he

/-- Seeds: readers of each read its operand. -/
theorem ensures_bypassSeeds [IdSpace] (hd : Describes typed a b pend) (hs : b.Sound) (hfit : TypesFit fails a b) :
    ∀ (ids : List OpId) {L : Ledger} {s : Editor}, Track a b L s → Retiring a b pend L → Steady b s.block →
    (∀ id ∈ ids, id ∈ a.seeds) → ∀ {Q : Substitution → Editor → Prop},
    (∀ subst L' s', Track a b L' s' → Retiring a b pend L' → Bypassed a b ids L L' subst → Steady b s'.block →
      Q subst s') →
    Ensures fails (bypassSeeds ids) s Q := by
  intro ids
  induction ids with
  | nil =>
    intro L s h hr hst _ Q hQ
    exact ensures_pure (hQ [] L s h hr Bypassed.nil hst)
  | cons id ids ih =>
    intro L s h hr hst hids Q hQ
    obtain ⟨o, ho, rfl, hseed⟩ := hd.seeds id (hids id List.mem_cons_self)
    have hid : o.id ∈ a.removed := List.mem_append_left _ (hids o.id List.mem_cons_self)
    obtain ⟨o', y, u, hg⟩ := h.goesAway hd hs ho hid (hr.slot hd hid 0)
    have hy : y ∉ s.block.outputs := by
      obtain ⟨_, y', _, _, _, hout, _, _, hnot⟩ := hseed
      rw [hst.outputs, List.singleton_inj.1 (hg.before.symm.trans hout)]
      exact hnot
    rw [bypassSeeds]
    refine Ensures.bind (hg.ensures_operandAndResult h (Ensures.bind ?_))
    refine hg.ensures_replaceUses h hs hfit fun x hx => Ensures.bind ?_
    exact ih hx (hr.retire hg.leads) (hst.trans (Steady.substitute hy)) (fun id hid => hids id (List.mem_cons_of_mem _ hid))
      fun subst L' s' h' hr' hby hst' => ensures_pure (hQ _ L' s' h' hr' (hby.cons hs ho hg (L.retires y)) hst')

theorem mem_outputSlots {s : Editor} {v : ValueId} {i : Nat} : i ∈ s.outputSlots v ↔ s.block.outputs[i]? = some v := by
  simp only [Editor.outputSlots, List.mem_filterMap, Option.ite_none_right_eq_some, Prod.exists,
    Option.some.injEq, List.mem_zipIdx_iff_getElem?]
  constructor
  · rintro ⟨w, j, hj, rfl, rfl⟩
    exact hj
  · exact fun h => ⟨v, i, h, rfl, rfl⟩

/-- The outputs that hold the result of an operation that goes away held one on which nothing is pending. -/
theorem Track.out_of_removed [IdSpace] (h : Track a b L s) (hd : Describes typed a b pend) (hs : b.Sound) {y u : ValueId}
    (hlead : Relation.TransGen (Bypass a b) y u) {i : Nat} (hi : s.block.outputs[i]? = some y) :
    ∃ v, b.outputs[i]? = some v ∧ Leads a b v y ∧ pend v = none := by
  have hlt : i < b.outputs.length := by
    rw [← h.outputCount]
    exact (List.getElem?_eq_some_iff.1 hi).1
  have hv : b.outputs[i]? = some b.outputs[i] := List.getElem?_eq_getElem hlt
  have hst := h.outs i _ y hv hi
  obtain ⟨x, hx, _⟩ := Relation.TransGen.head'_iff.1 hlead
  have hout : L.out i = none := by
    by_contra hne
    obtain ⟨w, hw⟩ := Option.ne_none_iff_exists'.1 hne
    rw [hw] at hst
    obtain ⟨m, hm⟩ := Option.ne_none_iff_exists'.1 (h.outMade i w hw)
    exact (h.made w m hm).2.1 (hst ▸ hx.source_defined)
  rw [hout] at hst
  refine ⟨b.outputs[i], hv, hst, ?_⟩
  -- what leads to the result of a transpose that goes away is itself one
  have hbypass : ∃ z, Bypass a b b.outputs[i] z := by
    rcases Relation.ReflTransGen.cases_head hst with he | ⟨z, hz, _⟩
    · exact ⟨x, he ▸ hx⟩
    · exact ⟨z, hz⟩
  obtain ⟨z, p, hp, hid, _, hpout⟩ := hbypass
  obtain ⟨x', y', q, _, _, hout', hcase⟩ := hd.of_removed hs hp hid
  have he : b.outputs[i] = y' := by
    rw [hout'] at hpout
    exact (List.head_eq_of_cons_eq hpout).symm
  rcases hcase with ⟨_, hnot⟩ | hnone
  · exact absurd (he ▸ List.getElem_mem hlt) hnot
  · rw [he]
    exact hnone

/-- What leads to a value that goes away is no input, and is not waited for. -/
theorem GoesAway.not_waited (hd : Describes typed a b pend) (hs : b.Sound) {o o' : Operation} {y u : ValueId}
    (hg : GoesAway a b L s o o' y u) {waiting : List ValueId} (hwait : ∀ v ∈ waiting, v ∈ b.outputs ∧ pend v ≠ none) :
    y ∉ b.inputs ∧ y ∉ waiting := by
  obtain ⟨x, ⟨p, hp, hid, _, hpout⟩, _⟩ := Relation.TransGen.head'_iff.1 hg.leads
  have hy : y ∈ p.outputs := by rw [hpout]; exact List.mem_singleton_self y
  refine ⟨hs.input_not_output hp hy, fun hin => ?_⟩
  obtain ⟨hout, hpend⟩ := hwait y hin
  obtain ⟨_, y', _, _, _, hpout', hcase⟩ := hd.of_removed hs hp hid
  rw [List.singleton_inj.1 (hpout.symm.trans hpout')] at hout hpend
  rcases hcase with ⟨_, hnot⟩ | hnone
  · exact hnot hout
  · exact hpend hnone

/-- A value passed on takes the place of a result in the outputs. -/
theorem Retiring.pass (hr : Retiring a b pend L) {y u w : ValueId} (hlead : Relation.TransGen (Bypass a b) y u)
    {type : TensorType} (htype : b.type? y = some type) (hw : L.made w = none) {slots : List Nat}
    (hslots : ∀ i ∈ slots, ∃ v, b.outputs[i]? = some v ∧ Leads a b v y ∧ pend v = none) :
    Retiring a b pend (((L.retire y).make w ⟨.unary .identity, [u], type⟩).fillOutputs slots w) := by
  have hr' := hr.retire hlead
  refine ⟨(hr'.justified.make hw (.inr (.inr ⟨y, u, hlead, htype, rfl, rfl⟩))).fillOutputs (Ledger.make_made_self ..)
    fun i hi => ?_, hr'.retired⟩
  obtain ⟨v, hv, hleads, hpend⟩ := hslots i hi
  exact .inr ⟨u, v, hv, Relation.TransGen.trans_right hleads hlead, hpend, rfl, rfl⟩

section Cancellation

variable {o o' : Operation} {y u : ValueId} {waiting names : List ValueId} {Q : List ValueId → Editor → Prop}

/-- The operation is still there when its result is no longer read, with the operand that it had. -/
theorem GoesAway.substitute (hg : GoesAway a b L s o o' y u) (hs : b.Sound) :
    o'.substitute y u ∈ (s.block.substitute y u).operations ∧ (o'.substitute y u).inputs = [u] := by
  refine ⟨List.mem_map_of_mem (f := Operation.substitute y u) hg.mem, ?_⟩
  rw [Operation.substitute, hg.inputs]
  simp [Editor.substitute, (hg.ne hs).symm]

/-- The operand takes over the name of the result. -/
theorem GoesAway.ensures_takeName [IdSpace] (hg : GoesAway a b L s o o' y u) (h : Track a b L s) (hs : b.Sound)
    (hfit : TypesFit fails a b) (hface : Facing b waiting s.block) (hyin : y ∉ b.inputs) (hywait : y ∉ waiting)
    (huin : u ∉ b.inputs)
    (hopen : ∀ (i : Nat) v, b.outputs[i]? = some v → s.block.outputs[i]? = some u → v ∈ waiting)
    (hQ : ∀ s', Track a b (L.retire y) s' → Facing b waiting s'.block → Q names s') :
    Ensures fails (do
      transferName y u
      replaceUses y u
      return names) s Q := by
  obtain ⟨ry, hry⟩ := h.sound.exists_value (h.defined hs hg.source_defined)
  obtain ⟨ru, hru⟩ := h.sound.exists_value (h.defined hs (hg.defined hs))
  have hyname : s.block.name? y = some ry.name := by rw [Block.name?, hry]; rfl
  refine Ensures.bind (ensures_transferName h.coherent hry hru fun x hx => Ensures.bind ?_)
  have hg' : GoesAway a b L ⟨(s.block.setName y (s.freshName (ry.name ++ "_old"))).setName u ry.name, x⟩ o o' y u :=
    ⟨hg.mem, hg.id, hg.inputs, hg.outputs, hg.before, hg.leads, hg.live⟩
  refine hg'.ensures_replaceUses (h.transferName hx) hs hfit fun x' hx' => ensures_pure (hQ _ hx' ?_)
  exact hface.take h.sound hyin hywait huin (hg.ne hs) hopen hyname (h.defined hs (hg.defined hs))
    (.freshName (.suffixed _ (by simp)) s)

/-- An identity of the operand takes the place of the result in the outputs. -/
theorem GoesAway.ensures_pass [IdSpace] (hg : GoesAway a b L s o o' y u) (hspace : IdSpace.Unbounded ∨ fails)
    (h : Track a b L s) (hd : Describes typed a b pend)
    (hs : b.Sound) (hfit : TypesFit fails a b) (hr : Retiring a b pend L) (hface : Facing b waiting s.block)
    (hyin : y ∉ b.inputs) (hywait : y ∉ waiting)
    (hQ : ∀ L' s', Track a b L' s' → Retiring a b pend L' → Retires L L' y → Facing b waiting s'.block → Q names s') :
    Ensures fails (do
      replaceUses y u
      let record ← value y
      renameValue y ((← get).freshName (record.name ++ "_old"))
      let id ← insertOneBefore o.id (.unary .identity) [u] record.name record.type
      setOutputs id (s.outputSlots y)
      return names) s Q := by
  obtain ⟨ry, hry⟩ := h.sound.exists_value (h.defined hs hg.source_defined)
  have htype : b.type? y = some ry.type := by
    rw [← h.types y hg.source_defined, Block.type?, hry]
    rfl
  refine Ensures.bind (hg.ensures_replaceUses h hs hfit fun x hx => ?_)
  have hry' : (⟨s.block.substitute y u, x⟩ : Editor).block.value? y = some ry := hry
  have hfree := hx.coherent.freshName_free (ry.name ++ "_old")
  refine Ensures.bind (ensures_value (s := ⟨s.block.substitute y u, x⟩) hry' (Ensures.bind (ensures_get (Ensures.bind ?_))))
  refine ensures_renameValue hx.coherent hry' (.inr hfree) fun x₁ hx₁ => ?_
  have h₁ := hx.rename hx₁
  obtain ⟨hmem, hins⟩ := hg.substitute hs
  obtain ⟨l, r, heq⟩ := List.append_of_mem hmem
  have hu : u ∈ (s.block.substitute y u).inputs ++ results l :=
    h₁.sound.operand_scope heq (by rw [hins]; exact List.mem_singleton_self u)
  have hlive : u ∉ (L.retire y).retired := fun hin => by
    rcases List.mem_cons.1 hin with he | hin
    · exact hg.ne hs he.symm
    · exact hg.live hin
  rw [show insertOneBefore o.id = insertOneBefore (o'.substitute y u).id by
    rw [show (o'.substitute y u).id = o.id from hg.id]]
  refine Ensures.bind (ensures_insertOneBefore hspace h₁ hs heq (.cons .refl .nil) (List.forall_mem_singleton.2 (hg.defined hs))
    (List.forall_mem_singleton.2 hlive) (List.forall_mem_singleton.2 hu) (hx.coherent.free_after_rename hry' hfree)
    fun w new x₂ hnew hwdef hw h₂ => ?_)
  have hmade := (L.retire y).make_made_self w ⟨.unary .identity, [u], ry.type⟩
  refine Ensures.bind (ensures_setOutputs h₂.coherent (fun i hi => ?_) (h₂.made w _ hmade).1 fun x₃ hx₃ => ensures_pure ?_)
  · rw [h₂.outputCount, ← h.outputCount]
    exact (List.getElem?_eq_some_iff.1 (mem_outputSlots.1 hi)).1
  · have hr' := hr.pass hg.leads htype hw fun i hi => h.out_of_removed hd hs hg.leads (mem_outputSlots.1 hi)
    have hw' : w ∉ s.block.defined := s.block.defined_substitute y u ▸ hwdef
    have hwin : w ∉ b.inputs := fun hin => hw' (h.defined hs (Block.mem_defined.2 (.inl hin)))
    have hyname : s.block.name? y = some ry.name := by rw [Block.name?, hry]; rfl
    refine hQ _ _ (h₂.fillOutputs (by rw [hmade]; exact Option.some_ne_none _) hx₃) hr' ⟨(Grows.retire.trans Grows.make).trans
      Grows.fillOutputs, rfl, (L.retires y).retired, (L.retires y).mem⟩ ?_
    exact hface.pass h.sound hyin hywait hwin (h.defined hs hg.source_defined) hw' hyname
      (.freshName (.suffixed _ (by simp)) _) (fun i => mem_outputSlots) hnew h₁.sound

/-- A cancellation: what reads or returns its result reads or returns its operand, or an identity of it. -/
theorem ensures_bypassCancellation [IdSpace] (hspace : IdSpace.Unbounded ∨ fails) (hd : Describes typed a b pend)
    (hs : b.Sound) (hfit : TypesFit fails a b)
    (h : Track a b L s) (hr : Retiring a b pend L) (hg : GoesAway a b L s o o' y u) (hface : Facing b waiting s.block)
    (hwait : ∀ v ∈ waiting, v ∈ b.outputs ∧ pend v ≠ none) {slots : List Nat}
    (hslots : ∀ i ∈ slots, ∃ v ∈ waiting, b.outputs[i]? = some v) (renamed : List ValueId)
    (hQ : ∀ names L' s', Track a b L' s' → Retiring a b pend L' → Retires L L' y → Facing b waiting s'.block →
      Q names s') :
    Ensures fails (bypassCancellation slots renamed o.id u y) s Q := by
  obtain ⟨hyin, hywait⟩ := hg.not_waited hd hs hwait
  refine Ensures.bind (ensures_get ?_)
  dsimp only
  split
  · rename_i hnone
    have hnot : y ∉ s.block.outputs := fun hmem => by
      obtain ⟨i, hi⟩ := List.mem_iff_getElem?.1 hmem
      have := mem_outputSlots.2 hi
      rw [List.isEmpty_iff.1 hnone] at this
      cases this
    refine Ensures.bind (hg.ensures_replaceUses h hs hfit fun x hx => ensures_pure ?_)
    exact hQ _ _ _ hx (hr.retire hg.leads) (L.retires y) (hface.steady (Steady.substitute hnot))
  · split
    · rename_i htest
      simp only [Bool.and_eq_true, Bool.not_eq_true', List.all_eq_true, List.contains_iff_mem] at htest
      obtain ⟨⟨_, hinput⟩, hopen⟩ := htest
      have huin : u ∉ b.inputs := fun hin => by
        rw [← h.inputs, ← h.coherent.agrees.isInput, hinput] at hin
        cases hin
      refine hg.ensures_takeName h hs hfit hface hyin hywait huin (fun i v hv hi => ?_) fun s' h' hface' =>
        hQ _ _ _ h' (hr.retire hg.leads) (L.retires y) hface'
      obtain ⟨v', hv', hi'⟩ := hslots i (hopen i (mem_outputSlots.2 hi))
      rw [hv, Option.some.injEq] at hi'
      exact hi' ▸ hv'
    · exact hg.ensures_pass hspace h hd hs hfit hr hface hyin hywait fun L' s' => hQ _ L' s'

end Cancellation

/-- Cancellations, one after another. -/
theorem ensures_bypassCancellations [IdSpace] (hspace : IdSpace.Unbounded ∨ fails) (hd : Describes typed a b pend)
    (hs : b.Sound) (hfit : TypesFit fails a b) {waiting : List ValueId}
    (hwait : ∀ v ∈ waiting, v ∈ b.outputs ∧ pend v ≠ none) {slots : List Nat}
    (hslots : ∀ i ∈ slots, ∃ v ∈ waiting, b.outputs[i]? = some v) :
    ∀ (ids : List OpId) (renamed : List ValueId) {L : Ledger} {s : Editor}, Track a b L s → Retiring a b pend L →
    Facing b waiting s.block → (∀ id ∈ ids, id ∈ a.removed) → ∀ {Q : Substitution → Editor → Prop},
    (∀ subst L' s', Track a b L' s' → Retiring a b pend L' → Bypassed a b ids L L' subst → Facing b waiting s'.block →
      Q subst s') →
    Ensures fails (bypassCancellations slots ids renamed) s Q := by
  intro ids
  induction ids with
  | nil =>
    intro renamed L s h hr hface _ Q hQ
    exact ensures_pure (hQ [] L s h hr Bypassed.nil hface)
  | cons id ids ih =>
    intro renamed L s h hr hface hids Q hQ
    obtain ⟨o, ho, rfl⟩ := hd.exists_of_removed (hids id List.mem_cons_self)
    obtain ⟨o', y, u, hg⟩ := h.goesAway hd hs ho (hids o.id List.mem_cons_self)
      (hr.slot hd (hids o.id List.mem_cons_self) 0)
    rw [bypassCancellations]
    refine Ensures.bind (hg.ensures_operandAndResult h (Ensures.bind ?_))
    refine ensures_bypassCancellation hspace hd hs hfit h hr hg hface hwait hslots renamed
      fun names L₁ s₁ h₁ hr₁ hret hface₁ => Ensures.bind ?_
    exact ih names h₁ hr₁ hface₁ (fun id hid => hids id (List.mem_cons_of_mem _ hid))
      fun subst L' s' h' hr' hby hface' => ensures_pure (hQ _ L' s' h' hr' (hby.cons hs ho hg hret) hface')

end Bypass

end Layout

end Relayout
