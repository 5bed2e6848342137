import Relayout.Proofs.Detaching

/-!
# Taking a region out

After a region has been detached its pending values are restored (`ensures_restoreAll`), and what is dead is removed
(`ensures_removeAll`, `ensures_eraseUnused`). Following the substitution ends, and ends in the value that a slot holds
already (`resolve_not_key`, `Leads.unique`), so a restored value is in scope where it is needed (`Restoring.inScope`).

`Spliced` is what there is to say about the block in the end.
-/

namespace Relayout.Layout

open Editor

/-! ## Restorations -/

section Restore

variable {typed : Prop} {a : Analysis} {b : Block} {pend : ValueId → Option Pending} {fails : Prop} {L : Ledger}
  {s : Editor} {subst : Substitution}

theorem lookup_mem {σ : Substitution} {v u : ValueId} (h : σ.lookup v = some u) : (v, u) ∈ σ := by
  induction σ with
  | nil => cases h
  | cons e σ ih =>
    obtain ⟨k, w⟩ := e
    rw [List.lookup_cons] at h
    by_cases hk : v = k
    · subst hk
      simp only [beq_self_eq_true, Option.some.injEq] at h
      rw [h]
      exact List.mem_cons_self
    · rw [beq_false_of_ne hk] at h
      exact List.mem_cons_of_mem _ (ih h)

theorem resolve_leads (h : Substitutes a b subst) (fuel : Nat) (v : ValueId) : Leads a b v (resolve subst fuel v) := by
  induction fuel generalizing v with
  | zero => exact .refl
  | succ fuel ih =>
    rw [resolve]
    split
    · rename_i u hu
      exact (h _ (lookup_mem hu)).to_reflTransGen.trans (ih u)
    · exact .refl

/-- A chain of substitutions goes from later to earlier definitions, so it has no more steps than there are keys. -/
theorem resolve_not_key (hs : b.Sound) (h : Substitutes a b subst) (v : ValueId) :
    resolve subst subst.length v ∉ subst.map (·.1) := by
  have key : ∀ fuel v, (subst.filter fun e => b.defined.idxOf e.1 ≤ b.defined.idxOf v).length ≤ fuel →
      resolve subst fuel v ∉ subst.map (·.1) := by
    intro fuel
    induction fuel with
    | zero =>
      intro v hlen hmem
      obtain ⟨e, he, hev⟩ := List.mem_map.1 hmem
      have hnil : (subst.filter fun e => b.defined.idxOf e.1 ≤ b.defined.idxOf v) = [] :=
        List.length_eq_zero_iff.1 (Nat.le_zero.1 hlen)
      rw [List.filter_eq_nil_iff] at hnil
      have hev' : e.1 = v := hev
      exact hnil e he (by simp [hev'])
    | succ fuel ih =>
      intro v hlen
      rw [resolve]
      split
      · rename_i u hu
        have hmem := lookup_mem hu
        have hlt : b.defined.idxOf u < b.defined.idxOf v := Leads.idxOf_lt hs (h _ hmem)
        refine ih u (Nat.le_of_lt_succ (lt_of_lt_of_le ?_ hlen))
        -- the entry of `v` itself counts for `v` and not for `u`
        have hsub : (subst.filter fun e => b.defined.idxOf e.1 ≤ b.defined.idxOf u) =
            ((subst.filter fun e => b.defined.idxOf e.1 ≤ b.defined.idxOf v).filter
              fun e => b.defined.idxOf e.1 ≤ b.defined.idxOf u) := by
          rw [List.filter_filter]
          refine List.filter_congr fun e _ => ?_
          rw [Bool.eq_iff_iff]
          simp only [Bool.and_eq_true, decide_eq_true_eq]
          exact ⟨fun he => ⟨he, he.trans hlt.le⟩, fun he => he.1⟩
        rw [hsub]
        refine List.length_filter_lt_length_iff_exists.2 ⟨(v, u), List.mem_filter.2 ⟨hmem, by simp⟩, ?_⟩
        simpa using hlt
      · rename_i hnone
        rw [← lookup_isSome, hnone]
        simp
  exact key _ v (List.length_filter_le _ _)

/-- The values that are restored for output slots. -/
def waitedFor (rs : List Restoration) : List ValueId :=
  rs.filterMap fun r =>
    match r.consumer with
    | .output _ => some r.value
    | .op _ _ => none

theorem mem_waitedFor {rs : List Restoration} {v : ValueId} :
    v ∈ waitedFor rs ↔ ∃ r ∈ rs, r.consumer.op? = none ∧ r.value = v := by
  simp only [waitedFor, List.mem_filterMap]
  refine exists_congr fun r => and_congr_right fun _ => ?_
  cases r.consumer <;> simp [Consumer.op?]

theorem mem_slotsOf {values : List ValueId} {v : ValueId} {i : Nat} :
    i ∈ Sweep.slotsOf values v ↔ values[i]? = some v := by
  simp only [Sweep.slotsOf, List.mem_filterMap, Option.ite_none_right_eq_some, Prod.exists,
    Option.some.injEq, List.mem_zipIdx_iff_getElem?]
  constructor
  · rintro ⟨w, j, hj, rfl, rfl⟩
    exact hj
  · exact fun h => ⟨v, i, h, rfl, rfl⟩

/-- What is known of a ledger while values are restored: all results of transposes that go away are retired. -/
structure Restoring (a : Analysis) (b : Block) (pend : ValueId → Option Pending) (subst : Substitution)
    (restored : List Restoration) (L : Ledger) : Prop where
  justified : Justified a b pend (payloads a.absorbed) restored L
  retired : ∀ y, y ∈ L.retired ↔ ∃ x, Bypass a b y x
  keys : ∀ y x, Bypass a b y x → y ∈ subst.map (·.1)
  substitutes : Substitutes a b subst

/-- All that a restoration is for holds a new value. -/
def Filled (L : Ledger) (consumer : Consumer) : Prop :=
  match consumer with
  | .op id slots => ∀ i ∈ slots, L.slot id i ≠ none
  | .output slots => ∀ i ∈ slots, L.out i ≠ none

theorem Filled.mono {L L' : Ledger} {consumer : Consumer} (h : Filled L consumer) (hg : Grows L L') :
    Filled L' consumer := by
  cases consumer with
  | op id slots => exact fun i hi => hg.slot id i (h i hi)
  | output slots => exact fun i hi => hg.out i (h i hi)

theorem Restoring.resolve_terminal {restored : List Restoration} (hr : Restoring a b pend subst restored L)
    (hs : b.Sound) (v w : ValueId) : ¬Bypass a b (resolve subst subst.length v) w := fun h =>
  resolve_not_key hs hr.substitutes v (hr.keys _ w h)

/-- A restoration that has not been done yet finds its slots as they were. -/
theorem Restoring.slot_eq_none {restored : List Restoration} (hr : Restoring a b pend subst restored L)
    (hd : Describes typed a b pend) (hs : b.Sound) (hsub : restored ⊆ a.restorations) {r : Restoration}
    (hmem : r ∈ a.restorations) (hnot : r ∉ restored) {o : Operation} (ho : o ∈ b.operations)
    (hmark : o.id ∉ a.marked) {slots : List Nat} (hc : r.consumer = .op o.id slots) {i : Nat}
    (hi : o.inputs[i]? = some r.value) : L.slot o.id i = none := by
  by_contra hne
  obtain ⟨w, hw⟩ := Option.ne_none_iff_exists'.1 hne
  obtain ⟨_, _, ⟨m, hm, _⟩ | ⟨r', hr', slots', hc', hi', _⟩⟩ := hr.justified.slot o.id i w hw
  · obtain ⟨record, hrecord, he⟩ := List.mem_flatMap.1 hm
    obtain ⟨c, _, he⟩ := List.mem_map.1 he
    have hop : record.op = o.id := congrArg Prod.fst he
    exact hmark (List.mem_append_right _ (hop ▸ List.mem_map_of_mem (f := (·.op)) hrecord))
  · have hrest := (hd.restorations r' (hsub hr')).2
    rw [hc'] at hrest
    obtain ⟨o₂, ho₂, he₂, _, _, hslots, _⟩ := hrest
    rw [hslots, hs.op_ext ho₂ ho he₂, mem_slotsOf, hi] at hi'
    have heq : r' = r := List.inj_on_of_nodup_map hd.restoredOnce (hsub hr') hmem
      (by simp only [hc, hc', Consumer.op?, Option.some.inj hi'])
    exact hnot (heq ▸ hr')

/-- A value that is returned with something pending on it is not the result of what goes away. -/
theorem Describes.leads_eq_of_output (hd : Describes typed a b pend) (hs : b.Sound) {v u : ValueId} {q : Pending}
    (hq : pend v = some q) (hout : v ∈ b.outputs) (hlead : Leads a b v u) : u = v := by
  rcases Relation.ReflTransGen.cases_head hlead with he | ⟨_, ⟨p, hp, hid, _, hpout⟩, _⟩
  · exact he.symm
  · obtain ⟨_, y, _, _, _, hpout', hcase⟩ := hd.of_removed hs hp hid
    rw [List.singleton_inj.1 (hpout.symm.trans hpout')] at hq hout
    rcases hcase with ⟨_, hnot⟩ | hnone
    · exact absurd hout hnot
    · rw [hnone] at hq
      cases hq

/-- A value is in scope where a consumer gets it restored: in front of an operation, or at the end of the block. -/
def InScope (b : Block) (v : ValueId) : Consumer → Prop
  | .op id _ => ∃ l o r, b.operations = l ++ o :: r ∧ o.id = id ∧ v ∈ b.inputs ++ results l
  | .output _ => v ∈ b.defined

/-- The value that a substitution ends in is in scope where it is restored, as a slot that is to be filled holds it. -/
theorem Restoring.inScope [IdSpace] {restored : List Restoration} (hr : Restoring a b pend subst restored L) (h : Track a b L s)
    (hd : Describes typed a b pend) (hs : b.Sound) (hsub : restored ⊆ a.restorations) {r : Restoration}
    (hmem : r ∈ a.restorations) (hnot : r ∉ restored) :
    InScope s.block (resolve subst subst.length r.value) r.consumer := by
  obtain ⟨hpend, hconsumer⟩ := hd.restorations r hmem
  have hlead : Leads a b r.value (resolve subst subst.length r.value) := resolve_leads hr.substitutes _ _
  cases hc : r.consumer with
  | op id slots =>
    rw [hc] at hconsumer
    obtain ⟨o, ho, rfl, hmark, hin, _⟩ := hconsumer
    obtain ⟨o', ho', hf⟩ := h.follows hs ho
    obtain ⟨l, t, heq⟩ := List.append_of_mem ho'
    obtain ⟨i, hi⟩ := List.mem_iff_getElem?.1 hin
    have hlt : i < o'.inputs.length := by
      rw [hf.arity]
      exact (List.getElem?_eq_some_iff.1 hi).1
    have hst := hf.slots i r.value _ hi (List.getElem?_eq_getElem hlt)
    rw [hr.slot_eq_none hd hs hsub hmem hnot ho hmark hc hi] at hst
    have hsame : o'.inputs[i] = resolve subst subst.length r.value := Leads.unique hs hst hlead
      (fun w hw => (h.retired _ ((hr.retired _).2 ⟨w, hw⟩)).2.2 o' ho' (List.getElem_mem hlt))
      (hr.resolve_terminal hs r.value)
    exact ⟨l, o', t, heq, hf.id, hsame ▸ h.sound.operand_scope heq (List.getElem_mem hlt)⟩
  | output slots => exact h.defined hs (Leads.defined hs (hd.defined r.value _ hpend) hlead)

/-- A value that may be read in place of another. -/
structure Source (a : Analysis) (b : Block) (L : Ledger) (v u : ValueId) : Prop where
  defined : v ∈ b.defined
  leads : Leads a b v u
  live : u ∉ L.retired

theorem Restoring.source {restored : List Restoration} (hr : Restoring a b pend subst restored L) (hs : b.Sound)
    {v : ValueId} (hv : v ∈ b.defined) : Source a b L v (resolve subst subst.length v) := by
  refine ⟨hv, resolve_leads hr.substitutes _ _, fun hin => ?_⟩
  obtain ⟨x, hx⟩ := (hr.retired _).1 hin
  exact hr.resolve_terminal hs v x hx

/-- The operation that restores a value. -/
def Restoration.newValue (r : Restoration) (type : TensorType) : NewValue :=
  ⟨.transpose r.perm, [r.value], type⟩

section One

variable {restored : List Restoration} {r : Restoration} {declared : Value} {w source : ValueId} {slots : List Nat}
  {waiting : List ValueId} {Q : Unit → Editor → Prop}

theorem Restoring.make (hr : Restoring a b pend subst restored L) (htype : b.type? r.value = some declared.type)
    (hw : L.made w = none) : Restoring a b pend subst (restored ++ [r]) (L.make w (r.newValue declared.type)) :=
  ⟨(hr.justified.mono (fun _ h => h) (List.subset_append_left _ _)).make hw (.inr (.inl ⟨r, by simp, rfl, rfl, htype⟩)),
    hr.retired, hr.keys, hr.substitutes⟩

/-- A value is restored in front of an operation. -/
theorem ensures_restoreInputs [IdSpace] (hspace : IdSpace.Unbounded ∨ fails) (hs : b.Sound) (h : Track a b L s)
    (hr : Restoring a b pend subst restored L) (htype : b.type? r.value = some declared.type)
    (hsource : Source a b L r.value source) {o : Operation}
    (ho : o ∈ b.operations) (hc : r.consumer = .op o.id slots) (hslots : slots = Sweep.slotsOf o.inputs r.value)
    (hscope : InScope s.block source r.consumer) (hface : Facing b waiting s.block) {sourceName : String}
    (hQ : ∀ L' s', Track a b L' s' → Restoring a b pend subst (restored ++ [r]) L' → Grows L L' →
      L'.restored = L.restored + 1 → Filled L' r.consumer → Facing b waiting s'.block → Q () s') :
    Ensures fails (do
      let name := (← get).freshName (sourceName ++ "_transposed")
      let id ← insertOneBefore o.id (.transpose r.perm) [source] name declared.type
      setInputs o.id id slots) s Q := by
  rw [hc] at hscope
  obtain ⟨l, o', t, heq, hid, hscoped⟩ := hscope
  have hf := h.follows_of_id hs ho (by rw [heq]; simp) hid
  refine Ensures.bind (ensures_get (Ensures.bind ?_))
  rw [← hf.id]
  refine ensures_insertOneBefore hspace h hs heq (.cons hsource.leads .nil) (List.forall_mem_singleton.2 hsource.defined)
    (List.forall_mem_singleton.2 hsource.live) (List.forall_mem_singleton.2 hscoped) (h.coherent.freshName_free _)
    fun w new x hnew hwdef hw h₁ => ?_
  have heq' : (s.block.withOp l (o' :: t) new [(s.freshName (sourceName ++ "_transposed"), declared.type)]).operations =
      (l ++ [new]) ++ o' :: t := by simp [Block.withOp]
  have hmade : (L.make w (r.newValue declared.type)).made w ≠ none := by simp
  have hst : Steady s.block (s.block.withOp l (o' :: t) new [(s.freshName (sourceName ++ "_transposed"), declared.type)]) :=
    Steady.withOp h.sound hnew hwdef (.freshName (.suffixed _ (by simp)) s)
  have hr₁ := hr.make htype hw
  refine ensures_setInputs h₁.coherent heq' (fun i hi => ?_) (by simp [hnew]) fun y hy => ?_
  · rw [hslots, mem_slotsOf] at hi
    rw [hf.arity]
    exact (List.getElem?_eq_some_iff.1 hi).1
  refine hQ _ _ (h₁.fill hs heq' ho hf.id hmade hy) ⟨hr₁.justified.fill (Ledger.make_made_self ..) fun i hi => ?_,
    hr₁.retired, hr₁.keys, hr₁.substitutes⟩ (Grows.make.trans Grows.fill) rfl ?_ (hface.steady (hst.trans (Steady.rewired _ _)))
  · exact .inr ⟨r, by simp, slots, hc, hi, rfl, rfl, htype⟩
  · rw [hc]
    intro i hi
    simp [Ledger.fill, hi]

/-- A value is restored at the end of the block, under the name that its source has released. -/
theorem ensures_restoreOutputs [IdSpace] (hspace : IdSpace.Unbounded ∨ fails) (hs : b.Sound) (h : Track a b L s)
    (hr : Restoring a b pend subst restored L) (htype : b.type? r.value = some declared.type)
    (hsource : Source a b L r.value source)
    (hc : r.consumer = .output slots) (hslots : slots = Sweep.slotsOf b.outputs r.value)
    (hface : ∀ w new, new.outputs = [w] → w ∉ s.block.defined → w ∉ b.inputs →
      Facing b waiting ((s.block.withOp s.block.operations [] new [(s.freshName declared.name, declared.type)]).rewired
        (s.block.operations ++ [new]) (setAll w slots s.block.outputs)))
    (hQ : ∀ L' s', Track a b L' s' → Restoring a b pend subst (restored ++ [r]) L' → Grows L L' →
      L'.restored = L.restored + 1 → Filled L' r.consumer → Facing b waiting s'.block → Q () s')
    {next : OpId × List ValueId → Edit Unit} (hnext : ∀ op id, next (op, [id]) = setOutputs id slots) :
    Ensures fails (do
      let name := (← get).freshName declared.name
      let new ← append (.transpose r.perm) [source] [(name, declared.type)]
      next new) s Q := by
  have hnames : ([(s.freshName declared.name, declared.type)].map (·.1)).Nodup := List.nodup_singleton _
  have hdef : source ∈ s.block.defined := h.defined hs (Leads.defined hs hsource.defined hsource.leads)
  refine Ensures.bind (ensures_get (Ensures.bind (ensures_append hspace h.coherent (List.forall_mem_singleton.2 hdef) hnames
    (List.forall_mem_singleton.2 (h.coherent.freshName_free _)) fun x hx => ?_)))
  have h₁ := h.insert hs (List.append_nil _).symm (.cons hsource.leads .nil) (List.forall_mem_singleton.2 hsource.defined)
    (List.forall_mem_singleton.2 hsource.live) hx
  have hr₁ := hr.make htype h.made_nextValue
  have hmade := L.make_made_self ⟨s.index.nextValue⟩ (r.newValue declared.type)
  have hwin : (⟨s.index.nextValue⟩ : ValueId) ∉ b.inputs := fun hin =>
    h.coherent.nextValue_new (h.defined hs (Block.mem_defined.2 (.inl hin)))
  show Ensures fails (next (_, [⟨s.index.nextValue⟩])) _ Q
  rw [hnext]
  refine ensures_setOutputs h₁.coherent (fun i hi => ?_) (h₁.made _ _ hmade).1 fun y hy => ?_
  · rw [hslots, mem_slotsOf] at hi
    rw [h₁.outputCount]
    exact (List.getElem?_eq_some_iff.1 hi).1
  refine hQ _ _ (h₁.fillOutputs (by simp) hy)
    ⟨hr₁.justified.fillOutputs hmade fun i hi => ?_, hr₁.retired, hr₁.keys, hr₁.substitutes⟩
    (Grows.make.trans Grows.fillOutputs) rfl ?_ (hface _ _ rfl h.coherent.nextValue_new hwin)
  · exact .inl ⟨r, by simp, slots, hc, hi, rfl, rfl, htype⟩
  · rw [hc]
    intro i hi
    simp [Ledger.fillOutputs, hi]

end One

/-- A value is restored for an operation or for the outputs of the block. -/
theorem ensures_restore [IdSpace] {restored rest : List Restoration} (hspace : IdSpace.Unbounded ∨ fails)
    (hd : Describes typed a b pend) (hs : b.Sound) (h : Track a b L s) (hr : Restoring a b pend subst restored L)
    (hsub : restored ⊆ a.restorations) {r : Restoration}
    (hmem : r ∈ a.restorations) (hnot : r ∉ restored) {declared : Value} (hdecl : b.value? r.value = some declared)
    (hface : Facing b (waitedFor (r :: rest)) s.block) (hrest : r.consumer.op? = none → r.value ∉ waitedFor rest)
    {Q : Unit → Editor → Prop}
    (hQ : ∀ L' s', Track a b L' s' → Restoring a b pend subst (restored ++ [r]) L' → Grows L L' →
      L'.restored = L.restored + 1 → Filled L' r.consumer → Facing b (waitedFor rest) s'.block → Q () s') :
    Ensures fails (restore subst r declared) s Q := by
  obtain ⟨hpend, hconsumer⟩ := hd.restorations r hmem
  have htype : b.type? r.value = some declared.type := by rw [Block.type?, hdecl]; rfl
  have hname : b.name? r.value = some declared.name := by rw [Block.name?, hdecl]; rfl
  have hsource := hr.source hs (hd.defined r.value _ hpend)
  have hscope := hr.inScope h hd hs hsub hmem hnot
  rw [restore]
  generalize resolve subst subst.length r.value = source at *
  obtain ⟨record, hrecord⟩ := h.sound.exists_value (h.defined hs (Leads.defined hs hsource.defined hsource.leads))
  refine Ensures.bind (ensures_value hrecord ?_)
  dsimp only
  cases hc : r.consumer with
  | op id slots =>
    rw [hc] at hconsumer
    obtain ⟨o, ho, rfl, _, _, hslots, _⟩ := hconsumer
    have hwaited : waitedFor (r :: rest) = waitedFor rest := by simp [waitedFor, hc]
    exact ensures_restoreInputs hspace hs h hr htype hsource ho hc hslots hscope (hwaited ▸ hface) hQ
  | output slots =>
    rw [hc] at hconsumer
    obtain ⟨hin, hslots⟩ := hconsumer
    obtain rfl : source = r.value := hd.leads_eq_of_output hs hpend hin hsource.leads
    have hwaited : waitedFor (r :: rest) = r.value :: waitedFor rest := by simp [waitedFor, hc]
    rw [hwaited] at hface
    have hvin : r.value ∉ b.inputs := fun hvin => by
      rw [hd.inputs r.value hvin] at hpend
      cases hpend
    have hrecord' : s.block.name? r.value = some record.name := by rw [Block.name?, hrecord]; rfl
    -- once the name is free, the transpose takes it
    have happend : ∀ next : OpId × List ValueId → Edit Unit, (∀ op id, next (op, [id]) = setOutputs id slots) →
        ∀ s₁ : Editor, Track a b L s₁ → Released s.block r.value declared.name s₁.block → Ensures fails (do
          let name := (← get).freshName declared.name
          let new ← append (.transpose r.perm) [r.value] [(name, declared.type)]
          next new) s₁ Q := by
      intro next hnext s₁ h₁ hreleased
      refine ensures_restoreOutputs hspace hs h₁ hr htype hsource hc hslots (fun w new hnew hwdef hwin => ?_) hQ hnext
      refine hface.restoreOutputs hname hreleased hs h₁.sound hvin (hrest (by rw [hc]; rfl)) h₁.outputCount
        ⟨fun hderived => ?_, fun hderived => hderived.freshName s₁⟩ hwdef hwin (fun i => by rw [hslots, mem_slotsOf]) hnew
      have hfree := hface.freed hname hreleased h.sound h₁.sound hderived
      rw [← h₁.coherent.agrees.mem_names] at hfree
      exact freshName_of_not_mem hfree
    dsimp only
    split
    · rename_i he
      refine Ensures.bind (ensures_get (Ensures.bind ?_))
      refine ensures_renameValue h.coherent hrecord (.inr (h.coherent.freshName_free _)) fun x hx => ?_
      refine happend _ (fun _ _ => rfl) _ (h.rename hx) ?_
      exact Released.rename (he ▸ hrecord') (.freshName (.suffixed _ (by simp)) s) (h.coherent.freshName_free _)
    · rename_i hne
      exact happend _ (fun _ _ => rfl) s h (Released.of_ne fun he => hne (Option.some.inj (hrecord'.symm.trans he)))

/-- Values are restored one after another, and others wait. -/
theorem ensures_restoreAll [IdSpace] (hspace : IdSpace.Unbounded ∨ fails) (hd : Describes typed a b pend) (hs : b.Sound)
    {rest : List Restoration} :
    ∀ (rs : List (Restoration × Value)) {L : Ledger} {s : Editor} {restored : List Restoration}, Track a b L s →
    Restoring a b pend subst restored L → (∀ r ∈ restored ++ (rs.map (·.1) ++ rest), r ∈ a.restorations) →
    (restored ++ (rs.map (·.1) ++ rest)).Nodup → (∀ e ∈ rs, b.value? e.1.value = some e.2) →
    Facing b (waitedFor (rs.map (·.1) ++ rest)) s.block → ∀ {Q : Unit → Editor → Prop},
    (∀ L' s', Track a b L' s' → Restoring a b pend subst (restored ++ rs.map (·.1)) L' → Grows L L' →
      L'.restored = L.restored + rs.length → (∀ e ∈ rs, Filled L' e.1.consumer) → Facing b (waitedFor rest) s'.block →
      Q () s') →
    Ensures fails (restoreAll subst rs) s Q := by
  intro rs
  induction rs with
  | nil =>
    intro L s restored h hr _ _ _ hface Q hQ
    exact ensures_pure (hQ L s h (by simpa using hr) (Grows.refl L) rfl (fun e he => (by cases he)) hface)
  | cons e rs ih =>
    intro L s restored h hr hmem hnd hdecl hface Q hQ
    obtain ⟨r, declared⟩ := e
    rw [List.map_cons, List.cons_append] at hmem hnd hface
    have hnot : r ∉ restored := fun hin => (List.nodup_append.1 hnd).2.2 r hin r List.mem_cons_self rfl
    have hrest : r.consumer.op? = none → r.value ∉ waitedFor (rs.map (·.1) ++ rest) := fun hop hin => by
      obtain ⟨r', hr', hop', hv⟩ := mem_waitedFor.1 hin
      have he : r' = r := List.inj_on_of_nodup_map hd.restoredOnce
        (hmem r' (List.mem_append_right _ (List.mem_cons_of_mem _ hr'))) (hmem r (by simp)) (by simp only [hv, hop, hop'])
      exact (List.nodup_cons.1 (List.nodup_append.1 hnd).2.1).1 (he ▸ hr')
    refine Ensures.bind (ensures_restore hspace hd hs h hr (fun x hx => hmem x (List.mem_append_left _ hx)) (hmem r (by simp))
      hnot (hdecl (r, declared) List.mem_cons_self) hface hrest fun L₁ s₁ h₁ hr₁ hg₁ hres₁ hfilled hface₁ => ?_)
    have hassoc : restored ++ r :: (rs.map (·.1) ++ rest) = (restored ++ [r]) ++ (rs.map (·.1) ++ rest) := by simp
    refine ih h₁ hr₁ (hassoc ▸ hmem) (hassoc ▸ hnd) (fun e he => hdecl e (List.mem_cons_of_mem _ he)) hface₁
      fun L' s' h' hr' hg' hres' hall hface' => ?_
    refine hQ L' s' h' (by simpa using hr') (hg₁.trans hg') (by rw [hres', hres₁, List.length_cons]; omega)
      (fun e he => ?_) hface'
    rcases List.mem_cons.1 he with rfl | he
    · exact hfilled.mono hg'
    · exact hall e he

/-- The records of restored values are there. -/
theorem ensures_declaredValues [IdSpace] (h : Coherent s) : ∀ (rs : List Restoration), (∀ r ∈ rs, r.value ∈ s.block.defined) →
    ∀ {Q : List (Restoration × Value) → Editor → Prop}, (∀ declared, declared.map (·.1) = rs →
      (∀ e ∈ declared, s.block.value? e.1.value = some e.2) → Q declared s) →
    Ensures fails (declaredValues rs) s Q := by
  intro rs
  induction rs with
  | nil => exact fun _ Q hQ => ensures_pure (hQ [] rfl fun e he => (by cases he))
  | cons r rs ih =>
    intro hdef Q hQ
    obtain ⟨v, hv⟩ := h.sound.exists_value (hdef r List.mem_cons_self)
    refine Ensures.bind (ensures_value hv (Ensures.bind ?_))
    refine ih (fun r' hr' => hdef r' (List.mem_cons_of_mem _ hr')) fun declared he hdecl =>
      ensures_pure (hQ _ (by rw [List.map_cons, he]) fun e he' => ?_)
    rcases List.mem_cons.1 he' with rfl | he'
    · exact hv
    · exact hdecl e he'

end Restore

/-! ## Removal -/

/-- A block without some of its operations. -/
structure Pruned (b b' : Block) : Prop where
  name : b'.name = b.name
  inputs : b'.inputs = b.inputs
  outputs : b'.outputs = b.outputs
  order : b'.operations.Sublist b.operations
  values : ∀ v ∈ b'.defined, b'.value? v = b.value? v

section Remove

variable {b b' b'' : Block} {fails : Prop} {s : Editor} {l r : List Operation} {o : Operation}

theorem Pruned.refl (b : Block) : Pruned b b :=
  ⟨rfl, rfl, rfl, .refl _, fun _ _ => rfl⟩

theorem Pruned.ops (h : Pruned b b') : b'.operations ⊆ b.operations :=
  h.order.subset

theorem Pruned.types (h : Pruned b b') {v : ValueId} (hv : v ∈ b'.defined) : b'.type? v = b.type? v := by
  rw [Block.type?, h.values v hv, Block.type?]

theorem Pruned.defined (h : Pruned b b') {v : ValueId} (hv : v ∈ b'.defined) : v ∈ b.defined := by
  rcases Block.mem_defined.1 hv with hv | ⟨o, ho, hv⟩
  · exact Block.mem_defined.2 (.inl (h.inputs ▸ hv))
  · exact Block.mem_defined.2 (.inr ⟨o, h.ops ho, hv⟩)

theorem Pruned.trans (h : Pruned b b') (h' : Pruned b' b'') : Pruned b b'' :=
  ⟨h'.name.trans h.name, h'.inputs.trans h.inputs, h'.outputs.trans h.outputs, h'.order.trans h.order,
    fun v hv => (h'.values v hv).trans (h.values v (h'.defined hv))⟩

/-- What is dead stays dead. -/
theorem Pruned.dead (h : Pruned b b') (hdead : b.Dead o) : b'.Dead o := fun v hv =>
  ⟨h.outputs ▸ (hdead v hv).1, fun p hp => (hdead v hv).2 p (h.ops hp)⟩

theorem Pruned.withoutOp (hs : b.Sound) (heq : b.operations = l ++ o :: r) : Pruned b (b.withoutOp l r o) := by
  have horder : (l ++ r).Sublist b.operations := by
    rw [heq]
    exact (List.Sublist.refl l).append (List.sublist_cons_self o r)
  refine ⟨rfl, rfl, rfl, horder, fun v hv => Block.value?_withoutOp fun hout => ?_⟩
  have hnd := hs.definedOnce
  rw [Block.defined_eq, heq, results_append, results_cons] at hnd
  have hv' : v ∈ b.inputs ++ results (l ++ r) := hv
  simp only [List.nodup_append, List.mem_append, results_append] at hnd hv'
  grind

/-- What is removed was not shown. -/
theorem Pruned.facing {c c' : Block} (hp : Pruned c c') (hs : c'.Sound) (hin : c.inputs = b.inputs)
    (h : Facing b [] c) : Facing b [] c' where
  inputNames x hx n hn := by
    have hx' : x ∈ c'.defined := Block.mem_defined.2 (.inl (by rw [hp.inputs, hin]; exact hx))
    rw [Block.name?, hp.values x hx']
    exact h.inputNames x hx n hn
  distinct := by rw [hp.outputs]; exact h.distinct
  input := by rw [hp.outputs]; exact h.input
  names i v n hv hwait hn hd := by
    obtain ⟨u, hu, hun⟩ := h.names i v n hv hwait hn hd
    rw [hp.outputs]
    refine ⟨u, hu, ?_⟩
    rw [Block.name?, hp.values u (hs.outputsDefined u (hp.outputs ▸ List.mem_of_getElem? hu))]
    exact hun
  free v hv := by cases hv

/-- Removes transposes that are dead. -/
theorem ensures_removeAll [IdSpace] : ∀ (ids : List OpId) {s : Editor}, Coherent s → ids.Nodup →
    (∀ id ∈ ids, ∃ o ∈ s.block.operations, o.id = id ∧ s.block.Dead o ∧ o.kind.isTranspose) →
    ∀ {Q : Unit → Editor → Prop}, (∀ s', Coherent s' → Pruned s.block s'.block →
      (∀ o ∈ s.block.operations, o ∈ s'.block.operations ↔ o.id ∉ ids) →
      s'.block.transposes + ids.length = s.block.transposes → Q () s') →
    Ensures fails (removeAll ids) s Q := by
  intro ids
  induction ids with
  | nil =>
    intro s h _ _ Q hQ
    exact ensures_pure (hQ s h (Pruned.refl _) (fun o ho => by simp [ho]) rfl)
  | cons id ids ih =>
    intro s h hnd hids Q hQ
    rw [List.nodup_cons] at hnd
    obtain ⟨o, ho, rfl, hdead, hk⟩ := hids id List.mem_cons_self
    obtain ⟨l, r, heq⟩ := List.append_of_mem ho
    refine Ensures.bind (ensures_removeOp h heq hdead fun x hx => ?_)
    have hp := Pruned.withoutOp h.sound heq
    refine ih (s := ⟨s.block.withoutOp l r o, x⟩) hx hnd.2 (fun id hid => ?_) fun s' h' hp' hops hcount =>
      hQ s' h' (hp.trans hp') (fun p hpo => ?_) ?_
    · obtain ⟨p, hp', rfl, hdead', hk'⟩ := hids id (List.mem_cons_of_mem _ hid)
      exact ⟨p, (h.sound.registered.mem_others heq p).2 ⟨hp', fun he => hnd.1 (he ▸ hid)⟩, rfl, hp.dead hdead', hk'⟩
    · have hiff := h.sound.registered.mem_others heq p
      rw [List.mem_cons, not_or]
      constructor
      · intro hin
        have hin' := hp'.ops hin
        exact ⟨(hiff.1 hin').2, (hops p hin').1 hin⟩
      · rintro ⟨hne, hnot⟩
        exact (hops p (hiff.2 ⟨hpo, hne⟩)).2 hnot
    · have hsplit : s.block.transposes = (s.block.withoutOp l r o).transposes + 1 := by
        rw [Block.transposes, heq, List.countP_append, List.countP_cons, if_pos hk, Block.transposes]
        show _ = (l ++ r).countP _ + 1
        rw [List.countP_append]
        omega
      rw [hsplit, ← hcount, List.length_cons]
      omega

/-- Removes operations that are still there and dead, none of them a transpose. -/
theorem ensures_eraseUnused [IdSpace] : ∀ (ids : List OpId) {s : Editor}, Coherent s →
    (∀ o ∈ s.block.operations, o.id ∈ ids → o.kind.isTranspose = false) →
    ∀ {Q : Nat → Editor → Prop}, (∀ n s', Coherent s' → Pruned s.block s'.block →
      (∀ o ∈ s.block.operations, o.id ∉ ids → o ∈ s'.block.operations) →
      s'.block.transposes = s.block.transposes → Q n s') →
    Ensures fails (eraseUnused ids) s Q := by
  intro ids
  induction ids with
  | nil =>
    intro s h _ Q hQ
    exact ensures_pure (hQ 0 s h (Pruned.refl _) (fun o ho _ => ho) rfl)
  | cons id ids ih =>
    intro s h hids Q hQ
    have hkeep : Ensures fails (do return 0 + (← eraseUnused ids)) s Q := by
      refine Ensures.bind (ih h (fun o ho hid => hids o ho (List.mem_cons_of_mem _ hid)) fun n s' h' hp' hops hcount =>
        ensures_pure (hQ _ s' h' hp' (fun o ho hid => hops o ho fun hin => hid (List.mem_cons_of_mem _ hin)) hcount))
    refine Ensures.bind (ensures_get ?_)
    dsimp only
    split
    · rename_i hin
      obtain ⟨o, ho, rfl⟩ := List.mem_map.1 (h.agrees.contains.1 hin)
      obtain ⟨l, r, heq⟩ := List.append_of_mem ho
      refine Ensures.bind (ensures_eraseIfDead h heq (fun _ => hkeep) fun hdead x hx => ?_)
      have hp := Pruned.withoutOp h.sound heq
      have hiff := h.sound.registered.mem_others heq
      refine Ensures.bind (ih (s := ⟨s.block.withoutOp l r o, x⟩) hx (fun p hpo hid => ?_) fun n s' h' hp' hops hcount =>
        ensures_pure (hQ _ s' h' (hp.trans hp') (fun p hpo hid => ?_) ?_))
      · exact hids p ((hiff p).1 hpo).1 (List.mem_cons_of_mem _ hid)
      · rw [List.mem_cons, not_or] at hid
        exact hops p ((hiff p).2 ⟨hpo, hid.1⟩) hid.2
      · have hk := hids o ho List.mem_cons_self
        rw [hcount]
        show (l ++ r).countP _ = _
        rw [Block.transposes, heq, List.countP_append, List.countP_append, List.countP_cons, if_neg (by simp [hk])]
        omega
    · exact Ensures.bind (ensures_pure hkeep)

end Remove

/-! ## The whole region -/

/-- What an analysis says of one component. -/
def Analysis.part (a : Analysis) (c : Component) : Analysis where
  seeds := c.seeds
  absorbed := select a.absorbed c.absorbed
  cancellations := select a.cancellations c.cancellations
  restorations := a.restorationsOf c

/-- A block that a region has been taken out of, compared with the block before. -/
structure Spliced (a : Analysis) (b : Block) (pend : ValueId → Option Pending) (L : Ledger) (b' : Block) : Prop where
  sound : b'.Sound
  name : b'.name = b.name
  inputs : b'.inputs = b.inputs
  types : ∀ v ∈ b.defined, v ∈ b'.defined → b'.type? v = b.type? v
  ops : ∀ o' ∈ b'.operations, (∃ o ∈ b.operations, o.id ∉ a.removed ∧ Follows a b L o o') ∨ Made a b L o'
  kept : ∀ o ∈ b.operations, o.id ∉ a.removed → o.kind.isConst = false → ∃ o' ∈ b'.operations, Follows a b L o o'
  order : ((b.operations.map (·.id)).filter (b'.operations.map (·.id)).contains).Sublist (b'.operations.map (·.id))
  outputCount : b'.outputs.length = b.outputs.length
  outs : ∀ i v v', b.outputs[i]? = some v → b'.outputs[i]? = some v' → Stands a b (L.out i) v v'
  made : ∀ w m, L.made w = some m →
    w ∉ b.defined ∧ (w ∈ b'.defined → b'.type? w = some m.type) ∧ ∀ u ∈ m.sources, u ∈ b.defined
  justified : Justified a b pend (payloads a.absorbed) a.restorations L
  absorbed : ∀ r ∈ a.absorbed,
    L.kind r.op = some r.absorption.kind ∧ ∀ c ∈ r.absorption.constants, L.slot r.op c.1 ≠ none
  restored : ∀ r ∈ a.restorations, Filled L r.consumer
  count : b'.transposes + a.removed.length = b.transposes + a.restorations.length
  facing : Facing b [] b'

section Whole

variable {typed : Prop} {a : Analysis} {b : Block} {pend : ValueId → Option Pending} {fails : Prop} {s : Editor}

/-- What is left of the transposes that go away is dead. -/
theorem Track.dead [IdSpace] {L : Ledger} {subst : Substitution} (h : Track a b L s) (hd : Describes typed a b pend)
    (hs : b.Sound)
    (hr : Restoring a b pend subst a.restorations L) {id : OpId} (hid : id ∈ a.removed) :
    ∃ o' ∈ s.block.operations, o'.id = id ∧ s.block.Dead o' ∧ o'.kind.isTranspose := by
  obtain ⟨o, ho, rfl⟩ := hd.exists_of_removed hid
  obtain ⟨x, y, p, hk, hin, hout, _⟩ := hd.of_removed hs ho hid
  obtain ⟨o', ho', hf⟩ := h.follows hs ho
  refine ⟨o', ho', hf.id, fun v hv => ?_, ?_⟩
  · rw [hf.outputs, hout, List.mem_singleton] at hv
    subst hv
    exact (h.retired v ((hr.retired v).2 ⟨x, o, ho, hid, hin, hout⟩)).2
  · rw [hf.kind, hr.justified.kind_removed hd hid, Option.getD_none, hk]
    rfl

/-- The elements of a part of a list, in the order of the list. -/
theorem filter_contains_of_sublist {α : Type} [BEq α] [LawfulBEq α] {xs ys : List α} (h : xs.Sublist ys)
    (hnd : ys.Nodup) : ys.filter xs.contains = xs := by
  have hsub : xs.Sublist (ys.filter xs.contains) := by
    have hfilter := h.filter xs.contains
    rw [List.filter_eq_self.2 fun x hx => List.contains_iff_mem.2 hx] at hfilter
    exact hfilter
  have hmem : ys.filter xs.contains ⊆ xs := fun y hy => List.contains_iff_mem.1 (List.mem_filter.1 hy).2
  exact (hsub.eq_of_length_le ((hnd.filter _).subperm hmem).length_le).symm

/-- What is removed in the end turns a tracked block into a spliced one. -/
theorem Track.spliced [IdSpace] {L : Ledger} {subst : Substitution} (h : Track a b L s) (hs : b.Sound)
    (hr : Restoring a b pend subst a.restorations L)
    (habs : ∀ r ∈ a.absorbed, L.kind r.op = some r.absorption.kind ∧ ∀ c ∈ r.absorption.constants, L.slot r.op c.1 ≠ none)
    (hfilled : ∀ r ∈ a.restorations, Filled L r.consumer) (hres : L.restored = a.restorations.length) {b' : Block}
    (hsound : b'.Sound) (hp : Pruned s.block b') (hgone : ∀ o' ∈ b'.operations, o'.id ∉ a.removed)
    (hkept : ∀ o ∈ b.operations, o.id ∉ a.removed → o.kind.isConst = false → ∀ o' ∈ s.block.operations,
      o'.id = o.id → o' ∈ b'.operations)
    (hcount : b'.transposes + a.removed.length = s.block.transposes) (hface : Facing b [] s.block) :
    Spliced a b pend L b' := by
  refine ⟨hsound, hp.name.trans h.name, hp.inputs.trans h.inputs, fun v hv hv' => (hp.types hv').trans (h.types v hv),
    fun o' ho' => ?_, fun o ho hid hk => ?_, ?_, by rw [hp.outputs, h.outputCount], fun i v v' => ?_, fun w m hm => ?_,
    hr.justified, habs, hfilled, by rw [hcount, h.count, hres], hp.facing hsound h.inputs hface⟩
  · rcases h.ops o' (hp.ops ho') with ⟨o, ho, hf⟩ | hmade
    · exact .inl ⟨o, ho, hf.id ▸ hgone o' ho', hf⟩
    · exact .inr hmade
  · obtain ⟨o', ho', hf⟩ := h.follows hs ho
    exact ⟨o', hkept o ho hid hk o' ho' hf.id, hf⟩
  · -- both lists are in the order of the block under edits
    have hids : (b'.operations.map (·.id)).Sublist (s.block.operations.map (·.id)) := hp.order.map _
    have horder := h.order.filter (b'.operations.map (·.id)).contains
    rw [filter_contains_of_sublist hids h.sound.opsOnce] at horder
    exact horder
  · rw [hp.outputs]
    exact h.outs i v v'
  · obtain ⟨_, hnew, htype, hsrc⟩ := h.made w m hm
    exact ⟨hnew, fun hw => (hp.types hw).trans htype, hsrc⟩

/-- A value that is waited for is returned with something pending on it. -/
theorem Describes.waitedFor_pending (hd : Describes typed a b pend) :
    ∀ v ∈ waitedFor a.restorations, v ∈ b.outputs ∧ pend v ≠ none := by
  intro v hv
  obtain ⟨r, hr, hop, rfl⟩ := mem_waitedFor.1 hv
  obtain ⟨hpend, hconsumer⟩ := hd.restorations r hr
  cases hc : r.consumer with
  | op _ _ =>
    rw [hc] at hop
    cases hop
  | output _ =>
    rw [hc] at hconsumer
    exact ⟨hconsumer.1, by rw [hpend]; exact Option.some_ne_none _⟩

/-- A slot that a restoration will fill held a value that is waited for. -/
theorem Describes.waitedFor_of_slot (hd : Describes typed a b pend) {i : Nat} (hi : i ∈ restoredSlots a.restorations) :
    ∃ v ∈ waitedFor a.restorations, b.outputs[i]? = some v := by
  obtain ⟨r, hr, hi⟩ := List.mem_flatMap.1 hi
  cases hc : r.consumer with
  | op _ _ =>
    rw [hc] at hi
    cases hi
  | output slots =>
    rw [hc] at hi
    have hconsumer := (hd.restorations r hr).2
    rw [hc] at hconsumer
    rw [hconsumer.2, mem_slotsOf] at hi
    exact ⟨r.value, mem_waitedFor.2 ⟨r, hr, by rw [hc]; rfl, rfl⟩, hi⟩

/-- All results of transposes that go away are retired before anything is restored. -/
theorem ensures_detach [IdSpace] {c : Component} (hspace : IdSpace.Unbounded ∨ fails)
    (hd : Describes typed (a.part c) b pend) (hs : b.Sound) (hfit : TypesFit fails (a.part c) b) (hco : Coherent s)
    (hb : s.block = b)
    {Q : Substitution × List OpId → Editor → Prop}
    (hQ : ∀ subst producers L s', Track (a.part c) b L s' → Restoring (a.part c) b pend subst [] L →
      (∀ r ∈ (a.part c).absorbed,
        L.kind r.op = some r.absorption.kind ∧ ∀ e ∈ r.absorption.constants, L.slot r.op e.1 ≠ none) →
      L.restored = 0 → (∀ id ∈ producers, IsConst b id) → Facing b (waitedFor (a.part c).restorations) s'.block →
      Q (subst, producers) s') :
    Ensures fails (detach a c) s Q := by
  refine Ensures.bind (ensures_absorbAll hspace hd hs (a.part c).absorbed (Track.start hco hb) Justified.start
    (hb ▸ Steady.refl _) (fun r hr => hr) (List.nodup_append.1 hd.markedOnce).2.1 (fun r _ e he => (by cases he))
    fun producers L₁ s₁ h₁ hj₁ hg₁ habs hret₁ hres₁ hconst hst₁ => Ensures.bind ?_)
  have hret₀ : Retiring (a.part c) b pend L₁ := by
    refine ⟨by simpa using hj₁, fun y hy => ?_⟩
    rw [hret₁] at hy
    cases hy
  refine ensures_bypassSeeds hd hs hfit c.seeds h₁ hret₀ hst₁ (fun id hid => hid)
    fun subst₁ L₂ s₂ h₂ hr₂ hby₂ hst₂ => Ensures.bind ?_
  refine ensures_bypassCancellations hspace hd hs hfit hd.waitedFor_pending (fun i hi => hd.waitedFor_of_slot hi)
    (a.cancelledBy c) [] h₂ hr₂ ((Facing.refl b _).steady hst₂) (fun id hid => List.mem_append_right _ hid)
    fun subst₂ L₃ s₃ h₃ hr₃ hby₃ hface => ensures_pure ?_
  have hretired : ∀ y x, Bypass (a.part c) b y x → y ∈ L₃.retired ∧ y ∈ (subst₁ ++ subst₂).map (·.1) := by
    rintro y x ⟨o, ho, hid, _, hout⟩
    have hy : y ∈ o.outputs := by rw [hout]; exact List.mem_singleton_self y
    rw [List.map_append, List.mem_append]
    rcases List.mem_append.1 hid with hid | hid
    · obtain ⟨hy₁, hy₂⟩ := hby₂.results y ⟨o, ho, hid, hy⟩
      exact ⟨hby₃.retired hy₁, .inl hy₂⟩
    · obtain ⟨hy₁, hy₂⟩ := hby₃.results y ⟨o, ho, hid, hy⟩
      exact ⟨hy₁, .inr hy₂⟩
  refine hQ _ producers L₃ s₃ h₃ ⟨hr₃.justified, fun y => ⟨hr₃.retired y, fun ⟨x, hx⟩ => (hretired y x hx).1⟩,
    fun y x hx => (hretired y x hx).2, fun e he => ?_⟩ (fun r hr => ?_) (by rw [hby₃.restored, hby₂.restored, hres₁])
    hconst hface
  · rcases List.mem_append.1 he with he | he
    · exact hby₂.substitutes e he
    · exact hby₃.substitutes e he
  · have hg := hby₂.grows.trans hby₃.grows
    exact ⟨hg.kind _ _ (habs r hr).1, fun c hc => hg.slot _ _ ((habs r hr).2 c hc)⟩

/-- What produced the constants that were replaced is no transpose, whatever has become of it. -/
theorem Track.const_kind [IdSpace] {L : Ledger} {done : List (OpId × Nat × Literal)} {restored : List Restoration}
    (h : Track a b L s) (hd : Describes typed a b pend) (hs : b.Sound) (hj : Justified a b pend done restored L)
    {o o' : Operation} (ho : o ∈ b.operations) (hk : o.kind.isConst) (ho' : o' ∈ s.block.operations)
    (he : o'.id = o.id) : o'.kind.isTranspose = false := by
  refine (h.follows_of_id hs ho ho' he).not_transpose hd hs ho hj ?_
  cases hok : o.kind with
  | const _ => rfl
  | _ => rw [hok] at hk; cases hk

/-- The edits of a component do what its records say. They cannot fail if types fit. -/
theorem ensures_splice [IdSpace] {c : Component} (hspace : IdSpace.Unbounded ∨ fails)
    (hd : Describes typed (a.part c) b pend) (hs : b.Sound) (hfit : TypesFit fails (a.part c) b) (hco : Coherent s)
    (hb : s.block = b) :
    Ensures fails (splice a c) s fun _ s' => ∃ L, Spliced (a.part c) b pend L s'.block := by
  refine Ensures.bind (ensures_declaredValues hco _ (fun r hr => ?_) fun declared hdecl hvalues => Ensures.bind ?_)
  · rw [hb]
    exact hd.defined r.value _ (hd.restorations r hr).1
  rw [hb] at hvalues
  refine ensures_detach hspace hd hs hfit hco hb fun subst producers L₃ s₃ h₃ hr₃ habs hres₃ hconst hface₃ => Ensures.bind ?_
  change declared.map (·.1) = (a.part c).restorations at hdecl
  have hall : declared.map (·.1) ++ [] = (a.part c).restorations := by rw [List.append_nil, hdecl]
  refine ensures_restoreAll hspace hd hs declared h₃ hr₃ (fun r hr => ?_) ?_ hvalues (hall ▸ hface₃)
    fun L₄ s₄ h₄ hr₄ hg₄ hres₄ hfilled hface₄ => Ensures.bind ?_
  · rw [List.nil_append, hall] at hr
    exact hr
  · rw [List.nil_append, hall]
    exact List.Nodup.of_map _ hd.restoredOnce
  rw [List.nil_append, hdecl] at hr₄
  have hperm : (a.cancelledBy c ++ c.seeds).Perm (a.part c).removed := List.perm_append_comm
  refine ensures_removeAll _ h₄.coherent (hperm.nodup_iff.2 (List.nodup_append.1 hd.markedOnce).1)
    (fun id hid => h₄.dead hd hs hr₄ (hperm.mem_iff.1 hid)) fun s₅ h₅ hp₅ hops₅ hcount₅ => Ensures.bind ?_
  refine ensures_eraseUnused _ h₅ (fun o' ho' hid => ?_) fun n s₆ h₆ hp₆ hops₆ hcount₆ => ensures_pure ⟨L₄, ?_⟩
  · obtain ⟨o, ho, he, hk⟩ := hconst o'.id (Seeds.mem_ofList.1 hid)
    exact h₄.const_kind hd hs hr₄.justified ho hk (hp₅.ops ho') he.symm
  refine h₄.spliced hs hr₄ (fun r hr => ?_) (fun r hr => ?_) ?_ h₆.sound (hp₅.trans hp₆) (fun o' ho' hid => ?_)
    (fun o ho hid hk o' ho' he => ?_) ?_ hface₄
  · exact ⟨hg₄.kind _ _ (habs r hr).1, fun c hc => hg₄.slot _ _ ((habs r hr).2 c hc)⟩
  · rw [← hdecl] at hr
    obtain ⟨e, he, rfl⟩ := List.mem_map.1 hr
    exact hfilled e he
  · rw [hres₄, hres₃, ← hdecl, List.length_map, Nat.zero_add]
  · have ho'' := hp₆.ops ho'
    exact (hops₅ o' (hp₅.ops ho'')).1 ho'' (hperm.mem_iff.2 hid)
  · refine hops₆ o' ((hops₅ o' ho').2 fun hin => hid (he ▸ hperm.mem_iff.1 hin)) fun hin => ?_
    obtain ⟨p, hp, hpe, hpk⟩ := hconst o'.id (Seeds.mem_ofList.1 hin)
    rw [hs.op_ext hp ho (hpe.trans he), hk] at hpk
    cases hpk
  · rw [hcount₆, ← hcount₅, hperm.length_eq]

/-- A component that was taken out has been spliced. -/
theorem applyComponent_spliced [IdSpace] {c : Component} {b' : Block} {n : Nat} (hd : Describes typed (a.part c) b pend)
    (hs : b.Sound) (h : applyComponent b a c = .ok (b', n)) : ∃ L, Spliced (a.part c) b pend L b' := by
  have hfit : TypesFit True (a.part c) b := fun _ _ _ _ _ _ _ => .inr trivial
  unfold applyComponent at h
  split at h
  · cases h
  rename_i s hs'
  obtain ⟨hb, hco⟩ := hs.ofBlock_eq_ok hs'
  split at h
  · rename_i erased t ht
    obtain ⟨L, hL⟩ := (ensures_splice (.inr trivial) hd hs hfit hco hb).of_ok ht
    cases h
    exact ⟨L, hL⟩
  · cases h

/-- A component can be taken out if types fit and ids do not run out. -/
theorem exists_applyComponent [IdSpace] {c : Component} (hspace : IdSpace.Unbounded)
    (hd : Describes typed (a.part c) b pend) (hs : b.Sound) (hfit : TypesFit False (a.part c) b) :
    ∃ b' n, applyComponent b a c = .ok (b', n) := by
  obtain ⟨s, hs', hb, hco⟩ := hs.exists_editor (hspace.hasFreeIds b)
  obtain ⟨n, t, ht, _⟩ := (ensures_splice (.inl hspace) hd hs hfit hco hb).exists_ok
  refine ⟨t.block, n, ?_⟩
  unfold applyComponent
  rw [hs']
  dsimp only
  rw [ht]

end Whole

end Relayout.Layout
