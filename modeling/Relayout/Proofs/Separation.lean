import Relayout.Proofs.Splicing

/-!
# Regions apart

Two regions of one block are `Apart` if nothing is pending in both on one value, and no operation is touched by both.
Then each is idle where the other one does something (`Apart.idle`), and taking one of them out leaves the other as it
was (`Apart.describes`): the operands that its operations read are other values at most where nothing is pending.
-/

namespace Relayout.Layout

/-- The operations that a region does something to. -/
def Analysis.touched (a : Analysis) : List OpId :=
  a.marked ++ a.restorations.filterMap (·.consumer.op?)

/-- Two regions have nothing in common. -/
structure Apart (a : Analysis) (pend : ValueId → Option Pending) (a' : Analysis) (pend' : ValueId → Option Pending) :
    Prop where
  values : ∀ v, pend v = none ∨ pend' v = none
  ops : ∀ id ∈ a.touched, id ∉ a'.touched

/-- Nothing is pending where an operation reads and writes. -/
def Idle (pend : ValueId → Option Pending) (o : Operation) : Prop :=
  (∀ x ∈ o.inputs, pend x = none) ∧ ∀ y ∈ o.outputs, pend y = none

section Apart

variable {typed typed' : Prop} {a a' : Analysis} {b : Block} {pend pend' : ValueId → Option Pending} {o : Operation}

theorem mem_touched_of_removed {id : OpId} (h : id ∈ a.removed) : id ∈ a.touched :=
  List.mem_append_left _ (List.mem_append_left _ h)

theorem mem_touched_of_restored {r : Restoration} (hr : r ∈ a.restorations) {id : OpId}
    (h : r.consumer.op? = some id) : id ∈ a.touched :=
  List.mem_append_right _ (List.mem_filterMap.2 ⟨r, hr, h⟩)

/-- An operation that a region does nothing to hands on what is pending, or is idle. -/
theorem Describes.untouched (hd : Describes typed a b pend) (ho : o ∈ b.operations) (hid : o.id ∉ a.touched) :
    Passes pend o ∨ Idle pend o := by
  rcases hd.others o ho fun hm => hid (List.mem_append_left _ hm) with hp | ⟨hins, houts⟩
  · exact .inl hp
  · refine .inr ⟨fun x hx => ?_, houts⟩
    by_contra hne
    obtain ⟨q, hq⟩ := Option.ne_none_iff_exists'.1 hne
    obtain ⟨r, hr, _, slots, hc⟩ := hins x hx q hq
    exact hid (mem_touched_of_restored hr (by rw [hc]; rfl))

/-- Something is pending on a pointwise operation that a region touches. -/
theorem Describes.not_idle_of_touched (hd : Describes typed a b pend) (hs : b.Sound) (ho : o ∈ b.operations)
    (hk : o.kind.isPointwise) (hid : o.id ∈ a.touched) : ∃ x ∈ o.inputs, pend x ≠ none := by
  rcases List.mem_append.1 hid with hid | hid
  · rcases List.mem_append.1 hid with hid | hid
    · obtain ⟨_, _, p, hp, _⟩ := hd.of_removed hs ho hid
      rw [hp] at hk
      cases hk
    · obtain ⟨r, hr, he⟩ := List.mem_map.1 hid
      obtain ⟨x, hx, q, hq, _⟩ := (hd.absorbs hs ho hr he).exists_pending
      exact ⟨x, hx, by rw [hq]; exact Option.some_ne_none q⟩
  · obtain ⟨r, hr, hc⟩ := List.mem_filterMap.1 hid
    obtain ⟨hpend, hconsumer⟩ := hd.restorations r hr
    cases hcons : r.consumer with
    | output slots => rw [hcons] at hc; cases hc
    | op id slots =>
      rw [hcons] at hc hconsumer
      obtain ⟨o', ho', he, _, hin, _⟩ := hconsumer
      rw [hs.op_ext ho' ho (he.trans (Option.some.inj hc))] at hin
      exact ⟨r.value, hin, by rw [hpend]; exact Option.some_ne_none _⟩

/-- A region is idle where another one does something. -/
theorem Apart.idle (h : Apart a pend a' pend') (hd : Describes typed a b pend) (hd' : Describes typed' a' b pend')
    (hs : b.Sound) (ho : o ∈ b.operations) (hid : o.id ∈ a.touched) : Idle pend' o := by
  rcases hd'.untouched ho (h.ops o.id hid) with ⟨x, y, q, hk, hin, _, hx, _⟩ | hidle
  · obtain ⟨x', hx', hne⟩ := hd.not_idle_of_touched hs ho hk hid
    rw [hin, List.mem_singleton] at hx'
    subst hx'
    rcases h.values x' with h0 | h0
    · exact absurd h0 hne
    · rw [h0] at hx
      cases hx
  · exact hidle

end Apart

/-! ## Taking one region out -/

section Frame

variable {typed typed' : Prop} {a a' : Analysis} {b b' : Block} {pend pend' : ValueId → Option Pending} {L : Ledger}
  {o o' : Operation}

/-- Nothing of another region is pending where the operands of what goes away are followed. -/
theorem Apart.leads (h : Apart a pend a' pend') (hd : Describes typed a b pend) (hd' : Describes typed' a' b pend')
    (hs : b.Sound) {v v' : ValueId} (hl : Leads a b v v') : v = v' ∨ pend' v = none ∧ pend' v' = none := by
  have hstep : ∀ {y x}, Bypass a b y x → pend' y = none ∧ pend' x = none := by
    rintro y x ⟨p, hp, hid, hin, hout⟩
    have hidle := h.idle hd hd' hs hp (mem_touched_of_removed hid)
    exact ⟨hidle.2 y (by rw [hout]; exact List.mem_singleton_self y),
      hidle.1 x (by rw [hin]; exact List.mem_singleton_self x)⟩
  rcases Relation.ReflTransGen.cases_head hl with he | ⟨u, hu, _⟩
  · exact .inl he
  · rcases Relation.ReflTransGen.cases_tail hl with he | ⟨u', _, hu'⟩
    · exact .inl he.symm
    · exact .inr ⟨(hstep hu).1, (hstep hu').2⟩

/-- A value with something pending is only reached from itself. -/
theorem Apart.leads_eq (h : Apart a pend a' pend') (hd : Describes typed a b pend) (hd' : Describes typed' a' b pend')
    (hs : b.Sound) {v v' : ValueId} (hl : Leads a b v v') (hv : pend' v ≠ none ∨ pend' v' ≠ none) : v = v' := by
  rcases h.leads hd hd' hs hl with he | ⟨h1, h2⟩
  · exact he
  · rcases hv with hv | hv
    · exact absurd h1 hv
    · exact absurd h2 hv

theorem Apart.pend_leads (h : Apart a pend a' pend') (hd : Describes typed a b pend)
    (hd' : Describes typed' a' b pend') (hs : b.Sound) {v v' : ValueId} (hl : Leads a b v v') : pend' v' = pend' v := by
  rcases h.leads hd hd' hs hl with rfl | ⟨h1, h2⟩
  · rfl
  · rw [h1, h2]

namespace Spliced

theorem kind_of_unmarked (hsp : Spliced a b pend L b') (hid : o.id ∉ a.marked) (hf : Follows a b L o o') :
    o'.kind = o.kind := by
  rw [hf.kind]
  cases hk : L.kind o.id with
  | none => rfl
  | some k =>
    obtain ⟨r, hr, he, _⟩ := hsp.justified.kind o.id k hk
    exact absurd (List.mem_append_right _ (List.mem_map.2 ⟨r, hr, he⟩)) hid

theorem kind_of_absorbed (hsp : Spliced a b pend L b') (hf : Follows a b L o o') {r : Absorbed} (hr : r ∈ a.absorbed)
    (he : r.op = o.id) : o'.kind = r.absorption.kind := by
  rw [hf.kind, ← he, (hsp.absorbed r hr).1, Option.getD_some]

theorem slot_of_untouched (hsp : Spliced a b pend L b') {id : OpId} (hid : id ∉ a.touched) (i : Nat) :
    L.slot id i = none := by
  by_contra hne
  obtain ⟨w, hw⟩ := Option.ne_none_iff_exists'.1 hne
  obtain ⟨_, _, ⟨m, hm, _⟩ | ⟨r, hr, slots, hc, _⟩⟩ := hsp.justified.slot id i w hw
  · obtain ⟨r, hr, hmem⟩ := List.mem_flatMap.1 hm
    obtain ⟨c, _, he⟩ := List.mem_map.1 hmem
    have he' : r.op = id := congrArg Prod.fst he
    exact hid (List.mem_append_left _ (List.mem_append_right _ (List.mem_map.2 ⟨r, hr, he'⟩)))
  · exact hid (mem_touched_of_restored hr (by rw [hc]; rfl))

/-- An operation that the region does nothing to reads what its operands lead to. -/
theorem inputs_of_untouched (hsp : Spliced a b pend L b') (hid : o.id ∉ a.touched) (hf : Follows a b L o o') :
    List.Forall₂ (Leads a b) o.inputs o'.inputs := by
  rw [List.forall₂_iff_get]
  refine ⟨hf.arity.symm, fun i hi hi' => ?_⟩
  have hst := hf.slots i _ _ (List.getElem?_eq_getElem hi) (List.getElem?_eq_getElem hi')
  rw [hsp.slot_of_untouched hid i] at hst
  exact hst

/-- Where a value of before is still defined, its operation is still there. -/
theorem producer (hsp : Spliced a b pend L b') (hs : b.Sound) (ho : o ∈ b.operations) {v : ValueId} (hv : v ∈ o.outputs)
    (hdef : v ∈ b'.defined) : ∃ o' ∈ b'.operations, o.id ∉ a.removed ∧ Follows a b L o o' := by
  have hvb : v ∈ b.defined := Block.Sound.output_defined ho hv
  rcases Block.mem_defined.1 hdef with hin | ⟨o', ho', hv'⟩
  · rw [hsp.inputs] at hin
    exact absurd hin (hs.input_not_output ho hv)
  · rcases hsp.ops o' ho' with ⟨p, hp, hid, hf⟩ | ⟨_, y, m, hy, hm, _⟩
    · rw [hf.outputs] at hv'
      rw [hs.producer_ext hp ho hv' hv] at hf hid
      exact ⟨o', ho', hid, hf⟩
    · rw [hy, List.mem_singleton] at hv'
      subst hv'
      exact absurd hvb (hsp.made v m hm).1

/-- A constant that is still defined is the same. -/
theorem constant (hsp : Spliced a b pend L b') (hd : Describes typed a b pend) (hs : b.Sound) (ho : o ∈ b.operations)
    {v : ValueId} (hout : o.outputs = [v]) {literal : Literal} (hk : o.kind = .const literal) (hdef : v ∈ b'.defined) :
    ∃ o' ∈ b'.operations, o'.outputs = [v] ∧ o'.kind = .const literal := by
  obtain ⟨o', ho', _, hf⟩ := hsp.producer hs ho (by rw [hout]; exact List.mem_singleton_self v) hdef
  refine ⟨o', ho', hf.outputs.trans hout, ?_⟩
  rw [hf.kind]
  cases hkind : L.kind o.id with
  | none => exact hk
  | some k =>
    obtain ⟨r, hr, he, _⟩ := hsp.justified.kind o.id k hkind
    obtain ⟨_, _, _, habs, _⟩ := hd.absorbs hs ho hr he
    have := (absorb_kind habs).2.2.1
    rw [hk] at this
    cases this

end Spliced

theorem exists_of_forall₂_singleton {α β : Type} {R : α → β → Prop} {x : α} {ys : List β} (h : List.Forall₂ R [x] ys) :
    ∃ y, R x y ∧ ys = [y] := by
  obtain ⟨y, ys', hy, hnil, rfl⟩ := List.forall₂_cons_left_iff.1 h
  rw [List.forall₂_nil_left_iff.1 hnil]
  exact ⟨y, hy, rfl⟩

theorem slotsOf_congr {xs ys : List ValueId} {v : ValueId} (h : List.Forall₂ (fun x y => x = v ↔ y = v) xs ys) :
    Sweep.slotsOf ys v = Sweep.slotsOf xs v := by
  have key : ∀ n, ((ys.zipIdx n).filterMap fun e => if e.1 = v then some e.2 else none) =
      (xs.zipIdx n).filterMap fun e => if e.1 = v then some e.2 else none := by
    induction h with
    | nil => exact fun _ => rfl
    | cons hxy _ ih =>
      intro n
      simp only [List.zipIdx_cons, List.filterMap_cons, hxy, ih]
  exact key 0

section Survives

variable (h : Apart a pend a' pend') (hd : Describes typed a b pend) (hd' : Describes typed' a' b pend') (hs : b.Sound)
  (hsp : Spliced a b pend L b')

include h hd hd' hs hsp

/-- The outputs of the block that hold a value with something pending are the same. -/
theorem Spliced.outputs_of_pending {v : ValueId} (hv : pend' v ≠ none) (i : Nat) :
    b'.outputs[i]? = some v ↔ b.outputs[i]? = some v := by
  obtain ⟨q, hq⟩ := Option.ne_none_iff_exists'.1 hv
  constructor
  · intro hi
    have hlt : i < b.outputs.length := by
      rw [← hsp.outputCount]
      exact (List.getElem?_eq_some_iff.1 hi).1
    have hst := hsp.outs i _ v (List.getElem?_eq_getElem hlt) hi
    rw [List.getElem?_eq_getElem hlt]
    cases hout : L.out i with
    | none =>
      rw [hout] at hst
      rw [h.leads_eq hd hd' hs hst (.inr hv)]
    | some w =>
      rw [hout] at hst
      obtain ⟨m, hm, _⟩ := hsp.justified.out i w hout
      have hvw : v = w := hst
      exact absurd (hd'.defined v q hq) (hvw ▸ (hsp.made w m hm).1)
  · intro hi
    have hlt : i < b'.outputs.length := by
      rw [hsp.outputCount]
      exact (List.getElem?_eq_some_iff.1 hi).1
    have hst := hsp.outs i v _ hi (List.getElem?_eq_getElem hlt)
    rw [List.getElem?_eq_getElem hlt]
    cases hout : L.out i with
    | none =>
      rw [hout] at hst
      rw [h.leads_eq hd hd' hs hst (.inl hv)]
    | some w =>
      -- a new value is returned in place of one that is restored, or of the result of a cancellation
      obtain ⟨m, _, ⟨r, hr, slots, hc, hmem, _⟩ | ⟨u, v₂, hv₂, hlead, _⟩⟩ := hsp.justified.out i w hout
      · obtain ⟨hpend, hcons⟩ := hd.restorations r hr
        rw [hc] at hcons
        rw [hcons.2, mem_slotsOf, hi, Option.some.injEq] at hmem
        rcases h.values v with h0 | h0
        · rw [hmem, hpend] at h0
          cases h0
        · exact absurd h0 hv
      · rw [hi, Option.some.injEq] at hv₂
        subst hv₂
        have he := h.leads_eq hd hd' hs hlead.to_reflTransGen (.inl hv)
        subst he
        exact absurd (Leads.idxOf_lt hs hlead) (lt_irrefl _)

/-- An operand looks the same to an operation of the region that stays. -/
theorem Viewed.spliced (hfit : typed' → TypesFit False a b) {v v' : ValueId} {view : View} (hl : Leads a b v v')
    (hv : v ∈ b.defined) (hdef : v' ∈ b'.defined) (hview : Viewed typed' b pend' v view) :
    Viewed typed' b' pend' v' view := by
  have hpend := h.pend_leads hd hd' hs hl
  cases hview with
  | pending hq => exact .pending (hpend.trans hq)
  | constant hq hop hout hk =>
    have he := hl.eq_self hs hop (by rw [hout]; exact List.mem_singleton_self v)
      (hd.const_not_removed hs hop (by rw [hk]; rfl))
    subst he
    obtain ⟨o', ho', hout', hk'⟩ := hsp.constant hd hs hop hout hk hdef
    exact .constant hq ho' hout' hk'
  | @concrete type hq ht =>
    refine .concrete (hpend.trans hq) fun hty => ?_
    obtain ⟨t, ht, hr⟩ := ht hty
    have hv' := Leads.defined hs hv hl
    rw [hsp.types v' hv' hdef]
    rcases Relation.reflTransGen_iff_eq_or_transGen.1 hl with rfl | hl'
    · exact ⟨t, ht, hr⟩
    · obtain ⟨u, hu⟩ := hs.exists_type hv'
      rcases (hfit hty).trans hs hl' ht hu with hc | hf
      · simp only [TensorType.compatible, Bool.and_eq_true, beq_iff_eq] at hc
        exact ⟨u, hu, hc.2.symm.trans hr⟩
      · exact hf.elim

omit hd hd' in
/-- What an operation of a region has become after another one has been taken out. -/
theorem Spliced.exists_of_touched (ho : o ∈ b.operations) (hid : o.id ∈ a'.touched) (hk : o.kind.isConst = false) :
    ∃ o' ∈ b'.operations, o'.id = o.id ∧ o'.kind = o.kind ∧ o'.outputs = o.outputs ∧
      List.Forall₂ (fun x x' => x' ∈ b'.defined ∧ x ∈ b.defined ∧ Leads a b x x') o.inputs o'.inputs := by
  have hnot : o.id ∉ a.touched := fun hin => h.ops o.id hin hid
  obtain ⟨o', ho', hf⟩ := hsp.kept o ho (fun hin => hnot (mem_touched_of_removed hin)) hk
  refine ⟨o', ho', hf.id, hsp.kind_of_unmarked (fun hm => hnot (List.mem_append_left _ hm)) hf, hf.outputs, ?_⟩
  have hleads := hsp.inputs_of_untouched hnot hf
  rw [List.forall₂_iff_get] at hleads ⊢
  exact ⟨hleads.1, fun i hi hi' => ⟨hsp.sound.input_defined ho' (List.get_mem ..),
    hs.input_defined ho (List.get_mem ..), hleads.2 i hi hi'⟩⟩

omit hsp in
/-- An operand with something pending is read where it was. -/
theorem Apart.operand_iff {v : ValueId} (hv : pend' v ≠ none) {xs xs' : List ValueId}
    (hl : List.Forall₂ (Leads a b) xs xs') : List.Forall₂ (fun x x' => x = v ↔ x' = v) xs xs' :=
  hl.imp fun x x' hxx' => by
    constructor
    · rintro rfl
      exact (h.leads_eq hd hd' hs hxx' (.inl hv)).symm
    · rintro rfl
      exact h.leads_eq hd hd' hs hxx' (.inr hv)

theorem Apart.absorbs (hfit : typed' → TypesFit False a b) {r : Absorbed} (habs : Absorbs typed' b pend' o r)
    (hout : o'.outputs = o.outputs) (hk : o'.kind = o.kind)
    (hins : List.Forall₂ (fun x x' => x' ∈ b'.defined ∧ x ∈ b.defined ∧ Leads a b x x') o.inputs o'.inputs) :
    Absorbs typed' b' pend' o' r := by
  obtain ⟨views, p, hviews, habs, houts, hsub⟩ := habs
  refine ⟨views, p, ?_, hk ▸ habs, hout ▸ houts, fun x' hx' q hq => ?_⟩
  · have hlen := hins.length_eq
    rw [List.forall₂_iff_get] at hins hviews ⊢
    refine ⟨hlen.symm.trans hviews.1, fun i hi hi' => ?_⟩
    obtain ⟨hdef, hx, hl⟩ := hins.2 i (hlen ▸ hi) hi
    exact Viewed.spliced h hd hd' hs hsp hfit hl hx hdef (hviews.2 i (hlen ▸ hi) hi')
  · obtain ⟨i, hi⟩ := List.mem_iff_get.1 hx'
    have hlt : i < o.inputs.length := by rw [hins.length_eq]; exact i.2
    obtain ⟨_, _, hl⟩ := hins.get hlt i.2
    have he := h.leads_eq hd hd' hs hl (.inr (by
      rw [show o'.inputs.get ⟨i, i.2⟩ = x' from hi, hq]
      exact Option.some_ne_none q))
    exact hsub x' (hi ▸ he ▸ List.get_mem ..) q hq

theorem Apart.restores {r : Restoration} (hr : Restores b a' pend' r) (hmem : r ∈ a'.restorations) :
    Restores b' a' pend' r := by
  obtain ⟨hpend, hcons⟩ := hr
  have hne : pend' r.value ≠ none := by rw [hpend]; exact Option.some_ne_none _
  refine ⟨hpend, ?_⟩
  cases hc : r.consumer with
  | op id slots =>
    rw [hc] at hcons
    obtain ⟨o, ho, rfl, hnot, hin, hslots, houts, hk⟩ := hcons
    obtain ⟨o', ho', hid', hk', hout', hins⟩ :=
      hsp.exists_of_touched h hs ho (mem_touched_of_restored hmem (by rw [hc]; rfl)) hk
    have hiff := h.operand_iff hd hd' hs hne (hins.imp fun _ _ hxx => hxx.2.2)
    refine ⟨o', ho', hid', hnot, ?_, hslots.trans (slotsOf_congr hiff).symm, hout' ▸ houts, hk'.symm ▸ hk⟩
    obtain ⟨i, hi⟩ := List.mem_iff_getElem?.1 hin
    rw [← mem_slotsOf, ← slotsOf_congr hiff, mem_slotsOf] at hi
    exact List.mem_of_getElem? hi
  | output slots =>
    rw [hc] at hcons
    obtain ⟨hin, hslots⟩ := hcons
    have hiff := hsp.outputs_of_pending h hd hd' hs hne
    constructor
    · obtain ⟨i, hi⟩ := List.mem_iff_getElem?.1 hin
      exact List.mem_of_getElem? ((hiff i).2 hi)
    · rw [hslots]
      refine (slotsOf_congr (List.forall₂_iff_get.2 ⟨hsp.outputCount.symm, fun i hi hi' => ?_⟩)).symm
      have := hiff i
      rw [List.getElem?_eq_getElem hi, List.getElem?_eq_getElem hi', Option.some.injEq, Option.some.injEq] at this
      exact this.symm

/-- An operation without a record of the region. -/
theorem Apart.others (ho' : o' ∈ b'.operations) (hnot : o'.id ∉ a'.marked) : Passes pend' o' ∨ Keeps a' pend' o' := by
  rcases hsp.ops o' ho' with ⟨o, ho, _, hf⟩ | ⟨_, y, m, hy, hm, _, hsrc⟩
  · have hinput : ∀ x' ∈ o'.inputs, pend' x' ≠ none → x' ∈ o.inputs := fun x' hx' hne => by
      obtain ⟨q, hq⟩ := Option.ne_none_iff_exists'.1 hne
      obtain ⟨i, hi⟩ := List.mem_iff_getElem?.1 hx'
      have hlt : i < o.inputs.length := by rw [← hf.arity]; exact (List.getElem?_eq_some_iff.1 hi).1
      have hst := hf.slots i _ x' (List.getElem?_eq_getElem hlt) hi
      cases hslot : L.slot o.id i with
      | none =>
        rw [hslot] at hst
        rw [← h.leads_eq hd hd' hs hst (.inr hne)]
        exact List.getElem_mem hlt
      | some w =>
        rw [hslot] at hst
        obtain ⟨m, hm, _⟩ := hsp.justified.slot o.id i w hslot
        have hxw : x' = w := hst
        exact absurd (hd'.defined x' q hq) (hxw ▸ (hsp.made w m hm).1)
    rcases hd'.others o ho (hf.id ▸ hnot) with ⟨x, y, q, hk, hin, hout, hx, hy⟩ | ⟨hins, houts⟩
    · -- what hands on something pending is not touched by the other region
      have hun : o.id ∉ a.touched := fun hid => by
        rw [(h.idle hd hd' hs ho hid).1 x (by rw [hin]; exact List.mem_singleton_self x)] at hx
        cases hx
      have hleads := hsp.inputs_of_untouched hun hf
      rw [hin] at hleads
      obtain ⟨x', hl, hin'⟩ := exists_of_forall₂_singleton hleads
      have he := h.leads_eq hd hd' hs hl (.inl (by rw [hx]; exact Option.some_ne_none q))
      subst he
      have hkind := hsp.kind_of_unmarked (fun hm => hun (List.mem_append_left _ hm)) hf
      exact .inl ⟨x, y, q, hkind ▸ hk, hin', hf.outputs.trans hout, hx, hy⟩
    · refine .inr ⟨fun x' hx' q hq => ?_, fun y hy => houts y (hf.outputs ▸ hy)⟩
      rw [hf.id]
      exact hins x' (hinput x' hx' (by rw [hq]; exact Option.some_ne_none q)) q hq
  · have hidle : ∀ u ∈ m.sources, pend' u = none := fun u hu => by
      rcases hsp.justified.made y m hm with ⟨f, _, rfl⟩ | ⟨r, hr, _, hs', _⟩ | ⟨z, u', hz, _, _, hs'⟩
      · cases hu
      · rw [hs', List.mem_singleton] at hu
        subst hu
        rcases h.values r.value with h0 | h0
        · rw [(hd.restorations r hr).1] at h0
          cases h0
        · exact h0
      · rw [hs', List.mem_singleton] at hu
        subst hu
        rcases h.leads hd hd' hs hz.to_reflTransGen with rfl | ⟨_, h0⟩
        · exact absurd (Leads.idxOf_lt hs hz) (lt_irrefl _)
        · exact h0
    refine .inr ⟨fun x' hx' q hq => ?_, fun y' hy' => ?_⟩
    · obtain ⟨i, hi⟩ := List.mem_iff_get.1 hx'
      have hlt : i < m.sources.length := by rw [hsrc.length_eq]; exact i.2
      have hl := hsrc.get hlt i.2
      rw [show o'.inputs.get ⟨i, i.2⟩ = x' from hi] at hl
      rw [h.pend_leads hd hd' hs hl, hidle _ (List.get_mem ..)] at hq
      cases hq
    · rw [hy, List.mem_singleton] at hy'
      subst hy'
      by_contra hne
      obtain ⟨q, hq⟩ := Option.ne_none_iff_exists'.1 hne
      exact (hsp.made y' m hm).1 (hd'.defined y' q hq)

/-- A value with something pending is still defined. -/
theorem Apart.defined {v : ValueId} {q : Pending} (hq : pend' v = some q) : v ∈ b'.defined := by
  rcases Block.mem_defined.1 (hd'.defined v q hq) with hin | ⟨o, ho, hv⟩
  · rw [hd'.inputs v hin] at hq
    cases hq
  · have hremoved : o.id ∉ a.removed := fun hid => by
      rw [(h.idle hd hd' hs ho (mem_touched_of_removed hid)).2 v hv] at hq
      cases hq
    have hk : o.kind.isConst = false := by
      by_contra hk
      rw [Bool.not_eq_false] at hk
      have hmark : o.id ∉ a'.marked := fun hid => by
        rcases List.mem_append.1 hid with hid | hid
        · exact hd'.const_not_removed hs ho hk hid
        · obtain ⟨r, hr, he⟩ := List.mem_map.1 hid
          obtain ⟨_, _, _, habs, _⟩ := hd'.absorbs hs ho hr he
          rw [(absorb_kind habs).2.2.1] at hk
          cases hk
      rcases hd'.others o ho hmark with ⟨_, _, _, hp, _⟩ | ⟨_, houts⟩
      · cases hkind : o.kind <;> simp_all [OpKind.isConst, OpKind.isPointwise]
      · rw [houts v hv] at hq
        cases hq
    obtain ⟨o', ho', hf⟩ := hsp.kept o ho hremoved hk
    exact Block.mem_defined.2 (.inr ⟨o', ho', by rw [hf.outputs]; exact hv⟩)

/-- A region still fits after another one has been taken out. -/
theorem Apart.describes (hfit : typed' → TypesFit False a b) : Describes typed' a' b' pend' where
  seeds id hid := by
    obtain ⟨o, ho, rfl, x, y, p, hk, hin, hout, hx, hy, hnot⟩ := hd'.seeds id hid
    obtain ⟨o', ho', hid', hk', hout', hins⟩ := hsp.exists_of_touched h hs ho
      (mem_touched_of_removed (List.mem_append_left _ hid)) (by rw [hk]; rfl)
    rw [hin] at hins
    obtain ⟨x', ⟨_, _, hl⟩, hin'⟩ := exists_of_forall₂_singleton hins
    refine ⟨o', ho', hid', x', y, p, hk'.trans hk, hin', hout'.trans hout, (h.pend_leads hd hd' hs hl).trans hx,
      hid'.symm ▸ hy, fun hmem => ?_⟩
    obtain ⟨i, hi⟩ := List.mem_iff_getElem?.1 hmem
    have hne : pend' y ≠ none := by rw [hy]; exact Option.some_ne_none _
    exact hnot (List.mem_of_getElem? ((hsp.outputs_of_pending h hd hd' hs hne i).1 hi))
  cancellations c hc := by
    obtain ⟨o, ho, hid, x, y, p, q, hk, hin, hout, hx, hcancel, hy⟩ := hd'.cancellations c hc
    have hmem : o.id ∈ a'.removed := List.mem_append_right _ (hid ▸ List.mem_map_of_mem (f := (·.op)) hc)
    obtain ⟨o', ho', hid', hk', hout', hins⟩ := hsp.exists_of_touched h hs ho (mem_touched_of_removed hmem)
      (by rw [hk]; rfl)
    rw [hin] at hins
    obtain ⟨x', ⟨_, _, hl⟩, hin'⟩ := exists_of_forall₂_singleton hins
    exact ⟨o', ho', hid'.trans hid, x', y, p, q, hk'.trans hk, hin', hout'.trans hout,
      (h.pend_leads hd hd' hs hl).trans hx, hcancel, hy⟩
  absorbed r hr := by
    obtain ⟨o, ho, hid, habs⟩ := hd'.absorbed r hr
    have hmem : o.id ∈ a'.touched :=
      List.mem_append_left _ (List.mem_append_right _ (hid ▸ List.mem_map_of_mem (f := (·.op)) hr))
    have hk : o.kind.isConst = false := by
      obtain ⟨_, _, _, habs', _⟩ := habs
      exact (absorb_kind habs').2.2.1
    obtain ⟨o', ho', hid', hk', hout', hins⟩ := hsp.exists_of_touched h hs ho hmem hk
    exact ⟨o', ho', hid'.trans hid, Apart.absorbs h hd hd' hs hsp hfit habs hout' hk' hins⟩
  restorations r hr := Apart.restores h hd hd' hs hsp (hd'.restorations r hr) hr
  others o' ho' := Apart.others h hd hd' hs hsp ho'
  outputs v hv q hq := by
    obtain ⟨i, hi⟩ := List.mem_iff_getElem?.1 hv
    have hne : pend' v ≠ none := by rw [hq]; exact Option.some_ne_none _
    exact hd'.outputs v (List.mem_of_getElem? ((hsp.outputs_of_pending h hd hd' hs hne i).1 hi)) q hq
  inputs v hv := hd'.inputs v (hsp.inputs ▸ hv)
  defined v q hq := Apart.defined h hd hd' hs hsp hq
  markedOnce := hd'.markedOnce
  restoredOnce := hd'.restoredOnce

end Survives

end Frame

end Relayout.Layout
