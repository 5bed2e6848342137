import Relayout.Proofs.Types

/-!
# Where substitutions lead

The substitution of a component has an entry for each transpose that goes away, with what the transpose reads when its
turn comes. Operands are defined before results, whatever the order of ids and whatever has been replaced before, so the
entries go from later to earlier definitions and following them comes to an end (`Chase`). It ends in a value that stays,
and a slot that is to be filled holds that value already, so it is in scope (`Resolves`).

`Due` are the components that a run may come to, in a block that earlier rounds and earlier components of the same sweep
have left behind.
-/

namespace Relayout.Layout

open Typing (Inference)
open Interpretation

/-! ## Chains of substitutions -/

/-- Following a substitution, however many steps it takes, ends in a value. -/
inductive Chase (subst : Substitution) : ValueId → ValueId → Prop
  | done {v : ValueId} (h : subst.lookup v = none) : Chase subst v v
  | step {v u w : ValueId} (h : subst.lookup v = some u) (rest : Chase subst u w) : Chase subst v w

section Chase

variable {a : Analysis} {b : Block} {subst : Substitution}

/-- Enough steps are as good as any number. -/
theorem chase_of_not_key {fuel : Nat} {v : ValueId} (h : resolve subst fuel v ∉ subst.map (·.1)) :
    Chase subst v (resolve subst fuel v) := by
  induction fuel generalizing v with
  | zero => exact .done (Option.not_isSome_iff_eq_none.1 fun hsome => h (lookup_isSome.1 hsome))
  | succ fuel ih =>
    rw [resolve] at h ⊢
    split at h <;> rename_i hv
    · exact .step hv (ih h)
    · exact .done hv

theorem Substitutes.acyclic (h : Substitutes a b subst) (hs : b.Sound) (v : ValueId) :
    ¬Relation.TransGen (fun v u => subst.lookup v = some u) v v := by
  intro hcycle
  have hlead : Relation.TransGen (Bypass a b) v v :=
    Relation.TransGen.closed (fun _ _ hstep => h _ (lookup_mem hstep)) v v hcycle
  exact lt_irrefl _ (Leads.idxOf_lt hs hlead)

end Chase

/-! ## One entry for each transpose -/

section Entries

variable {s : Editor}

theorem length_bypassSeeds [IdSpace] (ids : List OpId) :
    Ensures True (bypassSeeds ids) s fun subst _ => subst.length = ids.length := by
  induction ids generalizing s with
  | nil => exact ensures_pure rfl
  | cons id ids ih =>
    refine Ensures.bind ((ensures_trivial _ _).imp ?_)
    rintro ⟨input, output⟩ t -
    refine Ensures.bind ((ensures_trivial _ _).imp fun _ t _ => Ensures.bind (ih.imp fun subst _ h => ?_))
    exact ensures_pure (congrArg (· + 1) h)

theorem length_bypassCancellations [IdSpace] (slots : List Nat) (ids : List OpId) (renamed : List ValueId) :
    Ensures True (bypassCancellations slots ids renamed) s fun subst _ => subst.length = ids.length := by
  induction ids generalizing s renamed with
  | nil => exact ensures_pure rfl
  | cons id ids ih =>
    refine Ensures.bind ((ensures_trivial _ _).imp ?_)
    rintro ⟨source, output⟩ t -
    refine Ensures.bind ((ensures_trivial _ _).imp fun _ t _ => Ensures.bind ((ih _).imp fun subst _ h => ?_))
    exact ensures_pure (congrArg (· + 1) h)

theorem length_detach [IdSpace] (a : Analysis) (c : Component) :
    Ensures True (detach a c) s fun r _ => r.1.length = (c.seeds ++ a.cancelledBy c).length := by
  refine Ensures.bind ((ensures_trivial _ _).imp fun _ t _ => Ensures.bind ((length_bypassSeeds _).imp fun _ t h => ?_))
  refine Ensures.bind ((length_bypassCancellations ..).imp fun _ t h' => ensures_pure ?_)
  rw [List.length_append, List.length_append, h, h']

/-- The values that go away are the results of transposes. -/
theorem Describes.resultOf_removed {typed : Prop} {a : Analysis} {b : Block} {pend : ValueId → Option Pending}
    (hd : Describes typed a b pend) (hs : b.Sound) {y : ValueId} : ResultOf b a.removed y ↔ ∃ x, Bypass a b y x := by
  constructor
  · rintro ⟨o, ho, hid, hy⟩
    obtain ⟨x, y', _, _, hin, hout, _⟩ := hd.of_removed hs ho hid
    rw [hout, List.mem_singleton] at hy
    exact ⟨x, o, ho, hid, hin, hy ▸ hout⟩
  · rintro ⟨x, o, ho, hid, _, hout⟩
    exact ⟨o, ho, hid, by rw [hout]; exact List.mem_singleton_self y⟩

/-- With as many entries as transposes, no result has two. -/
theorem Describes.keys_nodup {typed : Prop} {a : Analysis} {b : Block} {pend : ValueId → Option Pending}
    (hd : Describes typed a b pend) (hs : b.Sound) {subst : Substitution}
    (hkeys : ∀ y, ResultOf b a.removed y → y ∈ subst.map (·.1)) (hlen : subst.length = a.removed.length) :
    (subst.map (·.1)).Nodup := by
  have hout : ∀ id ∈ a.removed, ∃ y, ∃ o ∈ b.operations, o.id = id ∧ y ∈ o.outputs := fun id hid => by
    obtain ⟨o, ho, rfl⟩ := hd.exists_of_removed hid
    obtain ⟨_, y, _, _, _, hout, _⟩ := hd.of_removed hs ho hid
    exact ⟨y, o, ho, rfl, by rw [hout]; exact List.mem_singleton_self y⟩
  have : Nonempty ValueId := ⟨⟨0⟩⟩
  choose! result hresult using hout
  have hnd : (a.removed.map result).Nodup := by
    refine (List.nodup_append.1 hd.markedOnce).1.map_on fun id hid id' hid' he => ?_
    obtain ⟨o, ho, rfl, hy⟩ := hresult id hid
    obtain ⟨p, hp, rfl, hy'⟩ := hresult id' hid'
    rw [hs.producer_ext ho hp hy (he ▸ hy')]
  have hsub : (a.removed.map result).Subperm (subst.map (·.1)) := hnd.subperm fun y hy => by
    obtain ⟨id, hid, rfl⟩ := List.mem_map.1 hy
    obtain ⟨o, ho, rfl, hy⟩ := hresult id hid
    exact hkeys _ ⟨o, ho, hid, hy⟩
  exact (hsub.perm_of_length_le (by simp [hlen])).nodup_iff.1 hnd

end Entries

/-! ## Restorations -/

/-- What the substitution of a component is good for, when restorations set out from an editor. -/
structure Resolves [IdSpace] (b : Block) (gone : List OpId) (declared : List (Restoration × Value)) (subst : Substitution)
    (s : Editor) : Prop where
  /-- There is one entry for each result of an operation that goes away. -/
  keys : ∀ y, y ∈ subst.map (·.1) ↔ ResultOf b gone y
  once : (subst.map (·.1)).Nodup
  acyclic : ∀ v, ¬Relation.TransGen (fun v u => subst.lookup v = some u) v v
  chase : ∀ v, Chase subst v (resolve subst subst.length v)
  /-- Each restoration is of a value that stays and that is in scope after the ones before. -/
  inScope : ∀ done r value rest, declared = done ++ (r, value) :: rest →
    ¬ResultOf b gone (resolve subst subst.length r.value) ∧ ∀ t, (restoreAll subst done).run s = .ok () t →
      InScope t.block (resolve subst subst.length r.value) r.consumer
  /-- While there are ids, the restorations go through, and can be left off after any of them. -/
  completes : IdSpace.Unbounded → ∀ done rest, declared = done ++ rest → ∃ t, (restoreAll subst done).run s = .ok () t

section Restorations

variable {typed : Prop} {a : Analysis} {b : Block} {pend : ValueId → Option Pending} {L : Ledger} {s : Editor}
  {subst : Substitution} {declared : List (Restoration × Value)}

/-- Restorations can be carried out up to any of them. -/
theorem Restoring.ensures_restoreAll [IdSpace] {fails : Prop} (hspace : IdSpace.Unbounded ∨ fails)
    (hr : Restoring a b pend subst [] L) (h : Track a b L s) (hd : Describes typed a b pend) (hs : b.Sound)
    {done rest : List (Restoration × Value)} (hall : (done ++ rest).map (·.1) = a.restorations)
    (hvalues : ∀ e ∈ done, b.value? e.1.value = some e.2) (hface : Facing b (waitedFor a.restorations) s.block) :
    Ensures fails (restoreAll subst done) s fun _ t =>
      ∃ L', Track a b L' t ∧ Restoring a b pend subst (done.map (·.1)) L' := by
  rw [List.map_append] at hall
  have hface' : Facing b (waitedFor (done.map (·.1) ++ rest.map (·.1))) s.block := hall ▸ hface
  refine Layout.ensures_restoreAll hspace hd hs done h hr (fun r hr => ?_) ?_ hvalues hface'
    fun L' t ht hr' _ _ _ _ => ⟨L', ht, hr'⟩
  · rw [List.nil_append, hall] at hr
    exact hr
  · rw [List.nil_append, hall]
    exact List.Nodup.of_map _ hd.restoredOnce

theorem Restoring.resolves [IdSpace] (hr : Restoring a b pend subst [] L) (h : Track a b L s) (hd : Describes typed a b pend)
    (hs : b.Sound) (hlen : subst.length = a.removed.length) (hall : declared.map (·.1) = a.restorations)
    (hvalues : ∀ e ∈ declared, b.value? e.1.value = some e.2) (hface : Facing b (waitedFor a.restorations) s.block) :
    Resolves b a.removed declared subst s := by
  have hkeys : ∀ y, ResultOf b a.removed y → y ∈ subst.map (·.1) := fun y hy => by
    obtain ⟨x, hx⟩ := (hd.resultOf_removed hs).1 hy
    exact hr.keys y x hx
  refine ⟨fun y => ⟨fun hy => ?_, hkeys y⟩, hd.keys_nodup hs hkeys hlen, hr.substitutes.acyclic hs,
    fun v => chase_of_not_key (resolve_not_key hs hr.substitutes v), fun done r value rest he => ?_,
    fun hids done rest he => ?_⟩
  · obtain ⟨e, he, rfl⟩ := List.mem_map.1 hy
    obtain ⟨x, hx, _⟩ := Relation.TransGen.head'_iff.1 (hr.substitutes e he)
    exact (hd.resultOf_removed hs).2 ⟨x, hx⟩
  · subst he
    have hnd : ((done ++ (r, value) :: rest).map (·.1)).Nodup := hall ▸ List.Nodup.of_map _ hd.restoredOnce
    have hmem : ∀ e ∈ done ++ (r, value) :: rest, e.1 ∈ a.restorations := fun e he =>
      hall ▸ List.mem_map_of_mem (f := (·.1)) he
    refine ⟨fun hgone => resolve_not_key hs hr.substitutes _ (hkeys _ hgone), fun t ht => ?_⟩
    obtain ⟨L', htrack, hr'⟩ := (hr.ensures_restoreAll (.inr trivial) h hd hs hall
      (fun e he => hvalues e (List.mem_append_left _ he)) hface).of_ok ht
    refine hr'.inScope htrack hd hs (fun x hx => ?_) (hmem (r, value) (by simp)) fun hin => ?_
    · obtain ⟨e, he, rfl⟩ := List.mem_map.1 hx
      exact hmem e (List.mem_append_left _ he)
    · rw [List.map_append, List.nodup_append] at hnd
      exact hnd.2.2 r hin r (by simp) rfl
  · subst he
    obtain ⟨_, t, ht, _⟩ := (hr.ensures_restoreAll (.inl hids) h hd hs hall
      (fun e he => hvalues e (List.mem_append_left _ he)) hface).exists_ok
    exact ⟨t, ht⟩

end Restorations

/-! ## Components of a run -/

/-- A component that a run from a block may come to, with its analysis and the block that it is taken out of. Some rounds
have been made before, and in the same round some components of the same sweep. -/
inductive Due [IdSpace] (infer : Inference) (onRejection : OnRejection) (expected : Expectation) (b : Block) :
    Analysis → Component → Block → Prop
  | intro {n : Nat} {p q r : Progress} {a : Analysis} {cs : List Component} {c : Component} (start : p.block = b)
    (earlier : rounds infer onRejection expected n p = .ok q) (analysed : analyse q.block q.excluded = .ok a)
    (sweep : (cs ++ [c]).Sublist (components a a.consumers))
    (before : applyAll infer onRejection expected a cs q.tick = .ok r) : Due infer onRejection expected b a c r.block

section Due

variable {infer : Inference} {onRejection : OnRejection} {expected : Expectation} {a : Analysis} {b b' : Block}
  {c : Component}

theorem Due.stage [IdSpace] (h : Due infer onRejection expected b a c b') (hb : b.check = .ok ()) :
    ∃ pend, Stage False a pend b' [c] := by
  obtain @⟨n, p, q, r, a, cs, c, rfl, hq, ha, hsub, hr⟩ := h
  obtain ⟨hs, har, _⟩ := Block.check_eq_ok.1 hb
  have hsound : q.block.Sound ∧ ∀ o ∈ q.block.operations, o.FitsArity :=
    rounds_keep (Q := fun b => b.Sound ∧ ∀ o ∈ b.operations, o.FitsArity) id
      (fun (hst : Stage False _ _ _ _) _ hatt =>
        ⟨(hst.attempt hatt).1, (hst.attempt hatt).1.sound, (hst.attempt hatt).1.arity⟩) ⟨hs, har⟩ hq
  have hst : Stage False a (sweptPending q.block q.excluded) q.block (cs ++ [c]) :=
    (Stage.start hsound.1 hsound.2 ha hsub).weaken False.elim
  exact ⟨_, Stage.applyAll (p := q.tick) hst hr⟩

/-- **Resolution of substitutions.** Take a checked block and a component that a run from it may come to. In an editor of
the block that it is taken out of, the values to restore are declared. Whenever its transposes are taken out, each of their
results has one entry in the substitution, following the entries ends, and it ends, for each restoration in turn, in a value
that stays and that the reader may use. While there are ids there is such an editor, the transposes can be taken out if the
types of the block agree, and all restorations go through. -/
theorem splice_resolves [IdSpace] (hb : b.check = .ok ()) (h : Due infer onRejection expected b a c b') :
    (IdSpace.Unbounded → ∃ s, Editor.ofBlock b' = .ok s) ∧
    ∀ s, Editor.ofBlock b' = .ok s → ∃ declared, (declaredValues (a.restorationsOf c)).run s = .ok declared s ∧
      declared.map (·.1) = a.restorationsOf c ∧
      (IdSpace.Unbounded → b'.WellTyped → ∃ out t, (detach a c).run s = .ok out t) ∧
      ∀ subst constants t, (detach a c).run s = .ok (subst, constants) t →
        Resolves b' (c.seeds ++ a.cancelledBy c) declared subst t := by
  obtain ⟨pend, hst⟩ := h.stage hb
  have hd := hst.regions c List.mem_cons_self
  have hs := hst.sound
  refine ⟨fun hids => ?_, fun s hs' => ?_⟩
  · obtain ⟨s, hs', _⟩ := hs.exists_editor (hids.hasFreeIds b')
    exact ⟨s, hs'⟩
  obtain ⟨rfl, hco⟩ := hs.ofBlock_eq_ok hs'
  have hdecl : Ensures False (declaredValues (a.restorationsOf c)) s fun declared t => s = t ∧
      declared.map (·.1) = (a.part c).restorations ∧ ∀ e ∈ declared, s.block.value? e.1.value = some e.2 :=
    ensures_declaredValues hco _ (fun r hr => hd.defined r.value _ (hd.restorations r hr).1)
      fun declared hall hvalues => ⟨rfl, hall, hvalues⟩
  obtain ⟨declared, _, hrun, rfl, hall, hvalues⟩ := hdecl.exists_ok
  refine ⟨declared, hrun, hall, fun hids ht => ?_, fun subst constants t hdetach => ?_⟩
  · have hc := Block.check_of_typed hs hst.arity (Block.retype_typed hs hst.arity ht).2
    have hfit := (Block.reads_types hc ht).typesFit Typing.reading_lawful hd
    obtain ⟨out, t, hout, _⟩ := (ensures_detach (.inl hids) hd hs hfit hco rfl (Q := fun _ _ => True)
      fun _ _ _ _ _ _ _ _ _ _ => trivial).exists_ok
    exact ⟨out, t, hout⟩
  · have hfit : TypesFit True (a.part c) s.block := fun _ _ _ _ _ _ _ => .inr trivial
    have hE : Ensures True (detach a c) s fun out t => ∃ L, Track (a.part c) s.block L t ∧
        Restoring (a.part c) s.block (restrict pend c.seeds) out.1 [] L ∧
          Facing s.block (waitedFor (a.part c).restorations) t.block :=
      ensures_detach (.inr trivial) hd hs hfit hco rfl fun _ _ L _ htrack hr _ _ _ hface => ⟨L, htrack, hr, hface⟩
    obtain ⟨L, htrack, hr, hface⟩ := hE.of_ok hdetach
    exact hr.resolves htrack hd hs ((length_detach a c).of_ok hdetach) hall hvalues hface

end Due

/-- Two pairs of transposes that cancel. The second feeds one more transpose, and its ids run against the block. -/
def woven : Block where
  name := "woven"
  inputs := [⟨0⟩]
  outputs := [⟨2⟩, ⟨6⟩]
  operations := [
    ⟨⟨7⟩, .transpose [1, 0, 2], [⟨0⟩], [⟨1⟩]⟩,
    ⟨⟨5⟩, .transpose [1, 0, 2], [⟨1⟩], [⟨2⟩]⟩,
    ⟨⟨9⟩, .transpose [1, 2, 0], [⟨0⟩], [⟨3⟩]⟩,
    ⟨⟨4⟩, .transpose [2, 0, 1], [⟨3⟩], [⟨4⟩]⟩,
    ⟨⟨3⟩, .transpose [0, 2, 1], [⟨4⟩], [⟨5⟩]⟩,
    ⟨⟨1⟩, .custom "pair", [⟨3⟩, ⟨5⟩], [⟨6⟩]⟩]
  values := [
    ⟨⟨0⟩, "x", .ofExtents .f32 [2, 3, 4]⟩,
    ⟨⟨1⟩, "s", .ofExtents .f32 [3, 2, 4]⟩,
    ⟨⟨2⟩, "y", .ofExtents .f32 [2, 3, 4]⟩,
    ⟨⟨3⟩, "a", .ofExtents .f32 [3, 4, 2]⟩,
    ⟨⟨4⟩, "b", .ofExtents .f32 [2, 3, 4]⟩,
    ⟨⟨5⟩, "c", .ofExtents .f32 [2, 4, 3]⟩,
    ⟨⟨6⟩, "m", .ofExtents .f32 [1]⟩]

/-- What the first pair of `woven` leaves behind. -/
def halfWoven : Block where
  name := "woven"
  inputs := [⟨0⟩]
  outputs := [⟨7⟩, ⟨6⟩]
  operations := [
    ⟨⟨10⟩, .unary .identity, [⟨0⟩], [⟨7⟩]⟩,
    ⟨⟨9⟩, .transpose [1, 2, 0], [⟨0⟩], [⟨3⟩]⟩,
    ⟨⟨4⟩, .transpose [2, 0, 1], [⟨3⟩], [⟨4⟩]⟩,
    ⟨⟨3⟩, .transpose [0, 2, 1], [⟨4⟩], [⟨5⟩]⟩,
    ⟨⟨1⟩, .custom "pair", [⟨3⟩, ⟨5⟩], [⟨6⟩]⟩]
  values := [
    ⟨⟨0⟩, "x", .ofExtents .f32 [2, 3, 4]⟩,
    ⟨⟨3⟩, "a", .ofExtents .f32 [3, 4, 2]⟩,
    ⟨⟨4⟩, "b", .ofExtents .f32 [2, 3, 4]⟩,
    ⟨⟨5⟩, "c", .ofExtents .f32 [2, 4, 3]⟩,
    ⟨⟨6⟩, "m", .ofExtents .f32 [1]⟩,
    ⟨⟨7⟩, "y", .ofExtents .f32 [2, 3, 4]⟩]

/-- The first component of `woven`. -/
def warp : Component := ⟨[⟨7⟩], [], [0], []⟩

/-- The second component of `woven`. -/
def weft : Component := ⟨[⟨3⟩, ⟨9⟩], [], [1], [0, 1]⟩

theorem due_weft {a : Analysis} (ha : analyse woven [] = .ok a) :
    Due Typing.static .fail (.ofBlock woven) woven a weft halfWoven := by
  have hsweep : (analyse woven []).map (fun a => components a a.consumers) = .ok [warp, weft] := by cbv
  have hbefore : ((analyse woven []).toOption.bind fun a => (applyAll Typing.static .fail (.ofBlock woven) a
      [warp] (Progress.tick { block := woven })).toOption) = some ⟨halfWoven, [], ⟨false, 1, 1, 2⟩⟩ := by cbv
  simp only [ha, Except.map, Except.ok.injEq] at hsweep
  simp only [ha, Except.toOption, Option.bind_some] at hbefore
  have hsub : ([warp] ++ [weft]).Sublist (components a a.consumers) := hsweep ▸ List.Sublist.refl _
  split at hbefore
  · rename_i r hr
    obtain rfl := Option.some.inj hbefore
    exact .intro (n := 0) (p := { block := woven }) rfl rfl ha hsub hr
  · cases hbefore

theorem woven_resolves : woven.check = .ok () ∧ ∃ a s declared t,
    Due Typing.static .fail (.ofBlock woven) woven a weft halfWoven ∧ Editor.ofBlock halfWoven = .ok s ∧
      (detach a weft).run s = .ok ([(⟨5⟩, ⟨4⟩), (⟨3⟩, ⟨0⟩), (⟨4⟩, ⟨0⟩)], []) t ∧
      declared.map (·.1.value) = [⟨3⟩, ⟨5⟩] ∧
      Resolves halfWoven [⟨3⟩, ⟨9⟩, ⟨4⟩] declared [(⟨5⟩, ⟨4⟩), (⟨3⟩, ⟨0⟩), (⟨4⟩, ⟨0⟩)] t := by
  have hcheck : woven.check = .ok () := by cbv
  obtain ⟨a, ha⟩ : ∃ a, analyse woven [] = .ok a := ⟨_, rfl⟩
  obtain ⟨s, hs⟩ : ∃ s, Editor.ofBlock halfWoven = .ok s := ⟨_, rfl⟩
  obtain ⟨declared, _, hall, _, h⟩ := (splice_resolves hcheck (due_weft ha)).2 s hs
  have hsubst : ((analyse woven []).toOption.bind fun a => (Editor.ofBlock halfWoven).toOption.bind (detach a weft).run') =
      some ([(⟨5⟩, ⟨4⟩), (⟨3⟩, ⟨0⟩), (⟨4⟩, ⟨0⟩)], []) := by cbv
  have hvalues : (analyse woven []).map (fun a => (a.restorationsOf weft).map (·.value)) = .ok [⟨3⟩, ⟨5⟩] := by cbv
  have hgone : (analyse woven []).map (fun a => weft.seeds ++ a.cancelledBy weft) = .ok [⟨3⟩, ⟨9⟩, ⟨4⟩] := by cbv
  simp only [ha, Except.map, Except.ok.injEq] at hvalues hgone
  simp only [ha, hs, Except.toOption, Option.bind_some, EStateM.run'] at hsubst
  split at hsubst
  · rename_i out t ht
    obtain rfl := Option.some.inj hsubst
    have hresolves := h _ _ t ht
    rw [hgone] at hresolves
    refine ⟨hcheck, a, s, declared, t, due_weft ha, hs, ht, ?_, hresolves⟩
    rw [← hvalues, ← hall, List.map_map]
    rfl
  · cases hsubst

end Relayout.Layout
