import Relayout.Layout.Reduction
import Relayout.Proofs.Check
import Relayout.Proofs.Components
import Relayout.Proofs.Retyping

/-!
# Rounds

The components of a round come from one sweep, and each of them is taken out of a block that the ones before have
changed. A `Stage` says that the rest of them still fit: they are regions of the block, apart from each other. It holds
after a sweep (`Stage.start`) and is kept by every component that is accepted (`Stage.next`, `Stage.applyAll`), whatever
the inference.
-/

namespace Relayout.Layout

open Typing (Inference)

/-- Components of one sweep that are still to be taken out of a block. -/
structure Stage (typed : Prop) (a : Analysis) (pend : ValueId → Option Pending) (b : Block) (cs : List Component) :
    Prop where
  sound : b.Sound
  arity : ∀ o ∈ b.operations, o.FitsArity
  regions : ∀ c ∈ cs, Describes typed (a.part c) b (restrict pend c.seeds)
  apart : cs.Pairwise fun c c' => Apart (a.part c) (restrict pend c.seeds) (a.part c') (restrict pend c'.seeds)

section Stage

variable {typed : Prop} {a : Analysis} {pend : ValueId → Option Pending} {b b₁ b₂ : Block} {c : Component}
  {cs : List Component} {L : Ledger}

/-- A sweep sets a stage, with any choice of its components. -/
theorem Stage.start (hs : b.Sound) (har : ∀ o ∈ b.operations, o.FitsArity) {excluded : List OpId}
    (ha : analyse b excluded = .ok a) (h : cs.Sublist (components a a.consumers)) :
    Stage True a (sweptPending b excluded) b cs := by
  have hd := analyse_describes hs har ha
  have hseeded := analyse_seeded hs har ha
  have hgrounded := grounded_of_describes hd hseeded
  have hpart := fun c hc => isPart_of_mem hgrounded (.refl _) (c := c) (h.subset hc)
  refine ⟨hs, har, fun c hc => (hpart c hc).describes hd hseeded hs, ?_⟩
  refine ((components_disjoint hgrounded _).sublist h).imp_of_mem fun {c c'} hc hc' hdisj => ?_
  exact (hpart c hc).apart (hpart c' hc') hdisj hd hseeded

theorem Stage.round (hs : b.Sound) (har : ∀ o ∈ b.operations, o.FitsArity) {excluded : List OpId}
    (ha : analyse b excluded = .ok a) : Stage True a (sweptPending b excluded) b (accepted a) :=
  Stage.start hs har ha List.filter_sublist

theorem Viewed.weaken {typed' : Prop} (h : typed' → typed) {v : ValueId} {view : View} (hv : Viewed typed b pend v view) :
    Viewed typed' b pend v view := by
  cases hv with
  | pending hq => exact .pending hq
  | constant hq hop hout hk => exact .constant hq hop hout hk
  | concrete hq ht => exact .concrete hq fun hty => ht (h hty)

theorem Describes.weaken {typed' : Prop} (h : typed' → typed) (hd : Describes typed a b pend) :
    Describes typed' a b pend where
  seeds := hd.seeds
  cancellations := hd.cancellations
  absorbed r hr := by
    obtain ⟨o, ho, he, views, p, hviews, hrest⟩ := hd.absorbed r hr
    exact ⟨o, ho, he, views, p, hviews.imp fun _ _ hv => hv.weaken h, hrest⟩
  restorations := hd.restorations
  others := hd.others
  outputs := hd.outputs
  inputs := hd.inputs
  defined := hd.defined
  markedOnce := hd.markedOnce
  restoredOnce := hd.restoredOnce

theorem Stage.weaken {typed' : Prop} (hty : typed' → typed) (h : Stage typed a pend b cs) : Stage typed' a pend b cs :=
  ⟨h.sound, h.arity, fun c hc => (h.regions c hc).weaken hty, h.apart⟩

/-- Taking out a component leaves the stage set for the others. -/
theorem Stage.next (h : Stage typed a pend b (c :: cs)) (hsp : Spliced (a.part c) b (restrict pend c.seeds) L b₁)
    (hfit : typed → TypesFit False (a.part c) b) (hr : b₁.Retyped b₂)
    (hrank : typed → ∀ v t, b₁.type? v = some t → ∃ t', b₂.type? v = some t' ∧ t'.rank = t.rank)
    (har : ∀ o ∈ b₁.operations, o.FitsArity) : Stage typed a pend b₂ cs := by
  obtain ⟨hapart, hrest⟩ := List.pairwise_cons.1 h.apart
  refine ⟨hr.sound hsp.sound, hr.operations ▸ har, fun c' hc' => ?_, hrest⟩
  have hd' := (hapart c' hc').describes (h.regions c List.mem_cons_self) (h.regions c' (List.mem_cons_of_mem _ hc'))
    h.sound hsp hfit
  exact hd'.retyped hr hrank

end Stage

/-! ## Attempts -/

section Attempt

variable [IdSpace] {infer : Inference} {onRejection : OnRejection} {expected : Expectation} {a : Analysis}
  {pend : ValueId → Option Pending} {b b' : Block} {c : Component} {cs rest : List Component} {n : Nat}

theorem attempt_eq_ok : attempt infer expected a c b = .ok (b', n) ↔
    ∃ b₁, applyComponent b a c = .ok (b₁, n) ∧ b₁.check = .ok () ∧ b₁.retype infer = (b', none) ∧
      expected.checkOutputs b' = .ok () ∧ expected.checkKinds b' = .ok () := by
  rw [attempt, bind_eq_ok]
  simp only [mapError_eq_ok, check_bind_eq_ok, Prod.exists]
  constructor
  · rintro ⟨b₁, n', happly, hcheck, h⟩
    split at h
    · cases h
    · rename_i b₂ hretype
      simp only [check_bind_eq_ok, pure_eq_ok, Prod.mk.injEq] at h
      obtain ⟨hout, hkinds, rfl, rfl⟩ := h
      exact ⟨b₁, happly, hcheck, hretype, hout, hkinds⟩
  · rintro ⟨b₁, happly, hcheck, hretype, hout, hkinds⟩
    refine ⟨b₁, n, happly, hcheck, ?_⟩
    rw [hretype]
    simp only [check_bind_eq_ok, pure_eq_ok, hout, hkinds, and_self]

/-- A component that is accepted has its exact cost, and leaves the stage set for the others. -/
theorem Stage.attempt (h : Stage False a pend b (c :: cs)) (hatt : attempt infer expected a c b = .ok (b', n)) :
    Stage False a pend b' cs ∧
      b'.transposes + (a.part c).removed.length = b.transposes + (a.part c).restorations.length := by
  obtain ⟨b₁, happly, hcheck, hretype, _⟩ := attempt_eq_ok.1 hatt
  obtain ⟨L, hsp⟩ := applyComponent_spliced (h.regions c List.mem_cons_self) h.sound happly
  have hr := Block.retyped_of_retype hretype
  refine ⟨h.next hsp False.elim hr False.elim fun o ho => ?_, ?_⟩
  · exact (Block.check_eq_ok.1 hcheck).2.1 o ho
  · rw [hr.transposes_eq]
    exact hsp.count

/-- A component is accepted, or it is rejected and its seeds are left alone. -/
theorem applyAll_cons {p p' : Progress} (h : applyAll infer onRejection expected a (c :: cs) p = .ok p') :
    (∃ b' n, attempt infer expected a c p.block = .ok (b', n) ∧
      applyAll infer onRejection expected a cs (p.accept b' n) = .ok p') ∨
    onRejection = .skip ∧ applyAll infer onRejection expected a cs
      { p with excluded := Seeds.union c.seeds p.excluded } = .ok p' := by
  unfold applyAll at h
  cases hatt : attempt infer expected a c p.block with
  | ok r =>
    rw [hatt] at h
    exact .inl ⟨r.1, r.2, rfl, h⟩
  | error e =>
    rw [hatt] at h
    dsimp only at h
    cases hcrash : e.crash? with
    | some crash =>
      rw [hcrash] at h
      cases h
    | none =>
      rw [hcrash] at h
      cases onRejection with
      | fail => cases h
      | skip => exact .inr ⟨rfl, h⟩

omit [IdSpace] in
theorem Stage.tail {typed : Prop} (h : Stage typed a pend b (c :: cs)) : Stage typed a pend b cs :=
  ⟨h.sound, h.arity, fun c' hc' => h.regions c' (List.mem_cons_of_mem _ hc'), (List.pairwise_cons.1 h.apart).2⟩

/-- A run over some components leaves the stage set for the rest. -/
theorem Stage.applyAll : ∀ {cs : List Component} {p p' : Progress}, Stage False a pend p.block (cs ++ rest) →
    applyAll infer onRejection expected a cs p = .ok p' → Stage False a pend p'.block rest
  | [], p, p', h, hp => by
    cases hp
    exact h
  | c :: cs, p, p', h, hp => by
    rcases applyAll_cons hp with ⟨b', n, hatt, hp⟩ | ⟨_, hp⟩
    · have hb : (p.accept b' n).block = b' := rfl
      exact Stage.applyAll (hb ▸ (h.attempt hatt).1) hp
    · exact Stage.applyAll (p := { p with excluded := Seeds.union c.seeds p.excluded }) h.tail hp

/-! ## Rounds -/

/-- The start of a round is counted. -/
def Progress.tick (p : Progress) : Progress :=
  { p with result := { p.result with iterations := p.result.iterations + 1 } }

/-- A round finds nothing worth while, or runs over what it finds. -/
theorem rounds_succ {p p' : Progress} (h : rounds infer onRejection expected (n + 1) p = .ok p') :
    ∃ a, analyse p.block p.excluded = .ok a ∧ ((accepted a = [] ∧ p' = p.tick) ∨
      accepted a ≠ [] ∧ ∃ q, applyAll infer onRejection expected a (accepted a) p.tick = .ok q ∧
        rounds infer onRejection expected n q = .ok p') := by
  unfold rounds at h
  dsimp only at h
  cases ha : analyse p.block p.excluded with
  | error crash =>
    rw [ha] at h
    cases h
  | ok a =>
    rw [ha] at h
    refine ⟨a, rfl, ?_⟩
    dsimp only at h
    split at h
    · rename_i hnil
      cases h
      exact .inl ⟨hnil, rfl⟩
    · rename_i hne
      obtain ⟨q, hq, h⟩ := bind_eq_ok.1 h
      exact .inr ⟨hne, q, hq, h⟩

/-- What attempts keep, with the stage for the components that follow, a run over components keeps. -/
theorem applyAll_keeps {typed : Prop} {Q : Block → Prop}
    (hstep : ∀ {b b' : Block} {c : Component} {cs : List Component} {n : Nat}, Stage typed a pend b (c :: cs) → Q b →
      attempt infer expected a c b = .ok (b', n) → Stage typed a pend b' cs ∧ Q b') :
    ∀ {cs : List Component} {p p' : Progress}, Stage typed a pend p.block cs → Q p.block →
      applyAll infer onRejection expected a cs p = .ok p' → Q p'.block
  | [], p, p', _, hQ, h => by
    cases h
    exact hQ
  | c :: cs, p, p', hst, hQ, h => by
    rcases applyAll_cons h with ⟨b', n, hatt, h⟩ | ⟨_, h⟩
    · obtain ⟨hst', hQ'⟩ := hstep hst hQ hatt
      exact applyAll_keeps hstep (p := p.accept b' n) hst' hQ' h
    · exact applyAll_keeps hstep (p := { p with excluded := Seeds.union c.seeds p.excluded }) hst.tail hQ h

/-- What attempts keep, all rounds keep. -/
theorem rounds_keep {typed : Prop} {Q : Block → Prop}
    (hQ : ∀ {b : Block}, Q b → b.Sound ∧ ∀ o ∈ b.operations, o.FitsArity)
    (hstep : ∀ {a : Analysis} {pend : ValueId → Option Pending} {b b' : Block} {c : Component} {cs : List Component}
      {n : Nat}, Stage typed a pend b (c :: cs) → Q b → attempt infer expected a c b = .ok (b', n) →
        Stage typed a pend b' cs ∧ Q b') :
    ∀ {n : Nat} {p p' : Progress}, Q p.block → rounds infer onRejection expected n p = .ok p' → Q p'.block
  | 0, p, p', hq, h => by
    cases h
    exact hq
  | n + 1, p, p', hq, h => by
    obtain ⟨a, ha, ⟨_, rfl⟩ | ⟨_, q, hap, h⟩⟩ := rounds_succ h
    · exact hq
    · obtain ⟨hs, har⟩ := hQ hq
      have hst : Stage typed _ _ p.block _ := (Stage.round hs har ha).weaken fun _ => trivial
      exact rounds_keep hQ hstep (applyAll_keeps hstep (p := p.tick) hst hq hap) h

end Attempt

end Relayout.Layout
