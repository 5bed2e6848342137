import Relayout.Proofs.Rounds

/-!
# What transpose reduction costs

A component is taken out because it takes away more transposes than it restores. `applyAll_cost` and `rounds_cost` count
along a run: every component that is accepted lowers the number of transposes by at least one, so that number bounds how
many are accepted, and with it the number of rounds if no component may be rejected (`Spent`). The same count shows that
a run with enough rounds only stops where no component is worth while (`rounds_done`), so that a second run finds
nothing to do.
-/

namespace Relayout.Layout

open Typing (Inference)

section Cost

variable [IdSpace] {infer : Inference} {onRejection : OnRejection} {expected : Expectation} {a : Analysis}
  {pend : ValueId → Option Pending} {b : Block}

omit [IdSpace] in
/-- An accepted component takes away at least one transpose more than it restores. -/
theorem inserted_lt_removed {c : Component} (hc : c ∈ accepted a) :
    (a.part c).restorations.length < (a.part c).removed.length := by
  obtain ⟨hc, hp⟩ := List.mem_filter.1 hc
  obtain ⟨hr, hi⟩ := component_counts hc
  rw [hr, hi]
  simpa [Component.isProfitable] using hp

/-- What a run over components does to the counts. -/
structure Costs (onRejection : OnRejection) (count : Nat) (p p' : Progress) : Prop where
  transposes : p'.block.transposes + p'.result.applied ≤ p.block.transposes + p.result.applied
  applied : p.result.applied ≤ p'.result.applied
  same : p'.result.applied = p.result.applied → p'.block = p.block
  iterations : p'.result.iterations = p.result.iterations
  all : onRejection = .fail → p'.result.applied = p.result.applied + count ∧ p'.excluded = p.excluded

theorem applyAll_cost : ∀ {cs : List Component} {p p' : Progress}, Stage False a pend p.block cs →
    (∀ c ∈ cs, c ∈ accepted a) → applyAll infer onRejection expected a cs p = .ok p' →
    Costs onRejection cs.length p p'
  | [], p, p', _, _, h => by
    cases h
    exact ⟨le_refl _, le_refl _, fun _ => rfl, rfl, fun _ => ⟨rfl, rfl⟩⟩
  | c :: cs, p, p', hst, hacc, h => by
    have hrest := fun c' hc' => hacc c' (List.mem_cons_of_mem _ hc')
    rcases applyAll_cons h with ⟨b', n, hatt, h⟩ | ⟨hskip, h⟩
    · obtain ⟨hst', hcount⟩ := hst.attempt hatt
      have hlt := inserted_lt_removed (hacc c List.mem_cons_self)
      have ih := applyAll_cost (p := p.accept b' n) hst' hrest h
      have htrans : p'.block.transposes + p'.result.applied ≤ b'.transposes + (p.result.applied + 1) := ih.transposes
      have happlied : p.result.applied + 1 ≤ p'.result.applied := ih.applied
      refine ⟨by omega, by omega, fun he => by omega, ih.iterations, fun hf => ⟨?_, (ih.all hf).2⟩⟩
      have := (ih.all hf).1
      simp only [Progress.accept] at this
      rw [this, List.length_cons]
      omega
    · have ih := applyAll_cost (p := { p with excluded := Seeds.union c.seeds p.excluded }) hst.tail hrest h
      exact ⟨ih.transposes, ih.applied, ih.same, ih.iterations, fun hf => by rw [hf] at hskip; cases hskip⟩

/-- What a run has cost so far. Each round but the last accepts a component, if none may be rejected. -/
structure Spent (onRejection : OnRejection) (b : Block) (p : Progress) : Prop where
  sound : p.block.Sound
  arity : ∀ o ∈ p.block.operations, o.FitsArity
  transposes : p.block.transposes + p.result.applied ≤ b.transposes
  same : p.result.applied = 0 → p.block = b
  iterations : onRejection = .fail → p.result.iterations ≤ p.result.applied ∧ p.excluded = []

omit [IdSpace] in
theorem Spent.start (hs : b.Sound) (har : ∀ o ∈ b.operations, o.FitsArity) : Spent onRejection b { block := b } :=
  ⟨hs, har, le_refl _, fun _ => rfl, fun _ => ⟨le_refl _, rfl⟩⟩

/-- One round. -/
theorem Spent.round {p p' : Progress} (h : Spent onRejection b p)
    (ha : analyse p.block p.excluded = .ok a) (hne : accepted a ≠ [])
    (hp : applyAll infer onRejection expected a (accepted a) p.tick = .ok p') :
    Spent onRejection b p' ∧ (onRejection = .fail → p'.block.transposes < p.block.transposes) := by
  have hst : Stage False a (sweptPending p.block p.excluded) p.tick.block (accepted a) :=
    (Stage.round h.sound h.arity ha).weaken False.elim
  have hcost := applyAll_cost hst (fun c hc => hc) hp
  have hend : Stage False a (sweptPending p.block p.excluded) p'.block [] :=
    Stage.applyAll (by rw [List.append_nil]; exact hst) hp
  have htrans : p'.block.transposes + p'.result.applied ≤ p.block.transposes + p.result.applied := hcost.transposes
  have happlied : p.result.applied ≤ p'.result.applied := hcost.applied
  have hpos := List.length_pos_iff.2 hne
  refine ⟨⟨hend.sound, hend.arity, htrans.trans h.transposes, fun he => ?_, fun hf => ?_⟩, fun hf => ?_⟩
  · have hzero : p.result.applied = 0 := Nat.le_zero.1 (he ▸ happlied)
    exact (hcost.same (he.trans hzero.symm)).trans (h.same hzero)
  · obtain ⟨hall, hex⟩ := hcost.all hf
    obtain ⟨hit, hex'⟩ := h.iterations hf
    refine ⟨?_, hex.trans hex'⟩
    rw [hcost.iterations, hall]
    simp only [Progress.tick]
    omega
  · have hall : p'.result.applied = p.result.applied + (accepted a).length := (hcost.all hf).1
    omega

/-- All rounds: only the last may find nothing worth while. -/
theorem rounds_cost : ∀ {n : Nat} {p p' : Progress}, Spent onRejection b p →
    rounds infer onRejection expected n p = .ok p' →
    p'.block.Sound ∧ (∀ o ∈ p'.block.operations, o.FitsArity) ∧
      p'.block.transposes + p'.result.applied ≤ b.transposes ∧ (p'.result.applied = 0 → p'.block = b) ∧
      (onRejection = .fail → p'.result.iterations ≤ p'.result.applied + 1)
  | 0, p, p', hs, h => by
    cases h
    exact ⟨hs.sound, hs.arity, hs.transposes, hs.same, fun hf => Nat.le_succ_of_le (hs.iterations hf).1⟩
  | n + 1, p, p', hs, h => by
    obtain ⟨a, ha, ⟨_, rfl⟩ | ⟨hne, q, hq, h⟩⟩ := rounds_succ h
    · exact ⟨hs.sound, hs.arity, hs.transposes, hs.same, fun hf => Nat.succ_le_succ (hs.iterations hf).1⟩
    · exact rounds_cost (hs.round ha hne hq).1 h

/-- With more rounds than transposes, a run in which nothing may be rejected stops where nothing is worth while. -/
theorem rounds_done : ∀ {n : Nat} {p p' : Progress}, Spent .fail b p → p.block.transposes < n →
    rounds infer .fail expected n p = .ok p' → ∃ a, analyse p'.block [] = .ok a ∧ accepted a = []
  | n + 1, p, p', hs, hlt, h => by
    obtain ⟨a, ha, ⟨hnil, rfl⟩ | ⟨hne, q, hq, h⟩⟩ := rounds_succ h
    · rw [(hs.iterations rfl).2] at ha
      exact ⟨a, ha, hnil⟩
    · obtain ⟨hs', hdec⟩ := hs.round ha hne hq
      exact rounds_done hs' (by have := hdec rfl; omega) h

end Cost

/-! ## The whole pass -/

/-- Two transposes with an operation between them, the result of which is returned as well. -/
def detour : Block where
  name := "detour"
  inputs := [⟨0⟩]
  outputs := [⟨3⟩, ⟨2⟩]
  operations := [
    ⟨⟨0⟩, .transpose [1, 0], [⟨0⟩], [⟨1⟩]⟩,
    ⟨⟨1⟩, .unary .relu, [⟨1⟩], [⟨2⟩]⟩,
    ⟨⟨2⟩, .transpose [1, 0], [⟨2⟩], [⟨3⟩]⟩]
  values := [
    ⟨⟨0⟩, "x", .ofExtents .f32 [2, 3]⟩,
    ⟨⟨1⟩, "t", .ofExtents .f32 [3, 2]⟩,
    ⟨⟨2⟩, "u", .ofExtents .f32 [3, 2]⟩,
    ⟨⟨3⟩, "y", .ofExtents .f32 [2, 3]⟩]

/-- What becomes of `detour`: one of the two transposes is left, behind the operation. -/
def direct : Block where
  name := "detour"
  inputs := [⟨0⟩]
  outputs := [⟨2⟩, ⟨4⟩]
  operations := [
    ⟨⟨1⟩, .unary .relu, [⟨0⟩], [⟨2⟩]⟩,
    ⟨⟨3⟩, .transpose [1, 0], [⟨2⟩], [⟨4⟩]⟩]
  values := [
    ⟨⟨0⟩, "x", .ofExtents .f32 [2, 3]⟩,
    ⟨⟨2⟩, "y", .ofExtents .f32 [2, 3]⟩,
    ⟨⟨4⟩, "u", .ofExtents .f32 [3, 2]⟩]

theorem detour_check : detour.check = .ok () := rfl

theorem detour_run : reduceTransposes {} Typing.static detour = .ok (⟨true, 2, 1, 2⟩, direct) := by
  cbv

theorem reduceTransposes_eq_ok [IdSpace] {config : Config} {infer : Inference} {b b' : Block} {r : PassResult} :
    reduceTransposes config infer b = .ok (r, b') ↔ b.check = .ok () ∧
      ∃ p, rounds infer config.onRejection (.ofBlock b) config.maxRounds { block := b } = .ok p ∧
        r = { p.result with changed := decide (0 < p.result.applied) } ∧
          b' = if 0 < p.result.applied then p.block else b := by
  rw [reduceTransposes]
  cases hc : b.check with
  | error e => simp
  | ok u =>
    dsimp only
    rw [bind_eq_ok]
    simp only [pure_eq_ok, Prod.mk.injEq, true_and, decide_eq_true_eq]
    constructor
    · rintro ⟨p, hp, rfl, rfl⟩
      exact ⟨p, hp, rfl, rfl⟩
    · rintro ⟨p, hp, rfl, rfl⟩
      exact ⟨p, hp, rfl, rfl⟩

/-- **The cost of transpose reduction.** Whatever the inference, every component that can be taken out in a run, from a
block that the components before it may have changed, takes away and brings in as many transposes as it says. So the
number of transposes falls with every component that is accepted; a block in which none is accepted comes back as it
was, and if none may be rejected, there are no more rounds than transposes, and one. -/
theorem reduceTransposes_cost [IdSpace] (config : Config) (infer : Inference) {b : Block} (hb : b.check = .ok ()) :
    (∀ (n : Nat) (p q p' : Progress) (a : Analysis) (cs : List Component) (c : Component) (b' : Block) (erased : Nat),
      rounds infer config.onRejection (.ofBlock b) n { block := b } = .ok p →
      analyse p.block p.excluded = .ok a → (cs ++ [c]).Sublist (components a a.consumers) → q.block = p.block →
      applyAll infer config.onRejection (.ofBlock b) a cs q = .ok p' →
      applyComponent p'.block a c = .ok (b', erased) →
      b'.transposes + c.removed = p'.block.transposes + c.inserted) ∧
    ∀ (r : PassResult) (b' : Block), reduceTransposes config infer b = .ok (r, b') →
      b'.transposes + r.applied ≤ b.transposes ∧ (r.applied = 0 → b' = b) ∧
        (config.onRejection = .fail → r.iterations ≤ b.transposes + 1) := by
  obtain ⟨hs, har, _⟩ := Block.check_eq_ok.1 hb
  constructor
  · intro n p q p' a cs c b' erased hp ha hsub hq hall happly
    obtain ⟨hs', har', _⟩ := rounds_cost (Spent.start hs har) hp
    have hst : Stage False a (sweptPending p.block p.excluded) q.block (cs ++ [c]) := by
      rw [hq]
      exact (Stage.start hs' har' ha hsub).weaken False.elim
    have hend := Stage.applyAll hst hall
    obtain ⟨L, hsp⟩ := applyComponent_spliced (hend.regions c List.mem_cons_self) hend.sound happly
    obtain ⟨hr, hi⟩ := component_counts (hsub.subset (List.mem_append_right _ List.mem_cons_self))
    rw [← hr, ← hi]
    exact hsp.count
  · intro r b' h
    obtain ⟨_, p, hp, rfl, rfl⟩ := reduceTransposes_eq_ok.1 h
    obtain ⟨_, _, htrans, hsame, hit⟩ := rounds_cost (Spent.start hs har) hp
    refine ⟨?_, fun he => ?_, fun hf => (hit hf).trans ?_⟩
    · split
      · exact htrans
      · rename_i hz
        rw [hsame (Nat.le_zero.1 (Nat.le_of_not_lt hz))] at htrans
        exact htrans
    · have he' : p.result.applied = 0 := he
      rw [if_neg (by omega)]
    · show p.result.applied + 1 ≤ b.transposes + 1
      omega

theorem detour_cost : reduceTransposes {} Typing.static detour = .ok (⟨true, 2, 1, 2⟩, direct) ∧
    direct.transposes + 1 ≤ detour.transposes ∧ 2 ≤ detour.transposes + 1 :=
  have h := (reduceTransposes_cost {} Typing.static detour_check).2 _ _ detour_run
  ⟨detour_run, h.1, h.2.2 rfl⟩

/-- Under static inference an accepted block passes the check with its new types. -/
theorem attempt_check [IdSpace] {expected : Expectation} {a : Analysis} {c : Component} {b b' : Block} {n : Nat}
    (h : attempt Typing.static expected a c b = .ok (b', n)) : b'.check = .ok () := by
  obtain ⟨b₁, _, hcheck, hretype, _⟩ := attempt_eq_ok.1 h
  obtain ⟨hs, har, _⟩ := Block.check_eq_ok.1 hcheck
  have hr := Block.retyped_of_retype hretype
  exact Block.check_of_typed (hr.sound hs) (hr.operations ▸ har) (Block.retype_typed hs har hretype).2

section Done

variable [IdSpace] {maxRounds : Nat} {b b' : Block} {r : PassResult} {infer : Inference}

/-- The block of a run is the one that its rounds leave. -/
theorem exists_rounds {config : Config} (h : reduceTransposes config infer b = .ok (r, b')) :
    ∃ p, rounds infer config.onRejection (.ofBlock b) config.maxRounds { block := b } = .ok p ∧ b' = p.block := by
  obtain ⟨hb, p, hp, _, rfl⟩ := reduceTransposes_eq_ok.1 h
  obtain ⟨hs, har, _⟩ := Block.check_eq_ok.1 hb
  refine ⟨p, hp, ?_⟩
  split
  · rfl
  · rename_i hz
    exact ((rounds_cost (.start hs har) hp).2.2.2.1 (Nat.le_zero.1 (Nat.le_of_not_lt hz))).symm

/-- With more rounds than transposes, a run in which nothing may be rejected leaves nothing that is worth while. -/
theorem reduceTransposes_done (hlt : b.transposes < maxRounds)
    (h : reduceTransposes ⟨maxRounds, .fail⟩ infer b = .ok (r, b')) : ∃ a, analyse b' [] = .ok a ∧ accepted a = [] := by
  obtain ⟨p, hp, rfl⟩ := exists_rounds h
  obtain ⟨hs, har, _⟩ := Block.check_eq_ok.1 (reduceTransposes_eq_ok.1 h).1
  exact rounds_done (.start hs har) hlt hp

/-- Under static inference the block of a run passes the check. -/
theorem reduceTransposes_check {config : Config} (h : reduceTransposes config Typing.static b = .ok (r, b')) :
    b'.check = .ok () := by
  obtain ⟨p, hp, rfl⟩ := exists_rounds h
  refine rounds_keep (Q := fun b => b.check = .ok ()) (fun hc => ?_)
    (fun (hst : Stage False _ _ _ _) _ hatt => ⟨(hst.attempt hatt).1, attempt_check hatt⟩) (p := { block := b })
    (reduceTransposes_eq_ok.1 h).1 hp
  obtain ⟨hs, har, _⟩ := Block.check_eq_ok.1 hc
  exact ⟨hs, har⟩

end Done

/-- **Idempotence of transpose reduction.** With more rounds than transposes, a second run finds nothing to do. -/
theorem reduceTransposes_idempotent [IdSpace] {maxRounds : Nat} {b b' : Block} {r : PassResult}
    (hlt : b.transposes < maxRounds) (h : reduceTransposes ⟨maxRounds, .fail⟩ Typing.static b = .ok (r, b')) :
    reduceTransposes ⟨maxRounds, .fail⟩ Typing.static b' = .ok (⟨false, 1, 0, 0⟩, b') := by
  obtain ⟨a, ha, hdone⟩ := reduceTransposes_done hlt h
  obtain ⟨n, rfl⟩ : ∃ n, maxRounds = n + 1 := ⟨maxRounds - 1, by omega⟩
  refine reduceTransposes_eq_ok.2 ⟨reduceTransposes_check h, Progress.tick { block := b' }, ?_, rfl, rfl⟩
  unfold rounds
  dsimp only
  rw [ha]
  dsimp only
  rw [hdone]
  rfl

theorem detour_idempotent : detour.transposes < 64 ∧
    reduceTransposes {} Typing.static direct = .ok (⟨false, 1, 0, 0⟩, direct) :=
  ⟨by decide, reduceTransposes_idempotent (by decide) detour_run⟩

end Relayout.Layout
