import Relayout.Proofs.Connectivity
import Relayout.Proofs.Types

/-!
# No chain that cancels is left

A transpose of a value that nothing can be pending on, carried along operations on single elements to a transpose that
undoes it, is what transpose reduction is for. If no other operation reads a value on the way, the first transpose is a
seed, its permutation is pending on all of the chain and on nothing else (`Swept.traced`), the second one is recorded
as undoing it (`Swept.undone`), and no other record is about this seed. So the seed is linked to no other
(`Swept.alone`), and its component is worth while (`Swept.exists_accepted`).

A run with more rounds than transposes stops where no component is worth while, and so leaves no such chain
(`reduceTransposes_cancels`).
-/

namespace Relayout

/-! ## Chains -/

/-- Constants, poolings and custom operations: nothing is ever pending on what they give. -/
def OpKind.isSource : OpKind → Bool
  | .const _ | .pool _ | .custom _ => true
  | _ => false

theorem OpKind.isPointwise_of_isSource {kind : OpKind} (h : kind.isSource) : kind.isPointwise = false := by
  cases kind with
  | const _ => rfl
  | pool _ => rfl
  | custom _ => rfl
  | _ => cases h

namespace Block

/-- An input, or the result of a constant, a pooling or a custom operation. -/
def IsSource (b : Block) (x : ValueId) : Prop :=
  x ∈ b.inputs ∨ ∃ o ∈ b.operations, x ∈ o.outputs ∧ o.kind.isSource

/-- The operations that read a value. -/
def readers (b : Block) (v : ValueId) : List Operation :=
  b.operations.filter (·.inputs.contains v)

/-- Exactly one operation reads a value, and the block does not return it. -/
def ReadOnce (b : Block) (v : ValueId) : Prop :=
  (b.readers v).length = 1 ∧ v ∉ b.outputs

/-- Operations on single elements hand a value on until `w` reads it, and all values on the way are read once. -/
inductive HandsTo (b : Block) (w : Operation) : ValueId → Prop
  | last {v : ValueId} (hin : w.inputs = [v]) (hv : b.ReadOnce v) : HandsTo b w v
  | step {o : Operation} {v v' : ValueId} (ho : o ∈ b.operations) (hk : o.kind.isPointwise) (hin : o.inputs = [v])
    (hout : o.outputs = [v']) (hv : b.ReadOnce v) (h : HandsTo b w v') : HandsTo b w v

/-- `t` transposes a source, and what it gives is handed on to `w`, which undoes the transpose. -/
structure Cancelling (b : Block) (t w : Operation) (p : List Nat) (x y : ValueId) : Prop where
  mem : t ∈ b.operations
  kind : t.kind = .transpose p
  inputs : t.inputs = [x]
  outputs : t.outputs = [y]
  source : b.IsSource x
  chain : b.HandsTo w y
  mem_last : w ∈ b.operations
  undoes : ∃ q, w.kind = .transpose q ∧ Perm.cancels p q

theorem ReadOnce.unique {b : Block} {v : ValueId} (h : b.ReadOnce v) {o o' : Operation} (ho : o ∈ b.operations)
    (ho' : o' ∈ b.operations) (hv : v ∈ o.inputs) (hv' : v ∈ o'.inputs) : o = o' := by
  obtain ⟨r, hr⟩ := List.length_eq_one_iff.1 h.1
  have hmem : ∀ u ∈ b.operations, v ∈ u.inputs → u = r := fun u hu hvu => by
    have hin : u ∈ b.readers v := List.mem_filter.2 ⟨hu, by simpa using hvu⟩
    rw [hr] at hin
    exact List.mem_singleton.1 hin
  rw [hmem o ho hv, hmem o' ho' hv']

theorem HandsTo.readOnce {b : Block} {w : Operation} {v : ValueId} (h : b.HandsTo w v) : b.ReadOnce v := by
  cases h with
  | last _ hv => exact hv
  | step _ _ _ _ hv _ => exact hv

/-- What reads a value on the way is the last operation, or hands it on. -/
theorem HandsTo.reader {b : Block} {w : Operation} {v : ValueId} (h : b.HandsTo w v) (hw : w ∈ b.operations)
    {o : Operation} (ho : o ∈ b.operations) (hv : v ∈ o.inputs) :
    o = w ∨ o.kind.isPointwise ∧ ∃ v', o.outputs = [v'] ∧ b.HandsTo w v' := by
  cases h with
  | last hin hv' => exact .inl (hv'.unique ho hw hv (by rw [hin]; exact List.mem_singleton_self v))
  | @step o' _ v' ho' hk hin hout hv' h' =>
    have he := hv'.unique ho ho' hv (by rw [hin]; exact List.mem_singleton_self v)
    subst he
    exact .inr ⟨hk, v', hout, h'⟩

end Block

namespace Layout

/-! ## Operations of a chain -/

/-- Constants, poolings and custom operations do not absorb. -/
theorem absorb_isSource {kind : OpKind} {views : List View} {p : List Nat} {a : Absorption}
    (h : absorb kind views p = .ok a) : kind.isSource = false := by
  rcases (absorb_cases h).2 with ⟨hk, _⟩ | ⟨_, rfl, _⟩ | ⟨_, rfl, _⟩ | ⟨_, rfl, _⟩ | ⟨_, rfl, _⟩
  · rw [← Bool.not_eq_true]
    intro hsource
    rw [OpKind.isPointwise_of_isSource hsource] at hk
    cases hk
  all_goals rfl

namespace Visited

variable {b : Block} {excluded : List OpId} {pend : ValueId → Option Pending} {o : Operation} {d : Analysis}
  {p q : List Nat} {x y : ValueId}

theorem absorbed_kind (h : Visited b excluded pend o d) {r : Absorbed} (hr : r ∈ d.absorbed) :
    o.kind.isPointwise = false ∧ o.kind.isTranspose = false := by
  cases h with
  | absorbs _ hk h _ =>
    obtain ⟨_, _, _, ha, _⟩ := h
    exact ⟨hk, (absorb_kind ha).1⟩
  | _ => cases hr

theorem staysOut (h : Visited b excluded pend o d) {r : Restoration} (hr : r ∈ d.restorations) :
    StaysOut b excluded pend o := by
  cases h with
  | restores _ hstay _ _ => exact hstay
  | _ => cases hr

/-- What is pending on a result is the transpose of a seed, was handed on, or comes from what was absorbed. -/
theorem origin (h : Visited b excluded pend o d) {v : ValueId} (hv : v ∈ o.outputs) {q : Pending} (hq : pend v = some q) :
    (o.outputs = [v] ∧ o.kind = .transpose q.perm ∧ q.seeds = [o.id]) ∨
      (o.kind.isPointwise ∧ ∃ x, o.inputs = [x] ∧ pend x = some q) ∨
      (o.kind.isSource = false ∧ o.kind.isPointwise = false ∧ o.kind.isTranspose = false ∧
        ∀ id ∈ q.seeds, ∃ x ∈ o.inputs, ∃ q', pend x = some q' ∧ id ∈ q'.seeds) := by
  cases h with
  | seed h =>
    obtain ⟨x, y, p, hk, hin, hout, hx, hy, _⟩ := h
    rw [hout, List.mem_singleton] at hv
    rw [hv, hy, Option.some.injEq] at hq
    rw [hv, ← hq]
    exact .inl ⟨hout, hk, rfl⟩
  | cancels h =>
    obtain ⟨x, y, p, q, hk, hin, hout, hx, _, hy⟩ := h
    rw [hout, List.mem_singleton] at hv
    rw [hv, hy] at hq
    cases hq
  | absorbs hop hk h hseeds =>
    obtain ⟨_, _, _, ha, hout, _⟩ := h
    rw [hout v hv] at hq
    obtain ⟨perm, _, rfl⟩ := Option.map_eq_some_iff.1 hq
    exact .inr (.inr ⟨absorb_isSource ha, hk, (absorb_kind ha).1, hseeds⟩)
  | passes h =>
    obtain ⟨x, y, q', hk, hin, hout, hx, hy⟩ := h
    rw [hout, List.mem_singleton] at hv
    rw [hv, hy, Option.some.injEq] at hq
    exact .inr (.inl ⟨hk, x, hin, hx.trans (congrArg some hq)⟩)
  | restores _ _ hout _ =>
    rw [hout v hv] at hq
    cases hq

/-- Nothing is pending on what a source gives. -/
theorem pend_source (h : Visited b excluded pend o d) (hk : o.kind.isSource) : ∀ v ∈ o.outputs, pend v = none := by
  intro v hv
  cases hq : pend v with
  | none => rfl
  | some q =>
    rcases h.origin hv hq with ⟨_, hkind, _⟩ | ⟨hkind, _⟩ | ⟨hkind, _⟩
    · rw [hkind] at hk
      cases hk
    · rw [OpKind.isPointwise_of_isSource hk] at hkind
      cases hkind
    · rw [hk] at hkind
      cases hkind

/-- A transpose of a value in its declared layout is a seed, unless it is returned. -/
theorem isSeed (h : Visited b [] pend o d) (hk : o.kind = .transpose p) (hin : o.inputs = [x]) (hout : o.outputs = [y])
    (hx : pend x = none) (hy : y ∉ b.outputs) : d.seeds = [o.id] ∧ pend y = some ⟨p, [o.id]⟩ := by
  cases h with
  | seed h =>
    obtain ⟨x', y', p', hk', _, hout', _, hy', _⟩ := h
    rw [hk, OpKind.transpose.injEq] at hk'
    rw [hout, List.singleton_inj] at hout'
    rw [hk', hout']
    exact ⟨rfl, hy'⟩
  | cancels h =>
    obtain ⟨x', _, _, _, _, hin', _, hx', _⟩ := h
    rw [hin, List.singleton_inj] at hin'
    rw [← hin', hx] at hx'
    cases hx'
  | absorbs _ _ h _ =>
    obtain ⟨_, _, _, ha, _⟩ := h
    rw [hk] at ha
    cases (absorb_kind ha).1
  | passes h =>
    obtain ⟨_, _, _, hk', _⟩ := h
    rw [hk] at hk'
    cases hk'
  | restores _ hstay _ _ =>
    rcases hstay.seed p hk (fun v hv => by rw [hin, List.mem_singleton] at hv; rw [hv, hx]) with hex | ⟨v, hv, hret⟩
    · cases hex
    · rw [hout, List.mem_singleton] at hv
      exact absurd (hv ▸ hret) hy

/-- A transpose that undoes what is pending is recorded. -/
theorem undone (h : Visited b excluded pend o d) (hk : o.kind = .transpose q) (hin : o.inputs = [x]) {seeds : Seeds}
    (hx : pend x = some ⟨p, seeds⟩) (hc : Perm.cancels p q) : d.cancellations = [⟨o.id, seeds⟩] := by
  cases h with
  | seed h =>
    obtain ⟨x', _, _, _, hin', _, hx', _⟩ := h
    rw [hin, List.singleton_inj] at hin'
    rw [← hin', hx] at hx'
    cases hx'
  | cancels h =>
    obtain ⟨x', _, _, _, _, hin', _, hx', _⟩ := h
    rw [hin, List.singleton_inj] at hin'
    rw [← hin', hx, Option.some.injEq, Pending.mk.injEq] at hx'
    rw [hx'.2]
  | absorbs _ _ h _ =>
    obtain ⟨_, _, _, ha, _⟩ := h
    rw [hk] at ha
    cases (absorb_kind ha).1
  | passes h =>
    obtain ⟨_, _, _, hk', _⟩ := h
    rw [hk] at hk'
    cases hk'
  | restores _ hstay _ _ =>
    exact absurd hc (hstay.cancels q hk x (by rw [hin]; exact List.mem_singleton_self x) _ hx)

/-- An operation on single elements hands on what is pending. -/
theorem handsOn (h : Visited b excluded pend o d) (hk : o.kind.isPointwise) (hin : o.inputs = [x]) (hout : o.outputs = [y])
    {q : Pending} (hx : pend x = some q) : pend y = some q := by
  have htrans : ∀ p, o.kind ≠ .transpose p := fun p h => by rw [h] at hk; cases hk
  cases h with
  | seed h =>
    obtain ⟨_, _, p, hk', _⟩ := h
    exact absurd hk' (htrans p)
  | cancels h =>
    obtain ⟨_, _, _, p, hk', _⟩ := h
    exact absurd hk' (htrans p)
  | absorbs _ hk' _ _ =>
    rw [hk] at hk'
    cases hk'
  | passes h =>
    obtain ⟨x', y', q', _, hin', hout', hx', hy'⟩ := h
    rw [hin, List.singleton_inj] at hin'
    rw [hout, List.singleton_inj] at hout'
    rw [← hin', hx] at hx'
    rw [hout', hy', hx']
  | restores _ hstay _ _ =>
    rw [hstay.pointwise hk x (by rw [hin]; exact List.mem_singleton_self x)] at hx
    cases hx

end Visited

/-! ## The records of a chain -/

/-- What a sweep that excludes nothing finds in a block, operation by operation. -/
structure Swept (b : Block) (a : Analysis) (pend : ValueId → Option Pending) (f : Operation → Analysis) : Prop where
  sound : b.Sound
  visited : ∀ o ∈ b.operations, Visited b [] pend o (f o)
  steps : a = (Analysis.ofSteps (b.operations.map f)).append { restorations := outputRestorations b pend }
  describes : Describes True a b pend
  seeded : Seeded a pend

theorem exists_swept {b : Block} {a : Analysis} (hs : b.Sound) (har : ∀ o ∈ b.operations, o.FitsArity)
    (ha : analyse b [] = .ok a) : ∃ f, Swept b a (sweptPending b []) f := by
  obtain ⟨f, hf, heq⟩ := analyse_steps hs har ha
  exact ⟨f, hs, hf, heq, analyse_describes hs har ha, analyse_seeded hs har ha⟩

namespace Swept

variable {b : Block} {a : Analysis} {pend : ValueId → Option Pending} {f : Operation → Analysis} {t w : Operation}
  {p : List Nat} {x y : ValueId}

section Records

variable (h : Swept b a pend f)
include h

theorem mem_absorbed {r : Absorbed} : r ∈ a.absorbed ↔ ∃ o ∈ b.operations, r ∈ (f o).absorbed := by
  rw [h.steps]
  exact mem_absorbed_ofVisits

theorem mem_cancellations {c : Cancellation} : c ∈ a.cancellations ↔ ∃ o ∈ b.operations, c ∈ (f o).cancellations := by
  rw [h.steps]
  exact mem_cancellations_ofVisits

theorem mem_restorations {r : Restoration} :
    r ∈ a.restorations ↔ (∃ o ∈ b.operations, r ∈ (f o).restorations) ∨ r ∈ outputRestorations b pend := by
  rw [h.steps]
  exact mem_restorations_ofVisits

end Records

variable (h : Swept b a pend f) (hc : b.Cancelling t w p x y)
include h hc

/-- The first transpose of a chain is a seed. -/
theorem isSeed : (f t).seeds = [t.id] ∧ pend y = some ⟨p, [t.id]⟩ := by
  have hx : pend x = none := by
    rcases hc.source with hx | ⟨o, ho, hx, hk⟩
    · exact h.describes.inputs x hx
    · exact (h.visited o ho).pend_source hk x hx
  exact (h.visited t hc.mem).isSeed hc.kind hc.inputs hc.outputs hx hc.chain.readOnce.2

/-- Where something is pending from the first transpose of a chain, the chain goes by. -/
theorem traced : ∀ v q, pend v = some q → t.id ∈ q.seeds → b.HandsTo w v ∧ q = ⟨p, [t.id]⟩ := by
  -- values are traced back to operands, which are defined earlier
  suffices H : ∀ n v q, b.defined.idxOf v < n → pend v = some q → t.id ∈ q.seeds → b.HandsTo w v ∧ q = ⟨p, [t.id]⟩ from
    fun v q => H _ v q (Nat.lt_succ_self _)
  intro n
  induction n with
  | zero => exact fun v q hv => absurd hv (Nat.not_lt_zero _)
  | succ n ih =>
    intro v q hn hq hseed
    obtain ⟨q', hw, hcancel⟩ := hc.undoes
    have hne : ∀ {o : Operation}, o = w → o.kind.isPointwise = false ∧ o.kind.isTranspose = true := fun he => by
      rw [he, hw]
      exact ⟨rfl, rfl⟩
    rcases Block.mem_defined.1 (h.describes.defined v q hq) with hin | ⟨o, ho, hout⟩
    · rw [h.describes.inputs v hin] at hq
      cases hq
    · have hbefore : ∀ x ∈ o.inputs, b.defined.idxOf x < n := fun x hx =>
        Nat.lt_of_lt_of_le (h.sound.idxOf_lt ho hx hout) (Nat.lt_succ_iff.1 hn)
      rcases (h.visited o ho).origin hout hq with ⟨hov, hk, hs⟩ | ⟨hk, x', hin, hx'⟩ | ⟨_, hk, hk', hseeds⟩
      · rw [hs, List.mem_singleton] at hseed
        have he := h.sound.op_ext hc.mem ho hseed
        subst he
        rw [hc.outputs, List.singleton_inj] at hov
        rw [hc.kind, OpKind.transpose.injEq] at hk
        subst hov hk
        exact ⟨hc.chain, by cases q; cases hs; rfl⟩
      · have hmem : x' ∈ o.inputs := by rw [hin]; exact List.mem_singleton_self x'
        obtain ⟨hchain, he⟩ := ih x' q (hbefore x' hmem) hx' hseed
        rcases hchain.reader hc.mem_last ho hmem with heq | ⟨_, v', hv', hnext⟩
        · rw [(hne heq).1] at hk
          cases hk
        · rw [hv', List.mem_singleton] at hout
          exact ⟨hout ▸ hnext, he⟩
      · obtain ⟨x', hmem, q₁, hx', hs'⟩ := hseeds t.id hseed
        obtain ⟨hchain, _⟩ := ih x' q₁ (hbefore x' hmem) hx' hs'
        rcases hchain.reader hc.mem_last ho hmem with heq | ⟨hp, _⟩
        · rw [(hne heq).2] at hk'
          cases hk'
        · rw [hp] at hk
          cases hk

/-- The last transpose of a chain is recorded as undoing the first. -/
theorem undone : (f w).cancellations = [⟨w.id, [t.id]⟩] := by
  obtain ⟨q, hw, hcancel⟩ := hc.undoes
  have hpend := (h.isSeed hc).2
  have hlast := h.visited w hc.mem_last
  have hchain := hc.chain
  clear hc
  induction hchain with
  | last hin _ => exact hlast.undone hw hin hpend hcancel
  | step ho hk hin hout _ _ ih => exact ih ((h.visited _ ho).handsOn hk hin hout hpend)

/-- What reads a value on which the first transpose of a chain is pending belongs to the chain. -/
theorem reader {o : Operation} (ho : o ∈ b.operations) {v : ValueId} (hv : v ∈ o.inputs) {q : Pending}
    (hq : pend v = some q) (hseed : t.id ∈ q.seeds) : o = w ∨ o.kind.isPointwise := by
  rcases (h.traced hc v q hq hseed).1.reader hc.mem_last ho hv with he | ⟨hk, _⟩
  · exact .inl he
  · exact .inr hk

theorem not_absorbed {r : Absorbed} (hr : r ∈ a.absorbed) : t.id ∉ r.seeds := by
  intro hseed
  obtain ⟨o, ho, hr⟩ := h.mem_absorbed.1 hr
  obtain ⟨_, _, hseeds⟩ := (h.visited o ho).of_absorbed hr
  obtain ⟨v, hv, q, hq, hs⟩ := hseeds t.id hseed
  obtain ⟨hk₁, hk₂⟩ := (h.visited o ho).absorbed_kind hr
  rcases h.reader hc ho hv hq hs with rfl | hk
  · obtain ⟨q', hw, _⟩ := hc.undoes
    rw [hw] at hk₂
    cases hk₂
  · rw [hk] at hk₁
    cases hk₁

theorem not_restored {r : Restoration} (hr : r ∈ a.restorations) : t.id ∉ r.seeds := by
  intro hseed
  rcases h.mem_restorations.1 hr with ⟨o, ho, hr⟩ | hr
  · obtain ⟨hv, hq, _⟩ := (h.visited o ho).restored_eq hr
    rcases h.reader hc ho hv hq hseed with rfl | hk
    · have hmarked := ((h.visited o ho).restored hr).1
      simp [Analysis.marked, Analysis.removed, h.undone hc] at hmarked
    · rw [((h.visited o ho).staysOut hr).pointwise hk _ hv] at hq
      cases hq
  · obtain ⟨hout, hq, _⟩ := mem_outputRestorations.1 hr
    exact (h.traced hc _ _ hq hseed).1.readOnce.2 hout

theorem cancelled_alone {c : Cancellation} (hm : c ∈ a.cancellations) (hseed : t.id ∈ c.seeds) : c.seeds = [t.id] := by
  obtain ⟨o, ho, hm⟩ := h.mem_cancellations.1 hm
  obtain ⟨_, v, _, q, _, _, _, _, hv, _⟩ := (h.visited o ho).of_cancellation hm
  exact congrArg Pending.seeds (h.traced hc v _ hv hseed).2

/-- The first transpose of a chain is linked to no other seed. -/
theorem alone {s : OpId} (hlink : a.Linked t.id s) : s = t.id := by
  have hrecords : ∀ seeds ∈ a.seedSets, t.id ∈ seeds → seeds ⊆ [t.id] := by
    refine forall_seedSets.2 ⟨fun r hr hs => ?_, fun c hm hs => ?_, fun r hr hs => ?_⟩
    · exact absurd hs (h.not_absorbed hc hr)
    · rw [h.cancelled_alone hc hm hs]
      exact List.Subset.refl _
    · exact absurd hs (h.not_restored hc hr)
  cases hlink with
  | record hin ht hs => exact List.mem_singleton.1 (hrecords _ hin ht hs)
  | consumer hr _ _ _ ht _ => exact absurd ht (h.not_restored hc hr)

/-- The first transpose of a chain occurs in a record: the last one undoes it. -/
theorem occurs : a.Occurs t.id := by
  have hmem : (⟨w.id, [t.id]⟩ : Cancellation) ∈ a.cancellations :=
    h.mem_cancellations.2 ⟨w, hc.mem_last, by rw [h.undone hc]; exact List.mem_singleton_self _⟩
  exact ⟨_, cancellations_subset a (List.mem_map_of_mem hmem), List.mem_singleton_self _⟩

/-- The component of a chain is worth while. -/
theorem exists_accepted : ∃ c, c ∈ accepted a := by
  have hgrounded := grounded_of_describes h.describes h.seeded
  obtain ⟨r, hr, hroot, c, hcomp⟩ := hgrounded.exists_component (.refl a.consumers) (h.occurs hc)
  have hin : c ∈ components a a.consumers := mem_components.2 ⟨r, hr, hcomp⟩
  have hpart := isPart_of_mem hgrounded (.refl _) hin
  have hseeds : ∀ id ∈ c.seeds, id = t.id := fun id hid => by
    have hchain := (hgrounded.mem_members_iff (.refl _) hroot (hpart.known hid)).1 ((mem_seeds_of_component? hcomp id).1 hid)
    clear hid
    induction hchain with
    | refl => rfl
    | tail _ hlink ih => exact h.alone hc (ih ▸ hlink)
  obtain ⟨hremoved, hinserted⟩ := component_counts hin
  refine ⟨c, List.mem_filter.2 ⟨hin, ?_⟩⟩
  have hnone : (a.part c).restorations = [] := by
    rw [hpart.restorations, List.filter_eq_nil_iff]
    intro r hr hm
    obtain ⟨id, hid, hids⟩ := meets_iff.1 hm
    rw [hseeds id hids] at hid
    exact h.not_restored hc hr hid
  have hsome : t.id ∈ (a.part c).seeds := (hpart.seeds t.id).2 ((mem_seeds_of_component? hcomp t.id).2 hroot)
  have hpos : 0 < (a.part c).removed.length := by
    rw [Analysis.removed, List.length_append]
    exact Nat.add_pos_left (List.length_pos_of_mem hsome) _
  rw [Component.isProfitable, decide_eq_true_eq, ← hinserted, ← hremoved, hnone]
  exact hpos

end Swept

/-! ## The whole pass -/

/-- **Effect of transpose reduction.** With more rounds than transposes, a run on a well-typed block leaves no transpose of
a source that operations on single elements, and nothing else, carry to a transpose that undoes it. With ids without end,
and constants that have the size of their types and extents that can be multiplied in any order, the run succeeds. -/
theorem reduceTransposes_cancels [IdSpace] {maxRounds : Nat} {b : Block} (hc : b.check = .ok ()) (ht : b.WellTyped)
    (hlt : b.transposes < maxRounds) :
    (∀ r b', reduceTransposes ⟨maxRounds, .fail⟩ Typing.static b = .ok (r, b') →
      ∀ t w p x y, ¬b'.Cancelling t w p x y) ∧
    (IdSpace.Unbounded → (∀ l ∈ b.literals, l.Sized) →
      (∀ l ∈ b.literals, ∀ dims, l.type.extents? = some dims → RowMajor.WordSized dims) →
      ∃ r b', reduceTransposes ⟨maxRounds, .fail⟩ Typing.static b = .ok (r, b')) := by
  refine ⟨fun r b' hrun t w p x y hchain => ?_, fun hids hsized hword => ?_⟩
  · obtain ⟨a, ha, hdone⟩ := reduceTransposes_done hlt hrun
    obtain ⟨hs', har', _⟩ := Block.check_eq_ok.1 (reduceTransposes_check hrun)
    obtain ⟨f, hswept⟩ := exists_swept hs' har' ha
    obtain ⟨c, hmem⟩ := hswept.exists_accepted hchain
    rw [hdone] at hmem
    cases hmem
  · exact (Block.reads_types hc ht).exists_reduction hids Typing.reading_lawful
      (fun l hl => (hsized l hl).movable (hword l hl)) _

/-- Two transposes that cancel out across an operation, the last of which is returned. -/
def roundTrip : Block where
  name := "roundTrip"
  inputs := [⟨0⟩]
  outputs := [⟨3⟩]
  operations := [
    ⟨⟨0⟩, .transpose [1, 0], [⟨0⟩], [⟨1⟩]⟩,
    ⟨⟨1⟩, .unary .relu, [⟨1⟩], [⟨2⟩]⟩,
    ⟨⟨2⟩, .transpose [1, 0], [⟨2⟩], [⟨3⟩]⟩]
  values := [
    ⟨⟨0⟩, "x", ⟨.f32, [.dynamic "n", .fixed 3]⟩⟩,
    ⟨⟨1⟩, "t", ⟨.f32, [.fixed 3, .dynamic "n"]⟩⟩,
    ⟨⟨2⟩, "u", ⟨.f32, [.fixed 3, .dynamic "n"]⟩⟩,
    ⟨⟨3⟩, "y", ⟨.f32, [.dynamic "n", .fixed 3]⟩⟩]

theorem roundTrip_cancels : roundTrip.check = .ok () ∧ roundTrip.WellTyped ∧ roundTrip.transposes < 3 ∧
    roundTrip.Cancelling ⟨⟨0⟩, .transpose [1, 0], [⟨0⟩], [⟨1⟩]⟩ ⟨⟨2⟩, .transpose [1, 0], [⟨2⟩], [⟨3⟩]⟩ [1, 0] ⟨0⟩ ⟨1⟩ ∧
    ∃ r b', reduceTransposes ⟨3, .fail⟩ Typing.static roundTrip = .ok (r, b') ∧
      b'.operations = [⟨⟨1⟩, .unary .relu, [⟨0⟩], [⟨2⟩]⟩] ∧ ∀ t w p x y, ¬b'.Cancelling t w p x y := by
  have hc : roundTrip.check = .ok () := by decide
  have ht : roundTrip.WellTyped := by decide
  have hrun : reduceTransposes ⟨3, .fail⟩ Typing.static roundTrip = .ok (⟨true, 2, 1, 2⟩,
      ⟨"roundTrip", [⟨0⟩], [⟨2⟩], [⟨⟨1⟩, .unary .relu, [⟨0⟩], [⟨2⟩]⟩],
        [⟨⟨0⟩, "x", ⟨.f32, [.dynamic "n", .fixed 3]⟩⟩, ⟨⟨2⟩, "y", ⟨.f32, [.dynamic "n", .fixed 3]⟩⟩]⟩) := by cbv
  have hlast : roundTrip.HandsTo ⟨⟨2⟩, .transpose [1, 0], [⟨2⟩], [⟨3⟩]⟩ ⟨2⟩ := .last rfl ⟨by decide, by decide⟩
  have hchain : roundTrip.HandsTo ⟨⟨2⟩, .transpose [1, 0], [⟨2⟩], [⟨3⟩]⟩ ⟨1⟩ :=
    .step (o := ⟨⟨1⟩, .unary .relu, [⟨1⟩], [⟨2⟩]⟩) (by decide) rfl rfl rfl ⟨by decide, by decide⟩ hlast
  refine ⟨hc, ht, by decide, ⟨by decide, rfl, rfl, rfl, .inl (by decide), hchain, by decide, [1, 0], rfl, by decide⟩,
    _, _, hrun, rfl, (reduceTransposes_cancels hc ht (by decide)).1 _ _ hrun⟩

end Layout

end Relayout
