import Relayout.Proofs.DisjointSets
import Relayout.Proofs.Index
import Relayout.Proofs.Separation
import Relayout.Proofs.Sweeping

/-!
# Components are regions apart

Two seeds are linked if they occur in one record, or in two restorations for one operation (`Analysis.Linked`). Once all
seeds that go together have been united, two of them have one root if and only if a chain of links leads from one to the
other (`united_root_iff`), if all seeds of records are known (`Analysis.Grounded`). So what is pending belongs to one root
only, and so does each record.

A component is the part of the analysis that belongs to a root (`IsPart`, `isPart_of_mem`); it is a region by itself
(`IsPart.describes`), apart from those of other roots (`IsPart.apart`).
-/

namespace Relayout.Layout

open List (range)
open Relation (ReflTransGen)

/-! ## Seeds of records -/

/-- The seed sets of all records. -/
def Analysis.seedSets (a : Analysis) : List Seeds :=
  a.absorbed.map (·.seeds) ++ a.cancellations.map (·.seeds) ++ a.restorations.map (·.seeds)

/-- Records have seeds, and these are known, each of them once. -/
structure Analysis.Grounded (a : Analysis) : Prop where
  once : a.seeds.Nodup
  nonempty : ∀ seeds ∈ a.seedSets, seeds ≠ []
  known : ∀ seeds ∈ a.seedSets, seeds ⊆ a.seeds

/-- Two seeds occur in one record, or in two restorations for one operation. -/
inductive Analysis.Linked (a : Analysis) (s t : OpId) : Prop
  | record {seeds : Seeds} (h : seeds ∈ a.seedSets) (hs : s ∈ seeds) (ht : t ∈ seeds)
  | consumer {r r' : Restoration} {op : OpId} (hr : r ∈ a.restorations) (hr' : r' ∈ a.restorations)
    (h : r.consumer.op? = some op) (h' : r'.consumer.op? = some op) (hs : s ∈ r.seeds) (ht : t ∈ r'.seeds)

section SeedSets

variable {a : Analysis}

theorem absorbed_subset (a : Analysis) : a.absorbed.map (·.seeds) ⊆ a.seedSets :=
  List.subset_append_of_subset_left _ (List.subset_append_left ..)

theorem cancellations_subset (a : Analysis) : a.cancellations.map (·.seeds) ⊆ a.seedSets :=
  List.subset_append_of_subset_left _ (List.subset_append_right ..)

theorem restorations_subset (a : Analysis) : a.restorations.map (·.seeds) ⊆ a.seedSets :=
  List.subset_append_right ..

theorem forall_seedSets {P : Seeds → Prop} : (∀ seeds ∈ a.seedSets, P seeds) ↔ (∀ r ∈ a.absorbed, P r.seeds) ∧
    (∀ c ∈ a.cancellations, P c.seeds) ∧ ∀ r ∈ a.restorations, P r.seeds := by
  rw [Analysis.seedSets, List.forall_mem_append, List.forall_mem_append, List.forall_mem_map, List.forall_mem_map,
    List.forall_mem_map, and_assoc]

theorem Analysis.Grounded.known_of_linked (h : a.Grounded) {s t : OpId} (hst : a.Linked s t) : s ∈ a.seeds ∧ t ∈ a.seeds := by
  cases hst with
  | record hin hs ht => exact ⟨h.known _ hin hs, h.known _ hin ht⟩
  | consumer hr hr' _ _ hs ht =>
    exact ⟨h.known _ (restorations_subset a (List.mem_map_of_mem hr)) hs,
      h.known _ (restorations_subset a (List.mem_map_of_mem hr')) ht⟩

end SeedSets

/-! ## Positions -/

section Positions

variable {a : Analysis} {s : OpId} {i : Nat}

theorem index_eq_some (h : a.seeds.Nodup) : a.index.get? s = some i ↔ a.seeds[i]? = some s := by
  have hnd : (a.seeds.zipIdx.map (·.1)).Nodup := by rwa [List.zipIdx_map_fst]
  refine (Table.get?_foldl_put hnd []).trans ?_
  rw [List.mem_zipIdx_iff_getElem?]
  exact or_iff_left fun hin => by cases hin.2

theorem mem_positions (h : a.seeds.Nodup) {seeds : Seeds} : i ∈ a.positions seeds ↔ ∃ s ∈ seeds, a.seeds[i]? = some s := by
  rw [Analysis.positions, List.mem_filterMap]
  exact exists_congr fun s => and_congr_right fun _ => index_eq_some h

theorem mem_consumers {op : OpId} : op ∈ a.consumers ↔ ∃ r ∈ a.restorations, r.consumer.op? = some op := by
  rw [Analysis.consumers, List.mem_eraseDups, List.mem_filterMap]

end Positions

/-! ## Roots -/

section Roots

variable {a : Analysis} {consumers : List OpId}

/-- The positions of two seeds are in one group if and only if the seeds are linked. -/
theorem meet_iff_linked (h : a.seeds.Nodup) (hperm : consumers.Perm a.consumers) {i j : Nat} :
    UnionFind.Meet (a.groups consumers) i j ↔
      ∃ s t, a.seeds[i]? = some s ∧ a.seeds[j]? = some t ∧ a.Linked s t := by
  have hfor : ∀ {op i}, i ∈ a.positionsFor op ↔
      ∃ r ∈ a.restorations, r.consumer.op? = some op ∧ ∃ s ∈ r.seeds, a.seeds[i]? = some s := by
    intro op i
    simp only [Analysis.positionsFor, List.mem_flatMap, List.mem_filter, beq_iff_eq, mem_positions h, and_assoc]
  constructor
  · rintro ⟨group, hg, hi, hj⟩
    rcases List.mem_append.1 hg with hg | hg
    · obtain ⟨seeds, hseeds, rfl⟩ := List.mem_map.1 hg
      obtain ⟨s, hs, hi⟩ := (mem_positions h).1 hi
      obtain ⟨t, ht, hj⟩ := (mem_positions h).1 hj
      exact ⟨s, t, hi, hj, .record hseeds hs ht⟩
    · obtain ⟨op, _, rfl⟩ := List.mem_map.1 hg
      obtain ⟨r, hr, hop, s, hs, hi⟩ := hfor.1 hi
      obtain ⟨r', hr', hop', t, ht, hj⟩ := hfor.1 hj
      exact ⟨s, t, hi, hj, .consumer hr hr' hop hop' hs ht⟩
  · rintro ⟨s, t, hi, hj, ⟨hseeds, hs, ht⟩ | ⟨hr, hr', hop, hop', hs, ht⟩⟩
    · exact ⟨_, List.mem_append_left _ (List.mem_map_of_mem hseeds), (mem_positions h).2 ⟨s, hs, hi⟩,
        (mem_positions h).2 ⟨t, ht, hj⟩⟩
    · exact ⟨_, List.mem_append_right _ (List.mem_map_of_mem (hperm.mem_iff.2 (mem_consumers.2 ⟨_, hr, hop⟩))),
        hfor.2 ⟨_, hr, hop, s, hs, hi⟩, hfor.2 ⟨_, hr', hop', t, ht, hj⟩⟩

/-- Along a chain of positions, the seeds at them are linked. -/
theorem exists_linked_of_chain (h : a.seeds.Nodup) (hperm : consumers.Perm a.consumers) {i k : Nat} {s : OpId}
    (hi : a.seeds[i]? = some s) (hchain : ReflTransGen (UnionFind.Meet (a.groups consumers)) i k) :
    ∃ t, a.seeds[k]? = some t ∧ ReflTransGen a.Linked s t := by
  induction hchain with
  | refl => exact ⟨s, hi, .refl⟩
  | tail _ hmeet ih =>
    obtain ⟨t, ht, hlinks⟩ := ih
    obtain ⟨t', u, ht', hu, hlink⟩ := (meet_iff_linked h hperm).1 hmeet
    rw [ht, Option.some.injEq] at ht'
    exact ⟨u, hu, hlinks.tail (ht' ▸ hlink)⟩

/-- The positions of linked seeds are connected. -/
theorem chain_of_linked (h : a.Grounded) (hperm : consumers.Perm a.consumers) {i k : Nat} {s t : OpId}
    (hi : a.seeds[i]? = some s) (hlinks : ReflTransGen a.Linked s t) (hk : a.seeds[k]? = some t) :
    ReflTransGen (UnionFind.Meet (a.groups consumers)) i k := by
  induction hlinks generalizing k with
  | refl =>
    rw [(List.getElem?_inj (List.getElem?_eq_some_iff.1 hi).1 h.once).1 (hi.trans hk.symm)]
  | @tail t u _ hlink ih =>
    obtain ⟨j, hj⟩ := List.mem_iff_getElem?.1 (h.known_of_linked hlink).1
    exact (ih hj).tail ((meet_iff_linked h.once hperm).2 ⟨t, u, hj, hk, hlink⟩)

/-- **Roots and chains.** The positions of two seeds have one root if and only if a chain of links leads from one seed to
the other. -/
theorem united_root_iff (h : a.Grounded) (hperm : consumers.Perm a.consumers) {i j : Nat} {s t : OpId}
    (hi : a.seeds[i]? = some s) (hj : a.seeds[j]? = some t) :
    (a.united consumers).root i = (a.united consumers).root j ↔ ReflTransGen a.Linked s t := by
  have hbounds : ∀ group ∈ a.groups consumers, ∀ i ∈ group, i < a.seeds.length := fun group hg i hi => by
    obtain ⟨s, _, hs, _⟩ := (meet_iff_linked h.once hperm).1 ⟨group, hg, hi, hi⟩
    exact (List.getElem?_eq_some_iff.1 hs).1
  refine (UnionFind.same_united hbounds).trans ⟨fun hchain => ?_, fun hlinks => chain_of_linked h hperm hi hlinks hj⟩
  obtain ⟨u, hu, hlinks⟩ := exists_linked_of_chain h.once hperm hi hchain
  rw [hj, Option.some.injEq] at hu
  exact hu ▸ hlinks

/-- Roots do not depend on the order of the consumers. -/
theorem united_root_congr (h : a.Grounded) (hperm : consumers.Perm a.consumers) {i : Nat} (hi : i < a.seeds.length) :
    (a.united consumers).root i = (a.united a.consumers).root i := by
  refine UnionFind.root_eq_of_same (fun i j hi hj => ?_) hi
  have hi := List.getElem?_eq_getElem hi
  have hj := List.getElem?_eq_getElem hj
  exact (united_root_iff h hperm hi hj).trans (united_root_iff h (.refl _) hi hj).symm

end Roots

/-! ## Parts of an analysis -/

/-- A set of seeds has an element among others. -/
def meets (members : List OpId) (seeds : Seeds) : Bool :=
  seeds.any members.contains

theorem meets_iff {members : List OpId} {seeds : Seeds} : meets members seeds ↔ ∃ id ∈ seeds, id ∈ members := by
  simp [meets]

/-- What is pending from some seeds. -/
def restrict (pend : ValueId → Option Pending) (members : List OpId) (v : ValueId) : Option Pending :=
  (pend v).filter fun q => meets members q.seeds

theorem restrict_eq_some {pend : ValueId → Option Pending} {members : List OpId} {v : ValueId} {q : Pending} :
    restrict pend members v = some q ↔ pend v = some q ∧ meets members q.seeds := by
  rw [restrict, Option.filter_eq_some_iff]

theorem restrict_of_none {pend : ValueId → Option Pending} {v : ValueId} (h : pend v = none) (members : List OpId) :
    restrict pend members v = none := by
  rw [restrict, h, Option.filter_none]

theorem restrict_of_not {pend : ValueId → Option Pending} {members : List OpId} {v : ValueId}
    (h : ∀ q, pend v = some q → ¬meets members q.seeds) : restrict pend members v = none := by
  by_contra hne
  obtain ⟨q, hq⟩ := Option.ne_none_iff_exists'.1 hne
  obtain ⟨hp, hm⟩ := restrict_eq_some.1 hq
  exact h q hp hm

/-- The part of an analysis that belongs to a class of seeds. -/
structure IsPart (a : Analysis) (members : List OpId) (part : Analysis) : Prop where
  seeds : ∀ id, id ∈ part.seeds ↔ id ∈ members
  once : part.seeds.Nodup
  known : members ⊆ a.seeds
  absorbed : part.absorbed = a.absorbed.filter (meets members ·.seeds)
  cancellations : part.cancellations = a.cancellations.filter (meets members ·.seeds)
  restorations : part.restorations = a.restorations.filter (meets members ·.seeds)
  closed : ∀ s t, a.Linked s t → s ∈ members → t ∈ members

section Parts

variable {typed : Prop} {a part part' : Analysis} {members members' : List OpId} {b : Block}
  {pend : ValueId → Option Pending}

namespace IsPart

theorem marked_subset (hp : IsPart a members part) : part.marked ⊆ a.marked := by
  intro id hid
  rcases List.mem_append.1 hid with hid | hid
  · rcases List.mem_append.1 hid with hid | hid
    · exact List.mem_append_left _ (List.mem_append_left _ (hp.known ((hp.seeds id).1 hid)))
    · rw [hp.cancellations] at hid
      obtain ⟨c, hc, rfl⟩ := List.mem_map.1 hid
      exact List.mem_append_left _
        (List.mem_append_right _ (List.mem_map_of_mem (f := (·.op)) (List.mem_filter.1 hc).1))
  · rw [hp.absorbed] at hid
    obtain ⟨r, hr, rfl⟩ := List.mem_map.1 hid
    exact List.mem_append_right _ (List.mem_map_of_mem (f := (·.op)) (List.mem_filter.1 hr).1)

theorem mem_restorations (hp : IsPart a members part) {r : Restoration} :
    r ∈ part.restorations ↔ r ∈ a.restorations ∧ meets members r.seeds := by
  rw [hp.restorations, List.mem_filter]

theorem mem_absorbed (hp : IsPart a members part) {r : Absorbed} :
    r ∈ part.absorbed ↔ r ∈ a.absorbed ∧ meets members r.seeds := by
  rw [hp.absorbed, List.mem_filter]

theorem mem_cancellations (hp : IsPart a members part) {c : Cancellation} :
    c ∈ part.cancellations ↔ c ∈ a.cancellations ∧ meets members c.seeds := by
  rw [hp.cancellations, List.mem_filter]

/-- The seeds of an absorbing operation belong to the class if one of them does. -/
theorem absorbed_closed (hp : IsPart a members part) {r : Absorbed} (hr : r ∈ a.absorbed) (hm : meets members r.seeds) :
    r.seeds ⊆ members := by
  obtain ⟨s, hs, hsm⟩ := meets_iff.1 hm
  exact fun t ht => hp.closed s t (.record (absorbed_subset a (List.mem_map_of_mem (f := (·.seeds)) hr)) hs ht) hsm

/-- What is pending belongs to the class if one of its seeds does. -/
theorem pending_closed (hp : IsPart a members part) (hs : Seeded a pend) {v : ValueId} {q : Pending}
    (hq : pend v = some q) (hm : meets members q.seeds) : q.seeds ⊆ members := by
  rcases (hs.values v q hq).2.2 with ⟨id, he⟩ | ⟨r, hr, he⟩
  · obtain ⟨id', hid', hm'⟩ := meets_iff.1 hm
    rw [he] at hid' ⊢
    rw [← List.mem_singleton.1 hid']
    exact List.cons_subset.2 ⟨hm', List.nil_subset _⟩
  · rw [← he] at hm ⊢
    exact hp.absorbed_closed hr hm

theorem absorbs (hp : IsPart a members part) (hs : Seeded a pend) {o : Operation} {r : Absorbed} (hr : r ∈ a.absorbed)
    (hm : meets members r.seeds) (h : Absorbs typed b pend o r) : Absorbs typed b (restrict pend members) o r := by
  obtain ⟨views, p, hviews, habs, hout, hsub⟩ := h
  -- all that is pending on the operands belongs to the class
  have hin : ∀ x ∈ o.inputs, restrict pend members x = pend x := fun x hx => by
    cases hq : pend x with
    | none => exact restrict_of_none hq members
    | some q =>
      obtain ⟨id, hid⟩ := List.exists_mem_of_ne_nil _ (hs.values x q hq).1
      exact restrict_eq_some.2 ⟨hq, meets_iff.2 ⟨id, hid, hp.absorbed_closed hr hm (hsub x hx q hq hid)⟩⟩
  refine ⟨views, p, ?_, habs, fun y hy => ?_, fun x hx q hq => hsub x hx q ((hin x hx).symm.trans hq)⟩
  · rw [List.forall₂_iff_get] at hviews ⊢
    exact ⟨hviews.1, fun i hi hi' => (hviews.2 i hi hi').congr (hin _ (List.get_mem ..))⟩
  · have hy' := hout y hy
    cases hperm : r.absorption.outputPerm with
    | none =>
      rw [hperm] at hy'
      exact restrict_of_none hy' members
    | some p' =>
      rw [hperm] at hy'
      exact restrict_eq_some.2 ⟨hy', hm⟩

/-- An operation with a record of another class is idle for this one. -/
theorem idle_of_marked (hp : IsPart a members part) (hd : Describes typed a b pend) (hb : b.Sound)
    {o : Operation} (ho : o ∈ b.operations) (hid : o.id ∈ a.marked) (hnot : o.id ∉ part.marked) :
    Idle (restrict pend members) o := by
  rcases List.mem_append.1 hid with hid | hid
  · rcases List.mem_append.1 hid with hid | hid
    · obtain ⟨x, y, p, _, hin, hout, hx, hy, _⟩ := hd.isSeed hb ho hid
      refine ⟨fun v hv => ?_, fun v hv => ?_⟩
      · rw [hin, List.mem_singleton] at hv
        exact restrict_of_none (hv ▸ hx) members
      · rw [hout, List.mem_singleton] at hv
        subst hv
        refine restrict_of_not fun q hq hm => hnot ?_
        rw [hy, Option.some.injEq] at hq
        subst hq
        obtain ⟨id, hid', hm⟩ := meets_iff.1 hm
        rw [List.mem_singleton.1 hid'] at hm
        exact List.mem_append_left _ (List.mem_append_left _ ((hp.seeds _).2 hm))
    · obtain ⟨c, hc, he⟩ := List.mem_map.1 hid
      obtain ⟨x, y, p, q, _, hin, hout, hx, _, hy⟩ := hd.isCancellation hb ho hc he
      refine ⟨fun v hv => ?_, fun v hv => ?_⟩
      · rw [hin, List.mem_singleton] at hv
        subst hv
        refine restrict_of_not fun q' hq hm => hnot ?_
        rw [hx, Option.some.injEq] at hq
        subst hq
        have := List.mem_map_of_mem (f := (·.op)) (hp.mem_cancellations.2 ⟨hc, hm⟩)
        exact List.mem_append_left _ (List.mem_append_right _ (he ▸ this))
      · rw [hout, List.mem_singleton] at hv
        exact restrict_of_none (hv ▸ hy) members
  · obtain ⟨r, hr, he⟩ := List.mem_map.1 hid
    obtain ⟨_, _, _, _, hout, hsub⟩ := hd.absorbs hb ho hr he
    have hm : ¬meets members r.seeds := fun hm => by
      have := List.mem_map_of_mem (f := (·.op)) (hp.mem_absorbed.2 ⟨hr, hm⟩)
      exact hnot (List.mem_append_right _ (he ▸ this))
    refine ⟨fun x hx => restrict_of_not fun q hq hmq => hm ?_, fun y hy => restrict_of_not fun q hq hmq => hm ?_⟩
    · obtain ⟨id, hid', hid''⟩ := meets_iff.1 hmq
      exact meets_iff.2 ⟨id, hsub x hx q hq hid', hid''⟩
    · rw [hout y hy, Option.map_eq_some_iff] at hq
      obtain ⟨_, _, rfl⟩ := hq
      exact hmq

/-- What is pending in a part is restored in that part. -/
theorem restoration_mem (hp : IsPart a members part) (hd : Describes typed a b pend) {r : Restoration}
    (hr : r ∈ a.restorations) {q : Pending} (hq : restrict pend members r.value = some q) : r ∈ part.restorations := by
  obtain ⟨hq, hm⟩ := restrict_eq_some.1 hq
  rw [(hd.restorations r hr).1, Option.some.injEq] at hq
  subst hq
  exact hp.mem_restorations.2 ⟨hr, hm⟩

theorem markedOnce (hp : IsPart a members part) (hd : Describes typed a b pend) : part.marked.Nodup := by
  have hnd := hd.markedOnce
  simp only [Analysis.marked, Analysis.removed, List.nodup_append] at hnd ⊢
  obtain ⟨⟨_, hc, hsc⟩, hr, hrest⟩ := hnd
  have hsubc : (part.cancellations.map (·.op)).Sublist (a.cancellations.map (·.op)) := by
    rw [hp.cancellations]
    exact List.filter_sublist.map _
  have hsubr : (part.absorbed.map (·.op)).Sublist (a.absorbed.map (·.op)) := by
    rw [hp.absorbed]
    exact List.filter_sublist.map _
  have hseed : ∀ id ∈ part.seeds, id ∈ a.seeds := fun id hid => hp.known ((hp.seeds id).1 hid)
  refine ⟨⟨hp.once, hc.sublist hsubc, fun id hid id' hid' => hsc id (hseed id hid) id' (hsubc.subset hid')⟩,
    hr.sublist hsubr, fun id hid id' hid' => hrest id ?_ id' (hsubr.subset hid')⟩
  rcases List.mem_append.1 hid with hid | hid
  · exact List.mem_append_left _ (hseed id hid)
  · exact List.mem_append_right _ (hsubc.subset hid)

/-- An operation without a record of this class hands on what is pending of it, or gets it restored. -/
theorem others (hp : IsPart a members part) (hd : Describes typed a b pend) (hb : b.Sound) {o : Operation}
    (ho : o ∈ b.operations) (hid : o.id ∉ part.marked) : Passes (restrict pend members) o ∨
      (∀ x ∈ o.inputs, ∀ q, restrict pend members x = some q → ∃ r ∈ part.restorations, r.value = x ∧
        ∃ slots, r.consumer = .op o.id slots) ∧ ∀ y ∈ o.outputs, restrict pend members y = none := by
  by_cases hmark : o.id ∈ a.marked
  · obtain ⟨hin, hout⟩ := hp.idle_of_marked hd hb ho hmark hid
    exact .inr ⟨fun x hx q hq => absurd hq (by rw [hin x hx]; exact (Option.some_ne_none q).symm), hout⟩
  · rcases hd.others o ho hmark with ⟨x, y, q, hk, hin, hout, hx, hy⟩ | ⟨hin, hout⟩
    · by_cases hm : meets members q.seeds
      · exact .inl ⟨x, y, q, hk, hin, hout, restrict_eq_some.2 ⟨hx, hm⟩, restrict_eq_some.2 ⟨hy, hm⟩⟩
      · refine .inr ⟨fun v hv q' hq' => ?_, fun v hv => restrict_of_not fun q' hq' => ?_⟩
        · rw [hin, List.mem_singleton] at hv
          obtain ⟨hq', hm'⟩ := restrict_eq_some.1 hq'
          rw [hv, hx, Option.some.injEq] at hq'
          exact absurd (hq' ▸ hm') hm
        · rw [hout, List.mem_singleton] at hv
          rw [hv, hy, Option.some.injEq] at hq'
          rw [← hq']
          exact hm
    · refine .inr ⟨fun x hx q hq => ?_, fun y hy => restrict_of_none (hout y hy) members⟩
      obtain ⟨r, hr, rfl, hc⟩ := hin x hx q (restrict_eq_some.1 hq).1
      exact ⟨r, hp.restoration_mem hd hr hq, rfl, hc⟩

/-- A part of an analysis is a region by itself. -/
theorem describes (hp : IsPart a members part) (hd : Describes typed a b pend) (hs : Seeded a pend) (hb : b.Sound) :
    Describes typed part b (restrict pend members) where
  seeds id hid := by
    have hm := (hp.seeds id).1 hid
    obtain ⟨o, ho, rfl, x, y, p, hk, hin, hout, hx, hy, hnot⟩ := hd.seeds id (hp.known hm)
    exact ⟨o, ho, rfl, x, y, p, hk, hin, hout, restrict_of_none hx members,
      restrict_eq_some.2 ⟨hy, meets_iff.2 ⟨o.id, List.mem_singleton_self _, hm⟩⟩, hnot⟩
  cancellations c hc := by
    obtain ⟨hc, hm⟩ := hp.mem_cancellations.1 hc
    obtain ⟨o, ho, he, x, y, p, q, hk, hin, hout, hx, hcancel, hy⟩ := hd.cancellations c hc
    exact ⟨o, ho, he, x, y, p, q, hk, hin, hout, restrict_eq_some.2 ⟨hx, hm⟩, hcancel, restrict_of_none hy members⟩
  absorbed r hr := by
    obtain ⟨hr, hm⟩ := hp.mem_absorbed.1 hr
    obtain ⟨o, ho, he, habs⟩ := hd.absorbed r hr
    exact ⟨o, ho, he, hp.absorbs hs hr hm habs⟩
  restorations r hr := by
    obtain ⟨hr, hm⟩ := hp.mem_restorations.1 hr
    obtain ⟨hpend, hc⟩ := hd.restorations r hr
    refine ⟨restrict_eq_some.2 ⟨hpend, hm⟩, ?_⟩
    cases hcons : r.consumer with
    | op id slots =>
      rw [hcons] at hc
      obtain ⟨o, ho, he, hnot, hin, hslots, hout, hk⟩ := hc
      exact ⟨o, ho, he, fun hid => hnot (hp.marked_subset hid), hin, hslots,
        fun y hy => restrict_of_none (hout y hy) members, hk⟩
    | output slots =>
      rw [hcons] at hc
      exact hc
  others o ho hid := hp.others hd hb ho hid
  outputs v hv q hq := by
    obtain ⟨r, hr, rfl, hc⟩ := hd.outputs v hv q (restrict_eq_some.1 hq).1
    exact ⟨r, hp.restoration_mem hd hr hq, rfl, hc⟩
  inputs v hv := restrict_of_none (hd.inputs v hv) members
  defined v q hq := hd.defined v q (restrict_eq_some.1 hq).1
  markedOnce := hp.markedOnce hd
  restoredOnce := by
    rw [hp.restorations]
    exact hd.restoredOnce.sublist (List.filter_sublist.map _)

/-- No record has seeds of two classes. -/
theorem not_meets (hp : IsPart a members part) (hdisj : ∀ id ∈ members, id ∉ members') {seeds : Seeds}
    (hin : seeds ∈ a.seedSets) (hm : meets members seeds) : ¬meets members' seeds := fun hm' => by
  obtain ⟨s, hs, hsm⟩ := meets_iff.1 hm
  obtain ⟨t, ht, htm⟩ := meets_iff.1 hm'
  exact hdisj t (hp.closed s t (.record hin hs ht) hsm) htm

/-- No operation has records of two classes. -/
theorem marked_disjoint (hp : IsPart a members part) (hp' : IsPart a members' part')
    (hdisj : ∀ id ∈ members, id ∉ members') (hd : Describes typed a b pend) :
    ∀ id ∈ part.marked, id ∉ part'.marked := by
  have hnd := hd.markedOnce
  simp only [Analysis.marked, Analysis.removed, List.nodup_append, List.mem_append] at hnd
  obtain ⟨⟨_, hc, hsc⟩, hr, hrest⟩ := hnd
  have hcancel : ∀ {q : Analysis} {ms : List OpId}, IsPart a ms q → ∀ id ∈ q.cancellations.map (·.op),
      ∃ c ∈ a.cancellations, c.op = id ∧ meets ms c.seeds := fun hq id hid => by
    obtain ⟨c, hc, he⟩ := List.mem_map.1 hid
    exact ⟨c, (hq.mem_cancellations.1 hc).1, he, (hq.mem_cancellations.1 hc).2⟩
  have habsorb : ∀ {q : Analysis} {ms : List OpId}, IsPart a ms q → ∀ id ∈ q.absorbed.map (·.op),
      ∃ r ∈ a.absorbed, r.op = id ∧ meets ms r.seeds := fun hq id hid => by
    obtain ⟨r, hr, he⟩ := List.mem_map.1 hid
    exact ⟨r, (hq.mem_absorbed.1 hr).1, he, (hq.mem_absorbed.1 hr).2⟩
  have hkinds : ∀ {q : Analysis} {ms : List OpId}, IsPart a ms q → ∀ id ∈ q.marked, id ∈ ms ∧ id ∈ a.seeds ∨
      (∃ c ∈ a.cancellations, c.op = id ∧ meets ms c.seeds) ∨ ∃ r ∈ a.absorbed, r.op = id ∧ meets ms r.seeds := by
    intro q ms hq id hid
    simp only [Analysis.marked, Analysis.removed, List.mem_append] at hid
    rcases hid with (hid | hid) | hid
    · have := (hq.seeds id).1 hid
      exact .inl ⟨this, hq.known this⟩
    · exact .inr (.inl (hcancel hq id hid))
    · exact .inr (.inr (habsorb hq id hid))
  intro id hid hid'
  rcases hkinds hp id hid with ⟨hm, hid⟩ | ⟨c, hmem, rfl, hm⟩ | ⟨r, hmem, rfl, hm⟩
  · rcases hkinds hp' id hid' with ⟨hm', _⟩ | ⟨c, hmem', rfl, _⟩ | ⟨r, hmem', rfl, _⟩
    · exact hdisj id hm hm'
    · exact hsc _ hid _ (List.mem_map_of_mem (f := (·.op)) hmem') rfl
    · exact hrest _ (.inl hid) _ (List.mem_map_of_mem (f := (·.op)) hmem') rfl
  · have hin := List.mem_map_of_mem (f := (·.op)) hmem
    rcases hkinds hp' c.op hid' with ⟨_, hid'⟩ | ⟨c', hmem', he, hm'⟩ | ⟨r, hmem', he, _⟩
    · exact hsc _ hid' _ hin rfl
    · rw [List.inj_on_of_nodup_map hc hmem' hmem he] at hm'
      exact hp.not_meets hdisj (cancellations_subset a (List.mem_map_of_mem (f := (·.seeds)) hmem)) hm hm'
    · exact hrest _ (.inr hin) _ (List.mem_map_of_mem (f := (·.op)) hmem') he.symm
  · have hin := List.mem_map_of_mem (f := (·.op)) hmem
    rcases hkinds hp' r.op hid' with ⟨_, hid'⟩ | ⟨c, hmem', he, _⟩ | ⟨r', hmem', he, hm'⟩
    · exact hrest _ (.inl hid') _ hin rfl
    · exact hrest _ (.inr (List.mem_map_of_mem (f := (·.op)) hmem')) _ hin he
    · rw [List.inj_on_of_nodup_map hr hmem' hmem he] at hm'
      exact hp.not_meets hdisj (absorbed_subset a (List.mem_map_of_mem (f := (·.seeds)) hmem)) hm hm'

/-- No operation has operands restored for two classes. -/
theorem consumer_unique (hp : IsPart a members part) (hp' : IsPart a members' part')
    (hdisj : ∀ id ∈ members, id ∉ members') {r r' : Restoration} (hr : r ∈ part.restorations)
    (hr' : r' ∈ part'.restorations) {id : OpId} (h : r.consumer.op? = some id) : r'.consumer.op? ≠ some id := by
  intro h'
  obtain ⟨hr, hm⟩ := hp.mem_restorations.1 hr
  obtain ⟨hr', hm'⟩ := hp'.mem_restorations.1 hr'
  obtain ⟨s, hs, hsm⟩ := meets_iff.1 hm
  obtain ⟨s', hs', hsm'⟩ := meets_iff.1 hm'
  exact hdisj s' (hp.closed s s' (.consumer hr hr' h h' hs hs') hsm) hsm'

theorem consumer_not_marked (hp : IsPart a members part) (hd : Describes typed a b pend) {id : OpId}
    (hid : id ∈ part.restorations.filterMap (·.consumer.op?)) : id ∉ a.marked := by
  obtain ⟨r, hr, hc⟩ := List.mem_filterMap.1 hid
  have hcons := (hd.restorations r (hp.mem_restorations.1 hr).1).2
  cases hrc : r.consumer with
  | op id' slots =>
    rw [hrc] at hc hcons
    obtain ⟨_, _, _, hnot, _⟩ := hcons
    rw [← Option.some.inj hc]
    exact hnot
  | output slots =>
    rw [hrc] at hc
    cases hc

/-- Parts of different classes are apart. -/
theorem apart (hp : IsPart a members part) (hp' : IsPart a members' part') (hdisj : ∀ id ∈ members, id ∉ members')
    (hd : Describes typed a b pend) (hs : Seeded a pend) :
    Apart part (restrict pend members) part' (restrict pend members') where
  values v := by
    by_cases hm : ∃ q, pend v = some q ∧ meets members q.seeds
    · obtain ⟨q, hq, hm⟩ := hm
      refine .inr (restrict_of_not fun q' hq' hm' => ?_)
      rw [hq, Option.some.injEq] at hq'
      subst hq'
      obtain ⟨id, hid, hid'⟩ := meets_iff.1 hm'
      exact hdisj id (hp.pending_closed hs hq hm hid) hid'
    · exact .inl (restrict_of_not fun q hq hmq => hm ⟨q, hq, hmq⟩)
  ops id hid hid' := by
    rcases List.mem_append.1 hid with hid | hid <;> rcases List.mem_append.1 hid' with hid' | hid'
    · exact hp.marked_disjoint hp' hdisj hd id hid hid'
    · exact hp'.consumer_not_marked hd hid' (hp.marked_subset hid)
    · exact hp.consumer_not_marked hd hid (hp'.marked_subset hid')
    · obtain ⟨r, hr, hc⟩ := List.mem_filterMap.1 hid
      obtain ⟨r', hr', hc'⟩ := List.mem_filterMap.1 hid'
      exact hp.consumer_unique hp' hdisj hr hr' hc hc'

end IsPart

end Parts

/-! ## Components -/

section Components

variable {typed : Prop} {a : Analysis} {b : Block} {pend : ValueId → Option Pending}

theorem grounded_of_describes (hd : Describes typed a b pend) (hs : Seeded a pend) : a.Grounded := by
  have hrecords : ∀ seeds ∈ a.seedSets, seeds ≠ [] ∧ seeds ⊆ a.seeds := by
    refine forall_seedSets.2 ⟨hs.absorbed, fun c hc => ?_, fun r hr => ?_⟩
    · obtain ⟨_, _, _, x, _, p, _, _, _, _, hx, _⟩ := hd.cancellations c hc
      exact ⟨(hs.values x _ hx).1, (hs.values x _ hx).2.1⟩
    · have hpend := (hd.restorations r hr).1
      exact ⟨(hs.values _ _ hpend).1, (hs.values _ _ hpend).2.1⟩
  exact ⟨(List.nodup_append.1 (List.nodup_append.1 hd.markedOnce).1).1, fun seeds h => (hrecords seeds h).1,
    fun seeds h => (hrecords seeds h).2⟩

theorem Seeds.insert_sorted {o : OpId} {seeds : Seeds} (h : seeds.Pairwise (·.index < ·.index)) :
    (Seeds.insert o seeds).Pairwise (·.index < ·.index) := by
  induction seeds with
  | nil => exact List.pairwise_singleton _ o
  | cons t seeds ih =>
    rw [List.pairwise_cons] at h
    rw [Seeds.insert]
    split
    · rename_i hlt
      refine List.pairwise_cons.2 ⟨fun u hu => ?_, List.pairwise_cons.2 h⟩
      rcases List.mem_cons.1 hu with rfl | hu
      · exact hlt
      · exact hlt.trans (h.1 u hu)
    · split
      · exact List.pairwise_cons.2 h
      · rename_i hlt hne
        refine List.pairwise_cons.2 ⟨fun u hu => ?_, ih h.2⟩
        rcases Seeds.mem_insert.1 hu with rfl | hu
        · exact lt_of_le_of_ne (Nat.le_of_not_lt hlt) fun he => hne (by cases u; cases t; simp_all)
        · exact h.1 u hu

/-- Sets of seeds are in ascending order. -/
theorem Seeds.ofList_sorted (ids : List OpId) : (ids.foldr Seeds.insert []).Pairwise (·.index < ·.index) := by
  induction ids with
  | nil => exact .nil
  | cons o ids ih => exact Seeds.insert_sorted ih

theorem Seeds.ofList_nodup (ids : List OpId) : (ids.foldr Seeds.insert []).Nodup :=
  (Seeds.ofList_sorted ids).imp fun hlt he => absurd (he ▸ hlt) (Nat.lt_irrefl _)

/-! ### Components of roots -/

/-- The seeds of a root. -/
def Analysis.members (a : Analysis) (root : Nat → Nat) (r : Nat) : List OpId :=
  (a.seeds.zip ((range a.seeds.length).map root)).filterMap fun (seed, other) => if other = r then some seed else none

/-- The root of the first known seed of a record. -/
def Analysis.rootOf? (a : Analysis) (root : Nat → Nat) (seeds : Seeds) : Option Nat :=
  (a.positions seeds).head?.map root

/-- The component of a root, if any record belongs to it. -/
def Analysis.component? (a : Analysis) (root : Nat → Nat) (r : Nat) : Option Component :=
  let records := fun (sets : List Seeds) => Analysis.withRoot r (sets.map (a.rootOf? root))
  let c : Component :=
    ⟨(a.members root r).foldr Seeds.insert [], records (a.absorbed.map (·.seeds)),
      records (a.cancellations.map (·.seeds)), records (a.restorations.map (·.seeds))⟩
  if c.absorbed.isEmpty && c.cancellations.isEmpty && c.restorations.isEmpty then none else some c

theorem run_rootOf (a : Analysis) {u v : UnionFind} (hv : u.Alike v) (seeds : Seeds) :
    ((a.rootOf seeds).run v).1 = a.rootOf? u.root seeds ∧ u.Alike ((a.rootOf seeds).run v).2 := by
  rw [Analysis.rootOf, Analysis.rootOf?]
  cases a.positions seeds with
  | nil => exact ⟨rfl, hv⟩
  | cons i rest =>
    obtain ⟨hroot, halike⟩ := v.find_spec i
    exact ⟨congrArg some (hroot.trans (hv.root i)), hv.trans halike⟩

/-- The searches of a collection find the roots that there are. -/
theorem components_eq (a : Analysis) (consumers : List OpId) :
    components a consumers = (range a.seeds.length).filterMap (a.component? (a.united consumers).root) := by
  rw [components]
  generalize a.united consumers = u
  have hrecords : ∀ (sets : List Seeds) {v : UnionFind}, u.Alike v →
      ((sets.mapM a.rootOf).run v).1 = sets.map (a.rootOf? u.root) ∧ u.Alike ((sets.mapM a.rootOf).run v).2 :=
    fun sets => UnionFind.run_mapM (fun seeds v hv => run_rootOf a hv seeds) sets
  have hfind : ∀ i v, u.Alike v → (v.find i).1 = u.root i ∧ u.Alike (v.find i).2 := fun i v hv =>
    ⟨(v.find_spec i).1.trans (hv.root i), hv.trans (v.find_spec i).2⟩
  obtain ⟨habsorbed, h₁⟩ := hrecords (a.absorbed.map (·.seeds)) (.refl u)
  obtain ⟨hcancellations, h₂⟩ := hrecords (a.cancellations.map (·.seeds)) h₁
  obtain ⟨hrestorations, h₃⟩ := hrecords (a.restorations.map (·.seeds)) h₂
  obtain ⟨hroots, _⟩ := UnionFind.run_mapM (f := UnionFind.find) hfind (range a.seeds.length) h₃
  simp only [Analysis.collect, StateT.run_bind, StateT.run_pure]
  change List.filterMap _ (range a.seeds.length) = _
  rw [habsorbed, hcancellations, hrestorations, hroots]
  rfl

section Root

variable {root : Nat → Nat} {r : Nat} {c : Component}

theorem component?_eq_some : a.component? root r = some c ↔
    c = ⟨(a.members root r).foldr Seeds.insert [],
      Analysis.withRoot r ((a.absorbed.map (·.seeds)).map (a.rootOf? root)),
      Analysis.withRoot r ((a.cancellations.map (·.seeds)).map (a.rootOf? root)),
      Analysis.withRoot r ((a.restorations.map (·.seeds)).map (a.rootOf? root))⟩ ∧
        (c.absorbed ≠ [] ∨ c.cancellations ≠ [] ∨ c.restorations ≠ []) := by
  rw [Analysis.component?]
  dsimp only
  split
  · rename_i hnone
    simp only [Bool.and_eq_true, List.isEmpty_iff] at hnone
    simp only [reduceCtorEq, false_iff, not_and]
    rintro rfl
    simp only [not_or, not_not]
    exact ⟨hnone.1.1, hnone.1.2, hnone.2⟩
  · rename_i hsome
    simp only [Bool.and_eq_true, List.isEmpty_iff, not_and_or, or_assoc] at hsome
    rw [Option.some.injEq]
    constructor
    · rintro rfl
      exact ⟨rfl, hsome⟩
    · exact fun h => h.1.symm

theorem mem_members {s : OpId} : s ∈ a.members root r ↔ ∃ i, a.seeds[i]? = some s ∧ root i = r := by
  rw [Analysis.members, List.mem_filterMap]
  constructor
  · rintro ⟨⟨seed, other⟩, he, heq⟩
    obtain ⟨i, hi⟩ := List.mem_iff_getElem?.1 he
    rw [List.getElem?_zip_eq_some, List.getElem?_map, Option.map_eq_some_iff] at hi
    obtain ⟨hseed, j, hj, rfl⟩ := hi
    rw [List.getElem?_range (List.getElem?_eq_some_iff.1 hseed).1, Option.some.injEq] at hj
    rw [Option.ite_none_right_eq_some, Option.some.injEq] at heq
    exact ⟨i, heq.2 ▸ hseed, hj ▸ heq.1⟩
  · rintro ⟨i, hi, hroot⟩
    refine ⟨(s, root i), List.mem_iff_getElem?.2 ⟨i, ?_⟩, by simp [hroot]⟩
    rw [List.getElem?_zip_eq_some, List.getElem?_map, List.getElem?_range (List.getElem?_eq_some_iff.1 hi).1]
    exact ⟨hi, rfl⟩

theorem mem_seeds_of_component? (hc : a.component? root r = some c) (id : OpId) :
    id ∈ c.seeds ↔ id ∈ a.members root r := by
  rw [(component?_eq_some.1 hc).1]
  exact Seeds.mem_ofList

/-- A seed has one root only. -/
theorem root_unique (h : a.Grounded) {r' : Nat} {s : OpId} (hs : s ∈ a.members root r) (hs' : s ∈ a.members root r') :
    r = r' := by
  obtain ⟨i, hi, rfl⟩ := mem_members.1 hs
  obtain ⟨j, hj, rfl⟩ := mem_members.1 hs'
  rw [(List.getElem?_inj (List.getElem?_eq_some_iff.1 hi).1 h.once).1 (hi.trans hj.symm)]

theorem withRoot_eq_filter (r : Nat) (roots : List (Option Nat)) :
    Analysis.withRoot r roots = (range roots.length).filter fun i => roots.getD i none = some r := by
  rw [Analysis.withRoot, Perm.zipIdx_eq_map roots none, List.filterMap_map, ← List.filterMap_eq_filter]
  refine List.filterMap_congr fun i _ => ?_
  simp [Option.guard]

theorem mem_withRoot {roots : List (Option Nat)} {i : Nat} :
    i ∈ Analysis.withRoot r roots ↔ roots[i]? = some (some r) := by
  rw [withRoot_eq_filter, List.mem_filter, List.mem_range, decide_eq_true_iff, List.getD_eq_getElem?_getD]
  constructor
  · rintro ⟨hi, h⟩
    rw [List.getElem?_eq_getElem hi] at h ⊢
    exact congrArg some h
  · intro h
    exact ⟨(List.getElem?_eq_some_iff.1 h).1, by rw [h]; rfl⟩

/-- The entries of a list at the positions of a root. -/
theorem select_withRoot {α : Type} (r : Nat) (f : α → Option Nat) (xs : List α) :
    select xs (Analysis.withRoot r (xs.map f)) = xs.filter fun x => f x = some r := by
  have key : ∀ pre ys : List α, select (pre ++ ys) (((ys.map f).zipIdx pre.length).filterMap fun e =>
      if e.1 = some r then some e.2 else none) = ys.filter fun x => f x = some r := by
    intro pre ys
    induction ys generalizing pre with
    | nil => rfl
    | cons y ys ih =>
      have htail := ih (pre ++ [y])
      rw [List.append_assoc, List.singleton_append, List.length_append, List.length_singleton] at htail
      rw [List.map_cons, List.zipIdx_cons, List.filterMap_cons, List.filter_cons]
      by_cases hc : f y = some r
      · simp only [hc, if_true, decide_true]
        rw [← htail, select, List.filterMap_cons]
        simp [select]
      · simp only [hc, if_false, decide_false]
        exact htail
  exact key [] xs

end Root

section United

variable {consumers : List OpId} {r : Nat} {c : Component} (h : a.Grounded) (hperm : consumers.Perm a.consumers)

include h hperm

theorem members_closed {s t : OpId} (hlink : a.Linked s t) (hs : s ∈ a.members (a.united consumers).root r) :
    t ∈ a.members (a.united consumers).root r := by
  obtain ⟨i, hi, hroot⟩ := mem_members.1 hs
  obtain ⟨j, hj⟩ := List.mem_iff_getElem?.1 (h.known_of_linked hlink).2
  exact mem_members.2 ⟨j, hj, ((united_root_iff h hperm hi hj).2 (.single hlink)).symm.trans hroot⟩

/-- The first seed of a record decides, as all of them have one root. -/
theorem rootOf?_eq_some {seeds : Seeds} (hin : seeds ∈ a.seedSets) :
    a.rootOf? (a.united consumers).root seeds = some r ↔ meets (a.members (a.united consumers).root r) seeds := by
  cases hseeds : seeds with
  | nil => exact absurd hseeds (h.nonempty seeds hin)
  | cons s rest =>
    rw [hseeds] at hin
    obtain ⟨i, hi⟩ := List.mem_iff_getElem?.1 (h.known _ hin List.mem_cons_self)
    have hpos : a.positions (s :: rest) = i :: a.positions rest :=
      List.filterMap_cons_some ((index_eq_some h.once).2 hi)
    rw [Analysis.rootOf?, hpos, List.head?_cons, Option.map_some, Option.some.injEq, meets_iff]
    constructor
    · exact fun hroot => ⟨s, List.mem_cons_self, mem_members.2 ⟨i, hi, hroot⟩⟩
    · rintro ⟨t, ht, htm⟩
      have hs := members_closed h hperm (.record hin ht List.mem_cons_self) htm
      exact root_unique h (mem_members.2 ⟨i, hi, rfl⟩) hs

/-- The component of a root is its part of the analysis. -/
theorem isPart_of_component? (hc : a.component? (a.united consumers).root r = some c) : IsPart a c.seeds (a.part c) := by
  have hmem := mem_seeds_of_component? hc
  have hmeets : ∀ g, meets c.seeds g = meets (a.members (a.united consumers).root r) g := fun g => by
    rw [Bool.eq_iff_iff, meets_iff, meets_iff]
    simp only [hmem]
  have hrecords : ∀ {α : Type} (f : α → Seeds) (xs : List α), (∀ x ∈ xs, f x ∈ a.seedSets) →
      select xs (Analysis.withRoot r ((xs.map f).map (a.rootOf? (a.united consumers).root))) =
        xs.filter fun x => meets (a.members (a.united consumers).root r) (f x) := fun f xs hxs => by
    rw [List.map_map, select_withRoot]
    refine List.filter_congr fun x hx => ?_
    rw [Bool.eq_iff_iff, decide_eq_true_iff]
    exact rootOf?_eq_some h hperm (hxs x hx)
  obtain ⟨heq, _⟩ := component?_eq_some.1 hc
  refine ⟨fun _ => Iff.rfl, ?_, fun id hid => ?_, ?_, ?_, ?_, fun s t hlink hs => ?_⟩
  · rw [Analysis.part, heq]
    exact Seeds.ofList_nodup _
  · obtain ⟨i, hi, _⟩ := mem_members.1 ((hmem id).1 hid)
    exact List.mem_of_getElem? hi
  · simp only [Analysis.part, hmeets]
    rw [heq]
    exact hrecords _ _ fun x hx => absorbed_subset a (List.mem_map_of_mem (f := (·.seeds)) hx)
  · simp only [Analysis.part, hmeets]
    rw [heq]
    exact hrecords _ _ fun x hx => cancellations_subset a (List.mem_map_of_mem hx)
  · simp only [Analysis.part, Analysis.restorationsOf, hmeets]
    rw [heq]
    exact hrecords _ _ fun x hx => restorations_subset a (List.mem_map_of_mem hx)
  · exact (hmem t).2 (members_closed h hperm hlink ((hmem s).1 hs))

/-- Components are parts of the analysis. -/
theorem isPart_of_mem (hc : c ∈ components a consumers) : IsPart a c.seeds (a.part c) := by
  rw [components_eq] at hc
  obtain ⟨r, _, hc⟩ := List.mem_filterMap.1 hc
  exact isPart_of_component? h hperm hc

end United

/-- Different components have different seeds. -/
theorem components_disjoint (h : a.Grounded) (consumers : List OpId) :
    (components a consumers).Pairwise fun c c' => ∀ id ∈ c.seeds, id ∉ c'.seeds := by
  rw [components_eq, List.pairwise_filterMap]
  refine List.nodup_range.imp fun {r r'} hne c hc c' hc' id hid hid' => hne ?_
  rw [mem_seeds_of_component? hc] at hid
  rw [mem_seeds_of_component? hc'] at hid'
  exact root_unique h hid hid'

theorem length_select_withRoot {α : Type} (r : Nat) (f : α → Option Nat) (xs : List α) :
    (select xs (Analysis.withRoot r (xs.map f))).length = (Analysis.withRoot r (xs.map f)).length := by
  rw [select, List.length_filterMap_eq_countP, List.countP_eq_length]
  intro i hi
  have hlt := (List.getElem?_eq_some_iff.1 (mem_withRoot.1 hi)).1
  rw [List.length_map] at hlt
  rw [List.getElem?_eq_getElem hlt]
  rfl

/-- The numbers of transposes that a component takes away and brings in are those of its records. -/
theorem component_counts {consumers : List OpId} {c : Component} (hc : c ∈ components a consumers) :
    (a.part c).removed.length = c.removed ∧ (a.part c).restorations.length = c.inserted := by
  rw [components_eq] at hc
  obtain ⟨r, _, hc⟩ := List.mem_filterMap.1 hc
  obtain ⟨heq, _⟩ := component?_eq_some.1 hc
  subst heq
  simp only [List.map_map]
  refine ⟨?_, length_select_withRoot ..⟩
  rw [Analysis.removed, List.length_append, List.length_map]
  exact congrArg (_ + ·) (length_select_withRoot ..)

end Components

end Relayout.Layout
