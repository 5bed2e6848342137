import Relayout.Proofs.Components

/-!
# Components are connected

Chains of links split the seeds that occur in records, and `components` gives the parts, with every record in the part of
its seeds and parts in the order of their earliest seeds (`components_connected`): a root is the earliest position of its
seeds. The order in which the consumers of restorations come does not matter, as roots do not depend on it.
-/

namespace Relayout.Layout

open List (range)
open Relation (ReflTransGen)

/-- The seed occurs in a record. -/
def Analysis.Occurs (a : Analysis) (s : OpId) : Prop :=
  ∃ seeds ∈ a.seedSets, s ∈ seeds

/-- Every record of one sort has one place, in a component that has its seeds. -/
structure Placed (cs : List Component) (positions : Component → List Nat) (sets : List Seeds) : Prop where
  once : (cs.flatMap positions).Perm (range sets.length)
  seeds : ∀ c ∈ cs, ∀ i ∈ positions c, ∀ seeds, sets[i]? = some seeds → seeds ⊆ c.seeds

/-- The records and their seeds, split along chains of links. -/
structure Analysis.SplitsInto (a : Analysis) (cs : List Component) : Prop where
  absorbed : Placed cs (·.absorbed) (a.absorbed.map (·.seeds))
  cancellations : Placed cs (·.cancellations) (a.cancellations.map (·.seeds))
  restorations : Placed cs (·.restorations) (a.restorations.map (·.seeds))
  disjoint : cs.Pairwise fun c c' => ∀ id ∈ c.seeds, id ∉ c'.seeds
  occurring : ∀ s, (∃ c ∈ cs, s ∈ c.seeds) ↔ a.Occurs s
  chains : ∀ s t, a.Occurs s → a.Occurs t →
    ((∃ c ∈ cs, s ∈ c.seeds ∧ t ∈ c.seeds) ↔ ReflTransGen a.Linked s t)
  ordered : cs.Pairwise fun c c' => a.seeds.findIdx c.seeds.contains < a.seeds.findIdx c'.seeds.contains

variable {a : Analysis} {consumers : List OpId} {s t : OpId} {r : Nat} {c : Component}

/-! ## The component of a root -/

theorem mem_components : c ∈ components a consumers ↔
    ∃ r < a.seeds.length, a.component? (a.united consumers).root r = some c := by
  rw [components_eq, List.mem_filterMap]
  simp only [List.mem_range]

/-- The positions that a component takes are those of the records of its root. -/
structure TakesRecords (a : Analysis) (positions : Component → List Nat) (sets : List Seeds) : Prop where
  subset : sets ⊆ a.seedSets
  eq : ∀ root r c, a.component? root r = some c → positions c = Analysis.withRoot r (sets.map (a.rootOf? root))

theorem takesRecords_absorbed (a : Analysis) : TakesRecords a (·.absorbed) (a.absorbed.map (·.seeds)) :=
  ⟨absorbed_subset a, fun _ _ _ hc => by rw [(component?_eq_some.1 hc).1]⟩

theorem takesRecords_cancellations (a : Analysis) : TakesRecords a (·.cancellations) (a.cancellations.map (·.seeds)) :=
  ⟨cancellations_subset a, fun _ _ _ hc => by rw [(component?_eq_some.1 hc).1]⟩

theorem takesRecords_restorations (a : Analysis) : TakesRecords a (·.restorations) (a.restorations.map (·.seeds)) :=
  ⟨restorations_subset a, fun _ _ _ hc => by rw [(component?_eq_some.1 hc).1]⟩

namespace Analysis.Grounded

variable (h : a.Grounded) (hperm : consumers.Perm a.consumers)

include h hperm

/-- A record has its place in the component of a root if and only if it has a seed there. -/
theorem mem_positions_iff {positions : Component → List Nat} {sets : List Seeds} (htakes : TakesRecords a positions sets)
    (hc : a.component? (a.united consumers).root r = some c) {i : Nat} :
    i ∈ positions c ↔ ∃ seeds, sets[i]? = some seeds ∧ meets (a.members (a.united consumers).root r) seeds := by
  rw [htakes.eq _ _ _ hc, mem_withRoot, List.getElem?_map, Option.map_eq_some_iff]
  refine exists_congr fun seeds => and_congr_right fun hget => ?_
  exact rootOf?_eq_some h hperm (htakes.subset (List.mem_of_getElem? hget))

/-- A component has a record, with a seed of its root. -/
theorem exists_record (hc : a.component? (a.united consumers).root r = some c) :
    ∃ seeds ∈ a.seedSets, meets (a.members (a.united consumers).root r) seeds := by
  have htakes : ∀ {positions : Component → List Nat} {sets : List Seeds}, TakesRecords a positions sets →
      positions c ≠ [] → ∃ seeds ∈ a.seedSets, meets (a.members (a.united consumers).root r) seeds := by
    intro positions sets htakes hne
    obtain ⟨i, hi⟩ := List.exists_mem_of_ne_nil _ hne
    obtain ⟨seeds, hget, hmeets⟩ := (h.mem_positions_iff hperm htakes hc).1 hi
    exact ⟨seeds, htakes.subset (List.mem_of_getElem? hget), hmeets⟩
  rcases (component?_eq_some.1 hc).2 with hne | hne | hne
  · exact htakes (takesRecords_absorbed a) hne
  · exact htakes (takesRecords_cancellations a) hne
  · exact htakes (takesRecords_restorations a) hne

/-- The root of a seed that occurs in a record has a component. -/
theorem exists_component (hoccurs : a.Occurs s) : ∃ r < a.seeds.length, s ∈ a.members (a.united consumers).root r ∧
    ∃ c, a.component? (a.united consumers).root r = some c := by
  obtain ⟨seeds, hseeds, hs⟩ := hoccurs
  obtain ⟨i, hi⟩ := List.mem_iff_getElem?.1 (h.known seeds hseeds hs)
  have hmem : s ∈ a.members (a.united consumers).root ((a.united consumers).root i) := mem_members.2 ⟨i, hi, rfl⟩
  refine ⟨_, ((a.united consumers).root_le i).trans_lt (List.getElem?_eq_some_iff.1 hi).1, hmem, ?_⟩
  -- a list of records that has this one is not empty
  have hne : ∀ {sets : List Seeds}, sets ⊆ a.seedSets → seeds ∈ sets →
      Analysis.withRoot ((a.united consumers).root i) (sets.map (a.rootOf? (a.united consumers).root)) ≠ [] := by
    intro sets hsub hin
    obtain ⟨j, hj⟩ := List.mem_iff_getElem?.1 hin
    have hroot := (rootOf?_eq_some h hperm (hsub hin)).2 (meets_iff.2 ⟨s, hs, hmem⟩)
    have hj' : (sets.map (a.rootOf? (a.united consumers).root))[j]? = some (some ((a.united consumers).root i)) := by
      rw [List.getElem?_map, hj, Option.map_some, hroot]
    exact List.ne_nil_of_mem (mem_withRoot.2 hj')
  rcases List.mem_append.1 hseeds with hin | hin
  · rcases List.mem_append.1 hin with hin | hin
    · exact ⟨_, component?_eq_some.2 ⟨rfl, .inl (hne (absorbed_subset a) hin)⟩⟩
    · exact ⟨_, component?_eq_some.2 ⟨rfl, .inr (.inl (hne (cancellations_subset a) hin))⟩⟩
  · exact ⟨_, component?_eq_some.2 ⟨rfl, .inr (.inr (hne (restorations_subset a) hin))⟩⟩

/-- Two seeds have one root if and only if a chain of links connects them. -/
theorem mem_members_iff (hs : s ∈ a.members (a.united consumers).root r) (ht : t ∈ a.seeds) :
    t ∈ a.members (a.united consumers).root r ↔ ReflTransGen a.Linked s t := by
  obtain ⟨i, hi, rfl⟩ := mem_members.1 hs
  obtain ⟨j, hj⟩ := List.mem_iff_getElem?.1 ht
  rw [← united_root_iff h hperm hi hj]
  constructor
  · exact fun ht => root_unique h ht (mem_members.2 ⟨j, hj, rfl⟩)
  · exact fun hroot => mem_members.2 ⟨j, hj, hroot.symm⟩

/-- A component has the seeds that occur in records only: the others are not linked to any. -/
theorem occurs_of_mem (hc : c ∈ components a consumers) (hs : s ∈ c.seeds) : a.Occurs s := by
  obtain ⟨r, _, hc⟩ := mem_components.1 hc
  rw [mem_seeds_of_component? hc] at hs
  obtain ⟨seeds, hseeds, hmeets⟩ := h.exists_record hperm hc
  obtain ⟨t, ht, htm⟩ := meets_iff.1 hmeets
  have hchain := (h.mem_members_iff hperm hs (h.known seeds hseeds ht)).1 htm
  rcases hchain.cases_head with rfl | ⟨u, hlink, _⟩
  · exact ⟨seeds, hseeds, ht⟩
  · cases hlink with
    | record hin hs' _ => exact ⟨_, hin, hs'⟩
    | consumer hr _ _ _ hs' _ => exact ⟨_, restorations_subset a (List.mem_map_of_mem hr), hs'⟩

/-- Records have one place each. -/
theorem placed {positions : Component → List Nat} {sets : List Seeds} (htakes : TakesRecords a positions sets) :
    Placed (components a consumers) positions sets := by
  have hget : ∀ c ∈ components a consumers, ∀ i ∈ positions c, ∃ seeds, sets[i]? = some seeds ∧ seeds ⊆ c.seeds := by
    intro c hc i hi
    obtain ⟨r, _, hc⟩ := mem_components.1 hc
    obtain ⟨seeds, hget, hmeets⟩ := (h.mem_positions_iff hperm htakes hc).1 hi
    obtain ⟨s, hs, hsm⟩ := meets_iff.1 hmeets
    refine ⟨seeds, hget, fun t ht => (mem_seeds_of_component? hc t).2 ?_⟩
    exact members_closed h hperm (.record (htakes.subset (List.mem_of_getElem? hget)) hs ht) hsm
  have hnd : ((components a consumers).flatMap positions).Nodup := by
    refine List.nodup_flatMap.2 ⟨fun c hc => ?_, (components_disjoint h consumers).imp_of_mem fun {c c'} hc hc' hdisj => ?_⟩
    · obtain ⟨r, _, hc⟩ := mem_components.1 hc
      rw [htakes.eq _ _ _ hc, withRoot_eq_filter]
      exact List.nodup_range.filter _
    · intro i hi hi'
      obtain ⟨seeds, hseeds, hsub⟩ := hget c hc i hi
      obtain ⟨seeds', hseeds', hsub'⟩ := hget c' hc' i hi'
      rw [hseeds, Option.some.injEq] at hseeds'
      obtain ⟨s, hs⟩ := List.exists_mem_of_ne_nil _ (h.nonempty seeds (htakes.subset (List.mem_of_getElem? hseeds)))
      exact hdisj s (hsub hs) (hsub' (hseeds' ▸ hs))
  refine ⟨?_, fun c hc i hi seeds hseeds => ?_⟩
  · rw [List.perm_ext_iff_of_nodup hnd List.nodup_range]
    intro i
    rw [List.mem_flatMap, List.mem_range]
    constructor
    · rintro ⟨c, hc, hi⟩
      obtain ⟨seeds, hseeds, _⟩ := hget c hc i hi
      exact (List.getElem?_eq_some_iff.1 hseeds).1
    · intro hi
      have hin := htakes.subset (List.getElem_mem hi)
      obtain ⟨s, hs⟩ := List.exists_mem_of_ne_nil _ (h.nonempty _ hin)
      obtain ⟨r, hr, hsm, c, hc⟩ := h.exists_component hperm ⟨_, hin, hs⟩
      refine ⟨c, mem_components.2 ⟨r, hr, hc⟩, (h.mem_positions_iff hperm htakes hc).2 ⟨_, List.getElem?_eq_getElem hi, ?_⟩⟩
      exact meets_iff.2 ⟨s, hs, hsm⟩
  · obtain ⟨seeds', hseeds', hsub⟩ := hget c hc i hi
    rw [hseeds, Option.some.injEq] at hseeds'
    exact hseeds' ▸ hsub

/-- The earliest seed of a component is at the position of its root. -/
theorem findIdx_seeds (hc : a.component? (a.united consumers).root r = some c) : a.seeds.findIdx c.seeds.contains = r := by
  obtain ⟨_, _, hmeets⟩ := h.exists_record hperm hc
  obtain ⟨s, _, hs⟩ := meets_iff.1 hmeets
  obtain ⟨i, hi, rfl⟩ := mem_members.1 hs
  have hlt := ((a.united consumers).root_le i).trans_lt (List.getElem?_eq_some_iff.1 hi).1
  rw [List.findIdx_eq hlt, List.contains_iff_mem, mem_seeds_of_component? hc]
  refine ⟨mem_members.2 ⟨_, List.getElem?_eq_getElem hlt, UnionFind.root_root ..⟩, fun j hj => ?_⟩
  rw [Bool.eq_false_iff, ne_eq, List.contains_iff_mem, mem_seeds_of_component? hc]
  intro hin
  have hjlt : j < a.seeds.length := hj.trans hlt
  have hroot := root_unique h hin (mem_members.2 ⟨j, List.getElem?_eq_getElem hjlt, rfl⟩)
  exact absurd hj (not_lt.2 (hroot ▸ (a.united consumers).root_le j))

theorem splitsInto : a.SplitsInto (components a consumers) where
  absorbed := h.placed hperm (takesRecords_absorbed a)
  cancellations := h.placed hperm (takesRecords_cancellations a)
  restorations := h.placed hperm (takesRecords_restorations a)
  disjoint := components_disjoint h consumers
  occurring s := by
    constructor
    · rintro ⟨c, hc, hs⟩
      exact h.occurs_of_mem hperm hc hs
    · intro hoccurs
      obtain ⟨r, hr, hs, c, hc⟩ := h.exists_component hperm hoccurs
      exact ⟨c, mem_components.2 ⟨r, hr, hc⟩, (mem_seeds_of_component? hc s).2 hs⟩
  chains s t hs ht := by
    obtain ⟨seeds, hseeds, hts⟩ := ht
    have ht := h.known seeds hseeds hts
    constructor
    · rintro ⟨c, hc, hs, ht'⟩
      obtain ⟨r, _, hc⟩ := mem_components.1 hc
      rw [mem_seeds_of_component? hc] at hs ht'
      exact (h.mem_members_iff hperm hs ht).1 ht'
    · intro hchain
      obtain ⟨r, hr, hs, c, hc⟩ := h.exists_component hperm hs
      exact ⟨c, mem_components.2 ⟨r, hr, hc⟩, (mem_seeds_of_component? hc s).2 hs,
        (mem_seeds_of_component? hc t).2 ((h.mem_members_iff hperm hs ht).2 hchain)⟩
  ordered := by
    rw [components_eq, List.pairwise_filterMap]
    refine List.pairwise_lt_range.imp fun {r r'} hlt c hc c' hc' => ?_
    rw [h.findIdx_seeds hperm hc, h.findIdx_seeds hperm hc']
    exact hlt

/-- The order in which consumers come does not matter. -/
theorem components_congr : components a consumers = components a a.consumers := by
  have hroot := fun i (hi : i < a.seeds.length) => united_root_congr h hperm hi
  have hmembers : a.members (a.united consumers).root = a.members (a.united a.consumers).root := by
    funext r
    rw [Analysis.members, Analysis.members, List.map_congr_left fun i hi => hroot i (List.mem_range.1 hi)]
  have hrootOf : a.rootOf? (a.united consumers).root = a.rootOf? (a.united a.consumers).root := by
    funext seeds
    refine Option.map_congr fun i hi => hroot i ?_
    obtain ⟨s, _, hs⟩ := (mem_positions h.once).1 (List.mem_of_mem_head? hi)
    exact (List.getElem?_eq_some_iff.1 hs).1
  rw [components_eq, components_eq]
  refine List.filterMap_congr fun r _ => ?_
  rw [Analysis.component?, Analysis.component?, hmembers, hrootOf]

end Analysis.Grounded

/-- Components are the classes of seeds that chains of links connect, with their records, in the order of their earliest
seeds. The order in which the consumers of restorations come does not matter. -/
theorem components_connected (h : a.Grounded) (hperm : consumers.Perm a.consumers) :
    a.SplitsInto (components a consumers) ∧ components a consumers = components a a.consumers :=
  ⟨h.splitsInto hperm, h.components_congr hperm⟩

/-- Two operations read values that are restored. The first one links seeds that no record does, and one seed has no
record. -/
def crossing : Analysis where
  seeds := [⟨7⟩, ⟨3⟩, ⟨9⟩, ⟨5⟩, ⟨1⟩]
  absorbed := [⟨⟨10⟩, { kind := .unary .abs, outputPerm := some [1, 0] }, [⟨3⟩, ⟨5⟩]⟩]
  cancellations := [⟨⟨12⟩, [⟨9⟩]⟩]
  restorations := [⟨⟨20⟩, [1, 0], .op ⟨14⟩ [0], [⟨9⟩]⟩, ⟨⟨21⟩, [1, 0], .op ⟨15⟩ [1], [⟨5⟩]⟩,
    ⟨⟨22⟩, [1, 0], .op ⟨14⟩ [1], [⟨7⟩]⟩, ⟨⟨23⟩, [1, 0], .output [0], [⟨3⟩]⟩]

theorem components_crossing : crossing.Grounded ∧ crossing.consumers = [⟨14⟩, ⟨15⟩] ∧
    components crossing [⟨15⟩, ⟨14⟩] = [⟨[⟨7⟩, ⟨9⟩], [], [0], [0, 2]⟩, ⟨[⟨3⟩, ⟨5⟩], [0], [], [1, 3]⟩] ∧
      crossing.SplitsInto (components crossing [⟨15⟩, ⟨14⟩]) ∧
        components crossing [⟨15⟩, ⟨14⟩] = components crossing crossing.consumers := by
  have hgrounded : crossing.Grounded := ⟨by decide, by decide, by decide⟩
  have hconsumers : crossing.consumers = [⟨14⟩, ⟨15⟩] := by decide
  have hperm : [⟨15⟩, ⟨14⟩].Perm crossing.consumers := by decide
  obtain ⟨hsplits, hcongr⟩ := components_connected hgrounded hperm
  exact ⟨hgrounded, hconsumers, by cbv, hsplits, hcongr⟩

end Relayout.Layout
