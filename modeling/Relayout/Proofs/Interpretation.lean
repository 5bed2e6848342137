import Relayout.Proofs.Retyping

/-!
# Readings of blocks

Types and tensors follow a region in the same way, so the argument is made once, for any reading of operations
(`Interpretation`) that commutes with transposes where the rules of absorption say so (`Lawful`). A `Solution` gives every
value of a block a meaning under which all operations hold; the order of operations does not matter to it.

On a value with something pending, what a region computes instead is its meaning untransposed (`behind`). Operands of what
goes away stand for results (`behind_leads`), operations that absorb and new operations hold for the values behind
(`Spliced.solution`), and what a block returns keeps its meaning.

A solution also gives types: recomputing them succeeds and records the types of the meanings (`Solution.exists_retype`).
-/

namespace Relayout

open Layout

/-- A reading of operations, with types of what they give. -/
structure Interpretation (V : Type) where
  apply : OpKind → List V → Option V
  type : V → TensorType
  /-- Custom operations have results. -/
  customs : Prop

namespace Interpretation

variable {V : Type} (I : Interpretation V)

/-- The meaning of an operation's result is what the operation gives. -/
def Holds (meaning : ValueId → V) (o : Operation) : Prop :=
  if o.kind.isCustom then I.customs
  else ∃ y, o.outputs = [y] ∧ I.apply o.kind (o.inputs.map meaning) = some (meaning y)

/-- All operations of a block hold. -/
def Solution (b : Block) (meaning : ValueId → V) : Prop :=
  ∀ o ∈ b.operations, I.Holds meaning o

/-- What is pending leads from one meaning to the other. -/
def Behind : Option (List Nat) → V → V → Prop
  | none, x, y => x = y
  | some p, x, y => I.apply (.transpose p) [x] = some y

/-- An operand of an operation that absorbs `p`: how it looks, what it was, and what is read in its place. -/
inductive Operand (constants : List (Nat × Literal)) (slot : Nat) : View → V → V → Prop
  | pending {p : List Nat} {x z : V} (h : I.apply (.transpose p) [z] = some x) :
    Operand constants slot (.pending p) x z
  | constant {literal : Literal} {x : V} (hx : I.apply (.const literal) [] = some x)
    (hnone : ∀ new, (slot, new) ∉ constants) : Operand constants slot (.constant literal) x x
  | payload {literal new : Literal} {x z : V} (hx : I.apply (.const literal) [] = some x)
    (hnew : (slot, new) ∈ constants) (hz : I.apply (.const new) [] = some z) :
    Operand constants slot (.constant literal) x z
  | concrete {type : TensorType} {x : V} (h : (I.type x).rank = type.rank) : Operand constants slot (.concrete type) x x

/-- All operands of an operation, with what is read in their place. -/
structure Operands (constants : List (Nat × Literal)) (views : List View) (xs zs : List V) : Prop where
  length_views : views.length = xs.length
  length_eq : zs.length = xs.length
  get : ∀ i view x z, views[i]? = some view → xs[i]? = some x → zs[i]? = some z → I.Operand constants i view x z

/-- What the argument needs of a reading. -/
structure Lawful : Prop where
  typed : ∀ {kind xs y}, I.apply kind xs = some y → Typing.resultType kind (xs.map I.type) = .ok (I.type y)
  inverse : ∀ {p x y}, I.apply (.transpose p) [x] = some y → I.apply (.transpose (Perm.inverse p)) [y] = some x
  cancel : ∀ {p q x y z}, Perm.cancels p q → I.apply (.transpose p) [x] = some y →
    I.apply (.transpose q) [y] = some z → z = x
  identity : ∀ x, I.apply (.unary .identity) [x] = some x
  payload : ∀ {kind views p a i old new x}, absorb kind views p = .ok a → (i, new) ∈ a.constants →
    views[i]? = some (.constant old) → I.apply (.const old) [] = some x → ∃ z, I.apply (.const new) [] = some z
  absorb : ∀ {kind views p a xs zs y}, absorb kind views p = .ok a → I.apply kind xs = some y →
    I.Operands a.constants views xs zs → ∃ y', I.apply a.kind zs = some y' ∧ I.Behind a.outputPerm y' y

/-- What is computed where something is pending on a value. -/
def behind (pend : ValueId → Option Pending) (meaning : ValueId → V) (v : ValueId) : V :=
  match pend v with
  | none => meaning v
  | some q => (I.apply (.transpose (Perm.inverse q.perm)) [meaning v]).getD (meaning v)

end Interpretation

open Interpretation

section Transposes

variable {V : Type} {I : Interpretation V} {p : List Nat} {x y : V}

theorem Interpretation.Lawful.transpose_perm (hI : I.Lawful) (h : I.apply (.transpose p) [x] = some y) :
    p.Perm (List.range (I.type x).rank) := by
  obtain ⟨u, hu, ht⟩ := Typing.transpose_eq_ok.1 (hI.typed h)
  rw [List.map_singleton, List.singleton_inj] at hu
  rw [hu]
  exact ht.perm

theorem Interpretation.Lawful.transpose_compatible (hI : I.Lawful) (h : I.apply (.transpose p) [x] = some y) :
    (I.type y).compatible (I.type x) := by
  obtain ⟨u, hu, ht⟩ := Typing.transpose_eq_ok.1 (hI.typed h)
  rw [List.map_singleton, List.singleton_inj] at hu
  rw [hu]
  exact ht.compatible

end Transposes

namespace Interpretation

section Behind

variable {V : Type} {I : Interpretation V} {b : Block} {pend : ValueId → Option Pending} {meaning : ValueId → V}
  {v : ValueId} {x z : V}

theorem behind_of_none (h : pend v = none) : I.behind pend meaning v = meaning v := by
  rw [behind, h]

/-- Only one value is behind a meaning. -/
theorem behind_eq (hI : I.Lawful) {q : Option Pending} (hq : pend v = q)
    (h : I.Behind (q.map (·.perm)) x (meaning v)) : I.behind pend meaning v = x := by
  cases q with
  | none =>
    rw [behind_of_none hq]
    exact h.symm
  | some q =>
    have hinv := hI.inverse h
    rw [behind, hq]
    simp only [hinv, Option.getD_some]

theorem holds_iff {o : Operation} (hk : o.kind.isCustom = false) : I.Holds meaning o ↔
    ∃ y, o.outputs = [y] ∧ I.apply o.kind (o.inputs.map meaning) = some (meaning y) := by
  rw [Holds, if_neg (by rw [hk]; exact Bool.false_ne_true)]

theorem Solution.apply_eq (h : I.Solution b meaning) {o : Operation} (ho : o ∈ b.operations)
    (hk : o.kind.isCustom = false) {y : ValueId} (hout : o.outputs = [y]) :
    I.apply o.kind (o.inputs.map meaning) = some (meaning y) := by
  obtain ⟨y', hy', happ⟩ := (holds_iff hk).1 (h o ho)
  rw [hout, List.singleton_inj] at hy'
  rw [hy']
  exact happ

theorem Solution.constant (hI : I.Lawful) (h : I.Solution b meaning) {o : Operation} (ho : o ∈ b.operations)
    {literal : Literal} (hk : o.kind = .const literal) (hout : o.outputs = [v]) :
    I.apply (.const literal) [] = some (meaning v) := by
  have happ := h.apply_eq ho (by rw [hk]; rfl) hout
  have htyped := hI.typed happ
  rw [hk] at happ htyped
  rw [Typing.resultType] at htyped
  split at htyped
  · rename_i hnil
    rw [List.map_eq_nil_iff] at hnil
    rwa [hnil] at happ
  · cases htyped

end Behind

end Interpretation

namespace Layout

section Region

variable {V : Type} {I : Interpretation V} {a : Analysis} {b b' : Block} {pend : ValueId → Option Pending}
  {meaning : ValueId → V} {L : Ledger}

/-- An operand of an operation that absorbs, with a payload if there is one and with what is behind it otherwise. -/
theorem Viewed.operand {v : ValueId} {view : View} (hview : Viewed True b pend v view) (hI : I.Lawful)
    (h : I.Solution b meaning) (hrec : b.type? v = some (I.type (meaning v)))
    (hbehind : I.Behind ((pend v).map (·.perm)) (I.behind pend meaning v) (meaning v))
    {constants : List (Nat × Literal)} {slot : Nat} {z : V}
    (hz : (∃ old new, view = .constant old ∧ (slot, new) ∈ constants ∧ I.apply (.const new) [] = some z) ∨
      (∀ new, (slot, new) ∉ constants) ∧ z = I.behind pend meaning v) :
    I.Operand constants slot view (meaning v) z := by
  cases hview with
  | pending hq =>
    rcases hz with ⟨old, new, hv, _⟩ | ⟨_, rfl⟩
    · cases hv
    · rw [hq] at hbehind
      exact .pending hbehind
  | constant hq hop hout hk =>
    have hconst := h.constant hI hop hk hout
    rcases hz with ⟨old, new, hv, hnew, hz⟩ | ⟨hnone, rfl⟩
    · exact .payload hconst hnew hz
    · rw [behind_of_none hq]
      exact .constant hconst hnone
  | concrete hq ht =>
    obtain ⟨t, ht, hrank⟩ := ht trivial
    rw [hrec, Option.some.injEq] at ht
    rcases hz with ⟨old, new, hv, _⟩ | ⟨_, rfl⟩
    · cases hv
    · rw [behind_of_none hq]
      exact .concrete (by rw [ht]; exact hrank)

/-- A list given slot by slot. -/
theorem exists_list_of_forall {α : Type} {n : Nat} {P : Nat → α → Prop} (h : ∀ i < n, ∃ z, P i z) :
    ∃ zs : List α, zs.length = n ∧ ∀ i z, zs[i]? = some z → P i z := by
  choose f hf using fun i : Fin n => h i i.2
  refine ⟨List.ofFn f, List.length_ofFn, fun i z hz => ?_⟩
  obtain ⟨hi, rfl⟩ := List.getElem?_eq_some_iff.1 hz
  rw [List.getElem_ofFn]
  exact hf ⟨i, List.length_ofFn (f := f) ▸ hi⟩

/-- A pointwise operation takes whatever is pending. -/
theorem absorb_pointwise {kind : OpKind} (hk : kind.isPointwise) {p : List Nat} (hp : Perm.isPermutation p) :
    absorb kind [.pending p] p = .ok ⟨kind, [], some p⟩ := by
  cases kind with
  | unary f => simp [absorb, hp, View.isPending]
  | activation f => simp [absorb, hp, View.isPending]
  | _ => cases hk

theorem isCustom_of_isPointwise {kind : OpKind} (hk : kind.isPointwise) : kind.isCustom = false := by
  cases kind with
  | custom spec => cases hk
  | _ => rfl

section Values

variable (hI : I.Lawful) (hd : Describes True a b pend) (hs : b.Sound) (hE : I.Solution b meaning)
  (hrec : ∀ v ∈ b.defined, b.type? v = some (I.type (meaning v)))

include hI hE

/-- A pointwise operation gives on what is behind its operand what is behind its result. -/
theorem Passes.apply_eq {o : Operation} (ho : o ∈ b.operations) {x y : ValueId} {q : Pending} (hk : o.kind.isPointwise)
    (hin : o.inputs = [x]) (hout : o.outputs = [y]) {z : V} (hz : I.apply (.transpose q.perm) [z] = some (meaning x)) :
    ∃ z', I.apply o.kind [z] = some z' ∧ I.apply (.transpose q.perm) [z'] = some (meaning y) := by
  have hperm : Perm.isPermutation q.perm := by
    have := hI.transpose_perm hz
    exact Perm.isPermutation_iff.2 (Perm.length_of_perm this ▸ this)
  have happ := hE.apply_eq ho (isCustom_of_isPointwise hk) hout
  rw [hin, List.map_singleton] at happ
  refine hI.absorb (absorb_pointwise hk hperm) happ ⟨rfl, rfl, fun i view u w hview hu hw => ?_⟩
  cases i with
  | zero =>
    simp only [List.getElem?_cons_zero, Option.some.injEq] at hview hu hw
    subst hview hu hw
    exact .pending hz
  | succ i => simp at hview

/-- What stands in the slots of an operation that absorbs: its payloads, and what is behind its other operands. -/
def Fills (I : Interpretation V) (pend : ValueId → Option Pending) (meaning : ValueId → V) (r : Absorbed)
    (slot : Nat) (v : ValueId) (z : V) : Prop :=
  (∃ new, (slot, new) ∈ r.absorption.constants ∧ I.apply (.const new) [] = some z) ∨
    (∀ new, (slot, new) ∉ r.absorption.constants) ∧ z = I.behind pend meaning v

/-- Payloads have meanings, as the constants in their slots do. -/
theorem Absorbs.exists_payload {o : Operation} {r : Absorbed} (h : Absorbs True b pend o r)
    {i : Nat} {new : Literal} (hnew : (i, new) ∈ r.absorption.constants) : ∃ z, I.apply (.const new) [] = some z := by
  obtain ⟨views, p, hviews, habs, _⟩ := h
  obtain ⟨old, hold, _⟩ := (absorb_constants habs).2 _ hnew
  obtain ⟨hi, hget⟩ := List.getElem?_eq_some_iff.1 hold
  have hviewed := hviews.get (hviews.length_eq.symm ▸ hi) hi
  rw [List.get_eq_getElem, List.get_eq_getElem, hget] at hviewed
  cases hviewed with
  | constant _ hop hout hk => exact hI.payload habs hnew hold (hE.constant hI hop hk hout)

include hs hrec

/-- An operation that absorbs gives, on payloads and what is behind its operands, what is behind its result. -/
theorem Absorbs.apply_eq {o : Operation} (ho : o ∈ b.operations) {r : Absorbed} (h : Absorbs True b pend o r)
    (hins : ∀ x ∈ o.inputs, I.Behind ((pend x).map (·.perm)) (I.behind pend meaning x) (meaning x)) {zs : List V}
    (hlen : zs.length = o.inputs.length)
    (hzs : ∀ i v z, o.inputs[i]? = some v → zs[i]? = some z → Fills I pend meaning r i v z) :
    ∃ z', I.apply r.absorption.kind zs = some z' ∧
      ∀ y ∈ o.outputs, I.Behind ((pend y).map (·.perm)) z' (meaning y) := by
  obtain ⟨views, p, hviews, habs, houts, _⟩ := h
  have hcustom := (absorb_kind habs).2.2.2.2.2.2
  obtain ⟨y, hout, happ⟩ := (holds_iff hcustom).1 (hE o ho)
  have hops : I.Operands r.absorption.constants views (o.inputs.map meaning) zs := by
    refine ⟨by rw [List.length_map]; exact hviews.length_eq.symm, by rw [List.length_map]; exact hlen, ?_⟩
    intro i view x z hview hx hz
    rw [List.getElem?_map, Option.map_eq_some_iff] at hx
    obtain ⟨v, hv, rfl⟩ := hx
    have hmem := List.mem_of_getElem? hv
    have hviewed : Viewed True b pend v view := by
      obtain ⟨hi, rfl⟩ := List.getElem?_eq_some_iff.1 hv
      obtain ⟨hi', rfl⟩ := List.getElem?_eq_some_iff.1 hview
      exact hviews.get hi hi'
    refine hviewed.operand hI hE (hrec v (hs.input_defined ho hmem)) (hins v hmem) ?_
    rcases hzs i v z hv hz with ⟨new, hnew, hz⟩ | hplain
    · obtain ⟨old, hold, _⟩ := (absorb_constants habs).2 _ hnew
      rw [hview, Option.some.injEq] at hold
      exact .inl ⟨old, new, hold, hnew, hz⟩
    · exact .inr hplain
  obtain ⟨z', hz', hbehind⟩ := hI.absorb habs happ hops
  refine ⟨z', hz', fun y' hy' => ?_⟩
  rw [houts y' hy', Option.map_map]
  rw [hout, List.mem_singleton] at hy'
  rw [hy', show ((fun x => x.perm) ∘ fun x => (⟨x, r.seeds⟩ : Pending)) = id from rfl, Option.map_id_fun, id]
  exact hbehind

include hd

/-- What is behind a value leads to its meaning. -/
theorem Describes.behind_spec : ∀ v ∈ b.defined,
    I.Behind ((pend v).map (·.perm)) (I.behind pend meaning v) (meaning v) := by
  -- operands are defined before results
  suffices ∀ n, ∀ v ∈ b.defined, b.defined.idxOf v = n →
      I.Behind ((pend v).map (·.perm)) (I.behind pend meaning v) (meaning v) from
    fun v hv => this _ v hv rfl
  intro n
  induction n using Nat.strong_induction_on with
  | _ n ih =>
    rintro v hv rfl
    have hprev : ∀ {o}, o ∈ b.operations → v ∈ o.outputs → ∀ x ∈ o.inputs,
        I.Behind ((pend x).map (·.perm)) (I.behind pend meaning x) (meaning x) := fun ho hout x hx =>
      ih _ (hs.idxOf_lt ho hx hout) x (hs.input_defined ho hx) rfl
    have hplain : pend v = none → I.Behind ((pend v).map (·.perm)) (I.behind pend meaning v) (meaning v) := fun h0 => by
      rw [behind_of_none h0, h0]
      exact rfl
    have hsome : ∀ {x}, I.Behind ((pend v).map (·.perm)) x (meaning v) →
        I.Behind ((pend v).map (·.perm)) (I.behind pend meaning v) (meaning v) := fun hx => by
      rw [behind_eq hI rfl hx]
      exact hx
    rcases Block.mem_defined.1 hv with hin | ⟨o, ho, hout⟩
    · exact hplain (hd.inputs v hin)
    by_cases hm : o.id ∈ a.marked
    · rcases List.mem_append.1 hm with hm | hm
      · rcases List.mem_append.1 hm with hm | hm
        · obtain ⟨x, y, p, hk, hin, hout', _, hy, _⟩ := hd.isSeed hs ho hm
          rw [hout', List.mem_singleton] at hout
          subst hout
          have happ := hE.apply_eq ho (by rw [hk]; rfl) hout'
          rw [hk, hin] at happ
          apply hsome (x := meaning x)
          rw [hy]
          exact happ
        · obtain ⟨c, hc, he⟩ := List.mem_map.1 hm
          obtain ⟨x, y, p, q, _, _, hout', _, _, hy⟩ := hd.isCancellation hs ho hc he
          rw [hout', List.mem_singleton] at hout
          subst hout
          exact hplain hy
      · obtain ⟨r, hr, he⟩ := List.mem_map.1 hm
        have habs := hd.absorbs hs ho hr he
        have hfill : ∀ i < o.inputs.length, ∃ z, ∀ v, o.inputs[i]? = some v → Fills I pend meaning r i v z := by
          intro i hi
          by_cases hnew : ∃ new, (i, new) ∈ r.absorption.constants
          · obtain ⟨new, hnew⟩ := hnew
            obtain ⟨z, hz⟩ := habs.exists_payload hI hE hnew
            exact ⟨z, fun v _ => .inl ⟨new, hnew, hz⟩⟩
          · refine ⟨I.behind pend meaning o.inputs[i], fun v hv => .inr ⟨fun new hin => hnew ⟨new, hin⟩, ?_⟩⟩
            rw [List.getElem?_eq_getElem hi, Option.some.injEq] at hv
            rw [hv]
        obtain ⟨zs, hlen, hzs⟩ := exists_list_of_forall hfill
        obtain ⟨z', _, hz'⟩ := habs.apply_eq hI hs hE hrec ho (hprev ho hout) hlen
          fun i v z hv hz => hzs i z hz v hv
        exact hsome (hz' v hout)
    · rcases hd.others o ho hm with ⟨x, y, q, hk, hin, hout', hx, hy⟩ | ⟨_, hnone⟩
      · rw [hout', List.mem_singleton] at hout
        subst hout
        have hbx := hprev ho (by rw [hout']; exact List.mem_singleton_self v) x (by rw [hin]; exact List.mem_singleton_self x)
        rw [hx] at hbx
        obtain ⟨z', _, hz'⟩ := Passes.apply_eq hI hE ho hk hin hout' hbx
        apply hsome (x := z')
        rw [hy]
        exact hz'
      · exact hplain (hnone v hout)

/-- The result of what goes away has its operand behind it. -/
theorem Describes.behind_bypass {y x : ValueId} (h : Bypass a b y x) :
    I.behind pend meaning y = I.behind pend meaning x := by
  obtain ⟨o, ho, hid, hin, hout⟩ := h
  rcases List.mem_append.1 hid with hid | hid
  · obtain ⟨x', y', p, hk, hin', hout', hx, hy, _⟩ := hd.isSeed hs ho hid
    rw [hin, List.singleton_inj] at hin'
    rw [hout, List.singleton_inj] at hout'
    subst hin' hout'
    have happ := hE.apply_eq ho (by rw [hk]; rfl) hout
    rw [hk, hin] at happ
    rw [behind_of_none hx]
    exact behind_eq hI hy happ
  · obtain ⟨c, hc, he⟩ := List.mem_map.1 hid
    obtain ⟨x', y', p, q, hk, hin', hout', hx, hcancel, hy⟩ := hd.isCancellation hs ho hc he
    rw [hin, List.singleton_inj] at hin'
    rw [hout, List.singleton_inj] at hout'
    subst hin' hout'
    have happ := hE.apply_eq ho (by rw [hk]; rfl) hout
    rw [hk, hin] at happ
    have hbx := hd.behind_spec hI hs hE hrec x (hs.input_defined ho (by rw [hin]; exact List.mem_singleton_self x))
    rw [hx] at hbx
    rw [behind_of_none hy]
    exact hI.cancel hcancel hbx happ

theorem Describes.behind_rank {v : ValueId} (hv : v ∈ b.defined) :
    (I.type (I.behind pend meaning v)).rank = (I.type (meaning v)).rank := by
  have hbehind := hd.behind_spec hI hs hE hrec v hv
  cases hp : pend v with
  | none => rw [behind_of_none hp]
  | some q =>
    rw [hp] at hbehind
    have := hI.transpose_compatible hbehind
    simp only [TensorType.compatible, Bool.and_eq_true, beq_iff_eq] at this
    exact this.2.symm

theorem Describes.behind_leads {v v' : ValueId} (h : Leads a b v v') :
    I.behind pend meaning v' = I.behind pend meaning v := by
  induction h with
  | refl => rfl
  | tail _ hstep ih => rw [← ih, hd.behind_bypass hI hs hE hrec hstep]

theorem Describes.apply_restored {r : Restoration} (hr : r ∈ a.restorations) :
    I.apply (.transpose r.perm) [I.behind pend meaning r.value] = some (meaning r.value) := by
  have hpend := (hd.restorations r hr).1
  have hbehind := hd.behind_spec hI hs hE hrec r.value (hd.defined _ _ hpend)
  rw [hpend] at hbehind
  exact hbehind

end Values

/-! ## The spliced block -/

/-- The meaning of new values, and of the others what is behind them. -/
def Ledger.reading (L : Ledger) (I : Interpretation V) (pend : ValueId → Option Pending) (meaning : ValueId → V)
    (v : ValueId) : V :=
  match L.made v with
  | none => I.behind pend meaning v
  | some m => (I.apply m.kind (m.sources.map (I.behind pend meaning))).getD (meaning v)

section Spliced

variable (hI : I.Lawful) (hd : Describes True a b pend) (hs : b.Sound) (hE : I.Solution b meaning)
  (hrec : ∀ v ∈ b.defined, b.type? v = some (I.type (meaning v))) (hsp : Spliced a b pend L b')

include hsp in
theorem Spliced.reading_of_defined {v : ValueId} (hv : v ∈ b.defined) :
    L.reading I pend meaning v = I.behind pend meaning v := by
  rw [Ledger.reading]
  cases hm : L.made v with
  | none => rfl
  | some m => exact absurd hv (hsp.made v m hm).1

include hd hsp in
theorem Spliced.reading_input {v : ValueId} (hv : v ∈ b.inputs) : L.reading I pend meaning v = meaning v := by
  rw [hsp.reading_of_defined (Block.mem_defined.2 (.inl hv)), behind_of_none (hd.inputs v hv)]

include hd hs hsp in
/-- The results of custom operations stay what they were. -/
theorem Spliced.reading_custom {o' : Operation} (ho' : o' ∈ b'.operations) (hk : o'.kind.isCustom) {y : ValueId}
    (hy : y ∈ o'.outputs) : y ∈ b.defined ∧ L.reading I pend meaning y = meaning y := by
  rcases hsp.ops o' ho' with ⟨o, ho, hid, hf⟩ | ⟨_, w, m, _, hm, hkind, _⟩
  · rw [hf.outputs] at hy
    have hdef := Block.Sound.output_defined ho hy
    refine ⟨hdef, ?_⟩
    rw [hsp.reading_of_defined hdef]
    by_cases hmark : o.id ∈ a.marked
    · obtain ⟨r, hr, he⟩ := List.mem_map.1 ((List.mem_append.1 hmark).resolve_left hid)
      obtain ⟨_, _, _, habs, _⟩ := hd.absorbs hs ho hr he
      rw [hsp.kind_of_absorbed hf hr he, (absorb_kind habs).2.2.2.2.2.1] at hk
      cases hk
    · rw [hsp.kind_of_unmarked hmark hf] at hk
      rcases hd.others o ho hmark with ⟨_, _, _, hp, _⟩ | hkeeps
      · rw [isCustom_of_isPointwise hp] at hk
        cases hk
      · exact behind_of_none (hkeeps.2 y hy)
  · rw [← hkind, (hsp.justified.made w m hm).kind.1] at hk
    cases hk

include hI hd hs hE hrec hsp

namespace Spliced

theorem reading_leads {v v' : ValueId} (hv : v ∈ b.defined) (h : Leads a b v v') :
    L.reading I pend meaning v' = I.behind pend meaning v := by
  rw [hsp.reading_of_defined (h.defined hs hv), hd.behind_leads hI hs hE hrec h]

theorem map_reading {us vs : List ValueId} (h : List.Forall₂ (Leads a b) us vs) (hdef : ∀ u ∈ us, u ∈ b.defined) :
    vs.map (L.reading I pend meaning) = us.map (I.behind pend meaning) := by
  induction h with
  | nil => rfl
  | cons hl _ ih =>
    rw [List.map_cons, List.map_cons, hsp.reading_leads hI hd hs hE hrec (hdef _ List.mem_cons_self) hl,
      ih fun u hu => hdef u (List.mem_cons_of_mem _ hu)]

/-- A new operation gives the meaning of its result. -/
theorem apply_made {w : ValueId} {m : NewValue} (hm : L.made w = some m) :
    I.apply m.kind (m.sources.map (I.behind pend meaning)) = some (L.reading I pend meaning w) := by
  obtain ⟨z, hz⟩ : ∃ z, I.apply m.kind (m.sources.map (I.behind pend meaning)) = some z := by
    rcases hsp.justified.made w m hm with ⟨f, hf, rfl⟩ | ⟨r, hr, hk, hsrc, _⟩ | ⟨y, u, _, _, hk, hsrc⟩
    · obtain ⟨r, hr, hf⟩ := List.mem_flatMap.1 hf
      obtain ⟨c, hc, rfl⟩ := List.mem_map.1 hf
      obtain ⟨o, ho, _, habs⟩ := hd.absorbed r hr
      exact habs.exists_payload hI hE hc
    · rw [hk, hsrc]
      exact ⟨_, hd.apply_restored hI hs hE hrec hr⟩
    · rw [hk, hsrc]
      exact ⟨_, hI.identity _⟩
  rw [Ledger.reading, hm]
  simp only [hz, Option.getD_some]

theorem reading_restored {w : ValueId} {m : NewValue} (hm : L.made w = some m) {r : Restoration}
    (hr : r ∈ a.restorations) (h : m.Restores b r) : L.reading I pend meaning w = meaning r.value := by
  have happ := hsp.apply_made hI hd hs hE hrec hm
  rw [h.1, h.2.1, List.map_singleton, hd.apply_restored hI hs hE hrec hr] at happ
  exact (Option.some.inj happ).symm

theorem reading_passed {w : ValueId} {m : NewValue} (hm : L.made w = some m) {u : ValueId} (h : m.Passes u) :
    L.reading I pend meaning w = I.behind pend meaning u := by
  have happ := hsp.apply_made hI hd hs hE hrec hm
  rw [h.1, h.2, List.map_singleton, hI.identity] at happ
  exact (Option.some.inj happ).symm

theorem reading_payload {w : ValueId} {literal : Literal} (hm : L.made w = some (.ofLiteral literal)) :
    I.apply (.const literal) [] = some (L.reading I pend meaning w) :=
  hsp.apply_made hI hd hs hE hrec hm

/-- An operation that keeps its kind and has its operands restored reads what it read. -/
theorem reading_kept {o o' : Operation} (ho : o ∈ b.operations) (hf : Follows a b L o o') (hm : o.id ∉ a.marked)
    (hkeeps : Keeps a pend o) : o'.inputs.map (L.reading I pend meaning) = o.inputs.map meaning := by
  refine List.ext_getElem (by simp [hf.arity]) fun i hi' hi => ?_
  rw [List.length_map] at hi hi'
  rw [List.getElem_map, List.getElem_map]
  have hst := hf.slots i _ _ (List.getElem?_eq_getElem hi) (List.getElem?_eq_getElem hi')
  cases hslot : L.slot o.id i with
  | none =>
    rw [hslot] at hst
    rw [hsp.reading_leads hI hd hs hE hrec (hs.input_defined ho (List.getElem_mem hi)) hst]
    refine behind_of_none ?_
    by_contra hne
    obtain ⟨q, hq⟩ := Option.ne_none_iff_exists'.1 hne
    obtain ⟨r, hr, hval, slots, hcons⟩ := hkeeps.1 _ (List.getElem_mem hi) q hq
    have hfilled := hsp.restored r hr
    obtain ⟨_, hc⟩ := hd.restorations r hr
    rw [hcons] at hfilled hc
    obtain ⟨o₂, ho₂, he, _, _, hslots, _⟩ := hc
    rw [hs.op_ext ho₂ ho he] at hslots
    refine hfilled i ?_ hslot
    rw [hslots, mem_slotsOf, hval]
    exact List.getElem?_eq_getElem hi
  | some w =>
    rw [hslot] at hst
    have hst : o'.inputs[i] = w := hst
    rw [hst]
    obtain ⟨m, hmade, ⟨literal, hl, _⟩ | ⟨r, hr, slots, hcons, hmem, hres⟩⟩ := hsp.justified.slot o.id i w hslot
    · obtain ⟨r, hr, hl⟩ := List.mem_flatMap.1 hl
      obtain ⟨c, _, he⟩ := List.mem_map.1 hl
      exact absurd (List.mem_append_right _ (List.mem_map.2 ⟨r, hr, congrArg Prod.fst he⟩)) hm
    · rw [hsp.reading_restored hI hd hs hE hrec hmade hr hres]
      obtain ⟨_, hc⟩ := hd.restorations r hr
      rw [hcons] at hc
      obtain ⟨o₂, ho₂, he, _, _, hslots, _⟩ := hc
      rw [hs.op_ext ho₂ ho he] at hslots
      rw [hslots, mem_slotsOf, List.getElem?_eq_getElem hi, Option.some.injEq] at hmem
      rw [hmem]

/-- The slots of an operation that absorbs hold its payloads, and lead to its other operands. -/
theorem fills {o o' : Operation} (ho : o ∈ b.operations) (hf : Follows a b L o o') {r : Absorbed} (hr : r ∈ a.absorbed)
    (he : r.op = o.id) (i : Nat) (v : ValueId) (z : V) (hv : o.inputs[i]? = some v)
    (hz : (o'.inputs.map (L.reading I pend meaning))[i]? = some z) : Fills I pend meaning r i v z := by
  rw [List.getElem?_map, Option.map_eq_some_iff] at hz
  obtain ⟨v', hv', rfl⟩ := hz
  have hst := hf.slots i v v' hv hv'
  cases hslot : L.slot o.id i with
  | none =>
    rw [hslot] at hst
    refine .inr ⟨fun new hnew => ?_, hsp.reading_leads hI hd hs hE hrec (hs.input_defined ho (List.mem_of_getElem? hv)) hst⟩
    exact (hsp.absorbed r hr).2 _ hnew (he ▸ hslot)
  | some w =>
    rw [hslot] at hst
    have hst : v' = w := hst
    subst hst
    obtain ⟨m, hmade, ⟨literal, hl, rfl⟩ | ⟨r', hr', slots, hcons, _⟩⟩ := hsp.justified.slot o.id i v' hslot
    · obtain ⟨r', hr', hl⟩ := List.mem_flatMap.1 hl
      obtain ⟨c, hc, hpair⟩ := List.mem_map.1 hl
      obtain ⟨he', rfl⟩ := Prod.mk.inj hpair
      have honce : (a.absorbed.map (·.op)).Nodup := (List.nodup_append.1 hd.markedOnce).2.1
      rw [List.inj_on_of_nodup_map honce hr' hr (he'.trans he.symm)] at hc
      exact .inl ⟨literal, hc, hsp.reading_payload hI hd hs hE hrec hmade⟩
    · -- only operations without a record have operands restored
      obtain ⟨_, hc⟩ := hd.restorations r' hr'
      rw [hcons] at hc
      obtain ⟨_, _, _, hnot, _⟩ := hc
      exact absurd (List.mem_append_right _ (List.mem_map.2 ⟨r, hr, he⟩)) hnot

theorem holds_absorbed {o o' : Operation} (ho : o ∈ b.operations) (hf : Follows a b L o o') {r : Absorbed}
    (hr : r ∈ a.absorbed) (he : r.op = o.id) : I.Holds (L.reading I pend meaning) o' := by
  have habs := hd.absorbs hs ho hr he
  have hkinds : o.kind.isCustom = false ∧ r.absorption.kind.isCustom = false := by
    obtain ⟨views, p, _, h, _⟩ := habs
    exact ⟨(absorb_kind h).2.2.2.2.2.2, (absorb_kind h).2.2.2.2.2.1⟩
  have hkind := hsp.kind_of_absorbed hf hr he
  obtain ⟨y, hout, _⟩ := (holds_iff hkinds.1).1 (hE o ho)
  have hy : y ∈ o.outputs := by rw [hout]; exact List.mem_singleton_self y
  obtain ⟨z, hz, hzs⟩ := habs.apply_eq hI hs hE hrec ho
    (fun x hx => hd.behind_spec hI hs hE hrec x (hs.input_defined ho hx)) (by rw [List.length_map, hf.arity])
    (hsp.fills hI hd hs hE hrec ho hf hr he)
  refine (holds_iff (hkind ▸ hkinds.2)).2 ⟨y, hf.outputs.trans hout, ?_⟩
  rw [hkind, hz, hsp.reading_of_defined (Block.Sound.output_defined ho hy), behind_eq hI rfl (hzs y hy)]

theorem holds_other {o o' : Operation} (ho : o ∈ b.operations) (hf : Follows a b L o o') (hm : o.id ∉ a.marked) :
    I.Holds (L.reading I pend meaning) o' := by
  have hkind := hsp.kind_of_unmarked hm hf
  have hdef : ∀ y ∈ o.outputs, L.reading I pend meaning y = I.behind pend meaning y := fun y hy =>
    hsp.reading_of_defined (Block.Sound.output_defined ho hy)
  rcases hd.others o ho hm with ⟨x, y, q, hk, hin, hout, hx, hy⟩ | hkeeps
  · have huntouched : o.id ∉ a.touched := fun hid => by
      obtain ⟨r, hr, hc⟩ := List.mem_filterMap.1 ((List.mem_append.1 hid).resolve_left hm)
      obtain ⟨_, hcons⟩ := hd.restorations r hr
      cases hconsumer : r.consumer with
      | output slots => rw [hconsumer] at hc; cases hc
      | op id slots =>
        rw [hconsumer] at hc hcons
        obtain ⟨o₂, ho₂, he, _, _, _, hnone, _⟩ := hcons
        rw [hs.op_ext ho₂ ho (he.trans (Option.some.inj hc))] at hnone
        rw [hnone y (by rw [hout]; exact List.mem_singleton_self y)] at hy
        cases hy
    have hins := hsp.map_reading hI hd hs hE hrec (hsp.inputs_of_untouched huntouched hf)
      fun x hx => hs.input_defined ho hx
    have hbx := hd.behind_spec hI hs hE hrec x (hs.input_defined ho (by rw [hin]; exact List.mem_singleton_self x))
    rw [hx] at hbx
    obtain ⟨z, hz, hzy⟩ := Passes.apply_eq hI hE ho hk hin hout hbx
    refine (holds_iff (hkind ▸ isCustom_of_isPointwise hk)).2 ⟨y, hf.outputs.trans hout, ?_⟩
    rw [hkind, hins, hin, List.map_singleton, hz, hdef y (by rw [hout]; exact List.mem_singleton_self y),
      behind_eq hI hy hzy]
  · have hins := hsp.reading_kept hI hd hs hE hrec ho hf hm hkeeps
    have hold := hE o ho
    rw [Holds, hkind, hf.outputs, hins]
    rw [Holds] at hold
    split at hold
    · rename_i hc
      rw [if_pos hc]
      exact hold
    · rename_i hc
      rw [if_neg hc]
      obtain ⟨y, hout, happ⟩ := hold
      have hy : y ∈ o.outputs := by rw [hout]; exact List.mem_singleton_self y
      refine ⟨y, hout, ?_⟩
      rw [hdef y hy, behind_of_none (hkeeps.2 y hy)]
      exact happ

theorem holds_made {o' : Operation} (hmade : Made a b L o') : I.Holds (L.reading I pend meaning) o' := by
  obtain ⟨_, y, m, hout, hm, hk, hsrc⟩ := hmade
  refine (holds_iff (hk ▸ (hsp.justified.made y m hm).kind.1)).2 ⟨y, hout, ?_⟩
  rw [hsp.map_reading hI hd hs hE hrec hsrc (hsp.made y m hm).2.2, ← hk]
  exact hsp.apply_made hI hd hs hE hrec hm

/-- All operations of the spliced block hold, for what is behind the values that stay. -/
theorem solution : I.Solution b' (L.reading I pend meaning) := by
  intro o' ho'
  rcases hsp.ops o' ho' with ⟨o, ho, hid, hf⟩ | hmade
  · by_cases hm : o.id ∈ a.marked
    · obtain ⟨r, hr, he⟩ := List.mem_map.1 ((List.mem_append.1 hm).resolve_left hid)
      exact hsp.holds_absorbed hI hd hs hE hrec ho hf hr he
    · exact hsp.holds_other hI hd hs hE hrec ho hf hm
  · exact hsp.holds_made hI hd hs hE hrec hmade

/-- What the block returns keeps its meaning. -/
theorem outputs_reading : b'.outputs.map (L.reading I pend meaning) = b.outputs.map meaning := by
  refine List.ext_getElem (by simp [hsp.outputCount]) fun i hi' hi => ?_
  rw [List.length_map] at hi hi'
  rw [List.getElem_map, List.getElem_map]
  have hst := hsp.outs i _ _ (List.getElem?_eq_getElem hi) (List.getElem?_eq_getElem hi')
  have hdef : b.outputs[i] ∈ b.defined := hs.outputsDefined _ (List.getElem_mem hi)
  cases hout : L.out i with
  | none =>
    rw [hout] at hst
    rw [hsp.reading_leads hI hd hs hE hrec hdef hst]
    refine behind_of_none ?_
    by_contra hne
    obtain ⟨q, hq⟩ := Option.ne_none_iff_exists'.1 hne
    obtain ⟨r, hr, hval, slots, hcons⟩ := hd.outputs _ (List.getElem_mem hi) q hq
    have hfilled := hsp.restored r hr
    obtain ⟨_, hc⟩ := hd.restorations r hr
    rw [hcons] at hfilled hc
    refine hfilled i ?_ hout
    rw [hc.2, mem_slotsOf, hval]
    exact List.getElem?_eq_getElem hi
  | some w =>
    rw [hout] at hst
    have hst : b'.outputs[i] = w := hst
    rw [hst]
    obtain ⟨m, hm, ⟨r, hr, slots, hcons, hmem, hres⟩ | ⟨u, v, hv, hlead, hpend, hpass⟩⟩ := hsp.justified.out i w hout
    · rw [hsp.reading_restored hI hd hs hE hrec hm hr hres]
      obtain ⟨_, hc⟩ := hd.restorations r hr
      rw [hcons] at hc
      rw [hc.2, mem_slotsOf, List.getElem?_eq_getElem hi, Option.some.injEq] at hmem
      rw [hmem]
    · rw [List.getElem?_eq_getElem hi, Option.some.injEq] at hv
      subst hv
      rw [hsp.reading_passed hI hd hs hE hrec hm hpass, hd.behind_leads hI hs hE hrec hlead.to_reflTransGen,
        behind_of_none hpend]

/-- Recorded types, which have not been recomputed yet, have the ranks of the meanings. -/
theorem exists_type_rank {v : ValueId} (hv : v ∈ b'.defined) :
    ∃ t, b'.type? v = some t ∧ (I.type (L.reading I pend meaning v)).rank = t.rank := by
  have hold : ∀ {u}, u ∈ b.defined → ∀ {t}, b.type? u = some t → (I.type (I.behind pend meaning u)).rank = t.rank := by
    intro u hu t ht
    rw [hrec u hu, Option.some.injEq] at ht
    rw [hd.behind_rank hI hs hE hrec hu, ht]
  by_cases hb : v ∈ b.defined
  · obtain ⟨t, ht⟩ := hs.exists_type hb
    exact ⟨t, (hsp.types v hb hv).trans ht, by rw [hsp.reading_of_defined hb]; exact hold hb ht⟩
  · rcases Block.mem_defined.1 hv with hin | ⟨o', ho', hout⟩
    · exact absurd (Block.mem_defined.2 (.inl (hsp.inputs ▸ hin))) hb
    · rcases hsp.ops o' ho' with ⟨o, ho, _, hf⟩ | ⟨_, y, m, hy, hm, _⟩
      · exact absurd (Block.Sound.output_defined ho (hf.outputs ▸ hout)) hb
      · rw [hy, List.mem_singleton] at hout
        subst hout
        refine ⟨m.type, (hsp.made v m hm).2.1 hv, ?_⟩
        rcases hsp.justified.made v m hm with ⟨f, _, rfl⟩ | ⟨r, hr, hres⟩ | ⟨y, u, hlead, htype, hpass⟩
        · have htyped := hI.typed (hsp.reading_payload hI hd hs hE hrec hm)
          rw [Typing.resultType, List.map_nil, if_pos rfl, Except.ok.injEq] at htyped
          rw [← htyped]
          rfl
        · have hdef := hd.defined _ _ (hd.restorations r hr).1
          have htype := hres.2.2
          rw [hrec _ hdef, Option.some.injEq] at htype
          rw [hsp.reading_restored hI hd hs hE hrec hm hr hres, htype]
        · obtain ⟨_, hstep, _⟩ := Relation.TransGen.head'_iff.1 hlead
          rw [hsp.reading_passed hI hd hs hE hrec hm hpass,
            hd.behind_leads hI hs hE hrec hlead.to_reflTransGen]
          exact hold hstep.source_defined htype

end Spliced

end Spliced

end Region

end Layout

end Relayout
