import Relayout.Proofs.Concatenating
import Relayout.Proofs.Interpretation
import Relayout.Proofs.Padding
import Relayout.Proofs.Payloads
import Relayout.Proofs.Reducing

/-!
# Operands of operations that absorb

What `absorb` accepts, in terms of meanings instead of views: `Replaces` lists for each rule how the operands are related to
what is read in their place, and which operation runs on that. Every absorption is of this form (`Operands.replaces`), so a
reading is lawful if it commutes with transposes rule by rule.
-/

namespace Relayout.Interpretation

open Perm Layout
open List (range)

variable {V : Type} (I : Interpretation V)

section Forms

variable (p : List Nat)

/-- An operand of a broadcast operation: a transpose, a constant with its payload, or a scalar. -/
inductive BroadcastOperand : V → V → Prop
  | transposed {x z : V} (h : I.apply (.transpose p) [z] = some x) : BroadcastOperand x z
  | constant {literal : Literal} {payload : Option Literal} {x z : V} (h : broadcastConstant literal p = .ok payload)
    (hx : I.apply (.const literal) [] = some x) (hz : I.apply (.const (payload.getD literal)) [] = some z) :
    BroadcastOperand x z
  | scalar {x : V} (h : (I.type x).rank = 0) : BroadcastOperand x x

/-- An operand of a concatenation: a transpose, or a constant that has been transposed back. -/
inductive ConcatOperand : V → V → Prop
  | transposed {x z : V} (h : I.apply (.transpose p) [z] = some x) : ConcatOperand x z
  | constant {literal new : Literal} {x z : V} (hrank : literal.type.rank = p.length)
    (h : literal.permuted (inverse p) = .ok new) (hx : I.apply (.const literal) [] = some x)
    (hz : I.apply (.const new) [] = some z) : ConcatOperand x z

/-- An operation and its operands, the operation that runs in its place and its operands, and what is pending on the
result. -/
inductive Replaces : OpKind → List V → OpKind → List V → Option (List Nat) → Prop
  | pointwise {kind : OpKind} {x z : V} (hk : kind.isPointwise) (h : I.apply (.transpose p) [z] = some x) :
    Replaces kind [x] kind [z] (some p)
  | broadcast {f : Binary} {x₁ x₂ z₁ z₂ : V} (h₁ : I.BroadcastOperand p x₁ z₁) (h₂ : I.BroadcastOperand p x₂ z₂)
    (h : I.apply (.transpose p) [z₁] = some x₁ ∨ I.apply (.transpose p) [z₂] = some x₂) :
    Replaces (.binary f) [x₁, x₂] (.binary f) [z₁, z₂] (some p)
  | reduce {spec : Reduce} {x z : V} {q : Option (List Nat)} (h : I.apply (.transpose p) [z] = some x)
    (hq : q = some (spec.remainder p) ∨ q = none ∧ spec.remainder p = range (spec.remainder p).length) :
    Replaces (.reduce spec) [x] (.reduce (spec.behind p)) [z] q
  | concat {axis : Nat} {xs zs : List V} (haxis : axis < p.length) (h : List.Forall₂ (I.ConcatOperand p) xs zs) :
    Replaces (.concat axis) xs (.concat (p.getD axis 0)) zs (some p)
  | pad {spec : Pad} {x z : V} {a : Absorption} (ha : absorbPad spec p = some a)
    (h : I.apply (.transpose p) [z] = some x) : Replaces (.pad spec) [x] (.pad (spec.behind p)) [z] (some p)

end Forms

section Operands

variable {I} {kind : OpKind} {views : List View} {p : List Nat} {a : Absorption} {xs zs : List V}

/-- The only operand of an operation that absorbs is a transpose. -/
theorem Operands.single {constants : List (Nat × Literal)} (ho : I.Operands constants views xs zs)
    (hp : ∃ q, View.pending q ∈ views) (hq : ∀ q, View.pending q ∈ views → q = p) {x : V} (hx : xs = [x]) :
    ∃ z, zs = [z] ∧ I.apply (.transpose p) [z] = some x := by
  subst hx
  obtain ⟨z, rfl⟩ := List.length_eq_one_iff.1 ho.length_eq
  obtain ⟨view, rfl⟩ := List.length_eq_one_iff.1 ho.length_views
  obtain ⟨q, hmem⟩ := hp
  have hview := List.mem_singleton.1 hmem
  subst hview
  have := hq q hmem
  subst this
  have hop := ho.get 0 _ x z rfl rfl rfl
  cases hop with
  | pending h => exact ⟨z, rfl, h⟩

theorem Operand.broadcast {constants c : List (Nat × Literal)} {slot : Nat} {view : View} {x z : V}
    (ho : I.Operand constants slot view x z) (hq : ∀ q, view = .pending q → q = p)
    (hc : broadcastOperand p slot view = .ok c) (hslot : ∀ new, (slot, new) ∈ constants ↔ (slot, new) ∈ c) :
    I.BroadcastOperand p x z := by
  cases ho with
  | pending h => exact .transposed (hq _ rfl ▸ h)
  | constant hx hnone =>
    obtain ⟨payload, hp, hc⟩ := bind_eq_ok.1 hc
    obtain rfl := pure_eq_ok.1 hc
    cases payload with
    | none => exact .constant hp hx hx
    | some new => exact absurd ((hslot new).2 (by simp)) (hnone new)
  | @payload literal new' x z hx hnew hz =>
    obtain ⟨payload, hp, hc⟩ := bind_eq_ok.1 hc
    obtain rfl := pure_eq_ok.1 hc
    have hmem := (hslot _).1 hnew
    cases payload with
    | none => simp at hmem
    | some new =>
      have he : new' = new := by simpa using hmem
      exact .constant hp hx (he ▸ hz)
  | concrete h =>
    rw [broadcastOperand] at hc
    split at hc
    · rename_i hzero
      exact .scalar (h.trans hzero)
    · cases hc

theorem Operand.concat {constants c : List (Nat × Literal)} {slot : Nat} {view : View} {x z : V}
    (ho : I.Operand constants slot view x z) (hq : ∀ q, view = .pending q → q = p)
    (hc : concatOperand p slot view = .ok c) (hslot : ∀ new, (slot, new) ∈ constants ↔ (slot, new) ∈ c) :
    I.ConcatOperand p x z := by
  rcases concatOperand_slot hc with ⟨q, rfl, _⟩ | ⟨literal, new, rfl, rfl, hrank, hnew⟩
  · cases ho with
    | pending h => exact .transposed (hq _ rfl ▸ h)
  · cases ho with
    | constant hx hnone => exact absurd ((hslot new).2 (List.mem_singleton_self _)) (hnone new)
    | @payload literal new' x z hx hmem hz =>
      have he : new' = new := by simpa using (hslot _).1 hmem
      exact .constant hrank hnew hx (he ▸ hz)

theorem Operands.replaces_broadcast {f : Binary} (h : absorbBroadcast (.binary f) views p = .ok a)
    (ho : I.Operands a.constants views xs zs) (hsome : ∃ q, View.pending q ∈ views)
    (hagree : ∀ q, View.pending q ∈ views → q = p) : I.Replaces p (.binary f) xs a.kind zs a.outputPerm := by
  obtain ⟨left, right, c, d, rfl, hc, hd, rfl⟩ := absorbBroadcast_eq_ok h
  obtain ⟨x₁, x₂, rfl⟩ := List.length_eq_two.1 ho.length_views.symm
  obtain ⟨z₁, z₂, rfl⟩ := List.length_eq_two.1 ho.length_eq
  have hslots : ∀ {slot slot' : Nat} {view : View} {e : List (Nat × Literal)} {new : Literal}, slot ≠ slot' →
      broadcastOperand p slot' view = .ok e → (slot, new) ∉ e := fun hne he hmem => by
    rcases broadcastOperand_slot he with rfl | ⟨_, _, _, rfl, _⟩
    · cases hmem
    · exact hne (congrArg Prod.fst (List.mem_singleton.1 hmem))
  have hleft := ho.get 0 left x₁ z₁ rfl rfl rfl
  have hright := ho.get 1 right x₂ z₂ rfl rfl rfl
  have hagree₁ : ∀ q, left = .pending q → q = p := fun q he => hagree q (by simp [he])
  have hagree₂ : ∀ q, right = .pending q → q = p := fun q he => hagree q (by simp [he])
  refine .broadcast (hleft.broadcast hagree₁ hc fun new => ?_) (hright.broadcast hagree₂ hd fun new => ?_) ?_
  · rw [List.mem_append, or_iff_left (hslots Nat.zero_ne_one hd)]
  · rw [List.mem_append, or_iff_right (hslots Nat.one_ne_zero hc)]
  · obtain ⟨q, hq⟩ := hsome
    rcases List.mem_cons.1 hq with he | he
    · subst he
      cases hleft with
      | pending h => exact .inl (hagree₁ q rfl ▸ h)
    · have he := List.mem_singleton.1 he
      subst he
      cases hright with
      | pending h => exact .inr (hagree₂ q rfl ▸ h)

/-- A payload of a concatenation is listed with its own slot. -/
theorem mem_concat_constants {constants : List (List (Nat × Literal))}
    (hall : List.Forall₂ (fun e c => concatOperand p e.2 e.1 = .ok c) views.zipIdx constants) {i : Nat} {view : View}
    (hi : views[i]? = some view) :
    ∃ c, concatOperand p i view = .ok c ∧ ∀ new, (i, new) ∈ constants.flatten ↔ (i, new) ∈ c := by
  have hget : ∀ (j : Nat) (hj : j < constants.length), ∃ view, views[j]? = some view ∧
      concatOperand p j view = .ok constants[j] := fun j hj => by
    have hj' : j < views.zipIdx.length := hall.length_eq.symm ▸ hj
    have hop := hall.get (i := j) hj' hj
    rw [List.length_zipIdx] at hj'
    exact ⟨views[j], List.getElem?_eq_getElem hj', by simpa using hop⟩
  have hlt : i < constants.length := by
    rw [← hall.length_eq, List.length_zipIdx]
    exact (List.getElem?_eq_some_iff.1 hi).1
  obtain ⟨view', hview, hop⟩ := hget i hlt
  obtain rfl := Option.some.inj (hi.symm.trans hview)
  refine ⟨constants[i], hop, fun new => ⟨fun hmem => ?_, fun hmem => List.mem_flatten.2 ⟨_, List.getElem_mem _, hmem⟩⟩⟩
  obtain ⟨c, hc, hmem⟩ := List.mem_flatten.1 hmem
  obtain ⟨j, hj, rfl⟩ := List.mem_iff_getElem.1 hc
  obtain ⟨_, _, hop'⟩ := hget j hj
  rcases concatOperand_slot hop' with ⟨_, _, hnil⟩ | ⟨_, new', _, hcons, _⟩
  · rw [hnil] at hmem
    cases hmem
  · have he : i = j := by
      rw [hcons] at hmem
      exact congrArg Prod.fst (List.mem_singleton.1 hmem)
    subst he
    exact hmem

theorem Operands.replaces_concat {axis : Nat} (h : absorbConcat axis views p = .ok a)
    (ho : I.Operands a.constants views xs zs) (hagree : ∀ q, View.pending q ∈ views → q = p) :
    I.Replaces p (.concat axis) xs a.kind zs a.outputPerm := by
  obtain ⟨source, constants, hsource, hall, rfl⟩ := absorbConcat_eq_ok h
  obtain ⟨haxis, rfl⟩ := List.getElem?_eq_some_iff.1 hsource
  rw [← List.getD_eq_getElem p 0 haxis]
  refine .concat haxis (List.forall₂_iff_get.2 ⟨ho.length_eq.symm, fun i hi hi' => ?_⟩)
  have hv : i < views.length := ho.length_views.symm ▸ hi
  have hview := List.getElem?_eq_getElem hv
  obtain ⟨c, hc, hslot⟩ := mem_concat_constants hall hview
  exact (ho.get i _ _ _ hview (List.getElem?_eq_getElem hi) (List.getElem?_eq_getElem hi')).concat
    (fun q he => hagree q (he ▸ List.getElem_mem hv)) hc hslot

/-- Every absorption is of one of the forms. -/
theorem Operands.replaces (h : absorb kind views p = .ok a) (ho : I.Operands a.constants views xs zs)
    (harity : ∀ arity ∈ kind.arity?, arity.admits xs.length) :
    p.Perm (range p.length) ∧ I.Replaces p kind xs a.kind zs a.outputPerm := by
  obtain ⟨⟨hsome, hperm, hagree⟩, hrule⟩ := absorb_cases h
  refine ⟨isPermutation_iff.1 hperm, ?_⟩
  have hsingle : kind.arity? = some (.exactly 1) → ∃ x z, xs = [x] ∧ zs = [z] ∧ I.apply (.transpose p) [z] = some x := by
    intro ha
    have hone := harity _ ha
    rw [Arity.admits, beq_iff_eq] at hone
    obtain ⟨x, hx⟩ := List.length_eq_one_iff.1 hone
    obtain ⟨z, hz, happ⟩ := ho.single hsome hagree hx
    exact ⟨x, z, hx, hz, happ⟩
  cases hrule with
  | pointwise hk ha =>
    subst ha
    obtain ⟨x, z, rfl, rfl, happ⟩ := hsingle (by cases kind <;> first | rfl | cases hk)
    exact .pointwise hk happ
  | reduce spec hk ha =>
    subst hk
    obtain ⟨x, z, rfl, rfl, happ⟩ := hsingle rfl
    obtain ⟨hkind, _, hout⟩ := absorbReduce_behind ha
    rw [hkind]
    exact .reduce happ hout
  | pad spec hk ha =>
    subst hk
    obtain ⟨x, z, rfl, rfl, happ⟩ := hsingle rfl
    obtain ⟨rfl, _⟩ := absorbPad_behind ha
    exact .pad ha happ
  | broadcast f hk ha =>
    subst hk
    exact ho.replaces_broadcast ha hsome hagree
  | concat axis hk ha =>
    subst hk
    exact ho.replaces_concat ha hagree

end Operands

end Relayout.Interpretation
