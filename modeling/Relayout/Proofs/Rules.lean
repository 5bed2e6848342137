import Relayout.Proofs.Permutation
import Relayout.Proofs.Results
import Relayout.Typing
import Relayout.WellFormed

/-!
# Typing rules

When an operation has a type and which, rule by rule, without the order in which operands and attributes are looked at.
-/

namespace Relayout

/-- A map over a list with positions. -/
theorem mapM_zipIdx_eq_ok {ε α β : Type} {f : α × Nat → Except ε β} {xs : List α} {ys : List β} (a : α) (b : β) :
    xs.zipIdx.mapM f = .ok ys ↔ ys.length = xs.length ∧ ∀ i < xs.length, f (xs.getD i a, i) = .ok (ys.getD i b) := by
  rw [Perm.zipIdx_eq_map xs a, List.mapM_map, mapM_range_eq_ok]
  refine and_congr_right fun hlen => ?_
  constructor
  · intro h i hi
    have hi' : i < ys.length := hlen.symm ▸ hi
    rw [List.getD_eq_getElem ys b hi']
    exact h i hi'
  · intro h i hi
    rw [← List.getD_eq_getElem ys b hi]
    exact h i (hlen ▸ hi)

namespace TensorType

/-- The type with its axes rearranged. -/
def transposed (t : TensorType) (p : List Nat) : TensorType :=
  ⟨t.elem, Perm.selectD t.dims p (.fixed 1)⟩

/-- `y` is the type of a transpose of what has type `x`. -/
structure IsTranspose (p : List Nat) (x y : TensorType) : Prop where
  perm : p.Perm (List.range x.rank)
  eq : y = x.transposed p

variable {t x y z : TensorType} {p q : List Nat}

@[simp] theorem rank_transposed : (t.transposed p).rank = p.length :=
  Perm.length_selectD ..

namespace IsTranspose

theorem elem_eq (h : IsTranspose p x y) : y.elem = x.elem := by
  rw [h.eq]
  rfl

theorem rank_eq (h : IsTranspose p x y) : y.rank = p.length := by
  rw [h.eq, rank_transposed]

theorem rank_eq' (h : IsTranspose p x y) : x.rank = p.length :=
  (Perm.length_of_perm h.perm).symm

theorem perm_self (h : IsTranspose p x y) : p.Perm (List.range p.length) :=
  h.rank_eq' ▸ h.perm

theorem getD_eq (h : IsTranspose p x y) {i : Nat} (hi : i < p.length) :
    y.dims.getD i (.fixed 1) = x.dims.getD (p.getD i 0) (.fixed 1) := by
  rw [h.eq]
  exact Perm.getD_selectD hi _

theorem inverse (h : IsTranspose p x y) : IsTranspose (Perm.inverse p) y x := by
  refine ⟨?_, ?_⟩
  · rw [h.rank_eq]
    exact Perm.inverse_perm h.perm_self
  · rw [h.eq, transposed, transposed, Perm.selectD_inverse h.perm rfl]

theorem cancel (h : IsTranspose p x y) (h' : IsTranspose q y z) (hc : Perm.cancels p q) : z = x := by
  rw [h'.eq, h.eq, transposed, transposed, Perm.selectD_cancels hc h.rank_eq']

/-- A transpose that leaves all axes in their places. -/
theorem eq_of_range (h : IsTranspose p x y) (hid : p = List.range p.length) : x = y := by
  rw [h.eq, transposed, hid, Perm.selectD_range h.rank_eq']

theorem compatible (h : IsTranspose p x y) : y.compatible x := by
  simp [TensorType.compatible, h.elem_eq, h.rank_eq, h.rank_eq']

end IsTranspose

/-- Every type of the rank is the type of a transpose. -/
theorem isTranspose_untransposed (hp : p.Perm (List.range y.rank)) : IsTranspose p (y.transposed (Perm.inverse p)) y := by
  refine ⟨?_, by rw [transposed, transposed, Perm.selectD_inverse_left hp rfl]⟩
  rw [rank_transposed, Perm.length_inverse, Perm.length_of_perm hp]
  exact hp

end TensorType

namespace Typing

variable {types : List TensorType} {t : TensorType}

theorem const_eq_ok {literal : Literal} :
    resultType (.const literal) types = .ok t ↔ types = [] ∧ t = literal.type := by
  rw [resultType]
  split
  · rename_i h
    simp [h, eq_comm]
  · rename_i h
    simp [h]

theorem single_eq_ok {op : String} {types : List TensorType} {rule : TensorType → Except ShapeCause TensorType}
    {t : TensorType} : single op types rule = .ok t ↔ ∃ type, types = [type] ∧ rule type = .ok t := by
  match types with
  | [] => simp [single]
  | [type] => simp [single, mapError_eq_ok]
  | _ :: _ :: _ => simp [single]

/-- A transpose is by a permutation of the axes of its operand. -/
theorem transpose_eq_ok {p : List Nat} {types : List TensorType} {t : TensorType} :
    resultType (.transpose p) types = .ok t ↔ ∃ u, types = [u] ∧ TensorType.IsTranspose p u t := by
  rw [resultType, single_eq_ok]
  refine exists_congr fun u => and_congr_right fun _ => ?_
  rw [transposeType]
  constructor
  · intro h
    split at h
    · rename_i hp
      have hperm : p.Perm (List.range u.rank) := hp.1 ▸ Perm.isPermutation_iff.1 hp.2
      rw [Perm.select?_eq_some (fun axis => (Perm.mem_of_perm hperm).1) (.fixed 1)] at h
      exact ⟨hperm, (Except.ok.inj h).symm⟩
    · cases h
  · rintro ⟨hperm, rfl⟩
    have hlen := Perm.length_of_perm hperm
    rw [if_pos ⟨hlen, Perm.isPermutation_iff.2 (hlen.symm ▸ hperm)⟩,
      Perm.select?_eq_some (fun axis => (Perm.mem_of_perm hperm).1) (.fixed 1)]
    rfl

theorem binary_eq_ok {f : Binary} : resultType (.binary f) types = .ok t ↔
    ∃ left right dims, types = [left, right] ∧ left.elem = right.elem ∧
      joinDims? left.dims.reverse right.dims.reverse = some dims ∧ t = ⟨left.elem, dims.reverse⟩ := by
  match types with
  | [left, right] =>
    rw [resultType]
    constructor
    · intro h
      split at h
      · cases h
      · rename_i he
        rw [mapError_eq_ok, broadcastType] at h
        split at h
        · rename_i dims hdims
          exact ⟨left, right, dims, rfl, not_not.1 he, hdims, (Except.ok.inj h).symm⟩
        · cases h
    · rintro ⟨left', right', dims, ⟨⟩, he, hdims, rfl⟩
      rw [if_neg (not_not.2 he), mapError_eq_ok, broadcastType, hdims]
  | [] => simp [resultType]
  | [_] => simp [resultType]
  | _ :: _ :: _ :: _ => simp [resultType]

/-- What goes with the one type that an operation asks for. -/
theorem exists_single {α : Type} {R : α → TensorType → Prop} {xs : List α} {op : String}
    {rule : TensorType → Except ShapeCause TensorType} (hxs : List.Forall₂ R xs types)
    (ht : single op types rule = .ok t) : ∃ x u, xs = [x] ∧ types = [u] ∧ R x u := by
  obtain ⟨u, rfl, _⟩ := single_eq_ok.1 ht
  obtain ⟨x, _, hx, hnil, rfl⟩ := List.forall₂_cons_right_iff.1 hxs
  obtain rfl := List.forall₂_nil_right_iff.1 hnil
  exact ⟨x, u, rfl, rfl, hx⟩

/-- What goes with the two types of a binary operation. -/
theorem exists_pair {α : Type} {R : α → TensorType → Prop} {xs : List α} {f : Binary} (hxs : List.Forall₂ R xs types)
    (ht : resultType (.binary f) types = .ok t) : ∃ x y u v, xs = [x, y] ∧ types = [u, v] ∧ R x u ∧ R y v := by
  obtain ⟨u, v, _, rfl, _⟩ := binary_eq_ok.1 ht
  obtain ⟨x, _, hx, hrest, rfl⟩ := List.forall₂_cons_right_iff.1 hxs
  obtain ⟨y, _, hy, hnil, rfl⟩ := List.forall₂_cons_right_iff.1 hrest
  obtain rfl := List.forall₂_nil_right_iff.1 hnil
  exact ⟨x, y, u, v, rfl, rfl, hx, hy⟩

/-- An operation that has a type takes as many operands as it gets. -/
theorem arity_of_resultType {kind : OpKind} {types : List TensorType} {t : TensorType}
    (h : resultType kind types = .ok t) : ∀ arity ∈ kind.arity?, arity.admits types.length := by
  have hone : ∀ {rule}, single kind.name types rule = .ok t → Arity.admits (.exactly 1) types.length := fun h => by
    obtain ⟨u, rfl, _⟩ := single_eq_ok.1 h
    rfl
  rintro arity harity
  cases kind with
  | const literal =>
    cases harity
    rw [(const_eq_ok.1 h).1]
    rfl
  | binary f =>
    cases harity
    obtain ⟨_, _, _, rfl, _⟩ := binary_eq_ok.1 h
    rfl
  | concat axis =>
    cases harity
    cases types with
    | nil => cases h
    | cons u types => rfl
  | custom name => cases harity
  | transpose p => cases harity; exact hone h
  | unary f => cases harity; exact hone h
  | activation f => cases harity; exact hone h
  | reduce spec => cases harity; exact hone h
  | pad spec => cases harity; exact hone h
  | pool spec => cases harity; exact hone h

end Typing

end Relayout
