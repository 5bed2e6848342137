import Relayout.Proofs.Operands
import Relayout.Proofs.Preservation

/-!
# Types under transpose reduction

Types are a lawful reading (`Typing.reading_lawful`): every rule of absorption commutes with transposes of types, symbolic
extents and custom operations included. A well-typed block reads its recorded types (`Block.reads_types`), so what
transpose reduction leaves is well typed and returns values of the declared types (`reduceTransposes_types`). It never trips
over its own changes either, as long as the extents of constants can be multiplied in any order
(`exists_reduceTransposes`); in `vast` they cannot.
-/

namespace Relayout

open Perm Layout Interpretation
open List (range)

namespace Typing

/-- Operations by the types of their results. -/
def reading : Interpretation TensorType where
  apply kind types := (resultType kind types).toOption
  type := id
  customs := True

theorem reading_apply {kind : OpKind} {types : List TensorType} {t : TensorType} :
    reading.apply kind types = some t ↔ resultType kind types = .ok t := by
  change (resultType kind types).toOption = some t ↔ _
  cases resultType kind types <;> simp [Except.toOption]

theorem reading_transpose {p : List Nat} {x y : TensorType} :
    reading.apply (.transpose p) [x] = some y ↔ TensorType.IsTranspose p x y := by
  rw [reading_apply, transpose_eq_ok]
  simp

theorem reading_const {literal : Literal} {t : TensorType} :
    reading.apply (.const literal) [] = some t ↔ t = literal.type := by
  rw [reading_apply, const_eq_ok]
  simp

theorem pointwise_eq_ok {kind : OpKind} (hk : kind.isPointwise) {x y : TensorType} :
    resultType kind [x] = .ok y ↔ y = x := by
  cases kind with
  | unary f => rw [resultType, single_eq_ok]; simp [eq_comm]
  | activation f => rw [resultType, single_eq_ok]; simp [eq_comm]
  | _ => cases hk

variable {p : List Nat} {x z : TensorType}

theorem broadcastOperand_fits (hp : p.Perm (range p.length)) (h : reading.BroadcastOperand p x z) :
    Fits (.fixed 1) p x.dims z.dims ∧ z.elem = x.elem := by
  cases h with
  | transposed h =>
    have ht := reading_transpose.1 h
    rw [ht.eq]
    exact ⟨fits_of_perm ht.perm, rfl⟩
  | constant h hx hz =>
    rw [reading_const.1 hx, reading_const.1 hz]
    exact broadcastConstant_fits hp h
  | scalar h =>
    rw [List.length_eq_zero_iff.1 (show x.dims.length = 0 from h)]
    exact ⟨fits_nil hp, rfl⟩

/-- One of the operands has all axes. -/
theorem broadcastOperand_rank {x₁ x₂ z₁ z₂ : TensorType} (h₁ : Fits (.fixed 1) p x₁.dims z₁.dims)
    (h₂ : Fits (.fixed 1) p x₂.dims z₂.dims)
    (h : reading.apply (.transpose p) [z₁] = some x₁ ∨ reading.apply (.transpose p) [z₂] = some x₂) :
    max x₁.rank x₂.rank = p.length ∧ max z₁.rank z₂.rank = p.length := by
  have hx₁ : x₁.rank ≤ p.length := h₁.length_le
  have hx₂ : x₂.rank ≤ p.length := h₂.length_le
  have hz₁ : z₁.rank ≤ p.length := h₁.length_le'
  have hz₂ : z₂.rank ≤ p.length := h₂.length_le'
  rcases h with h | h
  · have ht := reading_transpose.1 h
    have := ht.rank_eq
    have := ht.rank_eq'
    omega
  · have ht := reading_transpose.1 h
    have := ht.rank_eq
    have := ht.rank_eq'
    omega

theorem concatOperand_isTranspose (hp : p.Perm (range p.length)) (h : reading.ConcatOperand p x z) :
    TensorType.IsTranspose p z x := by
  cases h with
  | transposed h => exact reading_transpose.1 h
  | constant hrank h hx hz =>
    rw [reading_const.1 hx, reading_const.1 hz]
    exact Literal.permuted_isTranspose (hrank.symm ▸ hp) h

/-- Rule by rule, types of what runs on untransposed data are those of before, untransposed. -/
theorem reading_replaces {kind kind' : OpKind} {xs zs : List TensorType} {q : Option (List Nat)} {y : TensorType}
    (hp : p.Perm (range p.length)) (h : reading.Replaces p kind xs kind' zs q) (hy : resultType kind xs = .ok y) :
    ∃ y', resultType kind' zs = .ok y' ∧ reading.Behind q y' y := by
  cases h with
  | pointwise hk h =>
    have := (pointwise_eq_ok hk).1 hy
    subst this
    exact ⟨_, (pointwise_eq_ok hk).2 rfl, h⟩
  | broadcast h₁ h₂ h =>
    obtain ⟨hf₁, he₁⟩ := broadcastOperand_fits hp h₁
    obtain ⟨hf₂, he₂⟩ := broadcastOperand_fits hp h₂
    obtain ⟨y', hy', ht⟩ := broadcast_types hf₁ hf₂ he₁ he₂ hp (broadcastOperand_rank hf₁ hf₂ h).1
      (broadcastOperand_rank hf₁ hf₂ h).2 hy
    exact ⟨y', hy', reading_transpose.2 ht⟩
  | reduce h hq =>
    obtain ⟨y', hy', ht⟩ := reduce_types (reading_transpose.1 h) hy
    refine ⟨y', hy', ?_⟩
    rcases hq with rfl | ⟨rfl, hid⟩
    · exact reading_transpose.2 ht
    · exact ht.eq_of_range hid
  | concat haxis h =>
    have hall := h.imp fun _ _ h => concatOperand_isTranspose hp h
    obtain ⟨y', hy', ht⟩ := concat_types hall.flip hy
    exact ⟨y', hy', reading_transpose.2 ht⟩
  | pad ha h =>
    obtain ⟨y', hy', ht⟩ := pad_types (reading_transpose.1 h) ha hy
    exact ⟨y', hy', reading_transpose.2 ht⟩

theorem reading_lawful : reading.Lawful where
  typed {kind xs y} h := by
    rw [reading_apply] at h
    rw [show xs.map reading.type = xs from List.map_id xs]
    exact h
  inverse h := reading_transpose.2 (reading_transpose.1 h).inverse
  cancel hc h h' := (reading_transpose.1 h).cancel (reading_transpose.1 h') hc
  identity x := reading_apply.2 ((pointwise_eq_ok rfl).2 rfl)
  payload _ _ _ _ := ⟨_, reading_const.2 rfl⟩
  absorb {kind views p a xs zs y} ha hy ho := by
    rw [reading_apply] at hy
    obtain ⟨hp, hrep⟩ := ho.replaces ha (arity_of_resultType hy)
    obtain ⟨y', hy', hb⟩ := reading_replaces hp hrep hy
    exact ⟨y', reading_apply.2 hy', hb⟩

end Typing

/-! ## Well-typed blocks -/

/-- The recorded types of a well-typed block are a reading of it. -/
theorem Block.reads_types {b : Block} (hc : b.check = .ok ()) (ht : b.WellTyped) :
    Typing.reading.Reads b fun v => (b.type? v).getD ⟨.f32, []⟩ := by
  obtain ⟨hs, har, _⟩ := check_eq_ok.1 hc
  have htypes : ∀ v ∈ b.defined, b.type? v = some ((b.type? v).getD ⟨.f32, []⟩) := fun v hv => by
    obtain ⟨t, ht⟩ := hs.exists_type hv
    rw [ht]
    rfl
  refine ⟨hs, fun o ho => ?_, htypes⟩
  obtain ⟨types, hstatic, hrec⟩ := (retype_typed hs har ht).2 o ho
  cases hk : o.kind.isCustom with
  | true =>
    rw [Holds, if_pos hk]
    trivial
  | false =>
    obtain ⟨ins, t, hins, hresult, rfl⟩ := (static_eq_ok hk).1 hstatic
    obtain ⟨y, ys, hy, hnil, hout⟩ := List.forall₂_cons_right_iff.1 (recorded_eq_ok.1 hrec)
    rw [List.forall₂_nil_right_iff.1 hnil] at hout
    rw [holds_iff hk]
    refine ⟨y, hout, ?_⟩
    rw [map_getD_of_forall₂ hins, hy]
    exact Typing.reading_apply.2 hresult

namespace Layout

/-- The outcome of transpose reduction passes the check, is well typed, and returns values of the same types. -/
theorem reduceTransposes_types [IdSpace] {config : Config} {b b' : Block} {r : PassResult} (ht : b.WellTyped)
    (hrun : reduceTransposes config Typing.static b = .ok (r, b')) :
    b'.check = .ok () ∧ b'.WellTyped ∧ b'.outputTypes = b.outputTypes := by
  have hreads := Block.reads_types (reduceTransposes_eq_ok.1 hrun).1 ht
  obtain ⟨types, hreads', hagree⟩ := hreads.of_reduceTransposes Typing.reading_lawful hrun
  refine ⟨hreads'.check Typing.reading_lawful, hreads'.wellTyped Typing.reading_lawful, ?_⟩
  rw [hreads'.outputTypes_eq, hreads.outputTypes_eq, hagree.outputs]

/-- **Transpose reduction does not trip over its own changes.** With ids without end, it succeeds on every block that passes
the check and is well typed, if its constants have the size of their types and their extents can be multiplied in any
order. The outcome passes the check, is well typed, and returns values of the same types. -/
theorem exists_reduceTransposes [IdSpace] (hids : IdSpace.Unbounded) (maxRounds : Nat) {b : Block}
    (hc : b.check = .ok ()) (ht : b.WellTyped) (hsized : ∀ l ∈ b.literals, l.Sized)
    (hword : ∀ l ∈ b.literals, ∀ dims, l.type.extents? = some dims → RowMajor.WordSized dims) :
    ∃ r b', reduceTransposes ⟨maxRounds, .fail⟩ Typing.static b = .ok (r, b') ∧ b'.check = .ok () ∧ b'.WellTyped ∧
      b'.outputTypes = b.outputTypes := by
  obtain ⟨r, b', hrun⟩ := (Block.reads_types hc ht).exists_reduction hids Typing.reading_lawful
    (fun l hl => (hsized l hl).movable (hword l hl)) ⟨maxRounds, .fail⟩
  exact ⟨r, b', hrun, reduceTransposes_types ht hrun⟩

/-- A vector is added along the last axis of a transposed matrix of unknown length, which is transposed back. Something
unknown reads the sum. -/
def tinted : Block where
  name := "tinted"
  inputs := [⟨0⟩]
  outputs := [⟨4⟩]
  operations := [
    ⟨⟨0⟩, .transpose [1, 0], [⟨0⟩], [⟨1⟩]⟩,
    ⟨⟨1⟩, .const ⟨.ofExtents .f16 [2], [0, 60, 0, 64]⟩, [], [⟨2⟩]⟩,
    ⟨⟨2⟩, .binary .add, [⟨1⟩, ⟨2⟩], [⟨3⟩]⟩,
    ⟨⟨3⟩, .transpose [1, 0], [⟨3⟩], [⟨4⟩]⟩,
    ⟨⟨4⟩, .custom "probe", [⟨3⟩], [⟨5⟩]⟩]
  values := [
    ⟨⟨0⟩, "x", ⟨.f16, [.fixed 2, .dynamic "n"]⟩⟩,
    ⟨⟨1⟩, "t", ⟨.f16, [.dynamic "n", .fixed 2]⟩⟩,
    ⟨⟨2⟩, "c", .ofExtents .f16 [2]⟩,
    ⟨⟨3⟩, "s", ⟨.f16, [.dynamic "n", .fixed 2]⟩⟩,
    ⟨⟨4⟩, "y", ⟨.f16, [.fixed 2, .dynamic "n"]⟩⟩,
    ⟨⟨5⟩, "p", .ofExtents .f16 []⟩]

theorem exists_reduce_tinted : let _ := IdSpace.unbounded
    tinted.check = .ok () ∧ tinted.WellTyped ∧ (∀ l ∈ tinted.literals, l.Sized) ∧
      (∀ l ∈ tinted.literals, ∀ dims ∈ l.type.extents?, RowMajor.WordSized dims) ∧
      ∃ r b', reduceTransposes ⟨1, .fail⟩ Typing.static tinted = .ok (r, b') ∧ b'.check = .ok () ∧ b'.WellTyped ∧
        b'.outputTypes = tinted.outputTypes := by
  have hc : tinted.check = .ok () := by decide
  have ht : tinted.WellTyped := by decide
  have hsized : ∀ l ∈ tinted.literals, l.Sized := by decide
  have hword : ∀ l ∈ tinted.literals, ∀ dims ∈ l.type.extents?, RowMajor.WordSized dims := by decide
  exact ⟨hc, ht, hsized, hword, @exists_reduceTransposes IdSpace.unbounded rfl 1 _ hc ht hsized hword⟩

/-- An empty constant is added to an empty tensor that has been transposed. Its extents can be multiplied as they stand,
but not in the order in which they would have to be put. -/
def vast : Block where
  name := "vast"
  inputs := [⟨0⟩]
  outputs := [⟨4⟩]
  operations := [
    ⟨⟨0⟩, .transpose [2, 0, 1], [⟨0⟩], [⟨1⟩]⟩,
    ⟨⟨1⟩, .const ⟨.ofExtents .f32 [0, 2 ^ 32, 2 ^ 32], []⟩, [], [⟨2⟩]⟩,
    ⟨⟨2⟩, .binary .add, [⟨1⟩, ⟨2⟩], [⟨3⟩]⟩,
    ⟨⟨3⟩, .transpose [1, 2, 0], [⟨3⟩], [⟨4⟩]⟩]
  values := [
    ⟨⟨0⟩, "x", .ofExtents .f32 [2 ^ 32, 2 ^ 32, 0]⟩,
    ⟨⟨1⟩, "t", .ofExtents .f32 [0, 2 ^ 32, 2 ^ 32]⟩,
    ⟨⟨2⟩, "c", .ofExtents .f32 [0, 2 ^ 32, 2 ^ 32]⟩,
    ⟨⟨3⟩, "s", .ofExtents .f32 [0, 2 ^ 32, 2 ^ 32]⟩,
    ⟨⟨4⟩, "y", .ofExtents .f32 [2 ^ 32, 2 ^ 32, 0]⟩]

theorem reduce_vast : let _ := IdSpace.unbounded
    vast.check = .ok () ∧ vast.WellTyped ∧ (∀ l ∈ vast.literals, l.Sized) ∧
      reduceTransposes {} Typing.static vast = .error (.crash .overflow) := by
  refine ⟨by decide, by decide, by decide, ?_⟩
  cbv

end Layout

end Relayout
