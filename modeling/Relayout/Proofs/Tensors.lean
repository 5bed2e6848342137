import Relayout.Proofs.Grouping
import Relayout.Proofs.Types

/-!
# Tensors under transpose reduction

An operation that has a type computes a tensor of the extents of that type (`evaluate_extents`). If reductions list one axis,
tensors with their element types are therefore a reading of operations, and a lawful one (`TypedTensor.reading_lawful`):
every rule of absorption commutes with transposes of tensors, element by element, whatever the functions on elements are.

Extents are positive. Without that, a reflecting padding of an empty tensor would depend on which of its axes are padded, and
extents that can be multiplied in one order could overflow in another.
-/

namespace Relayout

open Perm Layout Interpretation
open List (range)

/-- A tensor of positive extents, with the element type of the value that it is computed for. -/
structure TypedTensor (α : Type) where
  elem : ElemType
  tensor : Tensor α
  pos : ∀ d ∈ tensor.dims, 0 < d

variable {α : Type}

def TypedTensor.type (x : TypedTensor α) : TensorType :=
  .ofExtents x.elem x.tensor.dims

theorem TypedTensor.ext {x y : TypedTensor α} (he : x.elem = y.elem) (ht : x.tensor = y.tensor) : x = y := by
  obtain ⟨_, _, _⟩ := x
  obtain ⟨_, _, _⟩ := y
  obtain rfl : _ = _ := he
  obtain rfl : _ = _ := ht
  rfl

/-- Positive extents that can be counted can be multiplied in any order. -/
theorem TypedTensor.wordSized (x : TypedTensor α) : RowMajor.WordSized x.tensor.dims :=
  x.tensor.wordSized_of_pos x.pos

theorem TypedTensor.rank_type (x : TypedTensor α) : x.type.rank = x.tensor.rank := by
  rw [type, TensorType.rank, TensorType.ofExtents, List.length_map, Tensor.rank]

theorem TypedTensor.dims_transposed (x : TypedTensor α) {p : List Nat} (hp : p.Perm (range x.tensor.rank)) :
    (x.type.transposed p).dims = (selectD x.tensor.dims p 0).map .fixed := by
  rw [← selectD_congr (fun i hi => (mem_of_perm hp).1 hi) 1 0, ← selectD_map]
  rfl

/-- A reduction lists exactly one axis. -/
def OpKind.reducesOneAxis : OpKind → Bool
  | .reduce spec => spec.axes.length == 1
  | _ => true

/-! ## Extents of results -/

variable [Kernels α]

namespace OpKind

/-- A custom operation has no kernel. -/
theorem isCustom_of_evaluate {kind : OpKind} {args : List (Tensor α)} {x : Tensor α}
    (h : kind.evaluate args = .ok x) : kind.isCustom = false := by
  cases kind with
  | custom name => cases h
  | _ => rfl

theorem exists_evaluate_pointwise {kind : OpKind} (hk : kind.isPointwise) :
    ∃ f : α → α, ∀ x : Tensor α, kind.evaluate [x] = .ok (x.map f) := by
  cases kind with
  | unary op => exact ⟨Kernels.unary op, fun x => rfl⟩
  | activation spec => exact ⟨Kernels.activation spec, fun x => rfl⟩
  | _ => cases hk

theorem exists_axes_eq {spec : Reduce} (h : (OpKind.reduce spec).reducesOneAxis) : ∃ axis, spec.axes = [axis] :=
  List.length_eq_one_iff.1 (beq_iff_eq.1 h)

end OpKind

namespace Tensor

/-- The type of a pooling has the extents that it announces. -/
theorem pooledDims_of_type {α : Type} {spec : Pool} {x : Tensor α} {u t : TensorType} (hu : u.dims = x.dims.map .fixed)
    (ht : Typing.resultType (.pool spec) [u] = .ok t) : t.dims = (pooledDims x.dims spec).map .fixed := by
  rw [Typing.resultType, Typing.single_eq_ok] at ht
  obtain ⟨_, ⟨⟩, hrule⟩ := ht
  unfold Typing.poolType at hrule
  dsimp only at hrule
  split at hrule
  · cases hrule
  · obtain ⟨dims, hmap, hdone⟩ := bind_eq_ok.1 hrule
    obtain rfl := pure_eq_ok.1 hdone
    have hrank : u.rank = x.dims.length := by rw [TensorType.rank, hu, List.length_map]
    rw [hu, hrank, List.zip_map_left, List.zipIdx_map, mapM_eq_ok, List.forall₂_map_left_iff] at hmap
    rw [pooledDims]
    conv_rhs => rw [← List.zipIdx_map_fst 0 (x.dims.zip (spec.windows x.dims.length)), List.map_map, List.map_map]
    rw [eq_comm, ← List.forall₂_eq_eq_eq, List.forall₂_map_left_iff]
    refine hmap.imp fun e d hd => ?_
    obtain ⟨⟨extent, _ | ⟨kernel, stride⟩⟩, i⟩ := e
    · exact Except.ok.inj hd
    · change (if kernel = 0 ∨ stride = 0 ∨ extent < kernel then Except.error _ else _) = _ at hd
      split at hd
      · cases hd
      · exact Except.ok.inj hd

theorem pool_extents {α β : Type} {spec : Pool} {f : List α → β} {x : Tensor α} {y : Tensor β} {u t : TensorType}
    (hu : u.dims = x.dims.map .fixed) (ht : Typing.resultType (.pool spec) [u] = .ok t) (hy : x.pool f spec = .ok y) :
    t.dims = y.dims.map .fixed := by
  rw [pooledDims_of_type hu ht]
  unfold pool at hy
  dsimp only at hy
  split at hy
  · cases hy
  · split at hy
    · cases hy
    · obtain ⟨_, _, hy⟩ := bind_eq_ok.1 hy
      obtain ⟨_, _, hy⟩ := bind_eq_ok.1 hy
      obtain ⟨count, hcount, hy⟩ := bind_eq_ok.1 hy
      rw [((tabulate_eq_ok (RowMajor.size?_eq_some.1 (reserve_eq_ok.1 hcount).1).2.symm).1 hy).1]

end Tensor

/-- The type of an operation has the extents of its result. -/
theorem evaluate_extents {kind : OpKind} {xs : List (Tensor α)} {types : List TensorType} {t : TensorType} {y : Tensor α}
    (hxs : List.Forall₂ (fun x u => u.dims = x.dims.map .fixed) xs types) (ht : Typing.resultType kind types = .ok t)
    (hy : kind.evaluate xs = .ok y) : t.dims = y.dims.map .fixed := by
  cases kind with
  | const literal =>
    obtain ⟨_, rfl⟩ := Typing.const_eq_ok.1 ht
    exact (Tensor.ofLiteral_eq_ok.1 hy).1
  | transpose p =>
    obtain ⟨x, u, rfl, rfl, hx⟩ := Typing.exists_single hxs ht
    obtain ⟨_, ⟨⟩, hperm, rfl⟩ := Typing.transpose_eq_ok.1 ht
    have hp : p.Perm (range x.rank) := by rwa [TensorType.rank, hx, List.length_map] at hperm
    rw [((Tensor.transpose_eq_ok hp).1 hy).2.1, ← selectD_congr (fun i hi => (mem_of_perm hp).1 hi) 1 0, ← selectD_map, ← hx]
    rfl
  | unary op =>
    obtain ⟨x, u, rfl, rfl, hx⟩ := Typing.exists_single hxs ht
    obtain rfl := (Typing.pointwise_eq_ok rfl).1 ht
    obtain rfl := Except.ok.inj hy
    exact hx
  | activation spec =>
    obtain ⟨x, u, rfl, rfl, hx⟩ := Typing.exists_single hxs ht
    obtain rfl := (Typing.pointwise_eq_ok rfl).1 ht
    obtain rfl := Except.ok.inj hy
    exact hx
  | binary op =>
    obtain ⟨x₁, x₂, u₁, u₂, rfl, rfl, hx₁, hx₂⟩ := Typing.exists_pair hxs ht
    exact Tensor.broadcast_extents hx₁ hx₂ ht hy
  | reduce spec =>
    obtain ⟨x, u, rfl, rfl, hx⟩ := Typing.exists_single hxs ht
    exact Tensor.reduce_extents hx ht hy
  | concat axis => exact Tensor.concat_extents hxs ht hy
  | pad spec =>
    obtain ⟨x, u, rfl, rfl, hx⟩ := Typing.exists_single hxs ht
    exact Tensor.pad_extents hx ht hy
  | pool spec =>
    obtain ⟨x, u, rfl, rfl, hx⟩ := Typing.exists_single hxs ht
    exact Tensor.pool_extents hx ht hy
  | custom name => cases hy

omit [Kernels α] in
theorem TypedTensor.extents_type (xs : List (TypedTensor α)) :
    List.Forall₂ (fun x u => u.dims = x.dims.map .fixed) (xs.map tensor) (xs.map type) := by
  rw [List.forall₂_map_left_iff, List.forall₂_map_right_iff, List.forall₂_same]
  exact fun x _ => rfl

/-! ## Tensors as meanings -/

namespace TypedTensor

/-- Operations by the tensors that they compute. -/
def reading (α : Type) [Kernels α] : Interpretation (TypedTensor α) where
  apply kind xs :=
    match Typing.resultType kind (xs.map type), kind.evaluate (xs.map tensor) with
    | .ok t, .ok y =>
      if h : kind.reducesOneAxis ∧ ∀ d ∈ y.dims, 0 < d then some ⟨t.elem, y, h.2⟩ else none
    | _, _ => none
  type := type
  customs := False

variable {kind : OpKind} {p : List Nat} {xs : List (TypedTensor α)} {x y z : TypedTensor α}

theorem reading_apply : (reading α).apply kind xs = some y ↔ kind.reducesOneAxis ∧
    Typing.resultType kind (xs.map type) = .ok y.type ∧ kind.evaluate (xs.map tensor) = .ok y.tensor := by
  change (match Typing.resultType kind (xs.map type), kind.evaluate (xs.map tensor) with
    | .ok t, .ok u => if h : kind.reducesOneAxis ∧ ∀ d ∈ u.dims, 0 < d then some (⟨t.elem, u, h.2⟩ : TypedTensor α) else none
    | _, _ => none) = some y ↔ _
  cases ht : Typing.resultType kind (xs.map type) with
  | error e => simp
  | ok t =>
    cases hu : kind.evaluate (xs.map tensor) with
    | error e => simp
    | ok u =>
      constructor
      · intro h
        dsimp only at h
        split at h
        · rename_i hk
          obtain rfl := Option.some.inj h
          refine ⟨hk.1, ?_, rfl⟩
          rw [type, TensorType.ofExtents, ← evaluate_extents (extents_type _) ht hu]
        · cases h
      · rintro ⟨haxis, htype, hy⟩
        obtain rfl := Except.ok.inj htype
        obtain rfl := Except.ok.inj hy
        exact dif_pos ⟨haxis, y.pos⟩

theorem exists_apply {t : TensorType} {u : Tensor α} (haxis : kind.reducesOneAxis)
    (ht : Typing.resultType kind (xs.map type) = .ok t) (hu : kind.evaluate (xs.map tensor) = .ok u)
    (hpos : ∀ d ∈ u.dims, 0 < d) : ∃ y, (reading α).apply kind xs = some y ∧ y.elem = t.elem ∧ y.tensor = u := by
  have htype : t = TensorType.ofExtents t.elem u.dims := by
    rw [TensorType.ofExtents, ← evaluate_extents (extents_type _) ht hu]
  exact ⟨⟨t.elem, u, hpos⟩, reading_apply.2 ⟨haxis, ht.trans (congrArg _ htype), hu⟩, rfl, rfl⟩

omit [Kernels α] in
theorem isTranspose_type : TensorType.IsTranspose p x.type y.type ↔
    p.Perm (range x.tensor.rank) ∧ y.elem = x.elem ∧ y.tensor.dims = selectD x.tensor.dims p 0 := by
  have hinj : Function.Injective (List.map Dim.fixed) := List.map_injective_iff.2 fun _ _ h => Dim.fixed.inj h
  constructor
  · rintro ⟨hperm, heq⟩
    have hp : p.Perm (range x.tensor.rank) := x.rank_type ▸ hperm
    refine ⟨hp, congrArg TensorType.elem heq, hinj ?_⟩
    exact (congrArg TensorType.dims heq).trans (x.dims_transposed hp)
  · rintro ⟨hp, he, hd⟩
    refine ⟨x.rank_type.symm ▸ hp, ?_⟩
    have hdims : y.type.dims = (x.type.transposed p).dims := by
      rw [x.dims_transposed hp, ← hd]
      rfl
    exact congrArg₂ TensorType.mk he hdims

theorem reading_transpose : (reading α).apply (.transpose p) [x] = some y ↔
    p.Perm (range x.tensor.rank) ∧ y.elem = x.elem ∧ Tensor.IsTranspose p x.tensor y.tensor := by
  rw [reading_apply, List.map_singleton, List.map_singleton, Typing.transpose_eq_ok]
  constructor
  · rintro ⟨_, ⟨_, ⟨⟩, ht⟩, hy⟩
    obtain ⟨hp, he, _⟩ := isTranspose_type.1 ht
    exact ⟨hp, he, ((Tensor.transpose_eq_ok hp).1 hy).2⟩
  · rintro ⟨hp, he, hy⟩
    exact ⟨rfl, ⟨_, rfl, isTranspose_type.2 ⟨hp, he, hy.1⟩⟩, (Tensor.transpose_eq_ok_of_wordSized hp x.wordSized).2 hy⟩

theorem reading_const {literal : Literal} : (reading α).apply (.const literal) [] = some y ↔
    y.elem = literal.type.elem ∧ Tensor.ofLiteral literal = .ok y.tensor := by
  rw [reading_apply, List.map_nil, List.map_nil, Typing.const_eq_ok]
  constructor
  · rintro ⟨_, ⟨_, ht⟩, hy⟩
    exact ⟨congrArg TensorType.elem ht, hy⟩
  · rintro ⟨he, hy⟩
    exact ⟨rfl, ⟨rfl, congrArg₂ TensorType.mk he (Tensor.ofLiteral_eq_ok.1 hy).1.symm⟩, hy⟩

/-- What an operation computes in place of another is a meaning, and leads to that of the other. -/
theorem exists_behind {q : List Nat} {t : TensorType} {u : Tensor α} (haxis : kind.reducesOneAxis)
    (ht : Typing.resultType kind (xs.map type) = .ok t) (hu : kind.evaluate (xs.map tensor) = .ok u)
    (htype : TensorType.IsTranspose q t y.type) (hy : Tensor.IsTranspose q u y.tensor) :
    ∃ y', (reading α).apply kind xs = some y' ∧ (reading α).apply (.transpose q) [y'] = some y := by
  have hdims := evaluate_extents (extents_type _) ht hu
  have hp : q.Perm (range u.rank) := by
    have := htype.perm
    rwa [TensorType.rank, hdims, List.length_map] at this
  have hpos : ∀ d ∈ u.dims, 0 < d := fun d hd => y.pos d <| by
    rw [hy.1]
    exact (selectD_perm hp rfl 0).mem_iff.2 hd
  obtain ⟨y', happ, he, rfl⟩ := exists_apply haxis ht hu hpos
  exact ⟨y', happ, reading_transpose.2 ⟨hp, htype.elem_eq.trans he.symm, hy⟩⟩

/-! ## Rule by rule -/

theorem broadcastOperand_shows (hp : p.Perm (range p.length)) (h : (reading α).BroadcastOperand p x z) :
    Tensor.Shows p x.tensor z.tensor ∧ z.elem = x.elem := by
  cases h with
  | transposed h =>
    obtain ⟨hp', he, ht⟩ := reading_transpose.1 h
    exact ⟨Tensor.shows_of_isTranspose hp' ht, he.symm⟩
  | constant h hx hz =>
    obtain ⟨hex, hx⟩ := reading_const.1 hx
    obtain ⟨hez, hz⟩ := reading_const.1 hz
    obtain ⟨u, hu, hshows⟩ := Tensor.ofLiteral_broadcastConstant hp h hx
    obtain rfl := Except.ok.inj (hu.symm.trans hz)
    exact ⟨hshows, by rw [hez, hex, (broadcastConstant_fits hp h).2]⟩
  | scalar h =>
    exact ⟨Tensor.shows_scalar hp (List.length_eq_zero_iff.1 (x.rank_type.symm.trans h)), rfl⟩

theorem concatOperand_isTranspose (hp : p.Perm (range p.length)) (h : (reading α).ConcatOperand p x z) :
    (reading α).apply (.transpose p) [z] = some x := by
  cases h with
  | transposed h => exact h
  | constant hrank h hx hz =>
    obtain ⟨hex, hx⟩ := reading_const.1 hx
    obtain ⟨hez, hz⟩ := reading_const.1 hz
    have hr : x.tensor.rank = p.length := by
      rw [← hrank, TensorType.rank, (Tensor.ofLiteral_eq_ok.1 hx).1, List.length_map, Tensor.rank]
    obtain ⟨u, hu, hur, ht⟩ := Tensor.ofLiteral_permuted hx (hr ▸ hp) h
    obtain rfl := Except.ok.inj (hu.symm.trans hz)
    refine reading_transpose.2 ⟨hur ▸ hr ▸ hp, ?_, ht⟩
    rw [hex, hez, (Literal.permuted_isTranspose (hrank.symm ▸ hp) h).elem_eq]

section Rules

variable {x₁ x₂ z₁ z₂ : TypedTensor α} {zs : List (TypedTensor α)}

theorem pointwise_behind (hk : kind.isPointwise) (h : (reading α).apply (.transpose p) [z] = some x)
    (hy : (reading α).apply kind [x] = some y) :
    ∃ y', (reading α).apply kind [z] = some y' ∧ (reading α).apply (.transpose p) [y'] = some y := by
  obtain ⟨haxis, hty, hy⟩ := reading_apply.1 hy
  obtain ⟨hp, he, ht⟩ := reading_transpose.1 h
  obtain ⟨f, hf⟩ : ∃ f : α → α, ∀ x : Tensor α, kind.evaluate [x] = .ok (x.map f) :=
    OpKind.exists_evaluate_pointwise hk
  have htype : y.type = x.type := (Typing.pointwise_eq_ok hk).1 hty
  have hmap : y.tensor = x.tensor.map f := (Except.ok.inj ((hf _).symm.trans hy)).symm
  refine exists_behind haxis ((Typing.pointwise_eq_ok hk).2 rfl) (hf z.tensor) ?_ ?_
  · rw [htype]
    exact isTranspose_type.2 ⟨hp, he, ht.1⟩
  · rw [hmap]
    exact ht.map f

theorem broadcast_behind {f : Binary} (hp : p.Perm (range p.length)) (h₁ : (reading α).BroadcastOperand p x₁ z₁)
    (h₂ : (reading α).BroadcastOperand p x₂ z₂)
    (h : (reading α).apply (.transpose p) [z₁] = some x₁ ∨ (reading α).apply (.transpose p) [z₂] = some x₂)
    (hy : (reading α).apply (.binary f) [x₁, x₂] = some y) :
    ∃ y', (reading α).apply (.binary f) [z₁, z₂] = some y' ∧ (reading α).apply (.transpose p) [y'] = some y := by
  obtain ⟨haxis, hty, hy⟩ := reading_apply.1 hy
  obtain ⟨hs₁, he₁⟩ := broadcastOperand_shows hp h₁
  obtain ⟨hs₂, he₂⟩ := broadcastOperand_shows hp h₂
  -- one of the operands has all axes
  have hranks : max x₁.tensor.rank x₂.tensor.rank = p.length ∧ max z₁.tensor.rank z₂.tensor.rank = p.length := by
    have := hs₁.fits.length_le
    have := hs₂.fits.length_le
    have := hs₁.fits.length_le'
    have := hs₂.fits.length_le'
    rcases h with h | h <;>
    · obtain ⟨hp', _, ht⟩ := reading_transpose.1 h
      have := ht.rank_eq
      have := length_of_perm hp'
      simp only [Tensor.rank] at *
      omega
  have hx : max x₁.type.rank x₂.type.rank = p.length := by rw [rank_type, rank_type, hranks.1]
  have hz : max z₁.type.rank z₂.type.rank = p.length := by rw [rank_type, rank_type, hranks.2]
  obtain ⟨t, ht, htt⟩ := Typing.broadcast_types (hs₁.fits.map Dim.fixed) (hs₂.fits.map Dim.fixed) he₁ he₂ hp hx hz hty
  obtain ⟨u, hu, _, hut⟩ := Tensor.zipBroadcast_transposed hs₁ hs₂ hp hranks.1 hranks.2 hy y.wordSized
  exact exists_behind haxis ht hu htt hut

theorem reduce_behind {spec : Reduce} (h : (reading α).apply (.transpose p) [z] = some x)
    (hy : (reading α).apply (.reduce spec) [x] = some y) : ∃ y', (reading α).apply (.reduce (spec.behind p)) [z] = some y' ∧
      (reading α).apply (.transpose (spec.remainder p)) [y'] = some y := by
  obtain ⟨haxis, hty, hy⟩ := reading_apply.1 hy
  obtain ⟨hp, he, ht⟩ := reading_transpose.1 h
  obtain ⟨axis, haxes⟩ := OpKind.exists_axes_eq haxis
  have hrank : x.tensor.rank = z.tensor.rank := ht.rank_eq.trans (length_of_perm hp)
  have hin : ∀ i ∈ spec.axes, i < z.tensor.rank := by
    obtain ⟨_, ⟨⟩, hin, _⟩ := Typing.reduce_eq_ok.1 hty
    rwa [x.rank_type, hrank] at hin
  have hone : ∀ i < z.tensor.rank, spec.reduces i → i = axis := by
    intro i _ hi
    simpa [Reduce.reduces, haxes] using hi
  obtain ⟨t, ht', htt⟩ := Typing.reduce_types (isTranspose_type.2 ⟨hp, he, ht.1⟩) hty
  obtain ⟨u, hu, hut⟩ := OpKind.evaluate_reduce_transposed hp ht z.wordSized hin (hin axis (by simp [haxes])) hone hy
  exact exists_behind (by simp [OpKind.reducesOneAxis, Reduce.behind, haxes, selectD]) ht' hu htt hut

theorem concat_behind {axis : Nat} (hp : p.Perm (range p.length)) (haxis : axis < p.length)
    (h : List.Forall₂ ((reading α).ConcatOperand p) xs zs) (hy : (reading α).apply (.concat axis) xs = some y) :
    ∃ y', (reading α).apply (.concat (p.getD axis 0)) zs = some y' ∧ (reading α).apply (.transpose p) [y'] = some y := by
  obtain ⟨_, hty, hy⟩ := reading_apply.1 hy
  have hall : List.Forall₂ (fun z x => (reading α).apply (.transpose p) [z] = some x) zs xs :=
    (h.imp fun _ _ h => concatOperand_isTranspose hp h).flip
  have hextents : List.Forall₂ (fun x u => u.dims = x.dims.map .fixed) (xs.map tensor) (xs.map type) := by
    rw [List.forall₂_map_left_iff, List.forall₂_map_right_iff, List.forall₂_same]
    exact fun x _ => rfl
  obtain ⟨dims, ha, hne, hxs, _⟩ := Tensor.exists_joins hextents hty
  have hlen : dims.length = p.length := by
    obtain ⟨x, hx⟩ := List.exists_mem_of_ne_nil xs (by simpa using hne)
    obtain ⟨i, hi⟩ := List.mem_iff_getElem?.1 hx
    obtain ⟨z, _, hz⟩ := exists_getElem?_of_forall₂ hall.flip hi
    rw [← (reading_transpose.1 hz).2.2.rank_eq, Tensor.rank, hxs _ (List.mem_map_of_mem hx), List.length_set]
  have htypes : List.Forall₂ (TensorType.IsTranspose p) (zs.map type) (xs.map type) := by
    rw [List.forall₂_map_left_iff, List.forall₂_map_right_iff]
    refine hall.imp fun z x h => ?_
    obtain ⟨hpz, he, ht⟩ := reading_transpose.1 h
    exact isTranspose_type.2 ⟨hpz, he, ht.1⟩
  have htensors : List.Forall₂ (fun z x => p.Perm (range z.rank) ∧ Tensor.IsTranspose p z x) (zs.map tensor)
      (xs.map tensor) := by
    rw [List.forall₂_map_left_iff, List.forall₂_map_right_iff]
    refine hall.imp fun z x h => ?_
    obtain ⟨hpz, _, ht⟩ := reading_transpose.1 h
    exact ⟨hpz, ht⟩
  rw [← selectD_inverse_left hp hlen 0] at hxs
  have hlen' : (selectD dims (inverse p) 0).length = p.length := by rw [length_selectD, length_inverse]
  obtain ⟨t, ht, htt⟩ := Typing.concat_types htypes hty
  obtain ⟨u, hu, _, hut⟩ := Tensor.concat_transposed (hlen'.symm ▸ hp) (hlen'.symm ▸ haxis) hxs htensors hy y.wordSized
  exact exists_behind rfl ht hu htt hut

theorem pad_behind {spec : Pad} {a : Absorption} (ha : absorbPad spec p = some a)
    (h : (reading α).apply (.transpose p) [z] = some x) (hy : (reading α).apply (.pad spec) [x] = some y) :
    ∃ y', (reading α).apply (.pad (spec.behind p)) [z] = some y' ∧ (reading α).apply (.transpose p) [y'] = some y := by
  obtain ⟨haxis, hty, hy⟩ := reading_apply.1 hy
  obtain ⟨hp, he, ht⟩ := reading_transpose.1 h
  obtain ⟨t, ht', htt⟩ := Typing.pad_types (isTranspose_type.2 ⟨hp, he, ht.1⟩) ha hty
  have hpos : 0 ∉ z.tensor.dims.drop (z.tensor.rank - spec.amounts.length / 2) := fun hzero =>
    lt_irrefl 0 (z.pos 0 (List.mem_of_mem_drop hzero))
  obtain ⟨u, hu, _, hut⟩ := Tensor.pad_transposed hp ht ha hy (fun _ => hpos) y.wordSized
  exact exists_behind haxis ht' hu htt hut

end Rules

/-- Rule by rule, what runs on untransposed data computes what was computed before, untransposed. -/
theorem reading_replaces {kind' : OpKind} {zs : List (TypedTensor α)} {q : Option (List Nat)}
    (hp : p.Perm (range p.length)) (h : (reading α).Replaces p kind xs kind' zs q) (hy : (reading α).apply kind xs = some y) :
    ∃ y', (reading α).apply kind' zs = some y' ∧ (reading α).Behind q y' y := by
  cases h with
  | pointwise hk h => exact pointwise_behind hk h hy
  | broadcast h₁ h₂ h => exact broadcast_behind hp h₁ h₂ h hy
  | reduce h hq =>
    obtain ⟨y', hy', ht⟩ := reduce_behind h hy
    refine ⟨y', hy', ?_⟩
    rcases hq with rfl | ⟨rfl, hid⟩
    · exact ht
    · obtain ⟨hperm, he, hyt⟩ := reading_transpose.1 ht
      exact ext he.symm (hyt.eq_of_range hperm hid)
  | concat haxis h => exact concat_behind hp haxis h hy
  | pad ha h => exact pad_behind ha h hy

theorem reading_lawful : (reading α).Lawful where
  typed h := (reading_apply.1 h).2.1
  inverse h := by
    obtain ⟨hp, he, ht⟩ := reading_transpose.1 h
    have hrank := ht.rank_eq.trans (length_of_perm hp)
    exact reading_transpose.2 ⟨hrank ▸ inverse_perm hp, he.symm, ht.inverse hp⟩
  cancel hc h h' := by
    obtain ⟨hp, he, ht⟩ := reading_transpose.1 h
    obtain ⟨hq, he', ht'⟩ := reading_transpose.1 h'
    exact ext (he'.trans he) (ht'.right_unique hq (ht.undo hp hc))
  identity x := by
    have hid : x.tensor.map (Kernels.unary .identity) = x.tensor := by
      refine Tensor.ext_at? rfl fun cs _ => ?_
      rw [Tensor.at?_map, funext Kernels.unary_identity]
      exact Option.map_id'
    exact reading_apply.2 ⟨rfl, (Typing.pointwise_eq_ok rfl).2 rfl, congrArg Except.ok hid⟩
  payload {kind views p a i old new x} ha hnew hold hx := by
    obtain ⟨hex, hx⟩ := reading_const.1 hx
    obtain ⟨literal, hl, hpay⟩ := (absorb_constants ha).2 _ hnew
    obtain ⟨⟩ := hold.symm.trans hl
    have hp := isPermutation_iff.1 (absorb_cases ha).1.2.1
    obtain ⟨z, hz, hpos⟩ := Tensor.exists_ofLiteral_payload hp hpay hx x.pos
    exact ⟨⟨new.type.elem, z, hpos⟩, reading_const.2 ⟨rfl, hz⟩⟩
  absorb {kind views p a xs zs y} ha hy ho := by
    obtain ⟨hp, hrep⟩ := ho.replaces ha fun arity har => by
      have := Typing.arity_of_resultType (reading_apply.1 hy).2.1 arity har
      rwa [List.length_map] at this
    exact reading_replaces hp hrep hy

end TypedTensor

end Relayout
