import Relayout.Proofs.Concatenating
import Relayout.Proofs.Grouping
import Relayout.Proofs.Padding
import Relayout.Proofs.Payloads
import Relayout.Proofs.Structure

/-!
# Kernels that commute with transposes

An operation that absorbs reads, in place of a transposed operand, the operand of the transpose, and in place of a
constant its payload (`OperandData.behind`). Then the kernel of a binary operation succeeds if and only if it did before, and
its result is the one that a transpose leads back from (`absorb_binary`). Extents may be anything, zero included, but they
have to be `WordSized`: next to an extent of zero there can be others whose product is not a word, and which of the
products is computed changes with the order of the axes.

For paddings there is one exception more (`absorbPad_evaluate`). A reflecting one looks at the extents of all axes in its list
of amounts and refuses one of zero, also if nothing is put before or after that axis. Which axes are in the list changes with
the transpose.

A reduction accumulates the same elements for every element of its result, in another order if it reduces more than one axis
(`absorbReduce_evaluate`). A concatenation joins along the axis that the permutation takes its axis from (`absorb_concat`).
-/

namespace Relayout.Layout

open Perm
open List (range)
open RowMajor (WordSized)

variable {α : Type} [Kernels α]

/-! ## Operands -/

/-- The data of an operand, for a pending permutation of `n` axes. -/
inductive OperandData (α : Type) (n : Nat) where
  /-- A transpose of a tensor. -/
  | transposed (x : Tensor α) (rank_eq : x.rank = n)
  | constant (literal : Literal)
  /-- A tensor without axes. -/
  | scalar (elem : ElemType) (x : Tensor α) (rank_eq : x.rank = 0)

namespace OperandData

variable {p : List Nat} {o : OperandData α p.length} {slot : Nat} {constants c : List (Nat × Literal)}

/-- A constant has a payload of the size of its type. -/
def Sized {n : Nat} : OperandData α n → Prop
  | constant literal => literal.Sized
  | _ => True

def view (p : List Nat) : OperandData α p.length → View
  | transposed _ _ => .pending p
  | constant literal => .constant literal
  | scalar elem _ _ => .concrete ⟨elem, []⟩

/-- What the operation reads. -/
def tensor (p : List Nat) : OperandData α p.length → Eval (Tensor α)
  | transposed x _ => OpKind.evaluate (.transpose p) [x]
  | constant literal => OpKind.evaluate (.const literal) []
  | scalar _ x _ => .ok x

/-- What an operation that absorbs reads in its place, in an input slot. -/
def behind {n : Nat} (constants : List (Nat × Literal)) (slot : Nat) : OperandData α n → Eval (Tensor α)
  | transposed x _ => .ok x
  | constant literal => OpKind.evaluate (.const ((constants.lookup slot).getD literal)) []
  | scalar _ x _ => .ok x

section Shown

variable (hc : broadcastOperand p slot (o.view p) = .ok c) (hslot : constants.lookup slot = c.lookup slot)

include hc hslot

theorem exists_payload {literal : Literal} (ho : o = .constant literal) :
    ∃ payload, broadcastConstant literal p = .ok payload ∧
      o.behind constants slot = Tensor.ofLiteral (payload.getD literal) := by
  subst ho
  obtain ⟨payload, hpayload, hc⟩ := bind_eq_ok.1 hc
  obtain rfl := pure_eq_ok.1 hc
  refine ⟨payload, hpayload, ?_⟩
  have hread : (constants.lookup slot).getD literal = payload.getD literal := by
    rw [hslot]
    cases payload <;> simp
  rw [behind, hread, OpKind.evaluate]

/-- An operand of a broadcast operation shows what is read in its place. -/
theorem exists_behind (hp : p.Perm (range p.length)) {x : Tensor α} (hx : o.tensor p = .ok x) :
    ∃ z, o.behind constants slot = .ok z ∧
    Tensor.Shows p x z ∧ ((o.view p).isPending → x.rank = p.length ∧ z.rank = p.length) := by
  cases o with
  | transposed z hz =>
    have hp' : p.Perm (range z.rank) := hz.symm ▸ hp
    have ht := ((Tensor.transpose_eq_ok hp').1 hx).2
    exact ⟨z, rfl, Tensor.shows_of_isTranspose hp' ht, fun _ => ⟨ht.rank_eq, hz⟩⟩
  | constant literal =>
    obtain ⟨payload, hpayload, hbehind⟩ := exists_payload hc hslot rfl
    obtain ⟨z, hz, hshows⟩ := Tensor.ofLiteral_broadcastConstant hp hpayload hx
    exact ⟨z, hbehind.trans hz, hshows, fun h => by cases h⟩
  | scalar elem z hz =>
    cases hx
    exact ⟨x, rfl, Tensor.shows_scalar hp (List.length_eq_zero_iff.1 hz), fun h => by cases h⟩

/-- Where something is read, there was an operand to show it. -/
theorem exists_tensor (hp : p.Perm (range p.length)) (hsized : o.Sized) {z : Tensor α}
    (hz : o.behind constants slot = .ok z) (hword : WordSized z.dims) : ∃ x, o.tensor p = .ok x := by
  cases o with
  | transposed x hx =>
    cases hz
    have hp' : p.Perm (range z.rank) := hx.symm ▸ hp
    obtain ⟨y, hy⟩ := Tensor.exists_transpose hp' hword
    exact ⟨y, (Tensor.transpose_eq_ok_of_wordSized hp' hword).2 hy⟩
  | constant literal =>
    obtain ⟨payload, hpayload, hbehind⟩ := exists_payload hc hslot rfl
    exact Tensor.exists_ofLiteral_of_broadcastConstant hsized hpayload (hbehind.symm.trans hz)
  | scalar elem x hx => exact ⟨x, rfl⟩

end Shown

end OperandData

/-! ## Broadcasts -/

section Broadcasts

variable {p : List Nat} {a : Absorption} {f : Binary}

/-- A binary operation on operands that may be impossible to compute. -/
def evaluateBoth (kind : OpKind) (left right : Eval (Tensor α)) : Eval (Tensor α) := do
  kind.evaluate [← left, ← right]

theorem evaluateBoth_eq_ok {left right : Eval (Tensor α)} {y : Tensor α} : evaluateBoth (.binary f) left right = .ok y ↔
    ∃ x₁ x₂, left = .ok x₁ ∧ right = .ok x₂ ∧ Tensor.zipBroadcast (Kernels.binary f) x₁ x₂ = .ok y := by
  rw [evaluateBoth, bind_eq_ok]
  simp only [bind_eq_ok]
  constructor
  · rintro ⟨x₁, h₁, x₂, h₂, h⟩
    exact ⟨x₁, x₂, h₁, h₂, h⟩
  · rintro ⟨x₁, x₂, h₁, h₂, h⟩
    exact ⟨x₁, h₁, x₂, h₂, h⟩

theorem lookup_of_ne {slot k : Nat} {view : View} {c : List (Nat × Literal)} (h : broadcastOperand p slot view = .ok c)
    (hk : k ≠ slot) : c.lookup k = none := by
  rcases broadcastOperand_slot h with rfl | ⟨_, new, _, rfl, _⟩
  · rfl
  · rw [List.lookup_cons, beq_false_of_ne hk]
    rfl

/-- The payloads of a binary operation, slot by slot. -/
theorem absorb_binary_operands {left right : View} (h : absorb (.binary f) [left, right] p = .ok a) :
    a.kind = .binary f ∧ (∃ c, broadcastOperand p 0 left = .ok c ∧ a.constants.lookup 0 = c.lookup 0) ∧
      ∃ d, broadcastOperand p 1 right = .ok d ∧ a.constants.lookup 1 = d.lookup 1 := by
  have ha : absorbBroadcast (.binary f) [left, right] p = .ok a := by
    cases (absorb_cases h).2 with
    | broadcast g hk ha => exact ha
    | pointwise hk ha => cases hk
    | reduce spec hk ha => cases hk
    | concat axis hk ha => cases hk
    | pad spec hk ha => cases hk
  obtain ⟨_, _, c, d, hviews, hc, hd, rfl⟩ := absorbBroadcast_eq_ok ha
  cases hviews
  refine ⟨rfl, ⟨c, hc, ?_⟩, d, hd, ?_⟩
  · rw [List.lookup_append, lookup_of_ne hd Nat.zero_ne_one, Option.or_none]
  · rw [List.lookup_append, lookup_of_ne hc Nat.one_ne_zero, Option.none_or]

omit [Kernels α] in
/-- The transposed operand has all axes. -/
theorem max_rank_of_shows {left right : OperandData α p.length} {x₁ x₂ z₁ z₂ : Tensor α}
    (h : absorb (.binary f) [left.view p, right.view p] p = .ok a) (hs₁ : Tensor.Shows p x₁ z₁) (hs₂ : Tensor.Shows p x₂ z₂)
    (hr₁ : (left.view p).isPending → x₁.rank = p.length ∧ z₁.rank = p.length)
    (hr₂ : (right.view p).isPending → x₂.rank = p.length ∧ z₂.rank = p.length) :
    max x₁.rank x₂.rank = p.length ∧ max z₁.rank z₂.rank = p.length := by
  obtain ⟨⟨⟨q, hq⟩, _⟩, _⟩ := absorb_cases h
  have hfull : (left.view p).isPending ∨ (right.view p).isPending := by
    rcases List.mem_pair.1 hq with hq | hq
    · exact .inl (hq ▸ rfl)
    · exact .inr (hq ▸ rfl)
  have := hs₁.fits.length_le
  have := hs₂.fits.length_le
  have := hs₁.fits.length_le'
  have := hs₂.fits.length_le'
  have := hfull.imp hr₁ hr₂
  simp only [Tensor.rank] at *
  omega

/-- A binary operation that absorbs has a result where it had one, and a transpose leads back from it. -/
theorem exists_evaluateBoth_behind {left right : OperandData α p.length}
    (h : absorb (.binary f) [left.view p, right.view p] p = .ok a) {y : Tensor α}
    (hy : evaluateBoth (.binary f) (left.tensor p) (right.tensor p) = .ok y) (hword : WordSized y.dims) :
    ∃ z, evaluateBoth (.binary f) (left.behind a.constants 0) (right.behind a.constants 1) = .ok z ∧
      z.transpose p = .ok y := by
  have hp := isPermutation_iff.1 (absorb_cases h).1.2.1
  obtain ⟨_, ⟨c, hc, hslot⟩, d, hd, hslot'⟩ := absorb_binary_operands h
  obtain ⟨x₁, x₂, hx₁, hx₂, hy⟩ := evaluateBoth_eq_ok.1 hy
  obtain ⟨z₁, hz₁, hs₁, hr₁⟩ := OperandData.exists_behind hc hslot hp hx₁
  obtain ⟨z₂, hz₂, hs₂, hr₂⟩ := OperandData.exists_behind hd hslot' hp hx₂
  obtain ⟨hxr, hzr⟩ := max_rank_of_shows h hs₁ hs₂ hr₁ hr₂
  obtain ⟨z, hz, hrank, ht⟩ := Tensor.zipBroadcast_transposed hs₁ hs₂ hp hxr hzr hy hword
  have hp' : p.Perm (range z.rank) := hrank.symm ▸ hp
  exact ⟨z, evaluateBoth_eq_ok.2 ⟨z₁, z₂, hz₁, hz₂, hz⟩,
    (Tensor.transpose_eq_ok_of_wordSized hp' ((ht.wordSized_iff hp').1 hword)).2 ht⟩

/-- It had a result where it has one. -/
theorem exists_evaluateBoth {left right : OperandData α p.length} (hleft : left.Sized) (hright : right.Sized)
    (h : absorb (.binary f) [left.view p, right.view p] p = .ok a) {z : Tensor α}
    (hz : evaluateBoth (.binary f) (left.behind a.constants 0) (right.behind a.constants 1) = .ok z)
    (hword : WordSized z.dims) :
    ∃ y, evaluateBoth (.binary f) (left.tensor p) (right.tensor p) = .ok y ∧ z.transpose p = .ok y := by
  have hp := isPermutation_iff.1 (absorb_cases h).1.2.1
  obtain ⟨_, ⟨c, hc, hslot⟩, d, hd, hslot'⟩ := absorb_binary_operands h
  obtain ⟨z₁, z₂, hz₁, hz₂, hz⟩ := evaluateBoth_eq_ok.1 hz
  obtain ⟨hword₁, hword₂⟩ := Tensor.wordSized_of_zipBroadcast hz hword
  obtain ⟨x₁, hx₁⟩ := OperandData.exists_tensor hc hslot hp hleft hz₁ hword₁
  obtain ⟨x₂, hx₂⟩ := OperandData.exists_tensor hd hslot' hp hright hz₂ hword₂
  obtain ⟨z₁', hz₁', hs₁, hr₁⟩ := OperandData.exists_behind hc hslot hp hx₁
  obtain ⟨z₂', hz₂', hs₂, hr₂⟩ := OperandData.exists_behind hd hslot' hp hx₂
  obtain rfl := Except.ok.inj (hz₁'.symm.trans hz₁)
  obtain rfl := Except.ok.inj (hz₂'.symm.trans hz₂)
  obtain ⟨hxr, hzr⟩ := max_rank_of_shows h hs₁ hs₂ hr₁ hr₂
  obtain ⟨y, hy, ht⟩ := Tensor.exists_zipBroadcast_transposed hs₁ hs₂ hp hxr hzr hz hword
  have hrank : z.rank = p.length := ((Tensor.zipBroadcast_eq_ok hzr).1 hz).2.1
  exact ⟨y, evaluateBoth_eq_ok.2 ⟨x₁, x₂, hx₁, hx₂, hy⟩,
    (Tensor.transpose_eq_ok_of_wordSized (hrank.symm ▸ hp) hword).2 ht⟩

/-- A binary operation that absorbs can be computed if and only if it could be before, and a transpose leads from its
result to the one it had. -/
theorem absorb_binary {left right : OperandData α p.length} (hleft : left.Sized) (hright : right.Sized)
    (h : absorb (.binary f) [left.view p, right.view p] p = .ok a) :
    a.kind = .binary f ∧
      (∀ y, evaluateBoth (.binary f) (left.tensor p) (right.tensor p) = .ok y → WordSized y.dims →
        ∃ z, evaluateBoth a.kind (left.behind a.constants 0) (right.behind a.constants 1) = .ok z ∧ z.transpose p = .ok y) ∧
      ∀ z, evaluateBoth a.kind (left.behind a.constants 0) (right.behind a.constants 1) = .ok z → WordSized z.dims →
        ∃ y, evaluateBoth (.binary f) (left.tensor p) (right.tensor p) = .ok y ∧ z.transpose p = .ok y := by
  obtain ⟨hkind, _⟩ := absorb_binary_operands h
  rw [hkind]
  exact ⟨rfl, fun y hy => exists_evaluateBoth_behind h hy, fun z hz => exists_evaluateBoth hleft hright h hz⟩

/-- A transposed tensor. -/
def spreadLeft : OperandData Float32 [1, 0].length :=
  .transposed ⟨[3, 2], #[1, 2, 3, 4, 5, 6], rfl⟩ rfl

/-- A vector along the last axis of the transposed tensor, the first one of the tensor. -/
def spreadRight : OperandData Float32 [1, 0].length :=
  .constant ⟨.ofExtents .f32 [3], [0, 0, 128, 63, 0, 0, 0, 64, 0, 0, 64, 64]⟩

theorem absorb_spread : let _ := Scalar.kernels id
    ∃ a, absorb (.binary .sub) [spreadLeft.view [1, 0], spreadRight.view [1, 0]] [1, 0] = .ok a ∧
      a.constants = [(1, ⟨.ofExtents .f32 [3, 1], [0, 0, 128, 63, 0, 0, 0, 64, 0, 0, 64, 64]⟩)] ∧
      ∃ y z, evaluateBoth (.binary .sub) (spreadLeft.tensor [1, 0]) (spreadRight.tensor [1, 0]) = .ok y ∧
        evaluateBoth a.kind (spreadLeft.behind a.constants 0) (spreadRight.behind a.constants 1) = .ok z ∧
          z.transpose [1, 0] = .ok y := by
  intro _
  obtain ⟨a, ha, hconstants⟩ : ∃ a, absorb (.binary .sub) [spreadLeft.view [1, 0], spreadRight.view [1, 0]] [1, 0] = .ok a ∧
      a.constants = [(1, ⟨.ofExtents .f32 [3, 1], [0, 0, 128, 63, 0, 0, 0, 64, 0, 0, 64, 64]⟩)] := ⟨_, rfl, by decide⟩
  have hleft : spreadLeft.Sized := trivial
  have hright : spreadRight.Sized := by unfold OperandData.Sized spreadRight; decide
  have hdims : (evaluateBoth (.binary .sub) (spreadLeft.tensor [1, 0]) (spreadRight.tensor [1, 0])).map (·.dims) =
    .ok [2, 3] := by decide +kernel
  obtain ⟨y, hy, hyd⟩ := map_eq_ok.1 hdims
  have hword : WordSized y.dims := by
    rw [hyd]
    decide
  obtain ⟨z, hz, ht⟩ := (absorb_binary hleft hright ha).2.1 y hy hword
  exact ⟨a, ha, hconstants, y, z, hy, hz, ht⟩

/-- No elements, but two extents whose product is not a word. They are next to each other once the tensor is transposed. -/
def hollowLeft : OperandData Float32 [1, 0, 2].length :=
  .transposed ⟨[2 ^ 32, 0, 2 ^ 32], #[], rfl⟩ rfl

def hollowRight : OperandData Float32 [1, 0, 2].length :=
  .scalar .f32 (.scalar 1) rfl

/-- A payload of two elements for an extent of one. -/
def longRight : OperandData Float32 [1, 0].length :=
  .constant ⟨.ofExtents .f32 [1, 1], [0, 0, 128, 63, 0, 0, 128, 63]⟩

/-- Sizes that are no words before the transpose is gone, and payloads that are cut to their size with it. -/
theorem absorb_hollow : let _ := Scalar.kernels id
    (∃ a, absorb (.binary .add) [hollowLeft.view [1, 0, 2], hollowRight.view [1, 0, 2]] [1, 0, 2] = .ok a ∧
      evaluateBoth (.binary .add) (hollowLeft.tensor [1, 0, 2]) (hollowRight.tensor [1, 0, 2]) = .error (.crash .overflow) ∧
      ∃ z, evaluateBoth a.kind (hollowLeft.behind a.constants 0) (hollowRight.behind a.constants 1) = .ok z) ∧
    ∃ a, absorb (.binary .add) [spreadLeft.view [1, 0], longRight.view [1, 0]] [1, 0] = .ok a ∧
      (¬∃ y, evaluateBoth (.binary .add) (spreadLeft.tensor [1, 0]) (longRight.tensor [1, 0]) = .ok y) ∧
      ∃ z, evaluateBoth a.kind (spreadLeft.behind a.constants 0) (longRight.behind a.constants 1) = .ok z := by
  intro _
  refine ⟨⟨_, rfl, rfl, exists_of_isOk (by decide +kernel)⟩, _, rfl, ?_, exists_of_isOk (by decide +kernel)⟩
  rintro ⟨y, hy⟩
  cases hy

end Broadcasts

/-! ## Paddings -/

/-- A padding runs on the operand of a transpose with the same result. A reflecting one needs that no axis is empty among
those it lists. If the extents of the result are not `WordSized`, a size may not be a word any more. -/
theorem absorbPad_evaluate {spec : Pad} {p : List Nat} {a : Absorption} {x y : Tensor α} (hp : isPermutation p)
    (hx : x.rank = p.length) (ha : absorbPad spec p = some a)
    (h : (do OpKind.evaluate (.pad spec) [← x.transpose p]) = .ok y) :
    (WordSized y.dims → spec.mode = .reflect ∧ 0 ∈ x.dims.drop (x.rank - spec.amounts.length / 2) →
      a.kind.evaluate [x] = .error .reflectTooWide) ∧
    (WordSized y.dims → ¬(spec.mode = .reflect ∧ 0 ∈ x.dims.drop (x.rank - spec.amounts.length / 2)) →
      ∃ z, a.kind.evaluate [x] = .ok z ∧ z.transpose p = .ok y) ∧
    (¬(spec.mode = .reflect ∧ 0 ∈ x.dims.drop (x.rank - spec.amounts.length / 2)) →
      (a.kind.evaluate [x] >>= (·.transpose p)) = .ok y ∨
        (a.kind.evaluate [x] >>= (·.transpose p)) = .error (.crash .overflow)) := by
  have hp' : p.Perm (range x.rank) := hx ▸ isPermutation_iff.1 hp
  obtain ⟨t, ht, hy⟩ := bind_eq_ok.1 h
  replace ht := ((Tensor.transpose_eq_ok hp').1 ht).2
  obtain ⟨rfl, heven, hle, hamounts, _⟩ := absorbPad_behind ha
  refine ⟨fun hword => ?_, fun hword hno => ?_, fun hno => ?_⟩
  · rintro ⟨hm, hzero⟩
    obtain ⟨hpad, hyrank, hydims, _⟩ := Tensor.pad_eq_ok.1 hy
    rw [(Tensor.paddedDims_eq hpad.le_rank).2 ⟨hyrank, hydims⟩] at hword
    refine Tensor.pad_eq_error (hamounts ▸ heven) (by rw [hamounts, hx]; exact hle) hm (fun hreflects => ?_)
      fun d hd => hword.lt_of_mem ((Tensor.paddedDims_behind_perm hp' ht ha).mem_iff.2 hd)
    have hnot := hreflects.zero_not_mem
    rw [hamounts] at hnot
    exact hnot hzero
  · obtain ⟨z, hz, hrank, hzt⟩ := Tensor.pad_transposed hp' ht ha hy (fun hm hzero => hno ⟨hm, hzero⟩) hword
    have hpz : p.Perm (range z.rank) := hrank.symm ▸ hp'
    exact ⟨z, hz, (Tensor.transpose_eq_ok_of_wordSized hpz ((hzt.wordSized_iff hpz).1 hword)).2 hzt⟩
  · rcases Tensor.pad_behind_ok_or_overflow hp' ht ha hy fun hm hzero => hno ⟨hm, hzero⟩ with ⟨z, hz⟩ | hz
    · obtain ⟨hrank, hzt⟩ := Tensor.isTranspose_pad hp' ht ha hy hz
      have hpz : p.Perm (range z.rank) := hrank.symm ▸ hp'
      have heval : (OpKind.pad (spec.behind p)).evaluate [x] = .ok z := hz
      rw [heval]
      exact hzt.transpose_eq_or_overflow hpz
    · have heval : (OpKind.pad (spec.behind p)).evaluate [x] = .error (.crash .overflow) := hz
      rw [heval]
      exact .inr rfl

/-- Both last axes are padded, differently. -/
def mirror : Pad :=
  ⟨[1, 0, 0, 2], .reflect, .zero⟩

def mirrored : Tensor Float32 :=
  ⟨[1, 3, 2], #[1, 2, 3, 4, 5, 6], rfl⟩

theorem absorbPad_mirrored : let _ := Scalar.kernels id
    ∃ a, absorbPad mirror [0, 2, 1] = some a ∧ a.kind = .pad ⟨[0, 2, 1, 0], .reflect, .zero⟩ ∧
      ∃ y z, (do OpKind.evaluate (.pad mirror) [← mirrored.transpose [0, 2, 1]]) = .ok y ∧
        a.kind.evaluate [mirrored] = .ok z ∧ z.transpose [0, 2, 1] = .ok y := by
  intro _
  obtain ⟨a, ha, hkind⟩ : ∃ a, absorbPad mirror [0, 2, 1] = some a ∧ a.kind = .pad ⟨[0, 2, 1, 0], .reflect, .zero⟩ :=
    ⟨_, rfl, by decide⟩
  have hp : isPermutation [0, 2, 1] := by decide
  have hdims : (do OpKind.evaluate (.pad mirror) [← mirrored.transpose [0, 2, 1]]).map Tensor.dims = .ok [1, 3, 5] := by
    decide +kernel
  have hno : ¬(mirror.mode = .reflect ∧ 0 ∈ mirrored.dims.drop (mirrored.rank - mirror.amounts.length / 2)) := by decide
  obtain ⟨y, hy, hyd⟩ := map_eq_ok.1 hdims
  have hword : WordSized y.dims := by
    rw [hyd]
    decide
  obtain ⟨z, hz, ht⟩ := (absorbPad_evaluate hp rfl ha hy).2.1 hword hno
  exact ⟨a, ha, hkind, y, z, hy, hz, ht⟩

/-- Two rows without elements. -/
def hollow : Tensor Float32 :=
  ⟨[2, 0], #[], rfl⟩

/-- Nothing is put anywhere, but of the two axes the padding lists the one that is empty once the transpose is gone. -/
theorem absorbPad_hollow : let _ := Scalar.kernels id
    ∃ a, absorbPad ⟨[0, 0], .reflect, .zero⟩ [1, 0] = some a ∧
      (∃ y, (do OpKind.evaluate (.pad ⟨[0, 0], .reflect, .zero⟩) [← hollow.transpose [1, 0]]) = .ok y) ∧
        ¬∃ z, a.kind.evaluate [hollow] = .ok z := by
  intro _
  refine ⟨_, rfl, exists_of_isOk (by decide +kernel), ?_⟩
  rintro ⟨z, hz⟩
  cases hz

/-! ## Reductions -/

namespace Absorption

variable {a : Absorption} {q : List Nat}

/-- Entries for the axes of a result, rearranged by what is pending on it. -/
def rearranged (a : Absorption) (xs : List Nat) : List Nat :=
  match a.outputPerm with
  | some q => selectD xs q 0
  | none => xs

/-- A result, transposed by what is pending on it. -/
def restored (a : Absorption) (z : Tensor α) : Eval (Tensor α) :=
  match a.outputPerm with
  | some q => z.transpose q
  | none => .ok z

/-- The sequences `ys` that a reduction accumulated, and those that it accumulates behind the transpose. If `same` holds,
also the orders in them are the same. -/
structure Regroups (a : Absorption) (same : Prop) (ys zs : Tensor (List α)) : Prop where
  perm : ∀ q, a.outputPerm = some q → q.Perm (range zs.rank)
  dims_eq : ys.dims = a.rearranged zs.dims
  sequences : ∀ cs, RowMajor.InBounds ys.dims cs → ∃ cs' g g', RowMajor.InBounds zs.dims cs' ∧ cs = a.rearranged cs' ∧
    ys.at? cs = some g ∧ zs.at? cs' = some g' ∧ g.Perm g' ∧ (same → g = g')

section Pending

variable (hq : a.outputPerm = some q ∨ a.outputPerm = none ∧ q = range q.length)

include hq

theorem rearranged_eq {xs : List Nat} (hp : q.Perm (range xs.length)) : a.rearranged xs = selectD xs q 0 := by
  unfold rearranged
  rcases hq with hq | ⟨hq, hid⟩
  · rw [hq]
  · rw [hq, hid, length_of_perm hp, selectD_range rfl]

omit [Kernels α] in
theorem restored_eq_ok {z y : Tensor α} (hp : q.Perm (range z.rank)) (hword : WordSized z.dims)
    (h : Tensor.IsTranspose q z y) : a.restored z = .ok y := by
  unfold restored
  rcases hq with hq | ⟨hq, hid⟩
  · rw [hq]
    exact (Tensor.transpose_eq_ok_of_wordSized hp hword).2 h
  · rw [hq, h.eq_of_range hp hid]

end Pending

end Absorption

theorem exists_absorbReduce {spec : Reduce} {p : List Nat} (haxes : ∀ axis ∈ spec.axes, axis < p.length) :
    ∃ a, absorbReduce spec p = some a := by
  rw [absorbReduce, select?_eq_some haxes 0]
  exact ⟨_, rfl⟩

omit [Kernels α] in
/-- What the two reductions accumulate. -/
theorem regroups_accumulated {spec : Reduce} {p : List Nat} {a : Absorption} {x t : Tensor α}
    {ys zs : Tensor (List α)} (hp : p.Perm (range x.rank)) (ht : Tensor.IsTranspose p x t)
    (haxes : ∀ axis ∈ spec.axes, axis < x.rank) (ha : absorbReduce spec p = some a)
    (hys : t.accumulated spec = .ok ys) (hzs : x.accumulated (spec.behind p) = .ok zs) :
    a.Regroups (∃! axis, axis < x.rank ∧ spec.reduces axis) ys zs := by
  have hr : ∀ i < x.rank, (spec.behind p).reduces (p.getD i 0) = spec.reduces i := fun i hi =>
    Reduce.reduces_behind hp haxes hi
  obtain ⟨_, _, hq⟩ := absorbReduce_behind ha
  obtain ⟨hd, hrest, hat⟩ := Tensor.accumulated_at? hp ht haxes hys hzs
  refine ⟨fun q h => ?_, by rw [Absorption.rearranged_eq hq hrest, hd], fun cs hcs => ?_⟩
  · rcases hq with hq | ⟨hq, _⟩
    · rw [hq] at h
      cases h
      exact hrest
    · rw [hq] at h
      cases h
  · rw [hd] at hcs
    obtain ⟨cs, hin, rfl⟩ := RowMajor.exists_selectD hrest hcs
    obtain ⟨ks, hks, hz, hy⟩ := hat cs hin
    have hrest' : (spec.remainder p).Perm (range cs.length) := hin.length_eq.symm ▸ hrest
    refine ⟨cs, _, _, hin, (Absorption.rearranged_eq hq hrest').symm, hy, hz, Tensor.group_perm hp ht hr hks, ?_⟩
    rintro ⟨axis, ⟨haxis, _⟩, hone⟩
    exact Tensor.group_eq hp ht hr haxis (fun i hi h => hone i ⟨hi, h⟩) hks

/-- A reduction that absorbs accumulates, for every element of its result, a rearrangement of the sequence that it
accumulated, and that very sequence if exactly one axis is reduced. Then a transpose leads from its result to the one it
had. -/
theorem absorbReduce_evaluate {spec : Reduce} {p : List Nat} {x : Tensor α} (hp : isPermutation p)
    (hx : x.rank = p.length) (haxes : ∀ axis ∈ spec.axes, axis < p.length) (hword : WordSized x.dims)
    (hroom : RowMajor.size (Tensor.keptDims x.dims (spec.behind p).reduces) * 8 < 2 ^ 63) :
    ∃ a t ys zs size, absorbReduce spec p = some a ∧ a.kind = .reduce (spec.behind p) ∧ x.transpose p = .ok t ∧
      t.accumulated spec = .ok ys ∧ x.accumulated (spec.behind p) = .ok zs ∧
      (OpKind.reduce spec).evaluate [t] = .ok (ys.map (Kernels.reduction spec.kind size)) ∧
      a.kind.evaluate [x] = .ok (zs.map (Kernels.reduction spec.kind size)) ∧
      a.Regroups (∃! axis, axis < p.length ∧ spec.reduces axis) ys zs ∧
      ((∃! axis, axis < p.length ∧ spec.reduces axis) →
        a.restored (zs.map (Kernels.reduction spec.kind size)) = .ok (ys.map (Kernels.reduction spec.kind size))) := by
  obtain ⟨a, ha⟩ := exists_absorbReduce haxes
  have hp' : p.Perm (range x.rank) := hx ▸ isPermutation_iff.1 hp
  rw [← hx] at haxes ⊢
  rw [Tensor.keptDims_eq] at hroom
  obtain ⟨t, ht⟩ := Tensor.exists_transpose hp' hword
  have hroom' := hroom
  rw [Tensor.size_mask_behind hp' ht haxes] at hroom'
  obtain ⟨ys, hys, _⟩ := Tensor.exists_accumulated (Tensor.axes_lt hp' ht haxes) ((ht.wordSized_iff hp').2 hword) hroom'
  obtain ⟨zs, hzs, hzd⟩ := Tensor.exists_accumulated (Tensor.axes_behind_lt hp' haxes) hword hroom
  obtain ⟨hkind, _, hq⟩ := absorbReduce_behind ha
  refine ⟨a, t, ys, zs, t.groupSize spec, ha, hkind, (Tensor.transpose_eq_ok_of_wordSized hp' hword).2 ht, hys, hzs, ?_, ?_,
    regroups_accumulated hp' ht haxes ha hys hzs, ?_⟩
  · rw [OpKind.evaluate_reduce, hys]
    rfl
  · rw [hkind, OpKind.evaluate_reduce, hzs, Tensor.groupSize_behind hp' ht haxes]
    rfl
  · rintro ⟨axis, ⟨haxis, _⟩, hone⟩
    have hback := Tensor.accumulated_transposed hp' ht haxes haxis (fun i hi h => hone i ⟨hi, h⟩) hys hzs
    exact Absorption.restored_eq_ok hq (Tensor.accumulated_at? hp' ht haxes hys hzs).2.1
      (hzd ▸ Tensor.wordSized_shape hword _) (hback.map _)

/-- The middle axis is reduced and dropped, so the outer ones come next to each other. -/
def middle : Reduce :=
  ⟨.mean, [1], false⟩

def stacked : Tensor Float32 :=
  ⟨[3, 1, 2], #[1, 2, 3, 4, 5, 6], rfl⟩

theorem absorbReduce_stacked : let _ := Scalar.kernels id
    ∃ a t y z, absorbReduce middle [2, 0, 1] = some a ∧ a.outputPerm = some [1, 0] ∧
      stacked.transpose [2, 0, 1] = .ok t ∧ (OpKind.reduce middle).evaluate [t] = .ok y ∧
        a.kind.evaluate [stacked] = .ok z ∧ z.transpose [1, 0] = .ok y := by
  intro _
  have hp : isPermutation [2, 0, 1] := by decide
  have hrank : stacked.rank = [2, 0, 1].length := rfl
  have haxes : ∀ axis ∈ middle.axes, axis < [2, 0, 1].length := by decide
  have hword : WordSized stacked.dims := by decide
  have hroom : RowMajor.size (Tensor.keptDims stacked.dims (middle.behind [2, 0, 1]).reduces) * 8 < 2 ^ 63 := by decide
  obtain ⟨a, t, ys, zs, size, ha, _, ht, _, _, hy, hz, _, hone⟩ := absorbReduce_evaluate hp hrank haxes hword hroom
  have hrest : (absorbReduce middle [2, 0, 1]).map (·.outputPerm) = some (some [1, 0]) := by decide
  rw [ha] at hrest
  have hq : a.outputPerm = some [1, 0] := Option.some.inj hrest
  have hback := hone ⟨1, by decide, fun i h => by simpa [middle, Reduce.reduces] using h.2⟩
  rw [Absorption.restored, hq] at hback
  exact ⟨a, t, _, _, ha, hq, ht, hy, hz, hback⟩

/-- The last axis is reduced and kept. -/
def last : Reduce :=
  ⟨.sum, [3], true⟩

/-- No elements, but two extents whose product is not a word. They come next to each other behind the transpose. -/
def parted : Tensor Float32 :=
  ⟨[2 ^ 32, 0, 2 ^ 32, 1], #[], rfl⟩

theorem absorbReduce_parted : let _ := Scalar.kernels id
    ∃ a t z, absorbReduce last [1, 0, 2, 3] = some a ∧ parted.transpose [1, 0, 2, 3] = .ok t ∧
      a.kind.evaluate [parted] = .ok z ∧ (OpKind.reduce last).evaluate [t] = .error (.crash .overflow) :=
  ⟨_, _, _, rfl, rfl, rfl, rfl⟩

/-! ## Concatenations -/

/-- An operand of a concatenation. -/
inductive JoinedData (α : Type) where
  /-- A transpose of a tensor. -/
  | transposed (x : Tensor α)
  | constant (literal : Literal)

namespace JoinedData

variable {p : List Nat} {constants : List (Nat × Literal)}

def view (p : List Nat) : JoinedData α → View
  | transposed _ => .pending p
  | constant literal => .constant literal

/-- What the concatenation reads. -/
def tensor (p : List Nat) : JoinedData α → Eval (Tensor α)
  | transposed x => OpKind.evaluate (.transpose p) [x]
  | constant literal => OpKind.evaluate (.const literal) []

/-- What a concatenation that absorbs reads in its place, in an input slot. -/
def behind (constants : List (Nat × Literal)) (slot : Nat) : JoinedData α → Eval (Tensor α)
  | transposed x => .ok x
  | constant literal => OpKind.evaluate (.const ((constants.lookup slot).getD literal)) []

/-- What it reads in all input slots. -/
def allBehind (constants : List (Nat × Literal)) (operands : List (JoinedData α)) : Eval (List (Tensor α)) :=
  operands.zipIdx.mapM fun e => e.1.behind constants e.2

/-- An operand is the transpose of what is read in its place. -/
theorem exists_behind {o : JoinedData α} {slot : Nat} {c : List (Nat × Literal)} {x : Tensor α}
    (hp : p.Perm (range p.length)) (hc : concatOperand p slot (o.view p) = .ok c)
    (hslot : ∀ new, (slot, new) ∈ c → constants.lookup slot = some new) (hx : o.tensor p = .ok x) :
    ∃ z, o.behind constants slot = .ok z ∧ z.rank = p.length ∧ Tensor.IsTranspose p z x := by
  cases o with
  | transposed z =>
    have hrank : z.rank = p.length := Tensor.rank_of_transpose hx
    exact ⟨z, rfl, hrank, ((Tensor.transpose_eq_ok (hrank.symm ▸ hp)).1 hx).2⟩
  | constant literal =>
    rcases concatOperand_slot hc with ⟨q, hview, _⟩ | ⟨_, new, hview, rfl, hrank, hnew⟩
    · cases hview
    · cases hview
      have hr : x.rank = p.length := by
        rw [← hrank, TensorType.rank, (Tensor.ofLiteral_eq_ok.1 hx).1, List.length_map, Tensor.rank]
      obtain ⟨z, hz, hzr, ht⟩ := Tensor.ofLiteral_permuted hx (hr.symm ▸ hp) hnew
      refine ⟨z, ?_, hzr.trans hr, ht⟩
      rw [behind, hslot new List.mem_cons_self]
      exact hz

end JoinedData

section Concatenations

variable {p : List Nat} {a : Absorption} {axis : Nat} {operands : List (JoinedData α)}

theorem absorbConcat_of_absorb {views : List View} (h : absorb (.concat axis) views p = .ok a) :
    absorbConcat axis views p = .ok a := by
  cases (absorb_cases h).2 with
  | concat axis' hk ha =>
    cases hk
    exact ha
  | pointwise hk ha => cases hk
  | broadcast f hk ha => cases hk
  | reduce spec hk ha => cases hk
  | pad spec hk ha => cases hk

/-- All operands of a concatenation are transposes of what is read in their places. -/
theorem exists_allBehind {xs : List (Tensor α)}
    (h : absorb (.concat axis) (operands.map (·.view p)) p = .ok a) (hxs : operands.mapM (·.tensor p) = .ok xs) :
    ∃ zs, JoinedData.allBehind a.constants operands = .ok zs ∧
      List.Forall₂ (fun z x => p.Perm (range z.rank) ∧ Tensor.IsTranspose p z x) zs xs := by
  obtain ⟨⟨_, hperm, _⟩, _⟩ := absorb_cases h
  have hp := isPermutation_iff.1 hperm
  obtain ⟨hnd, _⟩ := absorb_constants h
  obtain ⟨source, constants, _, hall, rfl⟩ := absorbConcat_eq_ok (absorbConcat_of_absorb h)
  rw [mapM_eq_ok] at hxs
  have hbehind : ∀ (i : Nat) (o : JoinedData α) (x : Tensor α), operands[i]? = some o → xs[i]? = some x →
      ∃ z, o.behind constants.flatten i = .ok z ∧ p.Perm (range z.rank) ∧ Tensor.IsTranspose p z x := by
    intro i o x ho hx
    obtain ⟨x', hx', hox⟩ := exists_getElem?_of_forall₂ hxs ho
    obtain rfl := Option.some.inj (hx'.symm.trans hx)
    have hview : (operands.map (·.view p)).zipIdx[i]? = some (o.view p, i) := by
      simp [ho]
    obtain ⟨c, hci, hc⟩ := exists_getElem?_of_forall₂ hall hview
    obtain ⟨z, hz, hrank, ht⟩ := JoinedData.exists_behind hp hc (fun new hnew => (lookup_eq_some_of_nodup hnd).2
      (List.mem_flatten.2 ⟨c, List.mem_of_getElem? hci, hnew⟩)) hox
    exact ⟨z, hz, hrank.symm ▸ hp, ht⟩
  have hex : ∀ e ∈ operands.zipIdx, ∃ z, e.1.behind constants.flatten e.2 = .ok z := by
    intro e he
    have ho := List.mem_zipIdx_iff_getElem?.1 he
    obtain ⟨x, hx, _⟩ := exists_getElem?_of_forall₂ hxs ho
    obtain ⟨z, hz, _⟩ := hbehind e.2 e.1 x ho hx
    exact ⟨z, hz⟩
  obtain ⟨zs, hzs⟩ := exists_mapM hex
  refine ⟨zs, hzs, ?_⟩
  rw [mapM_eq_ok] at hzs
  refine forall₂_of_getElem? (by rw [← hzs.length_eq, List.length_zipIdx, hxs.length_eq]) ?_
  intro i z x hz hx
  obtain ⟨o, ho, _⟩ := exists_getElem?_of_forall₂ hxs.flip hx
  obtain ⟨z', hz', hbeh⟩ := exists_getElem?_of_forall₂ hzs (i := i) (x := (o, i)) (by simp [ho])
  obtain rfl := Option.some.inj (hz'.symm.trans hz)
  obtain ⟨z', hz', hp', ht⟩ := hbehind i o x ho hx
  obtain rfl := Except.ok.inj (hz'.symm.trans hbeh)
  exact ⟨hp', ht⟩

omit [Kernels α] in
/-- Tensors of one rank that agree on all extents but those of one axis. -/
theorem dims_eq_set {xs : List (Tensor α)} {x₀ : Tensor α} (h₀ : x₀ ∈ xs) (haxis : axis < x₀.rank)
    (hrank : ∀ x ∈ xs, x.rank = x₀.rank)
    (hagree : ∀ x ∈ xs, ∀ x' ∈ xs, ∀ i, i ≠ axis → x.dims[i]? = x'.dims[i]?) :
    ∀ x ∈ xs, x.dims = x₀.dims.set axis (x.extent axis) := by
  intro x hx
  apply List.ext_getElem?
  intro i
  by_cases hi : i = axis
  · subst hi
    have hlt : i < x.dims.length := by
      rw [← Tensor.rank, hrank x hx]
      exact haxis
    rw [List.getElem?_set_self haxis, Tensor.extent, List.getElem?_eq_getElem hlt, List.getD_eq_getElem _ _ hlt]
  · rw [List.getElem?_set_ne (Ne.symm hi), hagree x hx x₀ h₀ i hi]

/-- The extents of tensors one after another along an axis. -/
def joinedDims (axis : Nat) (dims : List (List Nat)) : List Nat :=
  (dims.headD []).set axis (dims.map (·.getD axis 0)).sum

/-- A concatenation that absorbs runs along the axis that its axis is taken from, and a transpose leads from its result to
the one it had. -/
theorem absorb_concat {xs : List (Tensor α)} (h : absorb (.concat axis) (operands.map (·.view p)) p = .ok a)
    (hxs : operands.mapM (·.tensor p) = .ok xs)
    (hagree : ∀ x ∈ xs, ∀ x' ∈ xs, ∀ i, i ≠ axis → x.dims[i]? = x'.dims[i]?)
    (hword : WordSized (joinedDims axis (xs.map Tensor.dims)))
    (hroom : RowMajor.size (joinedDims axis (xs.map Tensor.dims)) * 4 < 2 ^ 63) :
    ∃ source, p[axis]? = some source ∧ a.kind = .concat source ∧ a.outputPerm = some p ∧
      ∃ y zs z, OpKind.evaluate (.concat axis) xs = .ok y ∧ JoinedData.allBehind a.constants operands = .ok zs ∧
        a.kind.evaluate zs = .ok z ∧ z.transpose p = .ok y := by
  obtain ⟨zs, hzs, hall⟩ := exists_allBehind h hxs
  obtain ⟨⟨⟨q, hq⟩, hperm, _⟩, _⟩ := absorb_cases h
  have hp := isPermutation_iff.1 hperm
  obtain ⟨source, _, hsource, _, rfl⟩ := absorbConcat_eq_ok (absorbConcat_of_absorb h)
  obtain ⟨haxis, rfl⟩ := List.getElem?_eq_some_iff.1 hsource
  refine ⟨_, hsource, rfl, rfl, ?_⟩
  -- a transpose is pending on one of the operands
  obtain ⟨x₀, rest, rfl⟩ : ∃ x₀ rest, xs = x₀ :: rest := by
    obtain ⟨o, ho, _⟩ := List.mem_map.1 hq
    obtain ⟨i, hi⟩ := List.mem_iff_getElem?.1 ho
    obtain ⟨x, hx, _⟩ := exists_getElem?_of_forall₂ (mapM_eq_ok.1 hxs) hi
    exact List.exists_cons_of_ne_nil (List.ne_nil_of_mem (List.mem_of_getElem? hx))
  have hrank : ∀ x ∈ x₀ :: rest, x.rank = p.length := by
    intro x hx
    obtain ⟨j, hj⟩ := List.mem_iff_getElem?.1 hx
    obtain ⟨z, _, _, ht⟩ := exists_getElem?_of_forall₂ hall.flip hj
    exact ht.rank_eq
  have hmem : x₀ ∈ x₀ :: rest := List.mem_cons_self
  have haxis₀ : axis < x₀.rank := (hrank x₀ hmem).symm ▸ haxis
  have hdims := dims_eq_set hmem haxis₀ (fun x hx => by rw [hrank x hx, hrank x₀ hmem]) hagree
  have hjoined : joinedDims axis ((x₀ :: rest).map Tensor.dims) =
      x₀.dims.set axis ((x₀ :: rest).map (Tensor.extent axis)).sum := by
    rw [joinedDims, List.map_map]
    rfl
  rw [hjoined] at hword hroom
  have hsum := hword.lt_of_mem (List.mem_set haxis₀ _)
  obtain ⟨y, hy⟩ := Tensor.exists_concat haxis₀ (List.cons_ne_nil x₀ rest) hdims hsum hword.size? hroom
  rw [← ((Tensor.concat_eq_ok haxis₀ (List.cons_ne_nil x₀ rest) hdims).1 hy).2.1] at hword
  have hlen : (selectD x₀.dims (inverse p) 0).length = p.length := by rw [length_selectD, length_inverse]
  rw [← selectD_inverse_left hp (hrank x₀ hmem) 0] at hdims
  obtain ⟨z, hz, hpz, ht⟩ := Tensor.concat_transposed (hlen.symm ▸ hp) (hlen.symm ▸ haxis) hdims hall hy hword
  rw [List.getD_eq_getElem _ _ haxis] at hz
  exact ⟨y, zs, z, hy, hzs, hz, (Tensor.transpose_eq_ok_of_wordSized hpz ((ht.wordSized_iff hpz).1 hword)).2 ht⟩

/-- A tensor twice, a constant, and a tensor without elements. -/
def rows : List (JoinedData Float32) :=
  [.transposed ⟨[2, 1], #[1, 2], rfl⟩, .constant ⟨.ofExtents .f32 [1, 2], [0, 0, 64, 64, 0, 0, 128, 64]⟩,
    .transposed ⟨[2, 1], #[1, 2], rfl⟩, .transposed ⟨[2, 0], #[], rfl⟩]

theorem absorb_concat_rows : let _ := Scalar.kernels id
    ∃ a xs y zs z, absorb (.concat 0) (rows.map (·.view [1, 0])) [1, 0] = .ok a ∧
      a.constants = [(1, ⟨.ofExtents .f32 [2, 1], [0, 0, 64, 64, 0, 0, 128, 64]⟩)] ∧ a.kind = .concat 1 ∧
      rows.mapM (·.tensor [1, 0]) = .ok xs ∧ OpKind.evaluate (.concat 0) xs = .ok y ∧
        JoinedData.allBehind a.constants rows = .ok zs ∧ a.kind.evaluate zs = .ok z ∧ z.transpose [1, 0] = .ok y := by
  intro _
  obtain ⟨a, ha, hconstants⟩ : ∃ a, absorb (.concat 0) (rows.map (·.view [1, 0])) [1, 0] = .ok a ∧
      a.constants = [(1, ⟨.ofExtents .f32 [2, 1], [0, 0, 64, 64, 0, 0, 128, 64]⟩)] := ⟨_, rfl, by decide⟩
  have hall : (rows.mapM (JoinedData.tensor [1, 0])).map (·.map Tensor.dims) = .ok [[1, 2], [1, 2], [1, 2], [0, 2]] := by
    decide +kernel
  obtain ⟨xs, hxs, hdims⟩ := map_eq_ok.1 hall
  have hagree : ∀ x ∈ xs, ∀ x' ∈ xs, ∀ i, i ≠ 0 → x.dims[i]? = x'.dims[i]? := by
    have htail : ∀ x ∈ xs, x.dims.tail = [2] := by
      intro x hx
      have hmem := List.mem_map_of_mem (f := Tensor.dims) hx
      rw [hdims] at hmem
      have hcases : x.dims = [1, 2] ∨ x.dims = [0, 2] := by simpa using hmem
      rcases hcases with h | h <;> rw [h] <;> rfl
    intro x hx x' hx' i hi
    obtain ⟨i, rfl⟩ := Nat.exists_eq_succ_of_ne_zero hi
    rw [← List.getElem?_tail, ← List.getElem?_tail, htail x hx, htail x' hx']
  obtain ⟨source, hsource, hkind, _, y, zs, z, hy, hzs, hz, ht⟩ :=
    absorb_concat ha hxs hagree (by rw [hdims]; decide) (by rw [hdims]; decide)
  cases hsource
  exact ⟨a, xs, y, zs, z, ha, hconstants, hkind, hxs, hy, hzs, hz, ht⟩

/-- No elements, but two extents whose product is not a word once the first one is doubled. -/
def halves : List (JoinedData Float32) :=
  [.transposed ⟨[2 ^ 31, 2 ^ 32, 0], #[], rfl⟩, .transposed ⟨[2 ^ 31, 2 ^ 32, 0], #[], rfl⟩]

theorem absorb_concat_halves : let _ := Scalar.kernels id
    ∃ a xs y zs, absorb (.concat 1) (halves.map (·.view [2, 0, 1])) [2, 0, 1] = .ok a ∧
      halves.mapM (·.tensor [2, 0, 1]) = .ok xs ∧ OpKind.evaluate (.concat 1) xs = .ok y ∧
        JoinedData.allBehind a.constants halves = .ok zs ∧ a.kind.evaluate zs = .error (.crash .overflow) :=
  ⟨_, _, _, _, rfl, rfl, rfl, rfl, rfl⟩

end Concatenations

end Relayout.Layout
