import Relayout.Proofs.Attributes
import Relayout.Proofs.Payloads

/-!
# Transposes as an action

One transpose after another is the transpose by the composed permutation (`Tensor.IsTranspose.comp`), so a tensor with
one extent of two tells whether two permutations cancel (`Tensor.cancels_iff_transpose`). A literal is a tensor of pieces
of bytes (`Literal.ofTensor`), and rearranging its axes is a transpose of that tensor. What holds of transposes thereby
holds of literals (`Literal.permuted_action`), with one reservation for both: where an extent is zero, a product of the
others may overflow in one order of the axes and not in another.
-/

namespace Relayout

open Perm RowMajor
open List (range)

/-! ## Composition -/

namespace Perm

variable {p q : List Nat} {n : Nat}

theorem compose?_eq_some (hp : p.Perm (range n)) (hq : q.Perm (range n)) : compose? p q = some (selectD p q 0) := by
  have hlen : p.length = q.length := by rw [length_of_perm hp, length_of_perm hq]
  rw [compose?, if_pos hlen, select?_eq_some (lt_length_of_perm hp hq) 0]

theorem selectD_perm_range (hp : p.Perm (range n)) (hq : q.Perm (range n)) : (selectD p q 0).Perm (range n) :=
  (selectD_perm hq (length_of_perm hp) 0).trans hp

theorem cancels_iff_selectD (hp : p.Perm (range n)) (hq : q.Perm (range n)) : cancels p q ↔ selectD p q 0 = range n := by
  rw [cancels, compose?_eq_some hp hq, Option.any_some, isIdentity, identity, length_selectD, length_of_perm hq,
    beq_iff_eq]

theorem inverse?_eq_some (hp : p.Perm (range n)) : inverse? p = some (inverse p) := by
  rw [inverse?, if_pos]
  simp only [List.all_eq_true, decide_eq_true_eq]
  exact lt_length_of_perm hp hp

/-- An axis that is moved takes its extent along. -/
theorem eq_range_of_selectD_set (hp : p.Perm (range n))
    (h : ∀ axis < n, selectD ((List.replicate n 1).set axis 2) p 0 = (List.replicate n 1).set axis 2) : p = range n := by
  have hlen := length_of_perm hp
  refine ext_getD hlen List.length_range 0 fun i hi => ?_
  have hpi := getD_mem_of_perm hp hi
  have heq := congrArg (fun dims => dims.getD i 0) (h i hi)
  simp only [getD_selectD (hlen.symm ▸ hi)] at heq
  rw [getD_set (by simpa using hpi), getD_set (by simpa using hi), if_pos rfl] at heq
  split at heq
  · rename_i hmoved
    rw [← hmoved, List.getD_eq_getElem _ _ (List.length_range.symm ▸ hi), List.getElem_range]
  · rw [List.getD_eq_getElem _ _ (by simpa using hpi), List.getElem_replicate] at heq
    cases heq

end Perm

namespace Tensor

variable {α : Type} {p q : List Nat} {x y z : Tensor α}

/-- One transpose after another. -/
theorem IsTranspose.comp (hp : p.Perm (range x.rank)) (hq : q.Perm (range x.rank)) (h : IsTranspose p x y)
    (h' : IsTranspose q y z) : IsTranspose (selectD p q 0) x z := by
  have hlt := lt_length_of_perm hp hq
  refine ⟨by rw [h'.1, h.1, selectD_selectD hlt], fun cs hcs => ?_⟩
  rw [← selectD_selectD hlt, h'.2 _ (h.inBounds hp hcs), h.2 cs hcs]

theorem exists_of_dims [Inhabited α] {dims : List Nat} (h : WordSized dims) : ∃ x : Tensor α, x.dims = dims :=
  ⟨⟨dims, .replicate (size dims) default, by rw [h.size?, Array.size_replicate]⟩, rfl⟩

/-- **Cancelling.** Two permutations of one length cancel if and only if a transpose by the first and one by the second
give back every tensor whose extents without the zeros can be multiplied. Any other tensor comes back as well, or one of
the transposes breaks off. -/
theorem cancels_iff_transpose [Inhabited α] (hp : isPermutation p) (hq : isPermutation q) (hlen : p.length = q.length) :
    (cancels p q ↔ ∀ x : Tensor α, x.rank = p.length → WordSized x.dims →
      (x.transpose p >>= fun y => y.transpose q) = .ok x) ∧
    (cancels p q → ∀ x : Tensor α, x.rank = p.length → (x.transpose p >>= fun y => y.transpose q) = .ok x ∨
      (x.transpose p >>= fun y => y.transpose q) = .error (.crash .overflow)) := by
  rw [isPermutation_iff] at hp hq
  rw [← hlen] at hq
  refine ⟨⟨fun hc x hx hword => ?_, fun h => ?_⟩, fun hc x hx => ?_⟩
  · rw [← hx] at hp hq
    obtain ⟨y, hy⟩ := exists_transpose hp hword
    have hrank : y.rank = x.rank := hy.rank_eq.trans hx.symm
    refine bind_eq_ok.2 ⟨y, (transpose_eq_ok_of_wordSized hp hword).2 hy, ?_⟩
    exact (transpose_eq_ok_of_wordSized (hrank.symm ▸ hq) ((hy.wordSized_iff hp).2 hword)).2 (hy.undo hp hc)
  · -- One extent differs from all others, and it has to be back where it was.
    rw [cancels_iff_selectD hp hq]
    refine eq_range_of_selectD_set (selectD_perm_range hp hq) fun axis haxis => ?_
    have hword := wordSized_set_replicate haxis (show 2 < 2 ^ 64 by norm_num)
    obtain ⟨x, hx⟩ := exists_of_dims (α := α) hword
    have hrank : x.rank = p.length := by rw [rank, hx, List.length_set, List.length_replicate]
    obtain ⟨y, hy, hback⟩ := bind_eq_ok.1 (h x hrank (hx ▸ hword))
    rw [← hrank] at hp hq
    rw [transpose_eq_ok hp] at hy
    rw [transpose_eq_ok (by rwa [hy.2.rank_eq, ← hrank])] at hback
    rw [← hx]
    exact (hy.2.comp hp hq hback.2).1.symm
  · rw [← hx] at hp hq
    rcases transpose_ok_or_overflow hp with ⟨y, hy⟩ | hover
    · have ht := ((transpose_eq_ok hp).1 hy).2
      have hrank : y.rank = x.rank := ht.rank_eq.trans hx.symm
      rw [hy]
      exact (ht.undo hp hc).transpose_eq_or_overflow (hrank.symm ▸ hq)
    · exact .inr (by rw [hover]; rfl)

/-- A rotation of three axes is undone by the other one and not by itself. -/
theorem rotation_cancels : cancels [1, 2, 0] [2, 0, 1] ∧ ¬cancels [1, 2, 0] [1, 2, 0] ∧
    (∀ x : Tensor Float32, x.rank = 3 → WordSized x.dims →
      (x.transpose [1, 2, 0] >>= fun y => y.transpose [2, 0, 1]) = .ok x) ∧
      ∃ x : Tensor Float32, x.rank = 3 ∧ WordSized x.dims ∧
        (x.transpose [1, 2, 0] >>= fun y => y.transpose [1, 2, 0]) ≠ .ok x := by
  have hback : cancels [1, 2, 0] [2, 0, 1] := by decide
  have hon : ¬cancels [1, 2, 0] [1, 2, 0] := by decide
  refine ⟨hback, hon, (cancels_iff_transpose (by decide) (by decide) (by decide)).1.1 hback, ?_⟩
  rw [(cancels_iff_transpose (α := Float32) (by decide) (by decide) (by decide)).1] at hon
  obtain ⟨x, hx⟩ := not_forall.1 hon
  obtain ⟨hrank, hx⟩ := Classical.not_imp.1 hx
  exact ⟨x, hrank, Classical.not_imp.1 hx⟩

/-- A tensor without elements whose extents can be counted, but not from the second axis on. -/
theorem rotation_overflows : cancels [1, 2, 0] [2, 0, 1] ∧ ∃ x : Tensor Float32, x.dims = [0, 2 ^ 32, 2 ^ 32] ∧
    (x.transpose [1, 2, 0] >>= fun y => y.transpose [2, 0, 1]) = .error (.crash .overflow) :=
  ⟨by decide, ⟨[0, 2 ^ 32, 2 ^ 32], #[], rfl⟩, rfl, rfl⟩

end Tensor

/-! ## Literals as tensors -/

namespace Literal

/-- The bytes of one element. -/
abbrev Element (elem : ElemType) : Type :=
  { bytes : List UInt8 // bytes.length = elem.width }

variable {elem : ElemType} {l : Literal} {p q : List Nat}

/-- The literal of a tensor of elements. -/
def ofTensor (x : Tensor (Element elem)) : Literal :=
  ⟨.ofExtents elem x.dims, (x.data.toList.map (·.1)).flatten⟩

theorem elements_ofTensor (x : Tensor (Element elem)) : (ofTensor x).elements = x.data.toList.map (·.1) :=
  elements_eq (List.forall_mem_map.2 fun e _ => e.2) rfl

theorem extents?_ofTensor (x : Tensor (Element elem)) : (ofTensor x).type.extents? = some x.dims :=
  TensorType.extents?_eq_some.2 rfl

theorem length_bytes_ofTensor (x : Tensor (Element elem)) : (ofTensor x).bytes.length = size x.dims * elem.width := by
  have hwidths : ∀ bytes ∈ x.data.toList.map (·.1), bytes.length = elem.width := List.forall_mem_map.2 fun e _ => e.2
  rw [ofTensor, length_flatten hwidths, List.length_map, Array.length_toList, x.size_eq]

theorem sized_ofTensor {x : Tensor (Element elem)} : (ofTensor x).Sized ↔ size x.dims * elem.width < 2 ^ 64 := by
  rw [Sized, length_bytes_ofTensor, TensorType.byteCount?, TensorType.elementCount?, extents?_ofTensor]
  simp only [Option.bind_eq_bind, Option.bind_some, x.counted, x.size_eq, Word.mul?, Word.size?_eq_some]
  exact and_iff_left rfl

theorem exists_ofTensor (h : l.Sized) : ∃ x : Tensor (Element l.type.elem), ofTensor x = l := by
  obtain ⟨dims, hdims, hcount, _, hlen⟩ := h.exists_extents
  let pieces : List (Element l.type.elem) := l.elements.attach.map fun e => ⟨e.1, length_of_mem_elements e.2⟩
  refine ⟨⟨dims, pieces.toArray, by simp [pieces, hlen, hcount]⟩, ?_⟩
  have hpieces : pieces.map (·.1) = l.elements := by simp [pieces]
  rw [ofTensor, hpieces, h.flatten_elements, TensorType.ofExtents, ← hdims]

theorem permutedBytes_ofTensor {x y : Tensor (Element elem)} (hp : p.Perm (range x.rank))
    (h : Tensor.IsTranspose p x y) : (ofTensor x).permutedBytes x.dims p = (ofTensor y).bytes := by
  have hdata : (range (size y.dims)).map (fun i => (x.data.toList.map (·.1)).toArray.getD (source x.dims p i) []) =
      y.data.toList.map (·.1) := by
    refine List.ext_getElem (by simp [y.size_eq]) fun i hi _ => ?_
    have hi' : i < size y.dims := by simpa using hi
    have hget := h.getElem?_data hp hi'
    rw [Array.getElem?_eq_getElem (y.size_eq.symm ▸ hi')] at hget
    simp [← hget]
  rw [permutedBytes, elements_ofTensor, ← h.1, List.flatMap_def, hdata]
  rfl

/-- Rearranging the axes of a literal is a transpose of the elements, if the extents can be counted from both ends. -/
theorem permuted_ofTensor {x : Tensor (Element elem)} {m : Literal} (hp : p.Perm (range x.rank)) :
    (ofTensor x).permuted p = .ok m ↔
      volume? x.dims = some (size x.dims) ∧ ∃ y, Tensor.IsTranspose p x y ∧ m = ofTensor y := by
  rw [permuted_eq_ok, extents?_ofTensor]
  constructor
  · rintro ⟨dims, n, hdims, _, ⟨hvolume, hcount, _⟩, rfl⟩
    cases hdims
    obtain ⟨y, hy⟩ := Tensor.exists_transpose_of_counted hp hcount
    refine ⟨by rw [hvolume, (volume?_eq_some.1 hvolume).2], y, hy, ?_⟩
    rw [permutedBytes_ofTensor hp hy, ← hy.1]
    rfl
  · rintro ⟨hvolume, y, hy, rfl⟩
    have hsize : size y.dims = size x.dims := size_perm (hy.perm_dims hp)
    refine ⟨x.dims, size x.dims, rfl, hp, ⟨hvolume, ?_, (length_bytes_ofTensor x).ge⟩, ?_⟩
    · rw [← hy.1, y.counted, y.size_eq, hsize]
    · rw [permutedBytes_ofTensor hp hy, ← hy.1]
      rfl

/-- The extents of a literal have to be counted from the last axis on, and those of the result from the first. -/
theorem exists_permuted_ofTensor {x : Tensor (Element elem)} (hp : p.Perm (range x.rank)) :
    (∃ m, (ofTensor x).permuted p = .ok m) ↔ (volume? x.dims).isSome ∧ (size? (selectD x.dims p 0)).isSome := by
  constructor
  · rintro ⟨m, hm⟩
    obtain ⟨hvolume, y, hy, _⟩ := (permuted_ofTensor hp).1 hm
    rw [hvolume, ← hy.1, y.counted]
    exact ⟨rfl, rfl⟩
  · rintro ⟨hvolume, hcount⟩
    obtain ⟨n, hn⟩ := Option.isSome_iff_exists.1 hcount
    obtain ⟨k, hk⟩ := Option.isSome_iff_exists.1 hvolume
    obtain ⟨y, hy⟩ := Tensor.exists_transpose_of_counted hp hn
    exact ⟨_, (permuted_ofTensor hp).2 ⟨by rw [hk, (volume?_eq_some.1 hk).2], y, hy, rfl⟩⟩

section Read

variable {α : Type} [Kernels α]

theorem ofLiteral_ofTensor {x : Tensor (Element elem)} {t : Tensor α} : Tensor.ofLiteral (ofTensor x) = .ok t ↔
    x.map (fun e => Tensor.ofElement? elem e.1) = t.map some := by
  have hdims : (ofTensor x).type.dims = t.dims.map .fixed ↔ x.dims = t.dims :=
    List.map_inj_right fun _ _ h => Dim.fixed.inj h
  rw [Tensor.ofLiteral_eq_ok, hdims, elements_ofTensor, Tensor.map, Tensor.map, Tensor.mk.injEq,
    List.forall₂_map_left_iff]
  refine and_congr_right fun _ => ?_
  rw [← Array.toList_inj, Array.toList_map, Array.toList_map, ← List.forall₂_eq_eq_eq, List.forall₂_map_left_iff,
    List.forall₂_map_right_iff]
  rfl

/-- What is read off the elements is transposed with them. -/
theorem ofLiteral_of_isTranspose {x y : Tensor (Element elem)} {t : Tensor α} (hp : p.Perm (range x.rank))
    (h : Tensor.IsTranspose p x y) (ht : Tensor.ofLiteral (ofTensor x) = .ok t) :
    ∃ u, Tensor.ofLiteral (ofTensor y) = .ok u ∧ Tensor.IsTranspose p t u := by
  rw [ofLiteral_ofTensor] at ht
  have hdims : t.dims = x.dims := congrArg (fun x => x.dims) ht.symm
  have hp' : p.Perm (range t.rank) := by rwa [Tensor.rank, hdims]
  obtain ⟨u, hu⟩ := Tensor.exists_transpose_of_counted hp' (by rw [hdims, ← h.1]; exact y.counted)
  have hread := h.map fun e => Tensor.ofElement? (α := α) elem e.1
  rw [ht] at hread
  exact ⟨u, ofLiteral_ofTensor.2 (hread.right_unique hp' (hu.map some)), hu⟩

/-- **Rearranging literals.** Rearranging the axes of a literal by a permutation succeeds if its extents can be counted
from the last axis on and the rearranged ones from the first, and breaks off otherwise. If it succeeds, the payload has
the size of the new type, rearranging once more is rearranging once by the composed permutation, the inverse gives
nothing but the literal back, and a literal that is read as a tensor is read as the transpose. It always succeeds, there
and back and on, if the extents without the zeros can be multiplied. -/
theorem permuted_action {type : TensorType} {bytes : List UInt8} (hl : make type bytes = .ok l) (hp : isPermutation p)
    (hq : isPermutation q) (hplen : p.length = type.rank) (hqlen : q.length = type.rank) :
    ∃ dims pq back, type.extents? = some dims ∧ compose? p q = some pq ∧ inverse? p = some back ∧
      ((volume? dims).isSome ∧ (size? (selectD dims p 0)).isSome → ∃ m, l.permuted p = .ok m) ∧
      (¬((volume? dims).isSome ∧ (size? (selectD dims p 0)).isSome) → l.permuted p = .error (.crash .overflow)) ∧
      (∀ m, l.permuted p = .ok m → m.Sized ∧ (∀ n, m.permuted q = .ok n → l.permuted pq = .ok n) ∧
        (∀ n, m.permuted back = .ok n → n = l) ∧
        ∀ t : Tensor α, Tensor.ofLiteral l = .ok t → ∃ u, Tensor.ofLiteral m = .ok u ∧ t.transpose p = .ok u) ∧
      (WordSized dims → ∃ m n, l.permuted p = .ok m ∧ m.permuted q = .ok n ∧ m.permuted back = .ok l) := by
  obtain ⟨rfl, hsized⟩ := make_eq_ok.1 hl
  obtain ⟨x, hx⟩ := exists_ofTensor hsized
  have hrank : x.rank = type.rank := by
    simpa [ofTensor, TensorType.ofExtents, TensorType.rank, Tensor.rank] using congrArg (fun l => l.type.rank) hx
  have hext : type.extents? = some x.dims := by
    rw [← extents?_ofTensor x, hx]
  rw [isPermutation_iff, hplen, ← hrank] at hp
  rw [isPermutation_iff, hqlen, ← hrank] at hq
  rw [← hx] at hsized ⊢
  have hback := inverse_perm hp
  refine ⟨x.dims, _, _, hext, compose?_eq_some hp hq, inverse?_eq_some hp,
    (exists_permuted_ofTensor hp).2, fun hnot => ?_, fun m hm => ?_, fun hword => ?_⟩
  · have hprank : p.Perm (range (ofTensor x).type.rank) := by rwa [hx, ← hrank]
    exact (permuted_ok_or_overflow hsized hprank).resolve_left fun hok => hnot ((exists_permuted_ofTensor hp).1 hok)
  · obtain ⟨hvolume, y, hy, rfl⟩ := (permuted_ofTensor hp).1 hm
    have hyrank : y.rank = x.rank := hy.rank_eq.trans (length_of_perm hp)
    refine ⟨?_, fun n hn => ?_, fun n hn => ?_, fun t ht => ?_⟩
    · rw [sized_ofTensor, size_perm (hy.perm_dims hp)]
      exact sized_ofTensor.1 hsized
    · obtain ⟨_, z, hz, rfl⟩ := (permuted_ofTensor (hyrank.symm ▸ hq)).1 hn
      exact (permuted_ofTensor (selectD_perm_range hp hq)).2 ⟨hvolume, z, hy.comp hp hq hz, rfl⟩
    · obtain ⟨_, z, hz, rfl⟩ := (permuted_ofTensor (hyrank.symm ▸ hback)).1 hn
      rw [hz.right_unique (hyrank.symm ▸ hback) (hy.inverse hp)]
    · obtain ⟨u, hu, htu⟩ := ofLiteral_of_isTranspose hp hy ht
      have hdims : t.dims = x.dims := congrArg (fun x => x.dims) (ofLiteral_ofTensor.1 ht).symm
      refine ⟨u, hu, (Tensor.transpose_eq_ok (by rwa [Tensor.rank, hdims])).2 ⟨?_, htu⟩⟩
      rw [hdims, stridesFit_iff]
      intro k
      simpa using (volume?_eq_some.1 hvolume).1 (k + 1)
  · obtain ⟨y, hy⟩ := Tensor.exists_transpose hp hword
    have hyrank : y.rank = x.rank := hy.rank_eq.trans (length_of_perm hp)
    have hword' := (hy.wordSized_iff hp).2 hword
    obtain ⟨z, hz⟩ := Tensor.exists_transpose (hyrank.symm ▸ hq) hword'
    exact ⟨ofTensor y, ofTensor z, (permuted_ofTensor hp).2 ⟨hword.volume?, y, hy, rfl⟩,
      (permuted_ofTensor (hyrank.symm ▸ hq)).2 ⟨hword'.volume?, z, hz, rfl⟩,
      (permuted_ofTensor (hyrank.symm ▸ hback)).2 ⟨hword'.volume?, x, hy.inverse hp, rfl⟩⟩

end Read

/-- Two rows of three, turned into three rows of two and back. -/
theorem permuted_rows : ∃ l m, make (.ofExtents .ui8 [2, 3]) [1, 2, 3, 4, 5, 6] = .ok l ∧ l.permuted [1, 0] = .ok m ∧
    m.bytes = [1, 4, 2, 5, 3, 6] ∧ m.Sized ∧ m.permuted [1, 0] = .ok l := by
  have hl : make (.ofExtents .ui8 [2, 3]) [1, 2, 3, 4, 5, 6] = .ok ⟨.ofExtents .ui8 [2, 3], [1, 2, 3, 4, 5, 6]⟩ := rfl
  have hp : isPermutation [1, 0] := by decide
  let _ : Kernels Float32 := Scalar.kernels id
  obtain ⟨dims, pq, back, hdims, _, hback, _, _, hall, hfits⟩ :=
    permuted_action (α := Float32) hl hp hp rfl rfl
  cases hdims
  cases hback
  obtain ⟨m, _, hm, _, hinverse⟩ := hfits (by decide)
  obtain ⟨hsized, _⟩ := hall m hm
  cases hm
  exact ⟨_, _, hl, rfl, by decide, hsized, hinverse⟩

/-- A literal without elements whose rearranged extents can not be counted. -/
theorem permuted_overflow : ∃ l, make (.ofExtents .f32 [0, 2 ^ 32, 2 ^ 32]) [] = .ok l ∧
    l.permuted [1, 2, 0] = .error (.crash .overflow) :=
  ⟨_, rfl, rfl⟩

end Literal

end Relayout
