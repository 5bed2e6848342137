import Relayout.Proofs.Absorption
import Relayout.Proofs.Rules
import Relayout.Proofs.Transposition

/-!
# Padding and transposes

A padding of a transposed operand pads, on the operand, the axes that the padded ones come from, each by the amounts of
its image (`Layout.absorbPad_behind`). It is a padding of last axes again, as all amounts in front of them are zero.

The types of the two paddings differ by the permutation (`pad_types`), and so do the results (`pad_transposed`) wherever both
can be computed. A reflecting padding checks the axes in its list of amounts, which may be others than before.
-/

namespace Relayout

open Perm
open List (range)

/-! ## Amounts -/

theorem pairs_flatMap (rows : List (Nat × Nat)) : pairs (rows.flatMap fun (before, after) => [before, after]) = rows := by
  induction rows with
  | nil => rfl
  | cons row rows ih => exact congrArg (row :: ·) ih

theorem length_pairs : ∀ amounts : List Nat, (pairs amounts).length = amounts.length / 2
  | [] => rfl
  | [_] => by simp [pairs]
  | a :: b :: rest => by
    rw [pairs, List.length_cons, length_pairs rest, List.length_cons, List.length_cons]
    omega

theorem Pad.length_rows {spec : Pad} {n : Nat} (h : spec.amounts.length / 2 ≤ n) : (spec.rows n).length = n := by
  rw [rows, List.length_append, List.length_replicate, length_pairs]
  omega

/-- Axes in front of the padded ones are not padded. -/
theorem Pad.rows_front {spec : Pad} {n i : Nat} (hi : i < n - spec.amounts.length / 2) :
    (spec.rows n).getD i (0, 0) = (0, 0) := by
  rw [rows, List.getD_append _ _ _ _ (by simpa using hi), List.getD_replicate _ hi]

/-- Padded axes are longer than what is put before and after them. -/
def Pad.Reflects (spec : Pad) (dims : List Nat) : Prop :=
  ∀ i < dims.length, dims.length - spec.amounts.length / 2 ≤ i →
    ((spec.rows dims.length).getD i (0, 0)).1 < dims.getD i 0 ∧ ((spec.rows dims.length).getD i (0, 0)).2 < dims.getD i 0

/-- Where no axis is empty, all axes are longer than what is put before and after them. -/
theorem Pad.Reflects.lt {spec : Pad} {dims : List Nat} (h : spec.Reflects dims) {i : Nat} (hi : i < dims.length)
    (hpos : 0 < dims.getD i 0) : ((spec.rows dims.length).getD i (0, 0)).1 < dims.getD i 0 ∧
      ((spec.rows dims.length).getD i (0, 0)).2 < dims.getD i 0 := by
  rcases Nat.lt_or_ge i (dims.length - spec.amounts.length / 2) with hlt | hge
  · rw [rows_front hlt]
    exact ⟨hpos, hpos⟩
  · exact h i hi hge

theorem Pad.Reflects.zero_not_mem {spec : Pad} {dims : List Nat} (h : spec.Reflects dims) :
    0 ∉ dims.drop (dims.length - spec.amounts.length / 2) := by
  intro hzero
  obtain ⟨j, hj, heq⟩ := List.mem_drop_iff_getElem.1 hzero
  have hlt := (h _ hj (Nat.le_add_left _ _)).1
  rw [List.getD_eq_getElem _ _ hj] at hlt
  simp only [Nat.add_comm _ j] at heq
  omega

/-- The padding that runs on the untransposed operand. -/
def Pad.behind (spec : Pad) (p : List Nat) : Pad :=
  { spec with
    amounts := ((Layout.movedRows p (spec.rows p.length)).drop (p.length - spec.amounts.length / 2)).flatMap
      fun (before, after) => [before, after] }

section Behind

variable {spec : Pad} {p : List Nat} {a : Layout.Absorption}

theorem Layout.movedRows_getD {n : Nat} (hp : p.Perm (range n)) (rows : List (Nat × Nat)) {i : Nat} (hi : i < n) :
    (movedRows p rows).getD (p.getD i 0) (0, 0) = rows.getD i (0, 0) := by
  rw [movedRows, length_of_perm hp, getD_map_range (getD_mem_of_perm hp hi), position_getD hp hi]

theorem Layout.absorbPad_behind (h : absorbPad spec p = some a) :
    a = ⟨.pad (spec.behind p), [], some p⟩ ∧ spec.amounts.length % 2 = 0 ∧ spec.amounts.length / 2 ≤ p.length ∧
      (spec.behind p).amounts.length = spec.amounts.length ∧
      (spec.behind p).rows p.length = movedRows p (spec.rows p.length) := by
  obtain ⟨_, heven, hle, hzero, _, rfl⟩ := absorbPad_eq_some h
  have hlen : (movedRows p (spec.rows p.length)).length = p.length := by simp [movedRows]
  have hamounts : (spec.behind p).amounts.length = spec.amounts.length := by
    rw [Pad.behind, List.length_flatMap]
    simp only [List.map_const', List.sum_replicate, List.length_cons, List.length_nil, List.length_drop, hlen,
      smul_eq_mul]
    omega
  refine ⟨rfl, heven, hle, hamounts, ?_⟩
  have hfront : (movedRows p (spec.rows p.length)).take (p.length - spec.amounts.length / 2) =
      List.replicate (p.length - spec.amounts.length / 2) (0, 0) :=
    List.eq_replicate_iff.2 ⟨by rw [List.length_take, hlen]; omega, hzero⟩
  rw [Pad.rows, hamounts, Pad.behind, pairs_flatMap, ← hfront, List.take_append_drop]

end Behind

/-! ## Types -/

namespace Typing

/-- An extent after padding, which must be fixed if there is any. -/
def PadsTo (row : Nat × Nat) (d d' : Dim) : Prop :=
  (row = (0, 0) ∧ d' = d) ∨ row ≠ (0, 0) ∧ ∃ extent, d = .fixed extent ∧ extent + row.1 + row.2 < 2 ^ 64 ∧
    d' = .fixed (extent + row.1 + row.2)

theorem padDim_eq_ok (axis : Nat) {row : Nat × Nat} {d d' : Dim} :
    (if row.1 = 0 ∧ row.2 = 0 then .ok d else match d with
      | .fixed extent =>
        match Word.size? (extent + row.1 + row.2) with
        | some padded => .ok (.fixed padded)
        | none => .error (.crash .overflow)
      | .dynamic _ => .error (.paddedDynamic axis) : Except ShapeCause Dim) = .ok d' ↔ PadsTo row d d' := by
  obtain ⟨before, after⟩ := row
  rw [PadsTo, Prod.mk.injEq]
  by_cases hzero : before = 0 ∧ after = 0
  · simp [hzero, eq_comm]
  · simp only [hzero, if_false, false_and, false_or, not_false_iff, true_and, ne_eq, Prod.mk.injEq]
    cases d with
    | dynamic symbol => simp
    | fixed extent =>
      dsimp only
      cases hsize : Word.size? (extent + before + after) with
      | none =>
        have hge := Word.size?_eq_none.1 hsize
        simpa using fun hlt => absurd hlt hge.not_gt
      | some n =>
        obtain ⟨hlt, rfl⟩ := Word.size?_eq_some.1 hsize
        constructor
        · rintro ⟨⟩
          exact ⟨extent, rfl, hlt, rfl⟩
        · rintro ⟨_, ⟨⟩, _, rfl⟩
          rfl

theorem pad_eq_ok {spec : Pad} {types : List TensorType} {t : TensorType} :
    resultType (.pad spec) types = .ok t ↔ ∃ u, types = [u] ∧ spec.amounts.length % 2 = 0 ∧
      spec.amounts.length / 2 ≤ u.rank ∧ t.elem = u.elem ∧ t.rank = u.rank ∧ ∀ i < u.rank,
        PadsTo ((spec.rows u.rank).getD i (0, 0)) (u.dims.getD i (.fixed 1)) (t.dims.getD i (.fixed 1)) := by
  rw [resultType, single_eq_ok]
  refine exists_congr fun u => and_congr_right fun _ => ?_
  rw [padType]
  dsimp only
  by_cases heven : spec.amounts.length % 2 = 0
  · rw [if_neg (not_not.2 heven)]
    by_cases hle : u.rank < spec.amounts.length / 2
    · rw [if_pos hle]
      simp only [reduceCtorEq, false_iff, not_and]
      exact fun _ h => absurd h (by omega)
    · rw [if_neg hle, bind_eq_ok]
      have hle := not_lt.1 hle
      have hrows := Pad.length_rows hle
      have hlen : (u.dims.zip (spec.rows u.rank)).length = u.rank := by
        rw [List.length_zip, hrows, TensorType.rank, Nat.min_self]
      simp only [mapM_zipIdx_eq_ok (Dim.fixed 1, ((0, 0) : Nat × Nat)) (Dim.fixed 1), hlen, pure_eq_ok]
      constructor
      · rintro ⟨dims, ⟨hdims, hall⟩, rfl⟩
        refine ⟨heven, hle, rfl, hdims, fun i hi => (padDim_eq_ok i).1 ?_⟩
        have := hall i hi
        rw [getD_zip rfl hrows hi] at this
        exact this
      · rintro ⟨_, _, helem, hrank, hall⟩
        refine ⟨t.dims, ⟨hrank, fun i hi => ?_⟩, by rw [← helem]⟩
        rw [getD_zip rfl hrows hi]
        exact (padDim_eq_ok i).2 (hall i hi)
  · rw [if_pos heven]
    simp only [reduceCtorEq, false_iff, not_and]
    exact fun h => absurd h heven

/-- The type of a padding of a transposed operand. -/
theorem pad_types {spec : Pad} {p : List Nat} {a : Layout.Absorption} {x z y : TensorType}
    (hx : TensorType.IsTranspose p z x) (ha : Layout.absorbPad spec p = some a) (h : resultType (.pad spec) [x] = .ok y) :
    ∃ y', resultType (.pad (spec.behind p)) [z] = .ok y' ∧ TensorType.IsTranspose p y' y := by
  obtain ⟨_, heven, hle, hamounts, hrows⟩ := Layout.absorbPad_behind ha
  obtain ⟨u, hu, _, _, helem, hrank, hall⟩ := pad_eq_ok.1 h
  have hu := List.singleton_inj.1 hu
  subst hu
  rw [hx.rank_eq] at hrank hall
  have ht := TensorType.isTranspose_untransposed (y := y) (p := p) (hrank.symm ▸ hx.perm_self)
  refine ⟨y.transposed (inverse p), pad_eq_ok.2 ⟨z, rfl, ?_, ?_, helem.trans hx.elem_eq, ?_,
    (forall_axis hx.perm).2 fun i hi => ?_⟩, ht⟩
  · rw [hamounts]
    exact heven
  · rw [hamounts, hx.rank_eq']
    exact hle
  · rw [ht.rank_eq', hx.rank_eq']
  · have hi' : i < p.length := hx.rank_eq' ▸ hi
    rw [hx.rank_eq', hrows, Layout.movedRows_getD hx.perm_self _ hi', ← hx.getD_eq hi', ← ht.getD_eq hi']
    exact hall i hi'

end Typing

/-! ## Tensors -/

namespace Tensor

open RowMajor

variable {α : Type}

/-- The coordinates that coordinates of a padded tensor show, if they do not show the fill value. -/
def padSources (mode : PadMode) (dims : List Nat) (rows : List (Nat × Nat)) (cs : List Nat) : Option (List Nat) :=
  ((dims.zip rows).zip cs).mapM fun ((extent, before, _), c) => padSource mode extent before c

theorem padSources_eq_some {mode : PadMode} {dims cs us : List Nat} {rows : List (Nat × Nat)} {n : Nat}
    (hd : dims.length = n) (hr : rows.length = n) (hc : cs.length = n) : padSources mode dims rows cs = some us ↔
      us.length = n ∧ ∀ i < n, padSource mode (dims.getD i 0) (rows.getD i (0, 0)).1 (cs.getD i 0) = some (us.getD i 0) := by
  have hzip : (dims.zip rows).length = n := by rw [List.length_zip, hd, hr, Nat.min_self]
  have hlen : ((dims.zip rows).zip cs).length = n := by rw [List.length_zip, hzip, hc, Nat.min_self]
  rw [padSources, mapM_eq_some_getD ((0, (0, 0)), 0) 0, hlen]
  refine and_congr_right fun _ => forall₂_congr fun i hi => ?_
  rw [getD_zip hzip hc hi, getD_zip hd hr hi]

/-- Only the rows of padded axes are checked for reflection. -/
theorem forall_row_iff_reflects {dims : List Nat} {spec : Pad} (hle : spec.amounts.length / 2 ≤ dims.length) :
    (∀ row ∈ (dims.zip (spec.rows dims.length)).drop (dims.length - spec.amounts.length / 2),
      row.2.1 < row.1 ∧ row.2.2 < row.1) ↔ spec.Reflects dims := by
  have hrows := Pad.length_rows hle
  have hzip : (dims.zip (spec.rows dims.length)).length = dims.length := by
    rw [List.length_zip, hrows, Nat.min_self]
  have hget : ∀ i (hi : i < (dims.zip (spec.rows dims.length)).length), (dims.zip (spec.rows dims.length))[i] =
      (dims.getD i 0, (spec.rows dims.length).getD i (0, 0)) := fun i hi => by
    rw [← getD_zip rfl hrows (hzip ▸ hi), List.getD_eq_getElem _ _ hi]
  simp only [List.mem_drop_iff_getElem]
  constructor
  · intro h i hi hge
    have hsub := Nat.add_sub_cancel' hge
    have := h _ ⟨i - (dims.length - spec.amounts.length / 2), by omega, rfl⟩
    simpa only [hget, hsub] using this
  · rintro h row ⟨j, hj, rfl⟩
    rw [hget]
    exact h (dims.length - spec.amounts.length / 2 + j) (by omega) (by omega)

theorem padExtent_eq_ok {mode : PadMode} {row : Nat × Nat × Nat} {n : Nat} : padExtent mode row = .ok n ↔
    (row.1 + row.2.1 + row.2.2 < 2 ^ 64 ∧ (mode = .reflect → row.2.1 < row.1 ∧ row.2.2 < row.1)) ∧
      row.1 + row.2.1 + row.2.2 = n := by
  obtain ⟨extent, before, after⟩ := row
  have hsum (k : Nat) : (Word.add? before after).bind (Word.add? extent) = some k ↔
      extent + before + after < 2 ^ 64 ∧ extent + before + after = k := by
    simp only [Option.bind_eq_some_iff, Word.add?, Word.size?_eq_some]
    constructor
    · rintro ⟨_, ⟨_, rfl⟩, hlt, rfl⟩
      omega
    · rintro ⟨hlt, rfl⟩
      exact ⟨_, ⟨by omega, rfl⟩, by omega⟩
  rw [padExtent, bind_eq_ok]
  simp only [Eval.size_eq_ok, hsum]
  constructor
  · rintro ⟨k, ⟨hlt, rfl⟩, h⟩
    split at h
    · cases h
    · rename_i hfits
      refine ⟨⟨hlt, fun hm => ?_⟩, pure_eq_ok.1 h⟩
      by_contra hwide
      exact hfits ⟨hm, by omega⟩
  · rintro ⟨⟨hlt, hfits⟩, rfl⟩
    refine ⟨_, ⟨hlt, rfl⟩, if_neg ?_⟩
    rintro ⟨hm, hwide⟩
    have := hfits hm
    omega

theorem padExtent_ok_or_reflectTooWide {mode : PadMode} {row : Nat × Nat × Nat} (h : row.1 + row.2.1 + row.2.2 < 2 ^ 64) :
    (∃ n, padExtent mode row = .ok n) ∨ padExtent mode row = .error .reflectTooWide := by
  by_cases hfits : mode = .reflect → row.2.1 < row.1 ∧ row.2.2 < row.1
  · exact .inl ⟨_, padExtent_eq_ok.2 ⟨⟨h, hfits⟩, rfl⟩⟩
  · refine .inr ?_
    obtain ⟨extent, before, after⟩ := row
    have hsum : (Word.add? before after).bind (Word.add? extent) = some (extent + (before + after)) := by
      dsimp only at h
      rw [Word.add?, Word.size?_eq_some.2 ⟨by omega, rfl⟩]
      exact Word.size?_eq_some.2 ⟨by omega, rfl⟩
    rw [padExtent, hsum]
    obtain ⟨hm, hwide⟩ := Classical.not_imp.1 hfits
    exact if_pos ⟨hm, by dsimp only at hwide; omega⟩

theorem padExtent_ok_or_overflow {mode : PadMode} {row : Nat × Nat × Nat}
    (h : mode = .reflect → row.2.1 < row.1 ∧ row.2.2 < row.1) :
    (∃ n, padExtent mode row = .ok n) ∨ padExtent mode row = .error (.crash .overflow) := by
  obtain ⟨extent, before, after⟩ := row
  cases hsum : (Word.add? before after).bind (Word.add? extent) with
  | none => exact .inr (by rw [padExtent, hsum]; rfl)
  | some n =>
    refine .inl ⟨n, ?_⟩
    rw [padExtent, hsum]
    refine if_neg ?_
    rintro ⟨hm, hwide⟩
    have := h hm
    dsimp only at this
    omega

/-- The extents of a padded tensor. -/
def paddedDims (x : Tensor α) (spec : Pad) : List Nat :=
  (x.dims.zip (spec.rows x.rank)).map fun (extent, before, after) => extent + before + after

/-- The element that coordinates of a padded tensor show. -/
def padded (x : Tensor α) (spec : Pad) (fill : α) (cs : List Nat) : Eval α :=
  match padSources spec.mode x.dims (spec.rows x.rank) cs with
  | some us => x.get (offset us (strides x.dims))
  | none => .ok fill

section Padded

variable {x y : Tensor α} {spec : Pad} {fill : α}

theorem length_paddedDims (hle : spec.amounts.length / 2 ≤ x.rank) : (x.paddedDims spec).length = x.rank := by
  rw [paddedDims, List.length_map, List.length_zip, Pad.length_rows hle, rank, Nat.min_self]

theorem getD_paddedDims (hle : spec.amounts.length / 2 ≤ x.rank) {i : Nat} (hi : i < x.rank) :
    (x.paddedDims spec).getD i 0 =
      x.dims.getD i 0 + ((spec.rows x.rank).getD i (0, 0)).1 + ((spec.rows x.rank).getD i (0, 0)).2 := by
  have hrows := Pad.length_rows hle
  have hlen : (x.dims.zip (spec.rows x.rank)).length = x.rank := by
    rw [List.length_zip, hrows, rank, Nat.min_self]
  rw [paddedDims, getD_map (hlen.symm ▸ hi) (0, 0, 0), getD_zip rfl hrows hi]

theorem paddedDims_eq (hle : spec.amounts.length / 2 ≤ x.rank) : y.dims = x.paddedDims spec ↔
    y.rank = x.rank ∧ ∀ i < x.rank, y.dims.getD i 0 =
      x.dims.getD i 0 + ((spec.rows x.rank).getD i (0, 0)).1 + ((spec.rows x.rank).getD i (0, 0)).2 := by
  constructor
  · intro h
    rw [rank, h]
    exact ⟨length_paddedDims hle, fun i => getD_paddedDims hle⟩
  · rintro ⟨hr, h⟩
    exact ext_getD hr (length_paddedDims hle) 0 fun i hi => (h i hi).trans (getD_paddedDims hle hi).symm

/-- Extents in front of those that the padding lists stay. -/
theorem take_append_padded : x.dims.take (x.rank - spec.amounts.length / 2) ++
      ((x.dims.zip (spec.rows x.rank)).drop (x.rank - spec.amounts.length / 2)).map
        (fun row => row.1 + row.2.1 + row.2.2) = x.paddedDims spec := by
  have hfront : x.dims.take (x.rank - spec.amounts.length / 2) =
      (x.paddedDims spec).take (x.rank - spec.amounts.length / 2) := by
    rw [paddedDims, ← List.map_take, List.zip, List.take_zipWith, Pad.rows, List.take_left' List.length_replicate]
    refine (List.ext_getElem ?_ fun i hi hi' => ?_).symm
    · simp [rank]
    · simp
  rw [hfront, List.map_drop]
  exact List.take_append_drop ..

/-- The sizes that a padding computes are words, and there is room for its result. -/
structure CanPad (x : Tensor α) (spec : Pad) : Prop where
  even : spec.amounts.length % 2 = 0
  le_rank : spec.amounts.length / 2 ≤ x.rank
  reflects : spec.mode = .reflect → spec.Reflects x.dims
  extents_lt : ∀ d ∈ (x.paddedDims spec).drop (x.rank - spec.amounts.length / 2), d < 2 ^ 64
  strides : stridesFit x.dims
  counted : size? (x.paddedDims spec) = some (size (x.paddedDims spec))
  room : size (x.paddedDims spec) * 4 < 2 ^ 63

theorem CanPad.of_wordSized (heven : spec.amounts.length % 2 = 0) (hle : spec.amounts.length / 2 ≤ x.rank)
    (hreflect : spec.mode = .reflect → spec.Reflects x.dims) (hword : WordSized (x.paddedDims spec))
    (hroom : size (x.paddedDims spec) * 4 < 2 ^ 63) : x.CanPad spec where
  even := heven
  le_rank := hle
  reflects := hreflect
  extents_lt d hd := hword.lt_of_mem (List.mem_of_mem_drop hd)
  strides := by
    refine (hword.mono_getD (length_paddedDims hle).symm fun i hi => ?_).stridesFit
    rw [(getD_paddedDims hle hi), getD_congr hi 1 0]
    omega
  counted := hword.size?
  room := hroom

/-- A padding is given by its elements, if it can be computed at all. -/
theorem pad_eq_ok_tabulate : x.pad spec fill = .ok y ↔ x.CanPad spec ∧
    tabulate (x.paddedDims spec) (size (x.paddedDims spec))
      (fun i => x.padded spec fill (coords (x.paddedDims spec) i)) = .ok y := by
  by_cases hwf : spec.amounts.length % 2 ≠ 0 ∨ x.rank < spec.amounts.length / 2
  · rw [pad]
    dsimp only
    rw [if_pos hwf]
    simp only [reduceCtorEq, false_iff]
    rintro ⟨h, _⟩
    have := h.even
    have := h.le_rank
    omega
  · have hle : spec.amounts.length / 2 ≤ x.rank := by omega
    have heven : spec.amounts.length % 2 = 0 := by omega
    rw [pad]
    dsimp only
    rw [if_neg hwf]
    simp only [bind_eq_ok, mapM_eq_ok_map_iff fun _ _ => padExtent_eq_ok, checkStrides_eq_ok, reserve_eq_ok]
    have hreflects := forall_row_iff_reflects hle
    constructor
    · rintro ⟨_, ⟨hrows, rfl⟩, _, hstrides, n, ⟨hn, hroom⟩, htab⟩
      rw [take_append_padded] at hn htab
      obtain rfl := (size?_eq_some.1 hn).2
      refine ⟨⟨heven, hle, fun hm => hreflects.1 fun row hrow => (hrows row hrow).2 hm, fun d hd => ?_, hstrides, hn, hroom⟩,
        htab⟩
      rw [paddedDims, ← List.map_drop] at hd
      obtain ⟨row, hrow, rfl⟩ := List.mem_map.1 hd
      exact (hrows row hrow).1
    · rintro ⟨h, htab⟩
      refine ⟨_, ⟨fun row hrow => ⟨h.extents_lt _ ?_, fun hm => hreflects.2 (h.reflects hm) row hrow⟩, rfl⟩, (), h.strides,
        size (x.paddedDims spec), ?_⟩
      · rw [paddedDims, ← List.map_drop]
        exact List.mem_map_of_mem hrow
      · rw [take_append_padded]
        exact ⟨⟨h.counted, h.room⟩, htab⟩

theorem exists_pad (h : x.CanPad spec) (hget : ∀ cs, InBounds (x.paddedDims spec) cs → ∃ a, x.padded spec fill cs = .ok a) :
    ∃ y, x.pad spec fill = .ok y := by
  simp only [pad_eq_ok_tabulate, h, true_and]
  refine exists_tabulate h.counted fun cs hcs => ?_
  rw [coords_offset hcs]
  exact hget cs hcs

theorem pad_of_extents_error (heven : spec.amounts.length % 2 = 0) (hle : spec.amounts.length / 2 ≤ x.rank) {e : EvalError}
    (h : ((x.dims.zip (spec.rows x.rank)).drop (x.rank - spec.amounts.length / 2)).mapM (padExtent spec.mode) = .error e) :
    x.pad spec fill = .error e := by
  rw [pad]
  dsimp only
  rw [if_neg (by omega), h]
  rfl

theorem pad_of_extents (heven : spec.amounts.length % 2 = 0) (hle : spec.amounts.length / 2 ≤ x.rank) {es : List Nat}
    (h : ((x.dims.zip (spec.rows x.rank)).drop (x.rank - spec.amounts.length / 2)).mapM (padExtent spec.mode) = .ok es) :
    x.pad spec fill = checkStrides x.dims >>= fun _ =>
      reserve 4 (x.dims.take (x.rank - spec.amounts.length / 2) ++ es) >>= fun count =>
        tabulate (x.dims.take (x.rank - spec.amounts.length / 2) ++ es) count fun i =>
          x.padded spec fill (coords (x.dims.take (x.rank - spec.amounts.length / 2) ++ es) i) := by
  rw [pad]
  dsimp only
  rw [if_neg (by omega), h]
  rfl

/-- A padding that reflects more than there is says so. -/
theorem pad_eq_error (heven : spec.amounts.length % 2 = 0) (hle : spec.amounts.length / 2 ≤ x.rank)
    (hm : spec.mode = .reflect) (h : ¬spec.Reflects x.dims) (hlt : ∀ d ∈ x.paddedDims spec, d < 2 ^ 64) :
    x.pad spec fill = .error .reflectTooWide := by
  have hrow : ∀ row ∈ (x.dims.zip (spec.rows x.rank)).drop (x.rank - spec.amounts.length / 2),
      (∃ n, padExtent spec.mode row = .ok n) ∨ padExtent spec.mode row = .error .reflectTooWide := fun row hrow =>
    padExtent_ok_or_reflectTooWide (hlt _ (List.mem_map_of_mem (List.mem_of_mem_drop hrow)))
  rcases mapM_ok_or_error hrow with ⟨es, hes⟩ | herror
  · refine absurd ((forall_row_iff_reflects hle).1 fun row hrow => ?_) h
    exact (((mapM_eq_ok_map_iff fun _ _ => padExtent_eq_ok).1 hes).1 row hrow).2 hm
  · exact pad_of_extents_error heven hle herror

/-- A padding that reflects no more than there is can only fail because a size is not a word. -/
theorem pad_ok_or_overflow (heven : spec.amounts.length % 2 = 0) (hle : spec.amounts.length / 2 ≤ x.rank)
    (hreflect : spec.mode = .reflect → spec.Reflects x.dims) (hroom : size (x.paddedDims spec) * 4 < 2 ^ 63)
    (hget : ∀ cs, InBounds (x.paddedDims spec) cs → ∃ a, x.padded spec fill cs = .ok a) :
    (∃ y, x.pad spec fill = .ok y) ∨ x.pad spec fill = .error (.crash .overflow) := by
  have hrow : ∀ row ∈ (x.dims.zip (spec.rows x.rank)).drop (x.rank - spec.amounts.length / 2),
      (∃ n, padExtent spec.mode row = .ok n) ∨ padExtent spec.mode row = .error (.crash .overflow) := fun row hrow =>
    padExtent_ok_or_overflow fun hm => (forall_row_iff_reflects hle).2 (hreflect hm) row hrow
  rcases mapM_ok_or_error hrow with ⟨es, hes⟩ | herror
  · obtain ⟨hrows, rfl⟩ := (mapM_eq_ok_map_iff fun _ _ => padExtent_eq_ok).1 hes
    by_cases hstrides : stridesFit x.dims
    · cases hcount : size? (x.paddedDims spec) with
      | some n =>
        obtain rfl := (size?_eq_some.1 hcount).2
        refine .inl (exists_pad ⟨heven, hle, hreflect, fun d hd => ?_, hstrides, hcount, hroom⟩ hget)
        rw [paddedDims, ← List.map_drop] at hd
        obtain ⟨row, hrow, rfl⟩ := List.mem_map.1 hd
        exact (hrows row hrow).1
      | none =>
        refine .inr ?_
        rw [pad_of_extents heven hle hes, take_append_padded, checkStrides, if_pos hstrides, reserve, hcount]
        rfl
    · refine .inr ?_
      rw [pad_of_extents heven hle hes, checkStrides, if_neg hstrides]
      rfl
  · exact .inr (pad_of_extents_error heven hle herror)

theorem pad_eq_ok : x.pad spec fill = .ok y ↔ x.CanPad spec ∧
    y.rank = x.rank ∧ (∀ i < x.rank, y.dims.getD i 0 =
        x.dims.getD i 0 + ((spec.rows x.rank).getD i (0, 0)).1 + ((spec.rows x.rank).getD i (0, 0)).2) ∧
      ∀ cs, InBounds y.dims cs → ∃ a, x.padded spec fill cs = .ok a ∧ y.at? cs = some a := by
  rw [pad_eq_ok_tabulate]
  refine and_congr_right fun hpad => ?_
  rw [tabulate_eq_ok rfl, ← and_assoc, ← paddedDims_eq hpad.le_rank]
  refine and_congr_right fun hd => ?_
  rw [hd]
  refine forall₂_congr fun cs hcs => exists_congr fun a => and_congr_left fun _ => ?_
  rw [coords_offset hcs]

end Padded

/-- A coordinate that is shown is one of the operand. -/
theorem padSource_lt {mode : PadMode} {extent before after c u : Nat} (hpos : 0 < extent)
    (hreflect : mode = .reflect → before < extent ∧ after < extent) :
    c < extent + before + after → padSource mode extent before c = some u → u < extent := by
  intro hc h
  unfold padSource at h
  split at h
  · cases mode with
    | constant => cases h
    | reflect => cases h; have := hreflect rfl; omega
    | replicate => cases h; omega
  · split at h
    · cases h; omega
    · cases mode with
      | constant => cases h
      | reflect => cases h; have := hreflect rfl; omega
      | replicate => cases h; omega

theorem get_congr {x z : Tensor α} {cs us : List Nat} (h : x.at? cs = z.at? us) :
    x.get (offset cs (strides x.dims)) = z.get (offset us (strides z.dims)) := by
  rw [at?, at?] at h
  rw [get, get, h]

theorem at?_eq_none {x : Tensor α} (h : 0 ∈ x.dims) (cs : List Nat) : x.at? cs = none := by
  refine Array.getElem?_eq_none ?_
  rw [x.size_eq, size_eq_prod, List.prod_eq_zero h]
  exact Nat.zero_le _

section Transposed

variable {x y z : Tensor α} {spec : Pad} {fill : α} {p cs : List Nat} {a : Layout.Absorption}

/-- Amounts stay with their axes. -/
theorem rows_behind (hp : p.Perm (range z.rank)) (ha : Layout.absorbPad spec p = some a) {i : Nat} (hi : i < z.rank) :
    ((spec.behind p).rows z.rank).getD (p.getD i 0) (0, 0) = (spec.rows z.rank).getD i (0, 0) := by
  obtain ⟨_, _, _, _, hrows⟩ := Layout.absorbPad_behind ha
  rw [← length_of_perm hp, hrows, Layout.movedRows_getD hp _ hi]

/-- Padded axes that are not empty stay longer than what is put before and after them. Only here may an axis be checked
that was not before, one that is not padded. -/
theorem reflects_behind (hp : p.Perm (range z.rank)) (ht : IsTranspose p z x) (ha : Layout.absorbPad spec p = some a)
    (hpos : 0 ∉ z.dims.drop (z.rank - spec.amounts.length / 2)) (h : spec.Reflects x.dims) :
    (spec.behind p).Reflects z.dims := by
  have hrank : x.dims.length = z.rank := ht.rank_eq.trans (length_of_perm hp)
  obtain ⟨_, _, _, hamounts, _⟩ := Layout.absorbPad_behind ha
  rw [Pad.Reflects, hamounts]
  refine (forall_axis hp).2 fun i hi hge => ?_
  rw [show z.dims.length = z.rank from rfl, rows_behind hp ha hi, ← ht.getD_dims hp hi, ← hrank]
  refine h.lt (hi.trans_eq hrank.symm) (Nat.pos_of_ne_zero fun hzero => hpos ?_)
  have hlt : p.getD i 0 < z.dims.length := getD_mem_of_perm hp hi
  rw [ht.getD_dims hp hi] at hzero
  rw [← hzero, List.getD_eq_getElem _ _ hlt, List.mem_drop_iff_getElem]
  refine ⟨p.getD i 0 - (z.rank - spec.amounts.length / 2), ?_, ?_⟩
  · exact (Nat.sub_add_cancel hge).trans_lt hlt
  · simp only [rank, Nat.add_sub_cancel' hge]

/-- Rearranged coordinates show rearranged coordinates. -/
theorem padSources_behind (hp : p.Perm (range z.rank)) (ht : IsTranspose p z x) (ha : Layout.absorbPad spec p = some a)
    (hcs : cs.length = z.rank) {us : List Nat} (hus : us.length = z.rank) :
    padSources spec.mode x.dims (spec.rows x.rank) (selectD cs p 0) = some (selectD us p 0) ↔
      padSources spec.mode z.dims ((spec.behind p).rows z.rank) cs = some us := by
  have hlen := length_of_perm hp
  have hrank : x.rank = z.rank := ht.rank_eq.trans hlen
  obtain ⟨_, _, hle, hamounts, _⟩ := Layout.absorbPad_behind ha
  have hxrows : (spec.rows x.rank).length = z.rank := by
    rw [hrank]
    exact Pad.length_rows (hlen ▸ hle)
  have hzrows : ((spec.behind p).rows z.rank).length = z.rank := Pad.length_rows (by rw [hamounts, ← hlen]; exact hle)
  rw [padSources_eq_some hrank hxrows (by rw [length_selectD, hlen]), padSources_eq_some rfl hzrows hcs]
  refine and_congr (iff_of_true (by rw [length_selectD, hlen]) hus)
    ((forall₂_congr fun i hi => ?_).trans (forall_axis hp).symm)
  have hi' : i < p.length := hlen.symm ▸ hi
  rw [getD_selectD hi', getD_selectD hi', rows_behind hp ha hi, ht.getD_dims hp hi, hrank]

/-- Rearranged coordinates show the same element. -/
theorem padded_behind (hp : p.Perm (range z.rank)) (ht : IsTranspose p z x) (ha : Layout.absorbPad spec p = some a)
    (hreflect : spec.mode = .reflect → (spec.behind p).Reflects z.dims) (hcs : cs.length = z.rank)
    (hbound : ∀ i < z.rank, cs.getD i 0 < z.dims.getD i 0 + (((spec.behind p).rows z.rank).getD i (0, 0)).1 +
      (((spec.behind p).rows z.rank).getD i (0, 0)).2) :
    x.padded spec fill (selectD cs p 0) = z.padded (spec.behind p) fill cs := by
  have hlen := length_of_perm hp
  have hrank : x.rank = z.rank := ht.rank_eq.trans hlen
  obtain ⟨_, _, hle, hamounts, _⟩ := Layout.absorbPad_behind ha
  rw [padded, padded, show (spec.behind p).mode = spec.mode from rfl]
  cases hz : padSources spec.mode z.dims ((spec.behind p).rows z.rank) cs with
  | some us =>
    have hzrows : ((spec.behind p).rows z.rank).length = z.rank := Pad.length_rows (by rw [hamounts, ← hlen]; exact hle)
    obtain ⟨hus, hsource⟩ := (padSources_eq_some rfl hzrows hcs).1 hz
    rw [(padSources_behind hp ht ha hcs hus).2 hz]
    refine get_congr ?_
    by_cases hzero : 0 ∈ z.dims
    · -- nothing can be read from either tensor
      have hzero' : 0 ∈ x.dims := by
        rw [ht.1, (selectD_perm hp rfl 0).mem_iff]
        exact hzero
      exact (at?_eq_none hzero' _).trans (at?_eq_none hzero us).symm
    · refine ht.2 us (inBounds_iff.2 ⟨hus, fun i hi => ?_⟩)
      have hpos : 0 < z.dims.getD i 0 := Nat.pos_of_ne_zero fun he => hzero (by
        rw [← he, List.getD_eq_getElem _ _ hi]
        exact List.getElem_mem hi)
      exact padSource_lt hpos (fun hm => (hreflect hm).lt hi hpos) (hbound i hi) (hsource i hi)
  | none =>
    cases hx : padSources spec.mode x.dims (spec.rows x.rank) (selectD cs p 0) with
    | none => rfl
    | some vs =>
      have hxrows : (spec.rows x.rank).length = z.rank := by
        rw [hrank]
        exact Pad.length_rows (hlen ▸ hle)
      have hvs := ((padSources_eq_some hrank hxrows (by rw [length_selectD, hlen])).1 hx).1
      have hus : (selectD vs (inverse p) 0).length = z.rank := by rw [length_selectD, length_inverse, hlen]
      rw [← selectD_inverse_left hp hvs 0, padSources_behind hp ht ha hcs hus, hz] at hx
      cases hx

/-- The extents after the two paddings differ by the permutation. -/
theorem paddedDims_behind (hp : p.Perm (range z.rank)) (ht : IsTranspose p z x) (ha : Layout.absorbPad spec p = some a) :
    x.paddedDims spec = selectD (z.paddedDims (spec.behind p)) p 0 := by
  have hlen := length_of_perm hp
  have hrank : x.rank = z.rank := ht.rank_eq.trans hlen
  obtain ⟨_, _, hle, hamounts, _⟩ := Layout.absorbPad_behind ha
  have hle' : spec.amounts.length / 2 ≤ z.rank := hlen ▸ hle
  refine ext_getD ((length_paddedDims (hrank.symm ▸ hle')).trans hrank) ((length_selectD ..).trans hlen) 0 fun i hi => ?_
  rw [getD_selectD (hlen.symm ▸ hi), getD_paddedDims (hrank.symm ▸ hle') (hrank.symm ▸ hi),
    getD_paddedDims (hamounts.symm ▸ hle') (getD_mem_of_perm hp hi), rows_behind hp ha hi, ht.getD_dims hp hi, hrank]

theorem paddedDims_behind_perm (hp : p.Perm (range z.rank)) (ht : IsTranspose p z x) (ha : Layout.absorbPad spec p = some a) :
    (x.paddedDims spec).Perm (z.paddedDims (spec.behind p)) := by
  obtain ⟨_, _, hle, hamounts, _⟩ := Layout.absorbPad_behind ha
  rw [paddedDims_behind hp ht ha]
  refine selectD_perm hp (length_paddedDims ?_) 0
  rw [hamounts, ← length_of_perm hp]
  exact hle

section Computed

variable (hp : p.Perm (range z.rank)) (ht : IsTranspose p z x) (ha : Layout.absorbPad spec p = some a)
  (h : x.pad spec fill = .ok y)

include hp ht ha h

/-- Where one padding has an element, so has the other. -/
theorem exists_padded_behind (hreflect : spec.mode = .reflect → (spec.behind p).Reflects z.dims)
    (hcs : InBounds (z.paddedDims (spec.behind p)) cs) :
    ∃ b, z.padded (spec.behind p) fill cs = .ok b ∧ y.at? (selectD cs p 0) = some b := by
  have hlen := length_of_perm hp
  obtain ⟨_, _, hle, hamounts, _⟩ := Layout.absorbPad_behind ha
  have hle' : (spec.behind p).amounts.length / 2 ≤ z.rank := by rw [hamounts, ← hlen]; exact hle
  have hzlen := length_paddedDims hle'
  obtain ⟨hpad, hyrank, hydims, hat⟩ := pad_eq_ok.1 h
  have hyd : y.dims = selectD (z.paddedDims (spec.behind p)) p 0 :=
    ((paddedDims_eq hpad.le_rank).2 ⟨hyrank, hydims⟩).trans (paddedDims_behind hp ht ha)
  obtain ⟨b, hb, hy⟩ := hat (selectD cs p 0)
    (hyd ▸ inBounds_selectD (fun axis haxis => hzlen.symm ▸ (mem_of_perm hp).1 haxis) hcs)
  refine ⟨b, ?_, hy⟩
  rwa [padded_behind hp ht ha hreflect (hcs.length_eq.trans hzlen) fun i hi => ?_] at hb
  rw [← getD_paddedDims hle' hi]
  exact hcs.getD_lt (hzlen.symm ▸ hi)

/-- Where both paddings can be computed, their results differ by the permutation. -/
theorem isTranspose_pad {y' : Tensor α} (h' : z.pad (spec.behind p) fill = .ok y') :
    y'.rank = z.rank ∧ IsTranspose p y' y := by
  obtain ⟨hpad, hyrank, hydims, hat⟩ := pad_eq_ok.1 h
  obtain ⟨hpad', hyrank', hydims', hat'⟩ := pad_eq_ok.1 h'
  have hyd := (paddedDims_eq hpad.le_rank).2 ⟨hyrank, hydims⟩
  have hyd' := (paddedDims_eq hpad'.le_rank).2 ⟨hyrank', hydims'⟩
  refine ⟨hyrank', by rw [hyd, hyd', paddedDims_behind hp ht ha], fun cs hcs => ?_⟩
  obtain ⟨b, hb, hy'⟩ := hat' cs hcs
  obtain ⟨b', hb', hy⟩ := exists_padded_behind hp ht ha h hpad'.reflects (hyd' ▸ hcs)
  obtain rfl := Except.ok.inj (hb'.symm.trans hb)
  rw [hy, hy']

variable (hpos : spec.mode = .reflect → 0 ∉ z.dims.drop (z.rank - spec.amounts.length / 2))

include hpos

/-- The other padding can be computed as well, or a size is not a word, unless a reflecting one finds an empty axis among
those that it checks. -/
theorem pad_behind_ok_or_overflow : (∃ y', z.pad (spec.behind p) fill = .ok y') ∨
    z.pad (spec.behind p) fill = .error (.crash .overflow) := by
  obtain ⟨_, heven, hle, hamounts, _⟩ := Layout.absorbPad_behind ha
  have hpad := (pad_eq_ok.1 h).1
  have hreflect : spec.mode = .reflect → (spec.behind p).Reflects z.dims := fun hm =>
    reflects_behind hp ht ha (hpos hm) (hpad.reflects hm)
  refine pad_ok_or_overflow (hamounts.symm ▸ heven) (by rw [hamounts, ← length_of_perm hp]; exact hle) hreflect ?_
    fun cs hcs => (exists_padded_behind hp ht ha h hreflect hcs).imp fun _ => And.left
  rw [← size_perm (paddedDims_behind_perm hp ht ha)]
  exact hpad.room

/-- Paddings of a tensor and of its transpose differ by the permutation, unless a reflecting one finds an empty axis among
those that it checks. -/
theorem pad_transposed (hword : WordSized y.dims) :
    ∃ y', z.pad (spec.behind p) fill = .ok y' ∧ y'.rank = z.rank ∧ IsTranspose p y' y := by
  obtain ⟨_, heven, hle, hamounts, _⟩ := Layout.absorbPad_behind ha
  obtain ⟨hpad, hyrank, hydims, _⟩ := pad_eq_ok.1 h
  have hreflect : spec.mode = .reflect → (spec.behind p).Reflects z.dims := fun hm =>
    reflects_behind hp ht ha (hpos hm) (hpad.reflects hm)
  have hperm := paddedDims_behind_perm hp ht ha
  rw [(paddedDims_eq hpad.le_rank).2 ⟨hyrank, hydims⟩] at hword
  have hcan : z.CanPad (spec.behind p) := .of_wordSized (hamounts.symm ▸ heven)
    (by rw [hamounts, ← length_of_perm hp]; exact hle) hreflect (hword.perm hperm.symm) (size_perm hperm ▸ hpad.room)
  obtain ⟨y', hy'⟩ := exists_pad hcan fun cs hcs =>
    (exists_padded_behind hp ht ha h hreflect hcs).imp fun _ => And.left
  exact ⟨y', hy', isTranspose_pad hp ht ha h hy'⟩

end Computed

end Transposed

/-- The type of a padding has the extents that it announces. -/
theorem paddedDims_of_type {spec : Pad} {x : Tensor α} {u t : TensorType} (hu : u.dims = x.dims.map .fixed)
    (ht : Typing.resultType (.pad spec) [u] = .ok t) : t.dims = (x.paddedDims spec).map .fixed := by
  obtain ⟨_, ⟨⟩, _, hle, _, hrank, hpads⟩ := Typing.pad_eq_ok.1 ht
  have hurank : u.rank = x.rank := by rw [TensorType.rank, hu, List.length_map, rank]
  rw [hurank] at hpads hle
  have hlen := length_paddedDims hle
  refine ext_getD (n := x.rank) (hrank.trans hurank) (by rw [List.length_map]; exact hlen) (.fixed 1) fun i hi => ?_
  rw [getD_map (hi.trans_eq hlen.symm) 0, getD_paddedDims hle hi]
  have hd : u.dims.getD i (.fixed 1) = .fixed (x.dims.getD i 0) := by rw [hu, getD_map hi 0]
  rcases hpads i hi with ⟨hrow, he⟩ | ⟨_, e, he, _, he'⟩
  · rw [he, hd, hrow, Nat.add_zero, Nat.add_zero]
  · rw [hd] at he
    rw [he', ← Dim.fixed.inj he]

theorem pad_extents {spec : Pad} {x y : Tensor α} {fill : α} {u t : TensorType} (hu : u.dims = x.dims.map .fixed)
    (ht : Typing.resultType (.pad spec) [u] = .ok t) (hy : x.pad spec fill = .ok y) :
    t.dims = y.dims.map .fixed := by
  obtain ⟨hpad, hyrank, hdims, _⟩ := pad_eq_ok.1 hy
  rw [paddedDims_of_type hu ht, (paddedDims_eq hpad.le_rank).2 ⟨hyrank, hdims⟩]

end Tensor

end Relayout
