import Relayout.Proofs.Absorption
import Relayout.Proofs.Coordinates
import Relayout.Proofs.Rules

/-!
# Shapes of reductions

A reduction of a transposed operand reduces, on the operand, the axes that the listed ones come from. The axes that stay
are in ascending order on both sides, so if reduced axes are dropped, what remains of the permutation sends each one to
the place that its source has among the sources (`restrict_eq`), and the shapes of the two results differ by what remains
(`Reduce.remainder_perm`). So do their types (`reduce_types`).

A result has one element for each way to choose coordinates on the axes that stay (`Reduce.exists_shape`). Such a choice is
given by coordinates with zeros on the reduced axes (`mask`), which stay in their places or are left out (`kept`).
-/

namespace Relayout

open Perm
open List (range)

/-! ## Axes that stay -/

/-- The axes that are not reduced, in ascending order. -/
def keptAxes (n : Nat) (reduces : Nat → Bool) : List Nat :=
  (range n).filter (!reduces ·)

theorem mem_keptAxes {n i : Nat} {r : Nat → Bool} : i ∈ keptAxes n r ↔ i < n ∧ r i = false := by
  simp [keptAxes]

theorem keptAxes_sorted (n : Nat) (r : Nat → Bool) : (keptAxes n r).Pairwise (· < ·) :=
  List.pairwise_lt_range.sublist List.filter_sublist

theorem keptAxes_nodup (n : Nat) (r : Nat → Bool) : (keptAxes n r).Nodup :=
  (keptAxes_sorted n r).imp Nat.ne_of_lt

/-- In an ascending list, an entry stands after the ones below it. -/
theorem countP_lt_eq_idxOf {xs : List Nat} (h : xs.Pairwise (· < ·)) {x : Nat} (hx : x ∈ xs) :
    xs.countP (· < x) = xs.idxOf x := by
  induction xs with
  | nil => cases hx
  | cons y xs ih =>
    rw [List.pairwise_cons] at h
    by_cases he : y = x
    · subst he
      rw [List.idxOf_cons_self, List.countP_cons_of_neg (by simp), List.countP_eq_zero]
      intro z hz
      have := h.1 z hz
      simp only [decide_eq_true_eq]
      omega
    · have hmem : x ∈ xs := (List.mem_cons.1 hx).resolve_left fun h => he h.symm
      rw [List.idxOf_cons_ne _ he, List.countP_cons_of_pos (by simpa using h.1 x hmem), ih h.2 hmem]

theorem map_idxOf_self {xs : List Nat} (h : xs.Nodup) : xs.map xs.idxOf = range xs.length := by
  refine List.ext_getElem (by simp) fun i hi hi' => ?_
  rw [List.getElem_map, List.getElem_range]
  exact h.idxOf_getElem i (by simpa using hi)

/-- An axis is one of the sources of some axes if it is the source of one of them. -/
theorem contains_sources {n : Nat} {p axes : List Nat} (hp : p.Perm (range n)) (h : ∀ axis ∈ axes, axis < n) {i : Nat}
    (hi : i < n) : (selectD p axes 0).contains (p.getD i 0) = axes.contains i := by
  rw [List.contains_eq_mem, List.contains_eq_mem, decide_eq_decide, selectD, List.mem_map]
  constructor
  · rintro ⟨j, hj, he⟩
    exact getD_inj hp (h j hj) hi he ▸ hj
  · exact fun hmem => ⟨i, hmem, rfl⟩

section Kept

variable {n : Nat} {p reduced : List Nat} {r r' : Nat → Bool} (hp : p.Perm (range n))
  (hr : ∀ i < n, r' (p.getD i 0) = r i)

include hp hr

theorem map_keptAxes_perm : ((keptAxes n r).map (p.getD · 0)).Perm (keptAxes n r') := by
  have hnd : ((keptAxes n r).map (p.getD · 0)).Nodup := by
    refine (keptAxes_nodup n r).map_on fun i hi j hj he => ?_
    exact getD_inj hp (mem_keptAxes.1 hi).1 (mem_keptAxes.1 hj).1 he
  rw [List.perm_ext_iff_of_nodup hnd (keptAxes_nodup n r')]
  intro axis
  rw [List.mem_map, mem_keptAxes]
  constructor
  · rintro ⟨i, hi, rfl⟩
    obtain ⟨hi, hri⟩ := mem_keptAxes.1 hi
    exact ⟨getD_mem_of_perm hp hi, (hr i hi).trans hri⟩
  · rintro ⟨hlt, hra⟩
    obtain ⟨i, hi, rfl⟩ := exists_getD_eq hp hlt
    exact ⟨i, mem_keptAxes.2 ⟨hi, (hr i hi).symm.trans hra⟩, rfl⟩

/-- What remains of a permutation sends each axis that stays to the place of its source among the sources. -/
theorem restrict_eq (hred : ∀ i < n, reduced.contains i = r i) :
    restrict p reduced = (keptAxes n r).map fun i => (keptAxes n r').idxOf (p.getD i 0) := by
  have hsources : ((range p.length).filter (!reduced.contains ·)).filterMap (p[·]?) = (keptAxes n r).map (p.getD · 0) := by
    have hlen := length_of_perm hp
    have hkept : (range p.length).filter (!reduced.contains ·) = keptAxes n r := by
      rw [hlen]
      exact List.filter_congr fun i hi => by rw [hred i (List.mem_range.1 hi)]
    rw [hkept, ← List.filterMap_eq_map]
    refine List.filterMap_congr fun i hi => ?_
    have hi' : i < p.length := hlen ▸ (mem_keptAxes.1 hi).1
    rw [List.getElem?_eq_getElem hi', Function.comp_apply, List.getD_eq_getElem _ _ hi']
  have hperm := map_keptAxes_perm hp hr
  rw [restrict]
  simp only [hsources, List.map_map]
  refine List.map_congr_left fun i hi => ?_
  rw [Function.comp_apply, hperm.countP_eq,
    countP_lt_eq_idxOf (keptAxes_sorted n r') (hperm.mem_iff.1 (List.mem_map_of_mem (f := (p.getD · 0)) hi))]

theorem restrict_perm (hred : ∀ i < n, reduced.contains i = r i) :
    (restrict p reduced).Perm (range (keptAxes n r').length) := by
  rw [restrict_eq hp hr hred, ← map_idxOf_self (keptAxes_nodup n r')]
  have := (map_keptAxes_perm hp hr).map (keptAxes n r').idxOf
  rwa [List.map_map] at this

/-- What remains of a permutation rearranges what stays. -/
theorem selectD_restrict {α : Type} (hred : ∀ i < n, reduced.contains i = r i) (f : Nat → α) (fill : α) :
    selectD ((keptAxes n r').map f) (restrict p reduced) fill = (keptAxes n r).map fun i => f (p.getD i 0) := by
  rw [restrict_eq hp hr hred, selectD, List.map_map]
  refine List.map_congr_left fun i hi => ?_
  have hmem := (map_keptAxes_perm hp hr).mem_iff.1 (List.mem_map_of_mem (f := (p.getD · 0)) hi)
  have hlt := List.idxOf_lt_length_iff.2 hmem
  rw [Function.comp_apply, List.getD_eq_getElem _ _ (by simpa using hlt), List.getElem_map, List.getElem_idxOf hlt]

end Kept

/-! ## Masks -/

section Masks

variable {α : Type}

/-- The entries at reduced axes replaced. -/
def mask (r : Nat → Bool) (one : α) (xs : List α) : List α :=
  (range xs.length).map fun i => if r i then one else xs.getD i one

/-- The entries at the axes that stay. -/
def kept (r : Nat → Bool) (one : α) (xs : List α) : List α :=
  (keptAxes xs.length r).map (xs.getD · one)

@[simp] theorem length_mask (r : Nat → Bool) (one : α) (xs : List α) : (mask r one xs).length = xs.length := by
  simp [mask]

theorem getD_mask {r : Nat → Bool} {one : α} {xs : List α} {i : Nat} (hi : i < xs.length) (fill : α) :
    (mask r one xs).getD i fill = if r i then one else xs.getD i one :=
  getD_map_range hi fill

theorem mask_cons (r : Nat → Bool) (one x : α) (xs : List α) :
    mask r one (x :: xs) = (if r 0 then one else x) :: mask (fun i => r (i + 1)) one xs := by
  simp [mask, List.range_succ_eq_map]

theorem kept_cons (r : Nat → Bool) (one x : α) (xs : List α) :
    kept r one (x :: xs) = if r 0 then kept (fun i => r (i + 1)) one xs else x :: kept (fun i => r (i + 1)) one xs := by
  have htail : ((range xs.length).map (· + 1)).filter (!r ·) =
      ((range xs.length).filter fun i => !r (i + 1)).map (· + 1) := by
    rw [List.filter_map]
    rfl
  cases hr : r 0 <;> simp [kept, keptAxes, List.range_succ_eq_map, hr, htail]

theorem kept_sublist (r : Nat → Bool) (one : α) (xs : List α) : (kept r one xs).Sublist xs := by
  induction xs generalizing r with
  | nil => exact List.Sublist.slnil
  | cons x xs ih =>
    rw [kept_cons]
    split
    · exact (ih _).cons x
    · exact (ih _).cons_cons x

/-- Entries are rearranged after they have been replaced, at the axes that the reduced ones come from. -/
theorem mask_selectD {n : Nat} {p : List Nat} {r r' : Nat → Bool} (hp : p.Perm (range n))
    (hr : ∀ i < n, r' (p.getD i 0) = r i) {xs : List α} (hx : xs.length = n) (one : α) :
    mask r one (selectD xs p one) = selectD (mask r' one xs) p one := by
  have hlen := length_of_perm hp
  refine ext_getD (n := n) (by simp [hlen]) (by simp [hlen]) one fun i hi => ?_
  have hi' : i < p.length := by omega
  have hsource : p.getD i 0 < xs.length := by
    have := getD_mem_of_perm hp hi
    omega
  rw [getD_mask (by simpa using hi'), getD_selectD hi', getD_selectD hi', getD_mask hsource, hr i hi]

end Masks

namespace RowMajor

variable {r : Nat → Bool} {dims cs : List Nat}

theorem size_kept (r : Nat → Bool) (dims : List Nat) : size (kept r 1 dims) = size (mask r 1 dims) := by
  induction dims generalizing r with
  | nil => rfl
  | cons d dims ih => cases hr : r 0 <;> simp [kept_cons, mask_cons, hr, ih]

/-- Coordinates of zero on axes of extent one may be left out. -/
theorem offset_kept (h : cs.length = dims.length) :
    offset (kept r 0 cs) (strides (kept r 1 dims)) = offset (mask r 0 cs) (strides (mask r 1 dims)) := by
  induction dims generalizing r cs with
  | nil => simp [List.length_eq_zero_iff.1 h, kept, mask, keptAxes]
  | cons d dims ih =>
    obtain _ | ⟨c, cs⟩ := cs
    · cases h
    · have ih := @ih (fun i => r (i + 1)) cs (Nat.succ.inj h)
      cases hr : r 0 <;> simp [kept_cons, mask_cons, hr, ih, size_kept]

theorem InBounds.mask (h : InBounds dims cs) (r : Nat → Bool) : InBounds (mask r 1 dims) (mask r 0 cs) := by
  have hlen := h.length_eq
  refine inBounds_iff.2 ⟨by simp [hlen], fun i hi => ?_⟩
  rw [length_mask] at hi
  have hlt := h.getD_lt hi
  rw [getD_mask (hlen.symm ▸ hi), getD_mask hi, getD_congr hi 1 0]
  split <;> omega

/-- On an axis of extent one the coordinate is zero. -/
theorem InBounds.mask_eq (h : InBounds (Relayout.mask r 1 dims) cs) : Relayout.mask r 0 cs = cs := by
  have hlen := h.length_eq
  rw [length_mask] at hlen
  refine ext_getD (by simp) rfl 0 fun i hi => ?_
  have hlt := h.getD_lt (i := i) (by simp; omega)
  rw [getD_mask (hlen ▸ hi)] at hlt
  rw [getD_mask hi]
  split
  · rename_i hr
    rw [if_pos hr] at hlt
    omega
  · rfl

theorem InBounds.kept (h : InBounds (Relayout.mask r 1 dims) cs) :
    InBounds (Relayout.kept r 1 dims) (Relayout.kept r 0 cs) := by
  have hlen := h.length_eq
  rw [length_mask] at hlen
  rw [InBounds, Relayout.kept, Relayout.kept, hlen, List.forall₂_map_left_iff, List.forall₂_map_right_iff,
    List.forall₂_same]
  intro i hi
  obtain ⟨hi, hr⟩ := mem_keptAxes.1 hi
  have hlt := h.getD_lt (i := i) (by simpa using hi)
  rwa [getD_mask hi, if_neg (by simp [hr])] at hlt

end RowMajor

/-! ## Shapes -/

/-- Extents after a reduction: reduced axes have extent one, or are dropped. -/
def Reduce.shape {α : Type} (spec : Reduce) (one : α) (xs : List α) : List α :=
  if spec.keepDims then (range xs.length).map fun i => if spec.reduces i then one else xs.getD i one
  else (keptAxes xs.length spec.reduces).map (xs.getD · one)

theorem Reduce.shape_def {α : Type} (spec : Reduce) (one : α) (xs : List α) :
    spec.shape one xs = if spec.keepDims then mask spec.reduces one xs else kept spec.reduces one xs := rfl

/-- What is pending on the result of a reduction if `p` is pending on its operand. -/
def Reduce.remainder (spec : Reduce) (p : List Nat) : List Nat :=
  if spec.keepDims then p else restrict p (if spec.axes.isEmpty then Perm.identity p.length else spec.axes)

/-- The reduction that runs on the untransposed operand. -/
def Reduce.behind (spec : Reduce) (p : List Nat) : Reduce :=
  { spec with axes := selectD p spec.axes 0 }

theorem Reduce.shape_map {α β : Type} (spec : Reduce) (f : α → β) (one : α) (xs : List α) :
    spec.shape (f one) (xs.map f) = (spec.shape one xs).map f := by
  rw [shape, shape, List.length_map]
  cases spec.keepDims with
  | true =>
    simp only [if_true, List.map_map]
    refine List.map_congr_left fun i hi => ?_
    rw [Function.comp_apply, getD_map (List.mem_range.1 hi) one, apply_ite f]
  | false =>
    simp only [Bool.false_eq_true, if_false, List.map_map]
    exact List.map_congr_left fun i hi => getD_map (mem_keptAxes.1 hi).1 one _

section Shape

variable {n : Nat} {p : List Nat} {spec : Reduce} (hp : p.Perm (range n)) (haxes : ∀ axis ∈ spec.axes, axis < n)

include hp haxes

theorem Reduce.reduces_behind {i : Nat} (hi : i < n) : (spec.behind p).reduces (p.getD i 0) = spec.reduces i := by
  have hempty : (spec.behind p).axes.isEmpty = spec.axes.isEmpty := by
    rw [behind, selectD, List.isEmpty_map]
  have hmem : (spec.behind p).axes.contains (p.getD i 0) = spec.axes.contains i := contains_sources hp haxes hi
  rw [reduces, reduces, hempty, hmem]

omit haxes in
theorem Reduce.contains_reduced {i : Nat} (hi : i < n) :
    (if spec.axes.isEmpty then Perm.identity p.length else spec.axes).contains i = spec.reduces i := by
  rw [reduces]
  cases spec.axes.isEmpty with
  | true => simpa [Perm.identity, length_of_perm hp] using hi
  | false => simp

/-- What remains of a permutation rearranges the shape of the result. -/
theorem Reduce.remainder_perm {α : Type} (one : α) {zs : List α} (hz : zs.length = n) :
    (spec.remainder p).Perm (range ((spec.behind p).shape one zs).length) ∧
      spec.shape one (selectD zs p one) = selectD ((spec.behind p).shape one zs) (spec.remainder p) one := by
  have hlen := length_of_perm hp
  have hr : ∀ i < n, (spec.behind p).reduces (p.getD i 0) = spec.reduces i := fun i hi => reduces_behind hp haxes hi
  rw [shape_def, shape_def, remainder, show (spec.behind p).keepDims = spec.keepDims from rfl]
  cases spec.keepDims with
  | true =>
    simp only [if_true, length_mask, hz]
    exact ⟨hp, mask_selectD hp hr hz one⟩
  | false =>
    have hred : ∀ i < n, (if spec.axes.isEmpty then Perm.identity p.length else spec.axes).contains i = spec.reduces i :=
      fun i hi => contains_reduced hp hi
    simp only [Bool.false_eq_true, if_false, kept, List.length_map, length_selectD, hz, hlen]
    rw [hlen] at hred
    refine ⟨restrict_perm hp hr hred, ?_⟩
    rw [selectD_restrict hp hr hred]
    exact List.map_congr_left fun i hi => getD_selectD (hlen ▸ (mem_keptAxes.1 hi).1) one

end Shape

/-! ## Coordinates of results -/

namespace Reduce

open RowMajor

variable {spec : Reduce} {dims ks : List Nat}

theorem size_shape (spec : Reduce) (dims : List Nat) : size (spec.shape 1 dims) = size (mask spec.reduces 1 dims) := by
  rw [shape_def]
  split
  · rfl
  · exact size_kept ..

theorem offset_shape (h : ks.length = dims.length) : offset (spec.shape 0 ks) (strides (spec.shape 1 dims)) =
    offset (mask spec.reduces 0 ks) (strides (mask spec.reduces 1 dims)) := by
  rw [shape_def, shape_def]
  split
  · rfl
  · exact offset_kept h

theorem inBounds_shape (h : InBounds (mask spec.reduces 1 dims) ks) :
    InBounds (spec.shape 1 dims) (spec.shape 0 ks) := by
  rw [shape_def, shape_def]
  split
  · rw [h.mask_eq]
    exact h
  · exact h.kept

/-- A result has, at the coordinates that are left, the element of a group. -/
theorem offset_shape_eq (h : InBounds (mask spec.reduces 1 dims) ks) :
    offset (spec.shape 0 ks) (strides (spec.shape 1 dims)) = offset ks (strides (mask spec.reduces 1 dims)) := by
  have hlen := h.length_eq
  rw [length_mask] at hlen
  rw [offset_shape hlen, h.mask_eq]

/-- Every element of a result is that of a group. -/
theorem exists_shape {cs : List Nat} (h : InBounds (spec.shape 1 dims) cs) :
    ∃ ks, InBounds (mask spec.reduces 1 dims) ks ∧ spec.shape 0 ks = cs := by
  have hlt := offset_lt h
  rw [size_shape] at hlt
  obtain ⟨ks, hks, he⟩ := exists_offset hlt
  refine ⟨ks, hks, offset_inj (inBounds_shape hks) h ?_⟩
  rw [offset_shape_eq hks, he]

end Reduce

/-! ## Absorption -/

theorem Layout.absorbReduce_behind {spec : Reduce} {p : List Nat} {a : Absorption}
    (h : absorbReduce spec p = some a) : a.kind = .reduce (spec.behind p) ∧ a.constants = [] ∧
      (a.outputPerm = some (spec.remainder p) ∨
        a.outputPerm = none ∧ spec.remainder p = range (spec.remainder p).length) := by
  obtain ⟨axes, haxes, hkind, hconstants, hperm⟩ := absorbReduce_eq_some h
  have hlt := select?_isSome_iff.1 (by rw [haxes]; rfl : (select? p spec.axes).isSome)
  rw [select?_eq_some hlt 0, Option.some.injEq] at haxes
  refine ⟨by rw [hkind, Reduce.behind, haxes], hconstants, ?_⟩
  rw [hperm, Reduce.remainder]
  dsimp only
  generalize restrict p (if spec.axes.isEmpty then Perm.identity p.length else spec.axes) = rest
  cases spec.keepDims with
  | true => exact .inl rfl
  | false =>
    simp only [Bool.false_eq_true, if_false]
    by_cases hid : rest.isEmpty || isIdentity rest
    · rw [if_pos hid]
      rw [Bool.or_eq_true, List.isEmpty_iff, isIdentity, beq_iff_eq] at hid
      refine .inr ⟨rfl, hid.elim (fun hnil => ?_) id⟩
      rw [hnil]
      rfl
    · rw [if_neg hid]
      exact .inl rfl

/-! ## Types -/

namespace Typing

theorem checkAxes_eq_ok {rank : Nat} {seen axes : List Nat} : checkAxes rank seen axes = .ok () ↔
    (∀ axis ∈ axes, axis < rank) ∧ axes.Nodup ∧ ∀ axis ∈ axes, axis ∉ seen := by
  induction axes generalizing seen with
  | nil => simp [checkAxes]
  | cons axis axes ih =>
    rw [checkAxes]
    by_cases hr : rank ≤ axis
    · rw [if_pos hr]
      simp only [reduceCtorEq, false_iff, not_and]
      exact fun h => absurd (h axis List.mem_cons_self) (by omega)
    · rw [if_neg hr]
      by_cases hs : axis ∈ seen
      · rw [if_pos hs]
        simp only [reduceCtorEq, false_iff, not_and]
        exact fun _ _ h => h axis List.mem_cons_self hs
      · rw [if_neg hs, ih]
        simp only [List.mem_cons, forall_eq_or_imp, List.nodup_cons, not_or]
        constructor
        · rintro ⟨h1, h2, h3⟩
          exact ⟨⟨by omega, h1⟩, ⟨fun h => (h3 axis h).1 rfl, h2⟩, hs, fun i hi => (h3 i hi).2⟩
        · rintro ⟨⟨_, h1⟩, ⟨h2, h3⟩, _, h4⟩
          exact ⟨h1, h3, fun i hi => ⟨fun he => h2 (he ▸ hi), h4 i hi⟩⟩

theorem filterMap_eq_shape (spec : Reduce) (dims : List Dim) : (dims.zipIdx.filterMap fun (dim, axis) =>
    if !spec.reduces axis then some dim else if spec.keepDims then some (.fixed 1) else none) =
      spec.shape (.fixed 1) dims := by
  rw [zipIdx_eq_map dims (.fixed 1), List.filterMap_map, Reduce.shape]
  cases spec.keepDims with
  | true =>
    rw [if_pos rfl, ← List.filterMap_eq_map]
    refine List.filterMap_congr fun i _ => ?_
    cases hr : spec.reduces i <;> simp [hr]
  | false =>
    simp only [Bool.false_eq_true, if_false]
    rw [keptAxes, ← List.filterMap_eq_map, List.filterMap_filter]
    refine List.filterMap_congr fun i _ => ?_
    cases hr : spec.reduces i <;> simp [hr]

theorem reduce_eq_ok {spec : Reduce} {types : List TensorType} {t : TensorType} :
    resultType (.reduce spec) types = .ok t ↔ ∃ u, types = [u] ∧ (∀ axis ∈ spec.axes, axis < u.rank) ∧
      spec.axes.Nodup ∧ t = ⟨u.elem, spec.shape (.fixed 1) u.dims⟩ := by
  rw [resultType, single_eq_ok]
  refine exists_congr fun u => and_congr_right fun _ => ?_
  rw [reduceType, check_bind_eq_ok, checkAxes_eq_ok, pure_eq_ok, filterMap_eq_shape]
  simp only [List.not_mem_nil, not_false_eq_true, implies_true, and_true, and_assoc, eq_comm]

/-- The type of a reduction of a transposed operand. -/
theorem reduce_types {spec : Reduce} {p : List Nat} {x z y : TensorType} (hx : TensorType.IsTranspose p z x)
    (h : resultType (.reduce spec) [x] = .ok y) :
    ∃ y', resultType (.reduce (spec.behind p)) [z] = .ok y' ∧ TensorType.IsTranspose (spec.remainder p) y' y := by
  obtain ⟨u, hu, haxes, hnd, rfl⟩ := reduce_eq_ok.1 h
  have hu := List.singleton_inj.1 hu
  subst hu
  have hp := hx.perm
  rw [hx.rank_eq, ← hx.rank_eq'] at haxes
  have hlen : z.dims.length = z.rank := rfl
  obtain ⟨hperm, hshape⟩ := Reduce.remainder_perm hp haxes (.fixed 1) hlen
  refine ⟨⟨z.elem, (spec.behind p).shape (.fixed 1) z.dims⟩, reduce_eq_ok.2 ⟨z, rfl, fun axis ha => ?_, ?_, rfl⟩, hperm, ?_⟩
  · obtain ⟨i, hi, rfl⟩ := List.mem_map.1 ha
    exact getD_mem_of_perm hp (haxes i hi)
  · exact hnd.map_on fun i hi j hj he => getD_inj hp (haxes i hi) (haxes j hj) he
  · rw [hx.eq]
    exact congrArg (TensorType.mk z.elem) hshape

end Typing

end Relayout
