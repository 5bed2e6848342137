import Relayout.Eval.Run
import Relayout.Proofs.Reducing
import Relayout.Proofs.Transposition

/-!
# Groups of a reduction

A reduction computes each element of its result from a group: the elements whose coordinates agree on all axes that are not
reduced, in the order of their positions (`Tensor.group`). These are the sequences that it accumulates
(`accumulated_eq_ok`, `OpKind.evaluate_reduce`).

A transpose rearranges coordinates, so the groups of a transposed tensor are those of the tensor. Their elements come in
another order (`group_perm`), unless one axis is reduced: positions are then in the order of that axis on both sides
(`group_eq`). Results then differ by what remains of the permutation (`OpKind.evaluate_reduce_transposed`).
-/

namespace Relayout

open Perm
open List (range)

variable {α β : Type}

namespace RowMajor

variable {r : Nat → Bool} {dims : List Nat}

/-! ## Positions of a group -/

/-- The positions whose coordinates agree with `ks` on the axes that are not reduced. -/
def groupPositions (dims : List Nat) (r : Nat → Bool) (ks : List Nat) : List Nat :=
  (range (size dims)).filter fun i => Relayout.mask r 0 (coords dims i) = ks

theorem groupPositions_sorted (dims : List Nat) (r : Nat → Bool) (ks : List Nat) :
    (groupPositions dims r ks).Pairwise (· < ·) :=
  List.pairwise_lt_range.sublist List.filter_sublist

theorem groupPositions_nodup (dims : List Nat) (r : Nat → Bool) (ks : List Nat) : (groupPositions dims r ks).Nodup :=
  List.nodup_range.filter _

theorem mem_groupPositions {ks : List Nat} {i : Nat} :
    i ∈ groupPositions dims r ks ↔ ∃ cs, InBounds dims cs ∧ offset cs (strides dims) = i ∧ Relayout.mask r 0 cs = ks := by
  rw [groupPositions, List.mem_filter, List.mem_range, decide_eq_true_eq]
  constructor
  · rintro ⟨hi, hks⟩
    exact ⟨_, coords_inBounds hi, offset_coords hi, hks⟩
  · rintro ⟨cs, hcs, rfl, hks⟩
    exact ⟨offset_lt hcs, by rw [coords_offset hcs, hks]⟩

/-- Where coordinates differ on one axis only, positions are in the order of that axis. -/
theorem offset_lt_offset_iff {cs cs' : List Nat} {axis : Nat} (h : InBounds dims cs) (h' : InBounds dims cs')
    (ha : axis < dims.length) (heq : ∀ i < dims.length, i ≠ axis → cs.getD i 0 = cs'.getD i 0) :
    offset cs (strides dims) < offset cs' (strides dims) ↔ cs.getD axis 0 < cs'.getD axis 0 := by
  have hlen := h.length_eq
  have hlen' := h'.length_eq
  have hset : cs'.set axis 0 = cs.set axis 0 := by
    refine ext_getD (n := dims.length) (by simp [hlen']) (by simp [hlen]) 0 fun i hi => ?_
    rw [getD_set (hlen'.symm ▸ hi), getD_set (hlen.symm ▸ hi)]
    split
    · rfl
    · rename_i hne
      exact (heq i hi (Ne.symm hne)).symm
  have hself : ∀ {ds : List Nat}, ds.length = dims.length → offset ds (strides dims) =
      offset (ds.set axis 0) (strides dims) + ds.getD axis 0 * (strides dims).getD axis 0 := by
    intro ds hds
    have hlt : axis < ds.length := hds.symm ▸ ha
    rw [← offset_set hlt, List.getD_eq_getElem _ _ hlt, List.set_getElem_self]
  have hpos : ∀ d ∈ dims, 0 < d := by
    intro d hd
    obtain ⟨i, hi, rfl⟩ := List.mem_iff_getElem.1 hd
    have hlt := h.getD_lt hi
    rw [List.getD_eq_getElem dims _ hi] at hlt
    omega
  rw [hself hlen, hself hlen', hset, Nat.add_lt_add_iff_left]
  exact Nat.mul_lt_mul_right (strides_pos hpos ha)

section Transposed

variable {p : List Nat} {r' : Nat → Bool} (hp : p.Perm (range dims.length))
  (hr : ∀ i < dims.length, r' (p.getD i 0) = r i)

include hp hr

/-- The positions of a group of a transposed tensor lead to those of the group of the tensor. -/
theorem groupPositions_perm {ks : List Nat} (hks : ks.length = dims.length) :
    ((groupPositions (selectD dims p 0) r (selectD ks p 0)).map (source dims p)).Perm (groupPositions dims r' ks) := by
  have hlt : ∀ axis ∈ p, axis < dims.length := fun axis => (mem_of_perm hp).1
  have hmask : ∀ {cs : List Nat}, cs.length = dims.length →
      (Relayout.mask r 0 (selectD cs p 0) = selectD ks p 0 ↔ Relayout.mask r' 0 cs = ks) := by
    intro cs hcs
    rw [mask_selectD hp hr hcs]
    exact ⟨selectD_inj hp (by simpa using hcs) hks 0, fun h => by rw [h]⟩
  have hnd : ((groupPositions (selectD dims p 0) r (selectD ks p 0)).map (source dims p)).Nodup := by
    refine (groupPositions_nodup ..).map_on ?_
    intro i hi j hj he
    obtain ⟨cs, hcs, rfl, _⟩ := mem_groupPositions.1 hi
    obtain ⟨cs', hcs', rfl, _⟩ := mem_groupPositions.1 hj
    obtain ⟨cs, hin, rfl⟩ := exists_selectD hp hcs
    obtain ⟨cs', hin', rfl⟩ := exists_selectD hp hcs'
    rw [source_offset hp hin, source_offset hp hin'] at he
    rw [offset_inj hin hin' he]
  rw [List.perm_ext_iff_of_nodup hnd (groupPositions_nodup ..)]
  intro j
  rw [List.mem_map, mem_groupPositions]
  constructor
  · rintro ⟨i, hi, rfl⟩
    obtain ⟨cs, hcs, rfl, hm⟩ := mem_groupPositions.1 hi
    obtain ⟨cs, hin, rfl⟩ := exists_selectD hp hcs
    exact ⟨cs, hin, (source_offset hp hin).symm, (hmask hin.length_eq).1 hm⟩
  · rintro ⟨cs, hin, rfl, hm⟩
    exact ⟨_, mem_groupPositions.2 ⟨_, inBounds_selectD hlt hin, rfl, (hmask hin.length_eq).2 hm⟩, source_offset hp hin⟩

/-- If one axis is reduced, they come in the same order. -/
theorem groupPositions_eq {axis : Nat} (ha : axis < dims.length) (hone : ∀ i < dims.length, r i → i = axis)
    {ks : List Nat} (hks : ks.length = dims.length) :
    (groupPositions (selectD dims p 0) r (selectD ks p 0)).map (source dims p) = groupPositions dims r' ks := by
  have hlen := length_of_perm hp
  refine List.Perm.eq_of_pairwise (fun a b _ _ h h' => absurd h (Nat.lt_asymm h')) ?_ (groupPositions_sorted ..)
    (groupPositions_perm hp hr hks)
  rw [List.pairwise_map]
  refine (groupPositions_sorted ..).imp_of_mem ?_
  intro i j hi hj hij
  obtain ⟨cs, hcs, rfl, hm⟩ := mem_groupPositions.1 hi
  obtain ⟨cs', hcs', rfl, hm'⟩ := mem_groupPositions.1 hj
  obtain ⟨cs, hin, rfl⟩ := exists_selectD hp hcs
  obtain ⟨cs', hin', rfl⟩ := exists_selectD hp hcs'
  -- the two agree but for the reduced axis
  have hagree : ∀ k < dims.length, k ≠ axis → cs.getD (p.getD k 0) 0 = cs'.getD (p.getD k 0) 0 := by
    intro k hk hne
    have hk' : k < p.length := by omega
    have hnot : r k = false := by
      by_contra h
      exact hne (hone k hk (by simpa using h))
    have hget := congrArg (·.getD k 0) (hm.trans hm'.symm)
    rwa [getD_mask (by simpa using hk'), getD_mask (by simpa using hk'), if_neg (by simp [hnot]), if_neg (by simp [hnot]),
      getD_selectD hk', getD_selectD hk'] at hget
  have hx : (selectD cs p 0).getD axis 0 < (selectD cs' p 0).getD axis 0 := by
    refine (offset_lt_offset_iff hcs hcs' (by simpa [hlen] using ha) fun k hk hne => ?_).1 hij
    rw [length_selectD] at hk
    rw [getD_selectD hk, getD_selectD hk]
    exact hagree k (hlen ▸ hk) hne
  rw [getD_selectD (by omega), getD_selectD (by omega)] at hx
  rw [source_offset hp hin, source_offset hp hin']
  refine (offset_lt_offset_iff hin hin' (getD_mem_of_perm hp ha) ?_).2 hx
  intro k hk hne
  obtain ⟨j, hj, rfl⟩ := exists_getD_eq hp hk
  exact hagree j hj fun he => hne (by rw [he])

end Transposed

end RowMajor

/-! ## Groups -/

namespace Tensor

open RowMajor

variable {x z : Tensor α} {r : Nat → Bool} {ks : List Nat}

/-- The elements whose coordinates agree with `ks` on the axes that are not reduced, in the order of their positions. -/
def group (x : Tensor α) (r : Nat → Bool) (ks : List Nat) : List α :=
  (groupPositions x.dims r ks).filterMap (x.data[·]?)

theorem keptDims_eq (dims : List Nat) (r : Nat → Bool) : keptDims dims r = mask r 1 dims := by
  rw [keptDims, zipIdx_eq_map dims 1, List.map_map]
  rfl

theorem groupOf_eq (dims : List Nat) (r : Nat → Bool) (i : Nat) :
    groupOf dims r i = offset (mask r 0 (coords dims i)) (strides (mask r 1 dims)) := by
  rw [groupOf, keptDims_eq, zipIdx_eq_map (coords dims i) 0, List.map_map]
  rfl

/-- Entries that are kept by their places. -/
theorem filterMap_zipIdx (xs : List α) (P : Nat → Prop) [DecidablePred P] :
    (xs.zipIdx.filterMap fun (a, i) => if P i then some a else none) =
      ((range xs.length).filter P).filterMap (xs[·]?) := by
  cases xs with
  | nil => rfl
  | cons a xs =>
    rw [zipIdx_eq_map (a :: xs) a, List.filterMap_map, List.filterMap_filter]
    refine List.filterMap_congr fun i hi => ?_
    by_cases hP : P i <;> simp_all

theorem getElem?_groups (hks : InBounds (mask r 1 x.dims) ks) :
    (x.groups r)[offset ks (strides (mask r 1 x.dims))]? = some (x.group r ks) := by
  have hgroup : ∀ i ∈ range (size x.dims), groupOf x.dims r i = offset ks (strides (mask r 1 x.dims)) ↔
      mask r 0 (coords x.dims i) = ks := by
    intro i hi
    rw [groupOf_eq]
    exact ⟨offset_inj ((coords_inBounds (List.mem_range.1 hi)).mask r) hks, fun h => by rw [h]⟩
  rw [groups, List.getElem?_map, keptDims_eq, List.getElem?_range (offset_lt hks), Option.map_some]
  dsimp only
  rw [List.filterMap_map]
  refine congrArg some ((filterMap_zipIdx x.data.toList (groupOf x.dims r · = _)).trans ?_)
  rw [Array.length_toList, x.size_eq, List.filter_congr fun i hi => decide_eq_decide.2 (hgroup i hi)]
  exact List.filterMap_congr fun i _ => Array.getElem?_toList

@[simp] theorem length_groups (x : Tensor α) (r : Nat → Bool) : (x.groups r).length = size (mask r 1 x.dims) := by
  simp [groups, keptDims_eq]

section Transposed

variable {p : List Nat} {r' : Nat → Bool} (hp : p.Perm (range z.rank)) (hx : IsTranspose p z x)
  (hr : ∀ i < z.rank, r' (p.getD i 0) = r i)

include hp hx

theorem IsTranspose.getElem? {i : Nat} (hi : i < size x.dims) : x.data[i]? = z.data[source z.dims p i]? := by
  rw [hx.1] at hi
  obtain ⟨cs, hcs, rfl⟩ := exists_offset hi
  obtain ⟨cs, hin, rfl⟩ := exists_selectD hp hcs
  have := hx.2 cs hin
  rwa [at?, at?, hx.1, ← source_offset hp hin] at this

theorem group_eq_map (r : Nat → Bool) (ks : List Nat) :
    x.group r ks = ((groupPositions x.dims r ks).map (source z.dims p)).filterMap (z.data[·]?) := by
  rw [group, List.filterMap_map]
  refine List.filterMap_congr fun i hi => ?_
  exact hx.getElem? hp (List.mem_range.1 (List.mem_filter.1 hi).1)

include hr

/-- A group of a transposed tensor has the elements of the group of the tensor. -/
theorem group_perm (hks : ks.length = z.rank) : (x.group r (selectD ks p 0)).Perm (z.group r' ks) := by
  rw [group_eq_map hp hx, hx.1]
  exact (groupPositions_perm hp hr hks).filterMap _

/-- If one axis is reduced, it has them in the same order. -/
theorem group_eq {axis : Nat} (ha : axis < z.rank) (hone : ∀ i < z.rank, r i → i = axis) (hks : ks.length = z.rank) :
    x.group r (selectD ks p 0) = z.group r' ks := by
  rw [group_eq_map hp hx, hx.1, groupPositions_eq hp hr ha hone hks, group]

end Transposed

/-! ## Results -/

theorem reducedDims_eq (spec : Reduce) (dims : List Nat) :
    (if spec.keepDims then keptDims dims spec.reduces
      else dims.zipIdx.filterMap fun (d, axis) => if spec.reduces axis then none else some d) = spec.shape 1 dims := by
  rw [Reduce.shape_def, keptDims_eq]
  split
  · rfl
  · rw [zipIdx_eq_map dims 1, List.filterMap_map, kept, keptAxes, ← List.filterMap_eq_map, List.filterMap_filter]
    refine List.filterMap_congr fun i _ => ?_
    cases hr : spec.reduces i <;> simp [hr]

section Reductions

variable {spec : Reduce} {ys zs : Tensor (List α)}

/-- The sequences that a reduction accumulates, one for each element of its result. -/
def accumulated (x : Tensor α) (spec : Reduce) : Eval (Tensor (List α)) :=
  x.reduce id spec

/-- The size of the groups, as a mean divides by it. -/
def groupSize (x : Tensor α) (spec : Reduce) : Nat :=
  x.data.size / max (size (keptDims x.dims spec.reduces)) 1

theorem make_map (dims : List Nat) (data : Array α) (f : α → β) :
    make dims (data.map f) = (make dims data).map (map f) := by
  unfold make
  simp only [Array.size_map]
  split
  · rfl
  · split <;> rfl

/-- Every element of a result is computed from its sequence. -/
theorem reduce_eq_map (f : List α → β) (x : Tensor α) (spec : Reduce) :
    x.reduce f spec = (x.accumulated spec).map (map f) := by
  unfold accumulated reduce
  split
  · rfl
  · simp only [List.map_id, ← List.map_toArray, make_map]
    cases checkStrides (keptDims x.dims spec.reduces) with
    | error e => rfl
    | ok _ =>
      cases reserve 8 (keptDims x.dims spec.reduces) with
      | error e => rfl
      | ok _ => rfl

/-- The groups of a reduction can be counted from both ends, and there is room for an accumulator for each. -/
structure HasRoom (spec : Reduce) (dims : List Nat) : Prop where
  strides : stridesFit (mask spec.reduces 1 dims)
  counted : size? (mask spec.reduces 1 dims) = some (size (mask spec.reduces 1 dims))
  room : size (mask spec.reduces 1 dims) * 8 < 2 ^ 63

theorem wordSized_mask {dims : List Nat} (h : WordSized dims) (r : Nat → Bool) : WordSized (mask r 1 dims) := by
  refine h.mono_getD (length_mask ..) fun i hi => ?_
  rw [length_mask] at hi
  rw [getD_mask hi]
  split
  · exact le_max_left ..
  · rw [getD_congr hi 1 0]
    exact le_max_right ..

theorem HasRoom.of_wordSized {dims : List Nat} (h : WordSized dims)
    (hroom : size (mask spec.reduces 1 dims) * 8 < 2 ^ 63) : HasRoom spec dims :=
  ⟨(wordSized_mask h _).stridesFit, (wordSized_mask h _).size?, hroom⟩

/-- Axes that a reduction drops leave the others as they are. -/
theorem wordSized_shape {dims : List Nat} (h : WordSized dims) (spec : Reduce) : WordSized (spec.shape 1 dims) := by
  rw [Reduce.shape_def]
  split
  · exact wordSized_mask h _
  · exact h.sublist (kept_sublist ..)

theorem accumulated_eq_ok_make (haxes : ∀ axis ∈ spec.axes, axis < x.rank) : x.accumulated spec = .ok ys ↔
    HasRoom spec x.dims ∧ make (spec.shape 1 x.dims) (x.groups spec.reduces).toArray = .ok ys := by
  have hin : ¬spec.axes.any (x.rank ≤ ·) := by
    simpa using haxes
  rw [accumulated, reduce, if_neg hin, ← reducedDims_eq, List.map_id, keptDims_eq]
  change (checkStrides _ >>= fun _ => reserve 8 _ >>= fun _ => make _ _) = .ok ys ↔ _
  rw [check_bind_eq_ok, checkStrides_eq_ok, bind_eq_ok]
  simp only [reserve_eq_ok]
  constructor
  · rintro ⟨hstrides, n, ⟨hn, hroom⟩, hmake⟩
    obtain rfl := (size?_eq_some.1 hn).2
    exact ⟨⟨hstrides, hn, hroom⟩, hmake⟩
  · rintro ⟨⟨hstrides, hn, hroom⟩, hmake⟩
    exact ⟨hstrides, _, ⟨hn, hroom⟩, hmake⟩

theorem exists_accumulated (haxes : ∀ axis ∈ spec.axes, axis < x.rank) (hword : WordSized x.dims)
    (hroom : size (mask spec.reduces 1 x.dims) * 8 < 2 ^ 63) :
    ∃ ys, x.accumulated spec = .ok ys ∧ ys.dims = spec.shape 1 x.dims := by
  simp only [accumulated_eq_ok_make haxes, HasRoom.of_wordSized hword hroom, true_and]
  exact exists_make (by simp [Reduce.size_shape, (wordSized_shape hword spec).size?])

/-- What a reduction accumulates. -/
theorem accumulated_eq_ok (haxes : ∀ axis ∈ spec.axes, axis < x.rank) : x.accumulated spec = .ok ys ↔
    HasRoom spec x.dims ∧ ys.dims = spec.shape 1 x.dims ∧ ∀ ks, InBounds (mask spec.reduces 1 x.dims) ks →
      ys.at? (spec.shape 0 ks) = some (x.group spec.reduces ks) := by
  rw [accumulated_eq_ok_make haxes, make_eq_ok]
  refine and_congr_right fun _ => and_congr_right fun hd => ?_
  have hat : ∀ ks, InBounds (mask spec.reduces 1 x.dims) ks →
      ys.at? (spec.shape 0 ks) = ys.data[offset ks (strides (mask spec.reduces 1 x.dims))]? := by
    intro ks hks
    rw [at?, hd, Reduce.offset_shape_eq hks]
  have hgroup : ∀ ks, InBounds (mask spec.reduces 1 x.dims) ks → (x.groups spec.reduces).toArray[
      offset ks (strides (mask spec.reduces 1 x.dims))]? = some (x.group spec.reduces ks) := by
    intro ks hks
    rw [List.getElem?_toArray, getElem?_groups hks]
  constructor
  · intro hdata ks hks
    rw [hat ks hks, hdata, hgroup ks hks]
  · intro h
    apply Array.ext_getElem?
    intro i
    by_cases hi : i < size (mask spec.reduces 1 x.dims)
    · obtain ⟨ks, hks, rfl⟩ := exists_offset hi
      rw [← hat ks hks, h ks hks, hgroup ks hks]
    · have hsize : ys.data.size = size (mask spec.reduces 1 x.dims) := by rw [ys.size_eq, hd, Reduce.size_shape]
      rw [Array.getElem?_eq_none (by omega), Array.getElem?_eq_none (by simp; omega)]

theorem dims_of_reduce (haxes : ∀ axis ∈ spec.axes, axis < x.rank) {f : List α → β} {y : Tensor β}
    (h : x.reduce f spec = .ok y) : y.dims = spec.shape 1 x.dims := by
  rw [reduce_eq_map] at h
  obtain ⟨ys, hys, rfl⟩ := map_eq_ok.1 h
  exact ((accumulated_eq_ok haxes).1 hys).2.1

variable {p : List Nat} (hp : p.Perm (range z.rank)) (hx : IsTranspose p z x) (haxes : ∀ axis ∈ spec.axes, axis < z.rank)

include hp hx haxes

theorem axes_lt : ∀ axis ∈ spec.axes, axis < x.rank := by
  rw [hx.rank_eq, length_of_perm hp]
  exact haxes

omit hx in
theorem axes_behind_lt : ∀ axis ∈ (spec.behind p).axes, axis < z.rank := by
  intro axis ha
  obtain ⟨i, hi, rfl⟩ := List.mem_map.1 ha
  exact getD_mem_of_perm hp (haxes i hi)

/-- The sequences of the two reductions at corresponding coordinates. -/
theorem accumulated_at? (hys : x.accumulated spec = .ok ys) (hzs : z.accumulated (spec.behind p) = .ok zs) :
    ys.dims = selectD zs.dims (spec.remainder p) 0 ∧ (spec.remainder p).Perm (range zs.rank) ∧
      ∀ cs, InBounds zs.dims cs → ∃ ks, ks.length = z.rank ∧ zs.at? cs = some (z.group (spec.behind p).reduces ks) ∧
        ys.at? (selectD cs (spec.remainder p) 0) = some (x.group spec.reduces (selectD ks p 0)) := by
  obtain ⟨_, hd, hy⟩ := (accumulated_eq_ok (axes_lt hp hx haxes)).1 hys
  obtain ⟨_, hd', hz⟩ := (accumulated_eq_ok (axes_behind_lt hp haxes)).1 hzs
  have hr : ∀ i < z.rank, (spec.behind p).reduces (p.getD i 0) = spec.reduces i := fun i hi =>
    Reduce.reduces_behind hp haxes hi
  obtain ⟨hperm, hshape⟩ := Reduce.remainder_perm hp haxes 1 (rfl : z.dims.length = z.rank)
  rw [← hd'] at hperm hshape
  rw [selectD_congr (fun i hi => (mem_of_perm hp).1 hi) 1 0, ← hx.1, ← hd,
    selectD_congr (fun i hi => (mem_of_perm hperm).1 hi) 1 0] at hshape
  refine ⟨hshape, hperm, fun cs hcs => ?_⟩
  rw [hd'] at hcs
  obtain ⟨ks, hks, rfl⟩ := Reduce.exists_shape hcs
  have hlen : ks.length = z.rank := by simpa [rank] using hks.length_eq
  have hks' : InBounds (mask spec.reduces 1 x.dims) (selectD ks p 0) := by
    have hlt : ∀ axis ∈ p, axis < (mask (spec.behind p).reduces 1 z.dims).length := fun axis ha => by
      rw [length_mask]
      exact (mem_of_perm hp).1 ha
    have hin := inBounds_selectD hlt hks
    rwa [selectD_congr hlt 0 1, ← mask_selectD hp hr rfl, selectD_congr (fun axis ha => (mem_of_perm hp).1 ha) 1 0,
      ← hx.1] at hin
  refine ⟨ks, hlen, hz ks hks, ?_⟩
  rw [← (Reduce.remainder_perm hp haxes 0 hlen).2]
  exact hy _ hks'

/-- If one axis is reduced, the sequences differ by what remains of the permutation. -/
theorem accumulated_transposed {axis : Nat} (ha : axis < z.rank) (hone : ∀ i < z.rank, spec.reduces i → i = axis)
    (hys : x.accumulated spec = .ok ys) (hzs : z.accumulated (spec.behind p) = .ok zs) :
    IsTranspose (spec.remainder p) zs ys := by
  have hr : ∀ i < z.rank, (spec.behind p).reduces (p.getD i 0) = spec.reduces i := fun i hi =>
    Reduce.reduces_behind hp haxes hi
  obtain ⟨hd, _, hat⟩ := accumulated_at? hp hx haxes hys hzs
  refine ⟨hd, fun cs hcs => ?_⟩
  obtain ⟨ks, hks, hz, hy⟩ := hat cs hcs
  rw [hy, hz, group_eq hp hx hr ha hone hks]

/-- The two reductions have as many groups. -/
theorem size_mask_behind : size (mask (spec.behind p).reduces 1 z.dims) = size (mask spec.reduces 1 x.dims) := by
  have hr : ∀ i < z.rank, (spec.behind p).reduces (p.getD i 0) = spec.reduces i := fun i hi =>
    Reduce.reduces_behind hp haxes hi
  rw [hx.1, selectD_congr (fun axis ha => (mem_of_perm hp).1 ha) 0 1, mask_selectD hp hr rfl]
  exact size_perm (selectD_perm hp (by simp [rank]) 1).symm

/-- The two reductions have groups of one size. -/
theorem groupSize_behind : z.groupSize (spec.behind p) = x.groupSize spec := by
  have hsize : x.data.size = z.data.size := by
    rw [x.size_eq, z.size_eq, size_perm (hx.perm_dims hp)]
  rw [groupSize, groupSize, keptDims_eq, keptDims_eq, hsize, size_mask_behind hp hx haxes]

end Reductions

/-- The type of a reduction has the extents of its result. -/
theorem reduce_extents {spec : Reduce} {x : Tensor α} {y : Tensor β} {f : List α → β} {u t : TensorType}
    (hu : u.dims = x.dims.map .fixed) (ht : Typing.resultType (.reduce spec) [u] = .ok t) (hy : x.reduce f spec = .ok y) :
    t.dims = y.dims.map .fixed := by
  obtain ⟨_, ⟨⟩, haxes, _, rfl⟩ := Typing.reduce_eq_ok.1 ht
  have hrank : u.rank = x.rank := by rw [TensorType.rank, hu, List.length_map, rank]
  rw [dims_of_reduce (hrank ▸ haxes) hy, hu]
  exact spec.shape_map Dim.fixed 1 x.dims

end Tensor

namespace OpKind

variable [Kernels α] {spec : Reduce}

theorem evaluate_reduce (spec : Reduce) (x : Tensor α) : (OpKind.reduce spec).evaluate [x] =
    (x.accumulated spec).map (Tensor.map (Kernels.reduction spec.kind (x.groupSize spec))) :=
  Tensor.reduce_eq_map _ x spec

/-- A reduction of a transposed operand along one axis has the result of the one that runs on the operand, up to what remains
of the permutation. -/
theorem evaluate_reduce_transposed {p : List Nat} {x z y : Tensor α} {axis : Nat} (hp : p.Perm (range z.rank))
    (hx : Tensor.IsTranspose p z x) (hword : RowMajor.WordSized z.dims) (haxes : ∀ i ∈ spec.axes, i < z.rank)
    (ha : axis < z.rank) (hone : ∀ i < z.rank, spec.reduces i → i = axis)
    (h : (OpKind.reduce spec).evaluate [x] = .ok y) :
    ∃ y', (OpKind.reduce (spec.behind p)).evaluate [z] = .ok y' ∧ Tensor.IsTranspose (spec.remainder p) y' y := by
  rw [evaluate_reduce] at h
  obtain ⟨ys, hys, rfl⟩ := map_eq_ok.1 h
  have hroom := ((Tensor.accumulated_eq_ok (Tensor.axes_lt hp hx haxes)).1 hys).1.room
  rw [← Tensor.size_mask_behind hp hx haxes] at hroom
  obtain ⟨zs, hzs, _⟩ := Tensor.exists_accumulated (Tensor.axes_behind_lt hp haxes) hword hroom
  refine ⟨_, by rw [evaluate_reduce, hzs]; rfl, ?_⟩
  rw [Tensor.groupSize_behind hp hx haxes]
  exact (Tensor.accumulated_transposed hp hx haxes ha hone hys hzs).map _

end OpKind

end Relayout
