import Relayout.Proofs.Rules
import Relayout.Proofs.Transposition

/-!
# Concatenation and transposes

Transposed operands, one after another along an axis, are the transpose of the operands one after another along the axis
which that one comes from. This is so for types (`concat_types`), which make sure that all other extents agree, and for
tensors whose extents do and are `WordSized` together (`concat_transposed`).
-/

namespace Relayout

open Perm
open List (range)

/-! ## Types -/

namespace Typing

/-- An operand has the extents of the first one on all other axes, and a fixed extent on the axis. -/
structure Joins (axis : Nat) (first type : TensorType) (extent : Nat) : Prop where
  elem : type.elem = first.elem
  rank : type.rank = first.rank
  others : ∀ i < first.rank, i ≠ axis → type.dims.getD i (.fixed 1) = first.dims.getD i (.fixed 1)
  axis : type.dims.getD axis (.fixed 1) = .fixed extent

/-- The extents of an operand are those of the first one, but for the axis. -/
theorem Joins.dims_eq {axis extent : Nat} {first type : TensorType} {ds₀ ds : List Nat}
    (h : Joins axis first type extent) (ha : axis < first.rank) (h₀ : first.dims = ds₀.map .fixed)
    (hd : type.dims = ds.map .fixed) : ds.getD axis 0 = extent ∧ ds = ds₀.set axis extent := by
  have hr₀ : first.rank = ds₀.length := by rw [TensorType.rank, h₀, List.length_map]
  have hr : ds.length = ds₀.length := by rw [← hr₀, ← h.rank, TensorType.rank, hd, List.length_map]
  have hget : ∀ i < ds₀.length, type.dims.getD i (.fixed 1) = .fixed (ds.getD i 0) := fun i hi => by
    rw [hd, getD_map (hr.symm ▸ hi) 0]
  have haxis : ds.getD axis 0 = extent := Dim.fixed.inj ((hget axis (hr₀ ▸ ha)).symm.trans h.axis)
  refine ⟨haxis, ext_getD hr (by simp) 0 fun i hi => ?_⟩
  rw [getD_set hi]
  split
  · rename_i he
    rw [← he, haxis]
  · rename_i hne
    have := h.others i (hr₀ ▸ hi) (Ne.symm hne)
    rw [hget i hi, h₀, getD_map hi 0] at this
    exact Dim.fixed.inj this

/-- No axis other than the joined one is found to differ. -/
theorem find_mismatch_eq_none {axis : Nat} {first type : TensorType} (hr : type.rank = first.rank) :
    (type.dims.zip first.dims).zipIdx.find? (fun ((dim, expected), i) => i != axis && dim != expected) = none ↔
      ∀ i < first.rank, i ≠ axis → type.dims.getD i (.fixed 1) = first.dims.getD i (.fixed 1) := by
  have hlen : (type.dims.zip first.dims).length = first.rank := by
    rw [List.length_zip, show type.dims.length = first.rank from hr, TensorType.rank, Nat.min_self]
  rw [zipIdx_eq_map _ (Dim.fixed 1, Dim.fixed 1), List.find?_eq_none, List.forall_mem_map, hlen]
  simp only [List.mem_range]
  refine forall₂_congr fun i hi => ?_
  rw [getD_zip hr rfl hi]
  simp

theorem concatExtent_eq_ok {op : String} {axis : Nat} {first type : TensorType} (haxis : axis < first.rank)
    {extent : Nat} : concatExtent op axis first type = .ok extent ↔ Joins axis first type extent := by
  rw [concatExtent]
  by_cases he : type.elem = first.elem
  · rw [if_neg (not_not.2 he)]
    by_cases hr : type.rank = first.rank
    · rw [if_neg (not_not.2 hr)]
      have haxis' : type.dims[axis]? = some (type.dims.getD axis (.fixed 1)) := by
        rw [List.getD_eq_getElem?_getD, List.getElem?_eq_getElem (show axis < type.rank from hr.symm ▸ haxis)]
        rfl
      split
      · rename_i e i hsome
        simp only [reduceCtorEq, false_iff]
        exact fun h => by rw [(find_mismatch_eq_none hr).2 h.others] at hsome; cases hsome
      · rename_i hnone
        rw [haxis', Option.bind_some]
        cases hdim : type.dims.getD axis (.fixed 1) with
        | fixed n =>
          simp only [Dim.extent?, Except.ok.injEq]
          exact ⟨fun h => ⟨he, hr, (find_mismatch_eq_none hr).1 hnone, by rw [hdim, h]⟩,
            fun h => Dim.fixed.inj (hdim.symm.trans h.axis)⟩
        | dynamic symbol =>
          simp only [Dim.extent?, reduceCtorEq, false_iff]
          exact fun h => by rw [h.axis] at hdim; cases hdim
    · rw [if_pos hr]
      simp only [reduceCtorEq, false_iff]
      exact fun h => hr h.rank
  · rw [if_pos he]
    simp only [reduceCtorEq, false_iff]
    exact fun h => he h.elem

/-- The extents are added up, and every sum on the way must fit. -/
theorem concatTotal_eq_ok {op : String} {axis : Nat} {first : TensorType} (haxis : axis < first.rank)
    {types : List TensorType} {total n : Nat} (htotal : total < 2 ^ 64) : concatTotal op axis first total types = .ok n ↔
      ∃ extents, List.Forall₂ (Joins axis first) types extents ∧ total + extents.sum < 2 ^ 64 ∧ total + extents.sum = n := by
  induction types generalizing total with
  | nil => simpa [concatTotal] using fun _ => htotal
  | cons type types ih =>
    rw [concatTotal, bind_eq_ok]
    simp only [concatExtent_eq_ok haxis]
    constructor
    · rintro ⟨extent, hj, h⟩
      cases hadd : Word.add? total extent with
      | none =>
        rw [hadd] at h
        cases h
      | some total' =>
        obtain ⟨hlt, rfl⟩ := Word.size?_eq_some.1 hadd
        rw [hadd] at h
        obtain ⟨extents, hall, hsum, hn⟩ := (ih hlt).1 h
        exact ⟨extent :: extents, .cons hj hall, by simpa [Nat.add_assoc] using hsum, by simpa [Nat.add_assoc] using hn⟩
    · rintro ⟨_, hall, hsum, hn⟩
      obtain ⟨extent, extents, hj, hrest, rfl⟩ := List.forall₂_cons_left_iff.1 hall
      rw [List.sum_cons, ← Nat.add_assoc] at hsum hn
      have hlt : total + extent < 2 ^ 64 := by omega
      have hadd : Word.add? total extent = some (total + extent) := Word.size?_eq_some.2 ⟨hlt, rfl⟩
      refine ⟨extent, hj, ?_⟩
      rw [hadd]
      exact (ih hlt).2 ⟨extents, hrest, hsum, hn⟩

theorem concat_eq_ok {axis : Nat} {types : List TensorType} {t : TensorType} :
    resultType (.concat axis) types = .ok t ↔ ∃ first rest extents, types = first :: rest ∧ axis < first.rank ∧
      List.Forall₂ (Joins axis first) types extents ∧ extents.sum < 2 ^ 64 ∧
      t = ⟨first.elem, first.dims.set axis (.fixed extents.sum)⟩ := by
  rw [resultType]
  cases types with
  | nil => simp [concatType]
  | cons first rest =>
    rw [concatType]
    by_cases haxis : axis < first.rank
    · rw [if_neg (not_le.2 haxis), bind_eq_ok]
      simp only [concatTotal_eq_ok haxis (show 0 < 2 ^ 64 by norm_num), Nat.zero_add, pure_eq_ok]
      constructor
      · rintro ⟨_, ⟨extents, hall, hsum, rfl⟩, rfl⟩
        exact ⟨first, rest, extents, rfl, haxis, hall, hsum, rfl⟩
      · rintro ⟨_, _, extents, ⟨⟩, _, hall, hsum, rfl⟩
        exact ⟨_, ⟨extents, hall, hsum, rfl⟩, rfl⟩
    · rw [if_pos (not_lt.1 haxis)]
      simp only [reduceCtorEq, false_iff]
      rintro ⟨_, _, _, ⟨⟩, h, _⟩
      exact haxis h

/-- The type of a concatenation of transposed operands. -/
theorem concat_types {axis : Nat} {p : List Nat} {xs zs : List TensorType} {y : TensorType}
    (hx : List.Forall₂ (TensorType.IsTranspose p) zs xs) (h : resultType (.concat axis) xs = .ok y) :
    ∃ y', resultType (.concat (p.getD axis 0)) zs = .ok y' ∧ TensorType.IsTranspose p y' y := by
  obtain ⟨x₀, xs', extents, rfl, haxis, hall, hsum, rfl⟩ := concat_eq_ok.1 h
  obtain ⟨z₀, zs', h₀, hrest, rfl⟩ := List.forall₂_cons_right_iff.1 hx
  have hp := h₀.perm
  have hlen := h₀.rank_eq'
  rw [h₀.rank_eq] at haxis
  have hsource : p.getD axis 0 < z₀.rank := getD_mem_of_perm hp (hlen ▸ haxis)
  have hjoins : ∀ {z x extent}, TensorType.IsTranspose p z x → Joins axis x₀ x extent →
      Joins (p.getD axis 0) z₀ z extent := fun {z x extent} hzx hj => by
    refine ⟨?_, ?_, (forall_axis hp).2 fun i hi hne => ?_, ?_⟩
    · rw [← hzx.elem_eq, hj.elem, h₀.elem_eq]
    · rw [hzx.rank_eq', hlen]
    · have hi' : i < p.length := hlen ▸ hi
      rw [← hzx.getD_eq hi', ← h₀.getD_eq hi']
      exact hj.others i (h₀.rank_eq.symm ▸ hi') fun he => hne (by rw [he])
    · rw [← hzx.getD_eq haxis]
      exact hj.axis
  have hall' : ∀ {zs xs : List TensorType} {extents : List Nat}, List.Forall₂ (TensorType.IsTranspose p) zs xs →
      List.Forall₂ (Joins axis x₀) xs extents → List.Forall₂ (Joins (p.getD axis 0) z₀) zs extents := by
    intro zs xs extents hzx
    induction hzx generalizing extents with
    | nil =>
      rintro ⟨⟩
      exact .nil
    | cons h _ ih =>
      rintro (_ | ⟨hj, hjs⟩)
      exact .cons (hjoins h hj) (ih hjs)
  refine ⟨⟨z₀.elem, z₀.dims.set (p.getD axis 0) (.fixed extents.sum)⟩,
    concat_eq_ok.2 ⟨z₀, zs', extents, rfl, hsource, hall' hx hall, hsum, rfl⟩, ?_, ?_⟩
  · rw [TensorType.rank, List.length_set]
    exact hp
  · rw [h₀.eq]
    exact congrArg (TensorType.mk z₀.elem) (selectD_set hp rfl (hlen ▸ haxis) _ _).symm

end Typing

namespace Tensor

open RowMajor

variable {α : Type}

/-! ## Lists one after another -/

theorem getElem?_flatten {ls : List (List α)} {i t : Nat} {l : List α} (hl : ls[i]? = some l) (ht : t < l.length) :
    ls.flatten[((ls.map List.length).take i).sum + t]? = l[t]? := by
  induction ls generalizing i with
  | nil => cases hl
  | cons l' ls ih =>
    cases i with
    | zero =>
      obtain rfl := Option.some.inj hl
      simp [List.getElem?_append_left ht]
    | succ i =>
      rw [List.flatten_cons, List.map_cons, List.take_succ_cons, List.sum_cons, Nat.add_assoc,
        List.getElem?_append_right (Nat.le_add_right _ _), Nat.add_sub_cancel_left]
      exact ih hl

/-- A position below a sum lies in one of the summands. -/
theorem exists_take_sum {extents : List Nat} {c : Nat} (h : c < extents.sum) :
    ∃ i e c', extents[i]? = some e ∧ c' < e ∧ (extents.take i).sum + c' = c := by
  induction extents generalizing c with
  | nil => cases h
  | cons e extents ih =>
    by_cases hc : c < e
    · exact ⟨0, e, c, rfl, hc, by simp⟩
    · rw [List.sum_cons] at h
      obtain ⟨i, e', c', hi, hc', hsum⟩ := ih (c := c - e) (by omega)
      exact ⟨i + 1, e', c', hi, hc', by rw [List.take_succ_cons, List.sum_cons]; omega⟩

theorem take_sum_add_le (extents : List Nat) {i e : Nat} (h : extents[i]? = some e) :
    (extents.take i).sum + e ≤ extents.sum := by
  obtain ⟨hi, rfl⟩ := List.getElem?_eq_some_iff.1 h
  rw [← List.sum_take_succ]
  exact (List.take_sublist _ _).sum_le_sum fun _ _ => Nat.zero_le _

/-! ## Results -/

/-- The extent of a tensor along an axis. -/
def extent (axis : Nat) (x : Tensor α) : Nat :=
  x.dims.getD axis 0

/-- The elements of a slab of `length` elements. -/
def piece (x : Tensor α) (block length : Nat) : List α :=
  (x.data.extract (block * length) ((block + 1) * length)).toList

section Slabs

variable {before after : List Nat} {x : Tensor α} (hx : x.dims = before ++ x.extent before.length :: after) {block : Nat}
  (hb : block < size before)

include hx hb

theorem slab_le : (block + 1) * (x.extent before.length * size after) ≤ x.data.size := by
  rw [x.size_eq, hx, size_append, size_cons]
  exact Nat.mul_le_mul_right _ hb

theorem slab_eq_ok : x.slab before.length block = .ok (x.piece block (x.extent before.length * size after)) := by
  -- There are blocks, so the extents in front are not zero and those of a slab can be counted if all can.
  have hchunk : size? (x.dims.drop before.length) = some (x.extent before.length * size after) := by
    rw [size?_eq_some, hx, List.drop_left, size_cons]
    refine ⟨fun k => ?_, rfl⟩
    have hcount := (size?_eq_some.1 x.counted).1 (before.length + k)
    rw [hx, List.take_length_add_append, size_append] at hcount
    exact (Nat.le_mul_of_pos_left _ (Nat.zero_lt_of_lt hb)).trans_lt hcount
  rw [slab, hchunk]
  exact if_pos (slab_le hx hb)

theorem length_piece : (x.piece block (x.extent before.length * size after)).length =
    x.extent before.length * size after := by
  have := slab_le hx hb
  rw [Nat.succ_mul] at this
  rw [piece, Array.length_toList, Array.size_extract, Nat.succ_mul]
  omega

omit hx hb in
theorem getElem?_piece {length t : Nat} (ht : t < length) : (x.piece block length)[t]? = x.data[block * length + t]? := by
  rw [piece, Array.getElem?_toList, Array.getElem?_extract, Nat.succ_mul]
  split
  · rfl
  · exact (Array.getElem?_eq_none (by omega)).symm

end Slabs

theorem concatExtent_eq_ok {r axis total n : Nat} {xs : List (Tensor α)} (htotal : total < 2 ^ 64) :
    concatExtent r axis total xs = .ok n ↔ (∀ x ∈ xs, x.rank = r) ∧ total + (xs.map (extent axis)).sum < 2 ^ 64 ∧
      total + (xs.map (extent axis)).sum = n := by
  induction xs generalizing total with
  | nil => simpa [concatExtent] using fun _ => htotal
  | cons x xs ih =>
    rw [concatExtent, List.forall_mem_cons, List.map_cons, List.sum_cons, ← Nat.add_assoc]
    by_cases hr : x.rank = r
    · rw [if_neg (not_not.2 hr), bind_eq_ok]
      simp only [Eval.size_eq_ok, Word.add?, Word.size?_eq_some]
      constructor
      · rintro ⟨_, ⟨hlt, rfl⟩, h⟩
        obtain ⟨hrs, h⟩ := (ih hlt).1 h
        exact ⟨⟨hr, hrs⟩, h⟩
      · rintro ⟨⟨_, hrs⟩, hsum, h⟩
        have hlt : total + x.extent axis < 2 ^ 64 := by omega
        exact ⟨_, ⟨hlt, rfl⟩, (ih hlt).2 ⟨hrs, hsum, h⟩⟩
    · rw [if_pos hr]
      simp [hr]

section Rows

variable {before after : List Nat} {xs : List (Tensor α)}

/-- The slabs of one block, one after another. -/
def row (axis inner : Nat) (xs : List (Tensor α)) (block : Nat) : List α :=
  (xs.map fun x => x.piece block (x.extent axis * inner)).flatten

variable (hxs : ∀ x ∈ xs, x.dims = before ++ x.extent before.length :: after)

include hxs

theorem map_length_piece {block : Nat} (hb : block < size before) :
    (xs.map fun x => x.piece block (x.extent before.length * size after)).map List.length =
      (xs.map (extent before.length)).map (· * size after) := by
  rw [List.map_map, List.map_map]
  exact List.map_congr_left fun x hx => length_piece (hxs x hx) hb

theorem length_row {block : Nat} (hb : block < size before) :
    (row before.length (size after) xs block).length = (xs.map (extent before.length)).sum * size after := by
  rw [row, List.length_flatten, map_length_piece hxs hb, List.sum_map_mul_right, List.map_id']

theorem concat_eq_ok_rows {first y : Tensor α} (hfirst : xs.head? = some first) : concat xs before.length = .ok y ↔
    ((xs.map (extent before.length)).sum < 2 ^ 64 ∧ size y.dims * 4 < 2 ^ 63) ∧
      y.dims = before ++ (xs.map (extent before.length)).sum :: after ∧
      y.data = ((range (size before)).map (row before.length (size after) xs)).flatten.toArray := by
  obtain ⟨rest, rfl⟩ := List.head?_eq_some_iff.1 hfirst
  have hrank : ∀ x ∈ first :: rest, x.rank = first.rank := fun x hx => by
    rw [rank, rank, hxs x hx, hxs first List.mem_cons_self]
    simp
  have h₀ := hxs first List.mem_cons_self
  have hslabs : ((range (size before)).mapM fun block => (first :: rest).mapM (·.slab before.length block)) =
      .ok ((range (size before)).map fun block =>
        (first :: rest).map fun x => x.piece block (x.extent before.length * size after)) :=
    mapM_eq_ok_map fun block hb => mapM_eq_ok_map fun x hx => slab_eq_ok (hxs x hx) (List.mem_range.1 hb)
  have hblocks : Eval.size (size? (first.dims.take before.length)) = .ok (size before) := by
    rw [Eval.size_eq_ok, size?_take first.counted, h₀, List.take_left]
  have hset : ∀ e, first.dims.set before.length e = before ++ e :: after := fun e => by rw [h₀]; simp
  have hlt : ¬first.rank ≤ before.length := by
    rw [rank, h₀]
    simp
  have hdata : ((range (size before)).map fun block => (first :: rest).map fun x =>
      x.piece block (x.extent before.length * size after)).flatten.flatten =
      ((range (size before)).map (row before.length (size after) (first :: rest))).flatten := by
    rw [List.flatten_flatten, List.map_map]
    rfl
  rw [concat, if_neg hlt, hblocks]
  simp only [bind_eq_ok, concatExtent_eq_ok (show 0 < 2 ^ 64 by norm_num), Nat.zero_add, hset, hslabs, reserve_eq_ok,
    make_eq_ok, Except.ok.injEq, exists_eq_left', hdata]
  constructor
  · rintro ⟨_, ⟨_, hsum, rfl⟩, count, ⟨hcount, hroom⟩, hdims, hdata⟩
    rw [hdims, (size?_eq_some.1 hcount).2]
    exact ⟨⟨hsum, hroom⟩, rfl, hdata⟩
  · rintro ⟨⟨hsum, hroom⟩, hdims, hdata⟩
    refine ⟨_, ⟨hrank, hsum, rfl⟩, size y.dims, ⟨?_, hroom⟩, hdims, hdata⟩
    rw [← hdims, y.counted, y.size_eq]

theorem map_length_row : ((range (size before)).map (row before.length (size after) xs)).map List.length =
    List.replicate (size before) ((xs.map (extent before.length)).sum * size after) := by
  rw [List.map_map, List.eq_replicate_iff]
  refine ⟨by simp, fun l hl => ?_⟩
  obtain ⟨b, hb, rfl⟩ := List.mem_map.1 hl
  exact length_row hxs (List.mem_range.1 hb)

theorem getElem?_flatten_rows {block t : Nat} (hb : block < size before)
    (ht : t < (xs.map (extent before.length)).sum * size after) :
    ((range (size before)).map (row before.length (size after) xs)).flatten[
      block * ((xs.map (extent before.length)).sum * size after) + t]? =
        (row before.length (size after) xs block)[t]? := by
  have hplace : block * ((xs.map (extent before.length)).sum * size after) =
      ((((range (size before)).map (row before.length (size after) xs)).map List.length).take block).sum := by
    rw [map_length_row hxs, List.take_replicate, List.sum_replicate, Nat.min_eq_left hb.le, smul_eq_mul]
  rw [hplace, getElem?_flatten (by rw [List.getElem?_map, List.getElem?_range hb]; rfl)]
  rwa [length_row hxs hb]

/-- The element of the rows at a place of an operand. -/
theorem getElem?_rows {i : Nat} {x : Tensor α} (hi : xs[i]? = some x) {cs : List Nat} (hcs : InBounds x.dims cs) :
    ((range (size before)).map (row before.length (size after) xs)).flatten[
      offset (cs.set before.length (((xs.map (extent before.length)).take i).sum + cs.getD before.length 0))
        (strides (before ++ (xs.map (extent before.length)).sum :: after))]? = x.at? cs := by
  have hx := hxs x (List.mem_of_getElem? hi)
  rw [hx] at hcs
  obtain ⟨cs₁, c, cs₂, rfl, h₁, hc, h₂⟩ := inBounds_append_cons.1 hcs
  have hlen := h₁.length_eq
  have hb := offset_lt h₁
  have hset : ∀ c', (cs₁ ++ c :: cs₂).set before.length c' = cs₁ ++ c' :: cs₂ := fun c' => by simp [← hlen]
  have hget : (cs₁ ++ c :: cs₂).getD before.length 0 = c := by simp [← hlen]
  have hE : ((xs.map (extent before.length)).take i).sum + c < (xs.map (extent before.length)).sum := by
    have := take_sum_add_le (xs.map (extent before.length)) (i := i) (by rw [List.getElem?_map, hi]; rfl)
    omega
  have hin := offset_lt (List.Forall₂.cons hE h₂)
  have hin' := offset_lt (List.Forall₂.cons hc h₂)
  rw [hset, hget, at?, hx, offset_append hlen, offset_append hlen]
  rw [strides_cons, offset_cons, size_cons] at hin hin'
  simp only [strides_cons, offset_cons, size_cons]
  rw [getElem?_flatten_rows hxs hb hin, row, Nat.add_mul, Nat.add_assoc]
  have hplace : ((xs.map (extent before.length)).take i).sum * size after =
      (((xs.map fun x => x.piece (offset cs₁ (strides before)) (x.extent before.length * size after)).map
        List.length).take i).sum := by
    rw [map_length_piece hxs hb, ← List.map_take (f := (· * size after)), List.sum_map_mul_right, List.map_id']
  rw [hplace, getElem?_flatten (by rw [List.getElem?_map, hi]; rfl) (by rw [length_piece hx hb]; exact hin'),
    getElem?_piece hin']

theorem length_rows : ((range (size before)).map (row before.length (size after) xs)).flatten.length =
    size (before ++ (xs.map (extent before.length)).sum :: after) := by
  rw [List.length_flatten, map_length_row hxs, List.sum_replicate, smul_eq_mul, size_append, size_cons]

/-- Every element of a concatenation belongs to an operand. -/
theorem exists_operand {cs : List Nat} (hcs : InBounds (before ++ (xs.map (extent before.length)).sum :: after) cs) :
    ∃ i x cs', xs[i]? = some x ∧ InBounds x.dims cs' ∧
      cs'.set before.length (((xs.map (extent before.length)).take i).sum + cs'.getD before.length 0) = cs := by
  obtain ⟨cs₁, c, cs₂, rfl, h₁, hc, h₂⟩ := inBounds_append_cons.1 hcs
  obtain ⟨i, e, c', hi, hc', rfl⟩ := exists_take_sum hc
  rw [List.getElem?_map, Option.map_eq_some_iff] at hi
  obtain ⟨x, hi, rfl⟩ := hi
  refine ⟨i, x, cs₁ ++ c' :: cs₂, hi, ?_, ?_⟩
  · rw [hxs x (List.mem_of_getElem? hi)]
    exact inBounds_append_cons.2 ⟨_, _, _, rfl, h₁, hc', h₂⟩
  · simp [← h₁.length_eq]

end Rows

theorem exists_concat {dims : List Nat} {axis n : Nat} {xs : List (Tensor α)} (ha : axis < dims.length) (hne : xs ≠ [])
    (hxs : ∀ x ∈ xs, x.dims = dims.set axis (x.extent axis)) (hsum : (xs.map (extent axis)).sum < 2 ^ 64)
    (hcount : size? (dims.set axis (xs.map (extent axis)).sum) = some n) (hroom : n * 4 < 2 ^ 63) :
    ∃ y, concat xs axis = .ok y := by
  obtain ⟨before, d, after, rfl, rfl⟩ : ∃ before d after, dims = before ++ d :: after ∧ before.length = axis :=
    ⟨dims.take axis, dims[axis], dims.drop (axis + 1), by simp, by simp [ha.le]⟩
  obtain ⟨first, hfirst⟩ := Option.isSome_iff_exists.1 (List.isSome_head?.2 hne)
  have hset : ∀ e, (before ++ d :: after).set before.length e = before ++ e :: after := fun e => by simp
  simp only [hset] at hxs hcount
  have hsize := (size?_eq_some.1 hcount).2
  have hmade : size? (before ++ (xs.map (extent before.length)).sum :: after) =
      some ((range (size before)).map (row before.length (size after) xs)).flatten.toArray.size := by
    rw [List.size_toArray, length_rows hxs, hcount, hsize]
  obtain ⟨y, hy, hdims⟩ := exists_make hmade
  refine ⟨y, (concat_eq_ok_rows hxs hfirst).2 ⟨⟨hsum, ?_⟩, make_eq_ok.1 hy⟩⟩
  rwa [hdims, hsize]

/-- What a concatenation computes: every operand stands behind the ones in front of it. -/
theorem concat_eq_ok {dims : List Nat} {axis : Nat} {xs : List (Tensor α)} {y : Tensor α} (ha : axis < dims.length)
    (hne : xs ≠ []) (hxs : ∀ x ∈ xs, x.dims = dims.set axis (x.extent axis)) :
    concat xs axis = .ok y ↔ ((xs.map (extent axis)).sum < 2 ^ 64 ∧ size y.dims * 4 < 2 ^ 63) ∧
      y.dims = dims.set axis (xs.map (extent axis)).sum ∧ ∀ i x, xs[i]? = some x → ∀ cs, InBounds x.dims cs →
        y.at? (cs.set axis (((xs.map (extent axis)).take i).sum + cs.getD axis 0)) = x.at? cs := by
  obtain ⟨before, d, after, rfl, rfl⟩ : ∃ before d after, dims = before ++ d :: after ∧ before.length = axis :=
    ⟨dims.take axis, dims[axis], dims.drop (axis + 1), by simp, by simp [ha.le]⟩
  obtain ⟨first, hfirst⟩ := Option.isSome_iff_exists.1 (List.isSome_head?.2 hne)
  have hset : ∀ e, (before ++ d :: after).set before.length e = before ++ e :: after := fun e => by simp
  simp only [hset] at hxs ⊢
  rw [concat_eq_ok_rows hxs hfirst]
  refine and_congr_right fun _ => and_congr_right fun hd => ?_
  constructor
  · intro hdata i x hi cs hcs
    rw [at?, hd, hdata, List.getElem?_toArray]
    exact getElem?_rows hxs hi hcs
  · intro h
    apply Array.ext_getElem?
    intro pos
    by_cases hpos : pos < size (before ++ (xs.map (extent before.length)).sum :: after)
    · obtain ⟨cs, hcs, rfl⟩ := exists_offset hpos
      obtain ⟨i, x, cs', hi, hcs', rfl⟩ := exists_operand hxs hcs
      have hy := h i x hi cs' hcs'
      rw [at?, hd] at hy
      rw [hy, List.getElem?_toArray, getElem?_rows hxs hi hcs']
    · rw [Array.getElem?_eq_none (by rw [y.size_eq, hd]; omega),
        Array.getElem?_eq_none (by rw [List.size_toArray, length_rows hxs]; omega)]

/-- The operands of a concatenation that has a type agree on all other extents. -/
theorem exists_joins {axis : Nat} {xs : List (Tensor α)} {types : List TensorType} {t : TensorType}
    (htypes : List.Forall₂ (fun x u => u.dims = x.dims.map .fixed) xs types)
    (ht : Typing.resultType (.concat axis) types = .ok t) :
    ∃ dims : List Nat, axis < dims.length ∧ xs ≠ [] ∧ (∀ x ∈ xs, x.dims = dims.set axis (x.extent axis)) ∧
      (xs.map (extent axis)).sum < 2 ^ 64 ∧ t.dims = (dims.set axis (xs.map (extent axis)).sum).map .fixed := by
  obtain ⟨u₀, us, extents, rfl, haxis, hall, hsum, rfl⟩ := Typing.concat_eq_ok.1 ht
  obtain ⟨x₀, xs', h₀, hrest, rfl⟩ := List.forall₂_cons_right_iff.1 htypes
  have key : ∀ {xs : List (Tensor α)} {us : List TensorType} {extents : List Nat},
      List.Forall₂ (fun x u => u.dims = x.dims.map .fixed) xs us → List.Forall₂ (Typing.Joins axis u₀) us extents →
      xs.map (extent axis) = extents ∧ ∀ x ∈ xs, x.dims = x₀.dims.set axis (x.extent axis) := by
    intro xs us extents hxu
    induction hxu generalizing extents with
    | nil =>
      rintro ⟨⟩
      exact ⟨rfl, fun x hx => (by cases hx)⟩
    | cons hu _ ih =>
      rintro (_ | ⟨hj, hjs⟩)
      obtain ⟨he, hd⟩ := hj.dims_eq haxis h₀ hu
      obtain ⟨hes, hds⟩ := ih hjs
      refine ⟨by rw [List.map_cons, hes, extent, he], List.forall_mem_cons.2 ⟨?_, hds⟩⟩
      rw [extent, he]
      exact hd
  obtain ⟨hextents, hxs⟩ := key htypes hall
  refine ⟨x₀.dims, ?_, List.cons_ne_nil _ _, hxs, hextents ▸ hsum, ?_⟩
  · rwa [TensorType.rank, h₀, List.length_map] at haxis
  · rw [hextents, List.map_set, ← h₀]

/-- The type of a concatenation has the extents of its result. -/
theorem concat_extents {axis : Nat} {xs : List (Tensor α)} {y : Tensor α} {types : List TensorType} {t : TensorType}
    (htypes : List.Forall₂ (fun x u => u.dims = x.dims.map .fixed) xs types)
    (ht : Typing.resultType (.concat axis) types = .ok t) (hy : concat xs axis = .ok y) :
    t.dims = y.dims.map .fixed := by
  obtain ⟨dims, ha, hne, hxs, _, hd⟩ := exists_joins htypes ht
  rw [hd, ((concat_eq_ok ha hne hxs).1 hy).2.1]

/-- Transposed operands one after another. -/
theorem concat_transposed {dims p : List Nat} {axis : Nat} {xs zs : List (Tensor α)} {y : Tensor α}
    (hp : p.Perm (range dims.length)) (ha : axis < dims.length)
    (hxs : ∀ x ∈ xs, x.dims = (selectD dims p 0).set axis (x.extent axis))
    (hx : List.Forall₂ (fun z x => p.Perm (range z.rank) ∧ IsTranspose p z x) zs xs) (h : concat xs axis = .ok y)
    (hword : WordSized y.dims) : ∃ y', concat zs (p.getD axis 0) = .ok y' ∧ p.Perm (range y'.rank) ∧ IsTranspose p y' y := by
  have hlen := length_of_perm hp
  have ha' : p.getD axis 0 < dims.length := getD_mem_of_perm hp ha
  have hne : xs ≠ [] := by
    rintro rfl
    cases h
  have hextent : ∀ {z x : Tensor α}, p.Perm (range z.rank) → IsTranspose p z x →
      z.extent (p.getD axis 0) = x.extent axis := fun hpz hzx =>
    (hzx.getD_dims hpz (length_of_perm hpz ▸ hlen.symm ▸ ha)).symm
  have hextents : zs.map (extent (p.getD axis 0)) = xs.map (extent axis) := by
    rw [← List.forall₂_eq_eq_eq, List.forall₂_map_left_iff, List.forall₂_map_right_iff]
    exact hx.imp fun _ _ ⟨hpz, hzx⟩ => hextent hpz hzx
  have hzs : ∀ z ∈ zs, z.dims = dims.set (p.getD axis 0) (z.extent (p.getD axis 0)) := fun z hz => by
    obtain ⟨i, hi⟩ := List.mem_iff_getElem?.1 hz
    obtain ⟨x, hxi, hpz, hzx⟩ := exists_getElem?_of_forall₂ hx hi
    refine selectD_inj hpz rfl (by rw [List.length_set, ← hlen, length_of_perm hpz]) 0 ?_
    rw [← hzx.1, hxs x (List.mem_of_getElem? hxi), hextent hpz hzx, selectD_set hp rfl ha]
  obtain ⟨⟨hsum, hroom⟩, hd, helems⟩ := (concat_eq_ok (by simpa [hlen] using ha) hne hxs).1 h
  rw [← selectD_set hp rfl ha] at hd
  have hset : p.Perm (range (dims.set (p.getD axis 0) (xs.map (extent axis)).sum).length) := by rwa [List.length_set]
  have hword' : WordSized (dims.set (p.getD axis 0) (xs.map (extent axis)).sum) :=
    (hd ▸ hword).perm (selectD_perm hset rfl 0).symm
  obtain ⟨y', hd', hy'⟩ := exists_isTranspose hset hd hword'
  have hp' : p.Perm (range y'.rank) := by rwa [rank, hd', List.length_set]
  rw [size_perm (hy'.perm_dims hp')] at hroom
  refine ⟨y', (concat_eq_ok ha' ?_ hzs).2 ⟨⟨hextents ▸ hsum, hroom⟩, hextents ▸ hd', fun i z hz cs hcs => ?_⟩, hp', hy'⟩
  · rintro rfl
    exact hne (List.forall₂_nil_left_iff.1 hx)
  · obtain ⟨x, hxi, hpz, hzx⟩ := exists_getElem?_of_forall₂ hx hz
    have hz' := hzs z (List.mem_of_getElem? hz)
    have hx' := helems i x hxi (selectD cs p 0) (hzx.inBounds hpz hcs)
    have hlt : ((xs.map (extent axis)).take i).sum + cs.getD (p.getD axis 0) 0 < (xs.map (extent axis)).sum := by
      have hsum := take_sum_add_le (xs.map (extent axis)) (i := i) (by rw [List.getElem?_map, hxi]; rfl)
      have hc := hcs.getD_lt (i := p.getD axis 0) (by rw [hz', List.length_set]; exact ha')
      rw [← hextent hpz hzx, extent] at hsum
      omega
    have hin : InBounds y'.dims
        (cs.set (p.getD axis 0) (((xs.map (extent axis)).take i).sum + cs.getD (p.getD axis 0) 0)) := by
      have := hcs.set (p.getD axis 0) hlt
      rwa [hz', List.set_set, ← hd'] at this
    rw [← hzx.2 cs hcs, ← hx', getD_selectD (hlen ▸ ha), hextents,
      ← selectD_set hp (by rw [hcs.length_eq, hz', List.length_set]) ha]
    exact (hy'.2 _ hin).symm

end Tensor

end Relayout
