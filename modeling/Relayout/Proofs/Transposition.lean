import Relayout.Eval.Tensor
import Relayout.Proofs.Counting
import Relayout.Proofs.Results

/-!
# Transposes, element by element

`Tensor.at?` reads a tensor at coordinates; a tensor is its extents and what stands at coordinates in bounds
(`ext_at?`), and `tabulate` makes the tensor with given elements (`tabulate_eq_ok`).

`IsTranspose p x y` says that `y` has at the coordinates `selectD cs p 0` what `x` has at `cs`. This is what
`Tensor.transpose` computes if the strides fit (`transpose_eq_ok`). Every tensor of `WordSized` extents has a transpose and
is one (`exists_transpose`, `exists_untranspose`), and two transposes that cancel lead back to the start
(`IsTranspose.undo`).
-/

namespace Relayout

theorem Eval.size_eq_ok {n : Option Nat} {m : Nat} : Eval.size n = .ok m ↔ n = some m := by
  cases n <;> simp [Eval.size]

namespace Tensor

open Perm RowMajor
open List (range)

variable {α β : Type}

theorem size_eq (x : Tensor α) : x.data.size = size x.dims :=
  (size?_eq_some.1 x.counted).2.symm

theorem size_lt (x : Tensor α) : size x.dims < 2 ^ 64 := by
  simpa using (size?_eq_some.1 x.counted).1 x.dims.length

theorem wordSized_of_pos (x : Tensor α) (h : ∀ d ∈ x.dims, 0 < d) : WordSized x.dims :=
  RowMajor.wordSized_of_pos h x.size_lt

theorem checkStrides_eq_ok {dims : List Nat} {u : Unit} : checkStrides dims = .ok u ↔ stridesFit dims := by
  unfold checkStrides
  split <;> simp_all

theorem reserve_eq_ok {width count : Nat} {dims : List Nat} :
    reserve width dims = .ok count ↔ size? dims = some count ∧ count * width < 2 ^ 63 := by
  have hroom (n : Nat) : Word.isAddressable n ↔ n < 2 ^ 63 := decide_eq_true_iff
  rw [reserve, bind_eq_ok]
  simp only [Eval.size_eq_ok, hroom]
  constructor
  · rintro ⟨n, hn, h⟩
    split at h
    · rename_i hlt
      cases h
      exact ⟨hn, hlt⟩
    · cases h
  · rintro ⟨hn, hlt⟩
    exact ⟨count, hn, if_pos hlt⟩

/-- The element at coordinates. -/
def at? (x : Tensor α) (cs : List Nat) : Option α :=
  x.data[offset cs (strides x.dims)]?

theorem exists_at? (x : Tensor α) {cs : List Nat} (h : InBounds x.dims cs) : ∃ a, x.at? cs = some a := by
  have hlt := offset_lt h
  rw [← x.size_eq] at hlt
  exact ⟨_, Array.getElem?_eq_getElem hlt⟩

theorem ext_at? {x y : Tensor α} (hd : x.dims = y.dims) (h : ∀ cs, InBounds x.dims cs → x.at? cs = y.at? cs) :
    x = y := by
  have hx := x.size_eq
  have hy := y.size_eq
  obtain ⟨dims, data, _⟩ := x
  obtain ⟨dims', data', _⟩ := y
  simp only at hd hx hy
  subst hd
  congr
  apply Array.ext_getElem?
  intro i
  by_cases hi : i < size dims
  · obtain ⟨cs, hcs, rfl⟩ := exists_offset hi
    exact h cs hcs
  · rw [Array.getElem?_eq_none (by omega), Array.getElem?_eq_none (by omega)]

theorem get_eq_ok {x : Tensor α} {i : Nat} {a : α} : x.get i = .ok a ↔ x.data[i]? = some a := by
  unfold get
  cases x.data[i]? <;> simp

theorem get_offset {x : Tensor α} {cs : List Nat} {a : α} :
    x.get (offset cs (strides x.dims)) = .ok a ↔ x.at? cs = some a :=
  get_eq_ok

@[simp] theorem dims_map (f : α → β) (x : Tensor α) : (x.map f).dims = x.dims := rfl

theorem at?_map (f : α → β) (x : Tensor α) (cs : List Nat) : (x.map f).at? cs = (x.at? cs).map f := by
  simp [at?, map]

theorem make_eq_ok {dims : List Nat} {data : Array α} {y : Tensor α} :
    make dims data = .ok y ↔ y.dims = dims ∧ y.data = data := by
  unfold make
  split
  · rename_i h
    constructor
    · rintro ⟨⟩; exact ⟨rfl, rfl⟩
    · obtain ⟨dims', data', _⟩ := y
      rintro ⟨rfl, rfl⟩; rfl
  · rename_i h
    constructor
    · intro hc
      split at hc <;> cases hc
    · rintro ⟨rfl, rfl⟩; exact absurd y.counted h

theorem exists_make {dims : List Nat} {data : Array α} (h : size? dims = some data.size) :
    ∃ y, make dims data = .ok y ∧ y.dims = dims :=
  ⟨⟨dims, data, h⟩, make_eq_ok.2 ⟨rfl, rfl⟩, rfl⟩

theorem make_of_uncounted {dims : List Nat} (h : size? dims = none) (data : Array α) :
    make dims data = .error (.crash .overflow) := by
  rw [make, dif_neg (by rw [h]; exact fun hc => nomatch hc), h]

/-- A tensor given by its elements. -/
theorem tabulate_eq_ok {dims : List Nat} {count : Nat} (hc : count = size dims) {f : Nat → Eval α} {y : Tensor α} :
    tabulate dims count f = .ok y ↔
      y.dims = dims ∧ ∀ cs, InBounds dims cs → ∃ a, f (offset cs (strides dims)) = .ok a ∧ y.at? cs = some a := by
  subst hc
  unfold tabulate
  rw [bind_eq_ok]
  constructor
  · rintro ⟨values, hv, hm⟩
    obtain ⟨hlen, hv⟩ := mapM_range_eq_ok.1 hv
    obtain ⟨hd, hdata⟩ := make_eq_ok.1 hm
    refine ⟨hd, fun cs hcs => ?_⟩
    have hlt : offset cs (strides dims) < values.length := hlen ▸ offset_lt hcs
    refine ⟨_, hv _ hlt, ?_⟩
    rw [at?, hd, hdata, List.getElem?_toArray, List.getElem?_eq_getElem hlt]
  · rintro ⟨hd, h⟩
    have hsize : y.data.size = size dims := by rw [y.size_eq, hd]
    refine ⟨y.data.toList, mapM_range_eq_ok.2 ⟨by simpa using hsize, fun i hi => ?_⟩, make_eq_ok.2 ⟨hd, by simp⟩⟩
    have hi' : i < size dims := by simpa [hsize] using hi
    obtain ⟨cs, hcs, rfl⟩ := exists_offset hi'
    obtain ⟨a, ha, hy⟩ := h cs hcs
    rw [at?, hd] at hy
    rw [ha]
    congr 1
    simpa [Array.getElem?_eq_some_iff, hsize, hi'] using hy.symm

theorem exists_tabulate {dims : List Nat} {count : Nat} (hc : size? dims = some count) {f : Nat → Eval α}
    (h : ∀ cs, InBounds dims cs → ∃ a, f (offset cs (strides dims)) = .ok a) : ∃ y, tabulate dims count f = .ok y := by
  have hall : ∀ i ∈ range count, ∃ a, f i = .ok a := by
    intro i hi
    rw [List.mem_range, ← (size?_eq_some.1 hc).2] at hi
    obtain ⟨cs, hcs, rfl⟩ := exists_offset hi
    exact h cs hcs
  obtain ⟨values, hv⟩ := exists_mapM hall
  have hlen := (mapM_range_eq_ok.1 hv).1
  refine ⟨⟨dims, values.toArray, by simp [hlen, hc]⟩, ?_⟩
  rw [tabulate, hv]
  exact make_eq_ok.2 ⟨rfl, rfl⟩

/-! ## Transposes -/

/-- `y` is `x` with its axes rearranged: axis `i` of `y` is axis `p[i]` of `x`. -/
def IsTranspose (p : List Nat) (x y : Tensor α) : Prop :=
  y.dims = selectD x.dims p 0 ∧ ∀ cs, InBounds x.dims cs → y.at? (selectD cs p 0) = x.at? cs

section

variable {p q : List Nat} {x x' y z : Tensor α}

theorem transpose_eq_ok (hp : p.Perm (range x.rank)) :
    x.transpose p = .ok y ↔ stridesFit x.dims ∧ IsTranspose p x y := by
  have hlt : ∀ axis ∈ p, axis < x.dims.length := fun axis => (mem_of_perm hp).1
  have hsize : x.data.size = size (selectD x.dims p 0) := by
    rw [x.size_eq, size_perm (selectD_perm hp rfl 0)]
  rw [transpose, if_neg (by rw [length_of_perm hp]; simp), select?_eq_some hlt 0]
  simp only
  rw [check_bind_eq_ok, checkStrides_eq_ok, tabulate_eq_ok hsize, IsTranspose]
  refine and_congr_right fun _ => and_congr_right fun hd => ⟨fun h cs hcs => ?_, fun h cs hcs => ?_⟩
  · obtain ⟨a, ha, hy⟩ := h _ (inBounds_selectD hlt hcs)
    rw [source_offset hp hcs, get_offset] at ha
    rw [hy, ha]
  · obtain ⟨cs, hcs', rfl⟩ := exists_selectD hp hcs
    obtain ⟨a, ha⟩ := x.exists_at? hcs'
    exact ⟨a, by rw [source_offset hp hcs', get_offset]; exact ha, by rw [h cs hcs', ha]⟩

theorem transpose_eq_ok_of_wordSized (hp : p.Perm (range x.rank)) (hword : WordSized x.dims) :
    x.transpose p = .ok y ↔ IsTranspose p x y := by
  rw [transpose_eq_ok hp, and_iff_right hword.stridesFit]

theorem rank_of_transpose (h : x.transpose p = .ok y) : x.rank = p.length := by
  unfold transpose at h
  split at h
  · cases h
  · omega

theorem IsTranspose.rank_eq (h : IsTranspose p x y) : y.rank = p.length := by
  rw [rank, h.1, length_selectD]

theorem IsTranspose.inBounds (hp : p.Perm (range x.rank)) (h : IsTranspose p x y) {cs : List Nat}
    (hcs : InBounds x.dims cs) : InBounds y.dims (selectD cs p 0) := by
  rw [h.1]
  exact inBounds_selectD (fun axis => (mem_of_perm hp).1) hcs

theorem IsTranspose.getD_dims (hp : p.Perm (range x.rank)) (h : IsTranspose p x y) {i : Nat} (hi : i < x.rank) :
    y.dims.getD i 0 = x.dims.getD (p.getD i 0) 0 := by
  rw [h.1, getD_selectD (by rw [length_of_perm hp]; exact hi)]

theorem exists_get_source (hp : p.Perm (range x.rank)) {cs : List Nat} (hcs : InBounds (selectD x.dims p 0) cs) :
    ∃ a, x.get (source x.dims p (offset cs (strides (selectD x.dims p 0)))) = .ok a := by
  obtain ⟨cs, hcs', rfl⟩ := exists_selectD hp hcs
  obtain ⟨a, ha⟩ := x.exists_at? hcs'
  exact ⟨a, by rw [source_offset hp hcs', get_offset]; exact ha⟩

/-- Rearranged extents that can be counted are those of a transpose. -/
theorem exists_transpose_of_counted (hp : p.Perm (range x.rank)) {n : Nat} (hcount : size? (selectD x.dims p 0) = some n) :
    ∃ y, IsTranspose p x y := by
  have hlt : ∀ axis ∈ p, axis < x.dims.length := fun axis => (mem_of_perm hp).1
  obtain ⟨y, hy⟩ := exists_tabulate (f := fun i => x.get (source x.dims p i)) hcount fun cs => exists_get_source hp
  obtain ⟨hd, hat⟩ := (tabulate_eq_ok (size?_eq_some.1 hcount).2.symm).1 hy
  refine ⟨y, hd, fun cs hcs => ?_⟩
  obtain ⟨a, ha, hya⟩ := hat _ (inBounds_selectD hlt hcs)
  rw [source_offset hp hcs, get_offset] at ha
  rw [hya, ha]

theorem exists_transpose (hp : p.Perm (range x.rank)) (hword : WordSized x.dims) : ∃ y, IsTranspose p x y :=
  exists_transpose_of_counted hp (hword.perm (selectD_perm hp rfl 0)).size?

/-- All that can go wrong with a transpose by a permutation is that a product of extents does not fit. -/
theorem transpose_ok_or_overflow (hp : p.Perm (range x.rank)) :
    (∃ y, x.transpose p = .ok y) ∨ x.transpose p = .error (.crash .overflow) := by
  by_cases hfit : stridesFit x.dims
  · cases hcount : size? (selectD x.dims p 0) with
    | some n =>
      obtain ⟨y, hy⟩ := exists_transpose_of_counted hp hcount
      exact .inl ⟨y, (transpose_eq_ok hp).2 ⟨hfit, hy⟩⟩
    | none =>
      have hlt : ∀ axis ∈ p, axis < x.dims.length := fun axis => (mem_of_perm hp).1
      have hall : ∀ i ∈ range x.data.size, ∃ a, x.get (source x.dims p i) = .ok a := fun i hi => by
        rw [List.mem_range, x.size_eq, ← size_perm (selectD_perm hp rfl 0)] at hi
        obtain ⟨cs, hcs, rfl⟩ := exists_offset hi
        exact exists_get_source hp hcs
      obtain ⟨values, hvalues⟩ := exists_mapM hall
      refine .inr ?_
      rw [transpose, if_neg (by rw [length_of_perm hp]; simp), select?_eq_some hlt 0]
      simp only [checkStrides, if_pos hfit, tabulate, hvalues]
      exact make_of_uncounted hcount _
  · refine .inr ?_
    rw [transpose, if_neg (by rw [length_of_perm hp]; simp),
      select?_eq_some (fun axis => (mem_of_perm hp).1) 0]
    simp only [checkStrides, if_neg hfit]
    rfl

theorem IsTranspose.inverse (hp : p.Perm (range x.rank)) (h : IsTranspose p x y) :
    IsTranspose (Perm.inverse p) y x := by
  refine ⟨by rw [h.1, selectD_inverse hp rfl], fun cs hcs => ?_⟩
  rw [h.1] at hcs
  obtain ⟨cs, hcs', rfl⟩ := exists_selectD hp hcs
  rw [selectD_inverse hp hcs'.length_eq, h.2 cs hcs']

theorem IsTranspose.perm_dims (hp : p.Perm (range x.rank)) (h : IsTranspose p x y) : y.dims.Perm x.dims := by
  rw [h.1]
  exact selectD_perm hp rfl 0

theorem IsTranspose.wordSized_iff (hp : p.Perm (range x.rank)) (h : IsTranspose p x y) : WordSized y.dims ↔ WordSized x.dims :=
  ⟨fun hy => hy.perm (h.perm_dims hp).symm, fun hx => hx.perm (h.perm_dims hp)⟩

theorem exists_untranspose_of_counted (hp : p.Perm (range y.rank)) {n : Nat}
    (hcount : size? (selectD y.dims (Perm.inverse p) 0) = some n) : ∃ x : Tensor α, x.rank = y.rank ∧ IsTranspose p x y := by
  have hinv := inverse_perm hp
  obtain ⟨x, hx⟩ := exists_transpose_of_counted (x := y) hinv hcount
  refine ⟨x, by rw [hx.rank_eq, length_inverse, length_of_perm hp], by rw [hx.1, selectD_inverse_left hp rfl], ?_⟩
  intro cs hcs
  rw [hx.1] at hcs
  obtain ⟨cs, hcs', rfl⟩ := exists_selectD hinv hcs
  rw [selectD_inverse_left hp hcs'.length_eq, hx.2 cs hcs']

theorem exists_untranspose (hp : p.Perm (range y.rank)) (hword : WordSized y.dims) :
    ∃ x : Tensor α, x.rank = y.rank ∧ IsTranspose p x y :=
  exists_untranspose_of_counted hp (hword.perm (selectD_perm (inverse_perm hp) rfl 0)).size?

/-- A tensor of rearranged extents is a transpose of one that has the extents. -/
theorem exists_isTranspose {dims : List Nat} (hp : p.Perm (range dims.length)) (hy : y.dims = selectD dims p 0)
    (hword : WordSized dims) : ∃ x : Tensor α, x.dims = dims ∧ IsTranspose p x y := by
  have hrank : y.rank = dims.length := by rw [rank, hy, length_selectD, length_of_perm hp]
  have hword' : WordSized y.dims := hy ▸ hword.perm (selectD_perm hp rfl 0)
  obtain ⟨x, hx, h⟩ := exists_untranspose (hrank.symm ▸ hp) hword'
  exact ⟨x, selectD_inj hp (hx.trans hrank) rfl 0 (h.1.symm.trans hy), h⟩

/-- A tensor has one transpose by a permutation. -/
theorem IsTranspose.right_unique (hp : p.Perm (range x.rank)) (h : IsTranspose p x y) (h' : IsTranspose p x z) :
    y = z := by
  refine ext_at? (by rw [h.1, h'.1]) fun cs hcs => ?_
  rw [h.1] at hcs
  obtain ⟨cs, hcs', rfl⟩ := exists_selectD hp hcs
  rw [h.2 cs hcs', h'.2 cs hcs']

/-- A tensor is transposed to the one transpose that it has, or a product of extents does not fit. -/
theorem IsTranspose.transpose_eq_or_overflow (hp : p.Perm (range x.rank)) (h : IsTranspose p x y) :
    x.transpose p = .ok y ∨ x.transpose p = .error (.crash .overflow) := by
  refine (transpose_ok_or_overflow hp).imp_left ?_
  rintro ⟨z, hz⟩
  rw [hz, ((transpose_eq_ok hp).1 hz).2.right_unique hp h]

/-- A transpose that leaves all axes in their places. -/
theorem IsTranspose.eq_of_range (hp : p.Perm (range x.rank)) (h : IsTranspose p x y) (hid : p = range p.length) :
    x = y := by
  rw [length_of_perm hp] at hid
  have hself : IsTranspose p x x := by
    rw [hid]
    exact ⟨(selectD_range rfl 0).symm, fun cs hcs => by rw [selectD_range (n := x.rank) hcs.length_eq]⟩
  exact hself.right_unique hp h

/-- A permutation that cancels another one leads back from its transposes. -/
theorem IsTranspose.undo (hp : p.Perm (range x.rank)) (hc : cancels p q) (h : IsTranspose p x y) : IsTranspose q y x := by
  have hlen : x.dims.length = p.length := (length_of_perm hp).symm
  refine ⟨by rw [h.1, selectD_cancels hc hlen], fun cs hcs => ?_⟩
  rw [h.1] at hcs
  obtain ⟨cs, hcs', rfl⟩ := exists_selectD hp hcs
  rw [selectD_cancels hc (hcs'.length_eq.trans hlen), h.2 cs hcs']

theorem IsTranspose.map (f : α → β) (h : IsTranspose p x y) : IsTranspose p (x.map f) (y.map f) := by
  refine ⟨h.1, fun cs hcs => ?_⟩
  rw [at?_map, at?_map, h.2 cs hcs]

end

end Tensor

end Relayout
