import Mathlib
import Relayout.Proofs.Permutation
import Relayout.RowMajor

/-!
# Coordinates and positions

In row-major storage the positions below `size dims` and the coordinates that are `InBounds` are the same thing:
`offset` along the strides leads from coordinates to a position (`offset_lt`) and `coords` leads back
(`coords_offset`, `offset_coords`). A transpose rearranges coordinates along its permutation, so it reads, for the
coordinates `selectD cs perm 0` of the result, the operand at `cs` (`source_offset`).
-/

namespace Relayout.RowMajor

open Perm
open List (range)

/-- Coordinates of an element: one for each axis, below its extent. -/
def InBounds (dims cs : List Nat) : Prop :=
  List.Forall₂ (· < ·) cs dims

theorem InBounds.length_eq {dims cs : List Nat} (h : InBounds dims cs) : cs.length = dims.length :=
  List.Forall₂.length_eq h

theorem inBounds_iff {dims cs : List Nat} :
    InBounds dims cs ↔ cs.length = dims.length ∧ ∀ i, i < dims.length → cs.getD i 0 < dims.getD i 0 := by
  rw [InBounds, List.forall₂_iff_get]
  constructor
  · rintro ⟨hlen, h⟩
    refine ⟨hlen, fun i hi => ?_⟩
    have := h i (hlen ▸ hi) hi
    simpa [List.getD_eq_getElem?_getD, List.getElem?_eq_getElem hi, List.getElem?_eq_getElem (hlen ▸ hi)] using this
  · rintro ⟨hlen, h⟩
    refine ⟨hlen, fun i hc hi => ?_⟩
    have := h i hi
    simpa [List.getD_eq_getElem?_getD, List.getElem?_eq_getElem hi, List.getElem?_eq_getElem hc] using this

theorem InBounds.getD_lt {dims cs : List Nat} (h : InBounds dims cs) {i : Nat} (hi : i < dims.length) :
    cs.getD i 0 < dims.getD i 0 :=
  (inBounds_iff.1 h).2 i hi

/-! ## Sizes and strides -/

@[simp] theorem size_nil : size [] = 1 := rfl

@[simp] theorem size_cons (d : Nat) (dims : List Nat) : size (d :: dims) = d * size dims := rfl

@[simp] theorem strides_nil : strides [] = [] := rfl

@[simp] theorem strides_cons (d : Nat) (dims : List Nat) : strides (d :: dims) = size dims :: strides dims := rfl

@[simp] theorem coords_nil (i : Nat) : coords [] i = [] := rfl

@[simp] theorem coords_cons (d : Nat) (dims : List Nat) (i : Nat) :
    coords (d :: dims) i = i / size dims % d :: coords dims i := rfl

@[simp] theorem offset_nil_left (lengths : List Nat) : offset [] lengths = 0 := by
  simp [offset]

@[simp] theorem offset_cons (c l : Nat) (cs lengths : List Nat) :
    offset (c :: cs) (l :: lengths) = c * l + offset cs lengths := by
  simp [offset]

theorem size_eq_prod (dims : List Nat) : size dims = dims.prod := by
  induction dims with
  | nil => rfl
  | cons d dims ih => rw [size_cons, List.prod_cons, ih]

theorem size_append (dims dims' : List Nat) : size (dims ++ dims') = size dims * size dims' := by
  simp [size_eq_prod]

/-- Extents in another order hold as many elements. -/
theorem size_perm {dims dims' : List Nat} (h : dims.Perm dims') : size dims = size dims' := by
  rw [size_eq_prod, size_eq_prod, h.prod_eq]

theorem size_pos {dims : List Nat} (h : ∀ d ∈ dims, 0 < d) : 0 < size dims := by
  rw [size_eq_prod]
  exact List.prod_pos h

/-- A vector along one axis of many. -/
theorem size_set_replicate {n axis : Nat} (h : axis < n) (extent : Nat) :
    size ((List.replicate n 1).set axis extent) = extent := by
  induction n generalizing axis with
  | zero => cases h
  | succ n ih =>
    cases axis with
    | zero => simp [List.replicate_succ, size_eq_prod]
    | succ axis => simp [List.replicate_succ, ih (Nat.lt_of_succ_lt_succ h)]

@[simp] theorem length_strides (dims : List Nat) : (strides dims).length = dims.length := by
  induction dims with
  | nil => rfl
  | cons d dims ih => simp [ih]

@[simp] theorem length_coords (dims : List Nat) (i : Nat) : (coords dims i).length = dims.length := by
  induction dims with
  | nil => rfl
  | cons d dims ih => simp [ih]

/-! ## Coordinates and positions -/

theorem offset_lt {dims cs : List Nat} (h : InBounds dims cs) : offset cs (strides dims) < size dims := by
  induction h with
  | nil => simp
  | @cons c d cs dims hcd _ ih =>
    rw [strides_cons, offset_cons, size_cons]
    calc c * size dims + offset cs (strides dims) < c * size dims + size dims := by omega
      _ = (c + 1) * size dims := by ring
      _ ≤ d * size dims := Nat.mul_le_mul_right _ hcd

/-- Whole turns of an axis in front are invisible. -/
theorem coords_add_mul (dims : List Nat) (i k : Nat) : coords dims (k * size dims + i) = coords dims i := by
  induction dims generalizing k with
  | nil => rfl
  | cons d dims ih =>
    have hsplit : k * size (d :: dims) + i = (k * d) * size dims + i := by rw [size_cons]; ring
    rw [coords_cons, coords_cons, hsplit, ih]
    congr 1
    rcases Nat.eq_zero_or_pos (size dims) with h0 | hpos
    · simp [h0]
    · rw [Nat.add_comm, Nat.add_mul_div_right _ _ hpos, Nat.add_mul_mod_self_right]

theorem coords_offset {dims cs : List Nat} (h : InBounds dims cs) : coords dims (offset cs (strides dims)) = cs := by
  induction h with
  | nil => rfl
  | @cons c d cs dims hcd hrest ih =>
    have hlt : offset cs (strides dims) < size dims := offset_lt hrest
    rw [strides_cons, offset_cons, coords_cons, coords_add_mul, ih]
    congr 1
    rw [Nat.add_comm, Nat.add_mul_div_right _ _ (by omega), Nat.div_eq_of_lt hlt, Nat.zero_add, Nat.mod_eq_of_lt hcd]

theorem offset_coords_mod (dims : List Nat) (i : Nat) : offset (coords dims i) (strides dims) = i % size dims := by
  induction dims with
  | nil => simp [Nat.mod_one]
  | cons d dims ih =>
    rw [strides_cons, coords_cons, offset_cons, ih, size_cons, Nat.mul_comm d, Nat.mod_mul]
    ring

theorem offset_coords {dims : List Nat} {i : Nat} (h : i < size dims) : offset (coords dims i) (strides dims) = i := by
  rw [offset_coords_mod, Nat.mod_eq_of_lt h]

theorem coords_inBounds {dims : List Nat} {i : Nat} (h : i < size dims) : InBounds dims (coords dims i) := by
  have hpos : ∀ d ∈ dims, 0 < d := by
    intro d hd
    rcases Nat.eq_zero_or_pos d with rfl | hd'
    · rw [size_eq_prod, List.prod_eq_zero hd] at h; omega
    · exact hd'
  clear h
  induction dims with
  | nil => exact .nil
  | cons d dims ih =>
    exact .cons (Nat.mod_lt _ (hpos d List.mem_cons_self)) (ih fun e he => hpos e (List.mem_cons_of_mem _ he))

theorem offset_inj {dims cs cs' : List Nat} (h : InBounds dims cs) (h' : InBounds dims cs')
    (he : offset cs (strides dims) = offset cs' (strides dims)) : cs = cs' := by
  rw [← coords_offset h, he, coords_offset h']

/-- Every position is that of some coordinates. -/
theorem exists_offset {dims : List Nat} {i : Nat} (h : i < size dims) :
    ∃ cs, InBounds dims cs ∧ offset cs (strides dims) = i :=
  ⟨_, coords_inBounds h, offset_coords h⟩

/-! ## Offsets axis by axis -/

theorem offset_eq_sum {cs lengths : List Nat} {n : Nat} (hc : cs.length = n) (hl : lengths.length = n) :
    offset cs lengths = ((range n).map fun axis => cs.getD axis 0 * lengths.getD axis 0).sum := by
  rw [offset, ← List.sum_eq_foldr]
  congr 1
  apply List.ext_getElem?
  intro i
  by_cases hi : i < n
  · simp [List.getElem?_zipWith, List.getElem?_range hi, List.getD_eq_getElem?_getD,
      List.getElem?_eq_getElem (hc ▸ hi), List.getElem?_eq_getElem (hl ▸ hi)]
  · rw [List.getElem?_eq_none (by simp; omega), List.getElem?_eq_none (by simp; omega)]

/-- The order of the axes does not matter to an offset. -/
theorem offset_selectD {cs lengths p : List Nat} {n : Nat} (hp : p.Perm (range n)) (hc : cs.length = n)
    (hl : lengths.length = n) : offset (selectD cs p 0) (selectD lengths p 0) = offset cs lengths := by
  rw [offset_eq_sum hc hl, offset, ← List.sum_eq_foldr, selectD, selectD, List.zipWith_map, List.zipWith_self]
  exact (hp.map _).sum_eq

theorem inBounds_selectD {dims cs p : List Nat} (hp : ∀ axis ∈ p, axis < dims.length) (h : InBounds dims cs) :
    InBounds (selectD dims p 0) (selectD cs p 0) := by
  rw [InBounds, selectD, selectD, List.forall₂_map_left_iff, List.forall₂_map_right_iff, List.forall₂_same]
  exact fun axis ha => h.getD_lt (hp axis ha)

/-- Coordinates of a transposed tensor are rearranged coordinates of the operand. -/
theorem exists_selectD {dims cs p : List Nat} (hp : p.Perm (range dims.length)) (h : InBounds (selectD dims p 0) cs) :
    ∃ cs', InBounds dims cs' ∧ selectD cs' p 0 = cs := by
  have hlen : cs.length = dims.length := by rw [h.length_eq, length_selectD, length_of_perm hp]
  refine ⟨selectD cs (inverse p) 0, ?_, selectD_inverse_left hp hlen 0⟩
  have := inBounds_selectD (p := inverse p) (fun axis ha => ?_) h
  · rwa [selectD_inverse hp rfl] at this
  · rw [length_selectD, length_of_perm hp]
    exact (mem_of_perm (inverse_perm hp)).1 ha

/-- The element of a transposed tensor at rearranged coordinates stands at the coordinates in the operand. -/
theorem source_offset {dims cs p : List Nat} (hp : p.Perm (range dims.length)) (h : InBounds dims cs) :
    source dims p (offset (selectD cs p 0) (strides (selectD dims p 0))) = offset cs (strides dims) := by
  have hlt : ∀ axis ∈ p, axis < dims.length := fun axis => (mem_of_perm hp).1
  rw [source, coords_offset (inBounds_selectD hlt h), offset_selectD hp h.length_eq (length_strides dims)]

/-- A position among all elements is a position among the leading axes and one among the others. -/
theorem offset_append {dims cs : List Nat} (h : cs.length = dims.length) (dims' cs' : List Nat) :
    offset (cs ++ cs') (strides (dims ++ dims')) = offset cs (strides dims) * size dims' + offset cs' (strides dims') := by
  induction dims generalizing cs with
  | nil => simp [List.length_eq_zero_iff.1 h]
  | cons d dims ih =>
    obtain _ | ⟨c, cs⟩ := cs
    · cases h
    · simp only [List.cons_append, strides_cons, offset_cons, ih (Nat.succ.inj h), size_append]
      ring

theorem inBounds_append_cons {dims dims' cs : List Nat} {d : Nat} : InBounds (dims ++ d :: dims') cs ↔
    ∃ cs₁ c cs₂, cs = cs₁ ++ c :: cs₂ ∧ InBounds dims cs₁ ∧ c < d ∧ InBounds dims' cs₂ := by
  unfold InBounds
  constructor
  · intro h
    obtain ⟨h₁, h₂⟩ : _ ∧ _ := ⟨List.forall₂_take dims.length h, List.forall₂_drop dims.length h⟩
    rw [List.take_left] at h₁
    rw [List.drop_left] at h₂
    obtain ⟨c, cs₂, hc, h₂, he⟩ := List.forall₂_cons_right_iff.1 h₂
    exact ⟨_, c, cs₂, by rw [← he, List.take_append_drop], h₁, hc, h₂⟩
  · rintro ⟨cs₁, c, cs₂, rfl, h₁, hc, h₂⟩
    exact List.rel_append h₁ (.cons hc h₂)

/-! ## One axis -/

theorem InBounds.set {dims cs : List Nat} (h : InBounds dims cs) (axis : Nat) {c d : Nat} (hc : c < d) :
    InBounds (dims.set axis d) (cs.set axis c) := by
  rw [inBounds_iff, List.length_set, List.length_set]
  refine ⟨h.length_eq, fun i hi => ?_⟩
  rw [getD_set (h.length_eq.symm ▸ hi), getD_set hi]
  split
  · exact hc
  · exact h.getD_lt hi

/-- A step along one axis. -/
theorem offset_set {cs : List Nat} {axis : Nat} (ha : axis < cs.length) (c : Nat) (lengths : List Nat) :
    offset (cs.set axis c) lengths = offset (cs.set axis 0) lengths + c * lengths.getD axis 0 := by
  induction cs generalizing axis lengths with
  | nil => cases ha
  | cons c' cs ih =>
    cases lengths with
    | nil => simp [offset]
    | cons l lengths =>
      cases axis with
      | zero => simp [Nat.add_comm]
      | succ axis => simp [ih (Nat.lt_of_succ_lt_succ ha), Nat.add_assoc]

theorem strides_pos {dims : List Nat} (h : ∀ d ∈ dims, 0 < d) {axis : Nat} (ha : axis < dims.length) :
    0 < (strides dims).getD axis 0 := by
  induction dims generalizing axis with
  | nil => cases ha
  | cons d dims ih =>
    have hdims : ∀ d ∈ dims, 0 < d := fun d hd => h d (List.mem_cons_of_mem _ hd)
    cases axis with
    | zero => simpa using size_pos hdims
    | succ axis => simpa using ih hdims (Nat.lt_of_succ_lt_succ ha)

end Relayout.RowMajor
