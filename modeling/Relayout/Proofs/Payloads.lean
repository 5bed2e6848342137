import Relayout.Eval.Run
import Relayout.Proofs.Absorption
import Relayout.Proofs.Broadcasting

/-!
# Payloads

A constant that an absorbing operation reads is brought into the layout of the untransposed data. Of full rank, it is
transposed back (`permuted_isTranspose`), and a vector is put along another axis with the same elements. Either way the
constant fits its payload, as a type (`broadcastConstant_fits`) and as a tensor (`ofLiteral_broadcastConstant`).

A constant is `Movable` if it has all its elements and its extents can be multiplied in any order. So are the payloads
that are made of it (`Payload.movable`), and no attempt to absorb breaks off at it (`answers_absorb`).
-/

namespace Relayout

open Perm
open List (range)

theorem TensorType.extents?_eq_some {t : TensorType} {dims : List Nat} :
    t.extents? = some dims ↔ t.dims = dims.map .fixed := by
  obtain ⟨elem, ds⟩ := t
  rw [extents?, mapM_eq_some]
  dsimp only
  constructor
  · intro h
    induction h with
    | nil => rfl
    | @cons d n ds ns hd _ ih =>
      cases d with
      | fixed extent => rw [ih, List.map_cons, Option.some.inj hd]
      | dynamic symbol => cases hd
  · intro h
    rw [h, List.forall₂_map_left_iff, List.forall₂_same]
    exact fun d _ => rfl

theorem ElemType.width_pos (elem : ElemType) : 0 < elem.width := by
  cases elem <;> decide

namespace Literal

variable {literal new : Literal} {p q : List Nat}

/-- The payload of a literal with its axes rearranged. -/
def permutedBytes (literal : Literal) (dims q : List Nat) : List UInt8 :=
  (range (RowMajor.size (selectD dims q 0))).flatMap fun i =>
    literal.elements.toArray.getD (RowMajor.source dims q i) []

theorem permuted_eq_ok : literal.permuted q = .ok new ↔ ∃ dims n, literal.type.extents? = some dims ∧
    q.Perm (range dims.length) ∧ (RowMajor.volume? dims = some n ∧ RowMajor.size? (selectD dims q 0) = some n ∧
      n * literal.type.elem.width ≤ literal.bytes.length) ∧
      new = ⟨.ofExtents literal.type.elem (selectD dims q 0), literal.permutedBytes dims q⟩ := by
  rw [permuted]
  constructor
  · intro h
    split at h
    · cases h
    · rename_i dims hdims
      split at h
      · rename_i hq
        have hperm : q.Perm (range dims.length) := hq.1 ▸ isPermutation_iff.1 hq.2
        dsimp only at h
        split at h
        · rename_i m n hm hn
          have hsize := (RowMajor.size?_eq_some.1 hn).2
          have hmn : m = n := by
            rw [← (RowMajor.volume?_eq_some.1 hm).2, ← hsize, RowMajor.size_perm (selectD_perm hperm rfl 0)]
          split at h
          · rename_i hle
            subst hmn
            refine ⟨dims, m, hdims, hperm, ⟨hm, hn, hle⟩, ?_⟩
            rw [permutedBytes, hsize]
            exact (Except.ok.inj h).symm
          · cases h
        · cases h
      · cases h
  · rintro ⟨dims, n, hdims, hq, ⟨hm, hn, hle⟩, rfl⟩
    have hcond : q.length = dims.length ∧ isPermutation q :=
      ⟨length_of_perm hq, isPermutation_iff.2 (length_of_perm hq ▸ hq)⟩
    rw [hdims]
    simp only [if_pos hcond, hm, hn, if_pos hle, permutedBytes, (RowMajor.size?_eq_some.1 hn).2]

/-- The constant is the transpose of its payload. -/
theorem permuted_isTranspose (hp : p.Perm (range literal.type.rank)) (h : literal.permuted (inverse p) = .ok new) :
    TensorType.IsTranspose p new.type literal.type := by
  obtain ⟨dims, _, hdims, hinv, _, rfl⟩ := permuted_eq_ok.1 h
  have heq := TensorType.extents?_eq_some.1 hdims
  have hnew : TensorType.ofExtents literal.type.elem (selectD dims (inverse p) 0) = literal.type.transposed (inverse p) := by
    rw [TensorType.ofExtents, TensorType.transposed, heq, ← selectD_map]
    refine congrArg (TensorType.mk _) (selectD_congr (fun axis ha => ?_) _ _)
    rw [List.length_map]
    exact (mem_of_perm hinv).1 ha
  rw [hnew]
  exact TensorType.isTranspose_untransposed hp

theorem reshaped_eq_ok {dims : List Nat} (h : literal.reshaped dims = .ok new) :
    new = ⟨.ofExtents literal.type.elem dims, literal.bytes⟩ := by
  rw [reshaped, make] at h
  split at h
  · cases h
  · split at h
    · exact (Except.ok.inj h).symm
    · cases h

/-! ## Elements -/

@[simp] theorem length_pieces (width n : Nat) (bytes : List UInt8) : (pieces width n bytes).length = n := by
  induction n generalizing bytes with
  | zero => rfl
  | succ n ih => rw [pieces, List.length_cons, ih]

theorem length_of_mem_pieces {width n : Nat} {bytes piece : List UInt8} (h : n * width ≤ bytes.length)
    (hp : piece ∈ pieces width n bytes) : piece.length = width := by
  induction n generalizing bytes with
  | zero => cases hp
  | succ n ih =>
    rw [Nat.succ_mul] at h
    obtain rfl | hp := List.mem_cons.1 hp
    · rw [List.length_take]
      omega
    · exact ih (by rw [List.length_drop]; omega) hp

/-- Pieces of one width, put together, are cut again at the same places. -/
theorem pieces_flatten {width : Nat} {ls : List (List UInt8)} (h : ∀ l ∈ ls, l.length = width) :
    pieces width ls.length ls.flatten = ls := by
  induction ls with
  | nil => rfl
  | cons l ls ih =>
    have hl := h l List.mem_cons_self
    rw [List.length_cons, List.flatten_cons, pieces, List.take_left' hl, List.drop_left' hl,
      ih fun l hl => h l (List.mem_cons_of_mem _ hl)]

theorem flatten_pieces (width n : Nat) (bytes : List UInt8) :
    (pieces width n bytes).flatten = bytes.take (n * width) := by
  induction n generalizing bytes with
  | zero => simp [pieces]
  | succ n ih => rw [pieces, List.flatten_cons, ih, ← List.take_add, Nat.succ_mul, Nat.add_comm]

theorem length_flatten {width : Nat} {ls : List (List UInt8)} (h : ∀ l ∈ ls, l.length = width) :
    ls.flatten.length = ls.length * width := by
  rw [List.length_flatten, List.sum_eq_card_nsmul _ _ (List.forall_mem_map.2 h), List.length_map, smul_eq_mul]

theorem length_of_mem_elements {bytes : List UInt8} (h : bytes ∈ literal.elements) :
    bytes.length = literal.type.elem.width :=
  length_of_mem_pieces (Nat.div_mul_le_self _ _) h

/-- The elements of a payload put together from elements. -/
theorem elements_eq {ls : List (List UInt8)} (h : ∀ l ∈ ls, l.length = new.type.elem.width)
    (hbytes : new.bytes = ls.flatten) : new.elements = ls := by
  have hlen : new.bytes.length / new.type.elem.width = ls.length := by
    rw [hbytes, length_flatten h, Nat.mul_div_cancel _ (ElemType.width_pos _)]
  rw [elements, hlen, hbytes, pieces_flatten h]

section Permuted

open RowMajor

variable {dims : List Nat}

theorem length_permuted_element (hq : q.Perm (range dims.length)) (hlen : size dims ≤ literal.elements.length) {i : Nat}
    (hi : i < size (selectD dims q 0)) :
    (literal.elements.toArray.getD (source dims q i) []).length = literal.type.elem.width := by
  obtain ⟨cs', hcs', rfl⟩ := exists_offset hi
  obtain ⟨cs, hcs, rfl⟩ := exists_selectD hq hcs'
  have hlt : offset cs (strides dims) < literal.elements.length := (offset_lt hcs).trans_le hlen
  rw [source_offset hq hcs, Array.getD_eq_getD_getElem?, List.getElem?_toArray, List.getElem?_eq_getElem hlt]
  exact length_of_mem_elements (List.getElem_mem hlt)

theorem length_permutedBytes (hq : q.Perm (range dims.length)) (hlen : size dims ≤ literal.elements.length) :
    (literal.permutedBytes dims q).length = size dims * literal.type.elem.width := by
  have hwidths : ∀ bytes ∈ (range (size (selectD dims q 0))).map fun i =>
      literal.elements.toArray.getD (source dims q i) [], bytes.length = literal.type.elem.width :=
    List.forall_mem_map.2 fun i hi => length_permuted_element hq hlen (List.mem_range.1 hi)
  rw [permutedBytes, List.flatMap_def, length_flatten hwidths, List.length_map, List.length_range,
    size_perm (selectD_perm hq rfl 0)]

/-- The elements of a transposed constant are those of the constant, in another order. -/
theorem elements_permuted (h : literal.permuted q = .ok new) (hdims : literal.type.extents? = some dims)
    (hlen : literal.elements.length = size dims) : new.elements = (range (size (selectD dims q 0))).map fun i =>
      literal.elements.toArray.getD (source dims q i) [] := by
  obtain ⟨dims', _, hdims', hq, _, rfl⟩ := permuted_eq_ok.1 h
  rw [hdims] at hdims'
  cases hdims'
  refine elements_eq (fun bytes hb => ?_) (by rw [permutedBytes, List.flatMap_def])
  obtain ⟨i, hi, rfl⟩ := List.mem_map.1 hb
  exact length_permuted_element hq hlen.ge (List.mem_range.1 hi)

theorem mem_elements_permuted (h : literal.permuted q = .ok new) (hdims : literal.type.extents? = some dims)
    (hlen : literal.elements.length = size dims) {bytes : List UInt8} (hb : bytes ∈ literal.elements) :
    bytes ∈ new.elements := by
  obtain ⟨dims', _, hdims', hq, _⟩ := permuted_eq_ok.1 h
  rw [hdims] at hdims'
  cases hdims'
  obtain ⟨j, hj⟩ := List.mem_iff_getElem?.1 hb
  obtain ⟨hlt, _⟩ := List.getElem?_eq_some_iff.1 hj
  obtain ⟨cs, hcs, rfl⟩ := exists_offset (hlen ▸ hlt)
  have hcs' : InBounds (selectD dims q 0) (selectD cs q 0) := inBounds_selectD (fun axis => (mem_of_perm hq).1) hcs
  rw [elements_permuted h hdims hlen]
  refine List.mem_map.2 ⟨_, List.mem_range.2 (offset_lt hcs'), ?_⟩
  rw [source_offset hq hcs, Array.getD_eq_getD_getElem?, List.getElem?_toArray, hj]
  rfl

end Permuted

/-! ## Sizes -/

instance (l : Literal) : Decidable l.Sized :=
  inferInstanceAs (Decidable (_ = _))

/-- A payload of the size of its type has one element for each position. -/
theorem Sized.exists_extents (h : literal.Sized) : ∃ dims : List Nat, literal.type.dims = dims.map .fixed ∧
    RowMajor.size? dims = some (RowMajor.size dims) ∧
    literal.bytes.length = RowMajor.size dims * literal.type.elem.width ∧
      literal.elements.length = RowMajor.size dims := by
  obtain ⟨n, hn, hbytes⟩ := Option.bind_eq_some_iff.1 h
  obtain ⟨dims, hdims, hcount⟩ := Option.bind_eq_some_iff.1 hn
  rw [Word.mul?, Word.size?_eq_some] at hbytes
  obtain rfl := (RowMajor.size?_eq_some.1 hcount).2
  refine ⟨dims, TensorType.extents?_eq_some.1 hdims, hcount, hbytes.2.symm, ?_⟩
  rw [elements, length_pieces, ← hbytes.2, Nat.mul_div_cancel _ (ElemType.width_pos _)]

theorem Sized.flatten_elements (h : literal.Sized) : literal.elements.flatten = literal.bytes := by
  obtain ⟨dims, _, _, hbytes, _⟩ := h.exists_extents
  rw [elements, flatten_pieces, Nat.div_mul_cancel ⟨RowMajor.size dims, by rw [hbytes, mul_comm]⟩, List.take_length]

end Literal

namespace Layout

variable {literal : Literal} {p : List Nat}

/-- How a constant operand of a broadcast operation is changed. -/
theorem broadcastConstant_eq_ok {payload : Option Literal} (h : broadcastConstant literal p = .ok payload) :
    (literal.type.dims = [] ∧ payload = none) ∨
    (∃ new, payload = some new ∧ literal.type.rank = p.length ∧ literal.permuted (inverse p) = .ok new) ∨
      ∃ new extent axis, payload = some new ∧ literal.type.dims = [.fixed extent] ∧ p.getLast? = some axis ∧
        new = ⟨.ofExtents literal.type.elem ((List.replicate p.length 1).set axis extent), literal.bytes⟩ := by
  have hok : ∀ {x : Except Literal.Error Literal}, some <$> replacement x = .ok payload →
      ∃ new, payload = some new ∧ x = .ok new := fun {x} hx => by
    rw [map_eq_pure_bind] at hx
    obtain ⟨new, hnew, hx⟩ := bind_eq_ok.1 hx
    exact ⟨new, (Except.ok.inj hx).symm, replacement_eq_ok.1 hnew⟩
  rw [broadcastConstant] at h
  obtain ⟨dims, hdims, h⟩ := bind_eq_ok.1 h
  rw [orRefuse_eq_ok] at hdims
  have heq := TensorType.extents?_eq_some.1 hdims
  split at h
  · rename_i hnil
    rw [List.length_eq_zero_iff] at hnil
    rw [hnil] at heq
    exact .inl ⟨heq, (Except.ok.inj h).symm⟩
  · split at h
    · rename_i hlen
      obtain ⟨new, hnew, hx⟩ := hok h
      exact .inr (.inl ⟨new, hnew, by rw [TensorType.rank, heq, List.length_map, hlen], hx⟩)
    · split at h
      · rename_i _ _ extent axis hlast _ _
        obtain ⟨new, hnew, hx⟩ := hok h
        exact .inr (.inr ⟨new, extent, axis, hnew, heq, hlast, Literal.reshaped_eq_ok hx⟩)
      · cases h

/-- A constant operand of a broadcast operation fits what is read in its place. -/
theorem broadcastConstant_fits (hp : p.Perm (range p.length)) {payload : Option Literal}
    (h : broadcastConstant literal p = .ok payload) :
    Fits (.fixed 1) p literal.type.dims (payload.getD literal).type.dims ∧
      (payload.getD literal).type.elem = literal.type.elem := by
  rcases broadcastConstant_eq_ok h with ⟨hdims, rfl⟩ | ⟨new, rfl, hrank, hnew⟩ | ⟨new, extent, axis, rfl, hdims, hlast, rfl⟩
  · rw [Option.getD_none, hdims]
    exact ⟨fits_nil hp, rfl⟩
  · have ht := Literal.permuted_isTranspose (by rw [hrank]; exact hp) hnew
    rw [Option.getD_some]
    refine ⟨?_, ht.elem_eq.symm⟩
    rw [ht.eq]
    exact fits_of_perm ht.perm
  · rw [Option.getD_some, hdims]
    refine ⟨?_, rfl⟩
    rw [TensorType.ofExtents, List.map_set, List.map_replicate]
    exact fits_vector hp hlast (Dim.fixed extent)

end Layout

/-! ## Tensors -/

namespace Literal

/-- All that can go wrong with a payload of the size of its type is that a product of extents does not fit. -/
theorem permuted_ok_or_overflow {literal : Literal} {q : List Nat} (hs : literal.Sized)
    (hq : q.Perm (range literal.type.rank)) :
    (∃ new, literal.permuted q = .ok new) ∨ literal.permuted q = .error (.crash .overflow) := by
  obtain ⟨dims, hdims, _, hbytes, _⟩ := hs.exists_extents
  have hlen : literal.type.rank = dims.length := by rw [TensorType.rank, hdims, List.length_map]
  rw [hlen] at hq
  have hcond : q.length = dims.length ∧ isPermutation q :=
    ⟨length_of_perm hq, isPermutation_iff.2 (length_of_perm hq ▸ hq)⟩
  rw [permuted, TensorType.extents?_eq_some.2 hdims]
  simp only [if_pos hcond]
  cases RowMajor.volume? dims with
  | none => exact .inr rfl
  | some m =>
    cases hn : RowMajor.size? (selectD dims q 0) with
    | none => exact .inr rfl
    | some n =>
      have hle : n * literal.type.elem.width ≤ literal.bytes.length := by
        rw [hbytes, ← (RowMajor.size?_eq_some.1 hn).2, RowMajor.size_perm (selectD_perm hq rfl 0)]
      exact .inl ⟨_, if_pos hle⟩

/-- A payload with all its elements, whose axes can be put in any order. -/
def Movable (l : Literal) : Prop :=
  ∀ dims, l.type.extents? = some dims →
    RowMajor.WordSized dims ∧ RowMajor.size dims * l.type.elem.width ≤ l.bytes.length

instance (l : Literal) : Decidable l.Movable :=
  inferInstanceAs (Decidable (∀ dims ∈ l.type.extents?, _ ∧ _))

theorem Movable.permuted_ne_crash {literal : Literal} (h : literal.Movable) (q : List Nat) (c : Crash) :
    literal.permuted q ≠ .error (.crash c) := by
  rw [permuted]
  cases hext : literal.type.extents? with
  | none => exact nofun
  | some dims =>
    obtain ⟨hword, hbytes⟩ := h dims hext
    dsimp only
    split
    · rename_i hq
      have hperm : q.Perm (range dims.length) := hq.1 ▸ isPermutation_iff.1 hq.2
      have hout := selectD_perm hperm rfl 0
      rw [hword.volume?, (hword.perm hout).size?]
      dsimp only
      rw [if_pos (by rw [RowMajor.size_perm hout]; exact hbytes)]
      exact nofun
    · exact nofun

theorem movable_ofExtents {elem : ElemType} {dims : List Nat} {bytes : List UInt8} (hword : RowMajor.WordSized dims)
    (hlen : RowMajor.size dims * elem.width ≤ bytes.length) : (⟨.ofExtents elem dims, bytes⟩ : Literal).Movable := by
  intro dims' hdims'
  have hext : (TensorType.ofExtents elem dims).extents? = some dims := TensorType.extents?_eq_some.2 rfl
  rw [hext] at hdims'
  cases hdims'
  exact ⟨hword, hlen⟩

theorem Sized.movable {literal : Literal} (h : literal.Sized)
    (hword : ∀ dims, literal.type.extents? = some dims → RowMajor.WordSized dims) : literal.Movable := by
  intro dims hext
  obtain ⟨dims', hdims', _, hbytes, _⟩ := h.exists_extents
  obtain rfl := Option.some.inj (hext.symm.trans (TensorType.extents?_eq_some.2 hdims'))
  exact ⟨hword dims hext, hbytes.ge⟩

theorem Movable.permuted {literal new : Literal} {q : List Nat} (h : literal.Movable) (hnew : literal.permuted q = .ok new) :
    new.Movable := by
  obtain ⟨dims, _, hext, hq, _, rfl⟩ := permuted_eq_ok.1 hnew
  obtain ⟨hword, hbytes⟩ := h dims hext
  have hlen : RowMajor.size dims ≤ literal.elements.length := by
    rw [elements, length_pieces, Nat.le_div_iff_mul_le (ElemType.width_pos _)]
    exact hbytes
  have hout := selectD_perm hq rfl 0
  refine movable_ofExtents (hword.perm hout) ?_
  rw [length_permutedBytes hq hlen, RowMajor.size_perm hout]

end Literal

namespace Layout

variable {literal new : Literal} {p : List Nat}

/-! ## Absorption does not break off -/

theorem Payload.movable (hp : p.Perm (range p.length)) (h : Payload p literal new) (hm : literal.Movable) : new.Movable := by
  cases h with
  | concat hrank h => exact hm.permuted h
  | broadcast h =>
    rcases broadcastConstant_eq_ok h with ⟨_, heq⟩ | ⟨new, heq, _, hnew⟩ | ⟨new, extent, axis, heq, hdims, hlast, rfl⟩
    · cases heq
    · cases heq
      exact hm.permuted hnew
    · cases heq
      have haxis : axis < p.length := (mem_of_perm hp).1 (List.mem_of_getLast? hlast)
      have hext : literal.type.extents? = some [extent] := TensorType.extents?_eq_some.2 hdims
      obtain ⟨hword, hbytes⟩ := hm _ hext
      have hlt : extent < 2 ^ 64 := hword.lt_of_mem (List.mem_singleton_self _)
      refine Literal.movable_ofExtents (RowMajor.wordSized_set_replicate haxis hlt) ?_
      rw [RowMajor.size_cons, RowMajor.size_nil, mul_one] at hbytes
      rwa [RowMajor.size_set_replicate haxis]

theorem answers_permuted (h : literal.Movable) (q : List Nat) : (replacement (literal.permuted q)).Answers :=
  answers_replacement (h.permuted_ne_crash q)

theorem answers_reshaped (dims : List Nat) : (replacement (literal.reshaped dims)).Answers := by
  refine answers_replacement fun c hc => ?_
  rw [Literal.reshaped, Literal.make] at hc
  split at hc
  · cases hc
  · split at hc <;> cases hc

theorem answers_broadcastConstant (h : literal.Movable) (p : List Nat) : (broadcastConstant literal p).Answers := by
  have hsome : ∀ {x : Attempt Literal}, x.Answers → Attempt.Answers (some <$> x) := fun {x} hx => by
    rw [map_eq_pure_bind]
    exact hx.bind fun _ _ => answers_ok _
  refine (answers_orRefuse _).bind fun dims _ => ?_
  split
  · exact answers_ok _
  · split
    · exact hsome (answers_permuted h _)
    · split
      · exact hsome (answers_reshaped _)
      · exact answers_refused

theorem answers_broadcastOperand {view : View} (h : ∀ l, view = .constant l → l.Movable) (p : List Nat) (slot : Nat) :
    (broadcastOperand p slot view).Answers := by
  cases view with
  | pending q => exact answers_ok _
  | constant l => exact (answers_broadcastConstant (h l rfl) p).bind fun _ _ => answers_ok _
  | concrete type =>
    rw [broadcastOperand]
    split
    · exact answers_ok _
    · exact answers_refused

theorem answers_concatOperand {view : View} (h : ∀ l, view = .constant l → l.Movable) (p : List Nat) (slot : Nat) :
    (concatOperand p slot view).Answers := by
  cases view with
  | pending q => exact answers_ok _
  | constant l =>
    rw [concatOperand]
    split
    · exact (answers_permuted (h l rfl) _).bind fun _ _ => answers_ok _
    · exact answers_refused
  | concrete type => exact answers_refused

/-- No operation breaks off if all constants that it reads can be moved. -/
theorem answers_absorb {views : List View} (h : ∀ l, .constant l ∈ views → l.Movable) (kind : OpKind) (p : List Nat) :
    (absorb kind views p).Answers := by
  unfold absorb
  dsimp only
  split
  · exact answers_refused
  · cases kind with
    | unary op => exact answers_ok _
    | activation spec => exact answers_ok _
    | binary op =>
      change (absorbBroadcast _ views p).Answers
      unfold absorbBroadcast
      split
      · rename_i left right
        exact (answers_broadcastOperand (fun l hl => h l (by simp [hl])) p 0).bind fun _ _ =>
          (answers_broadcastOperand (fun l hl => h l (by simp [hl])) p 1).bind fun _ _ => answers_ok _
      · exact answers_refused
    | reduce spec => exact answers_orRefuse _
    | concat axis =>
      refine (answers_orRefuse _).bind fun source _ => (answers_mapM fun e he => ?_).bind fun _ _ => answers_ok _
      obtain ⟨view, slot⟩ := e
      exact answers_concatOperand (fun l hl => h l (hl ▸ List.fst_mem_of_mem_zipIdx he)) p slot
    | pad spec => exact answers_orRefuse _
    | _ => exact answers_refused

end Layout

namespace Tensor

open RowMajor

variable {α : Type} [Kernels α] {literal new : Literal} {p : List Nat} {x : Tensor α}

/-- The number that an element is read as. -/
def ofElement? (elem : ElemType) (bytes : List UInt8) : Option α :=
  (Literal.decode? elem bytes).map Kernels.ofBinary

/-- A constant shows its elements as numbers. -/
theorem ofLiteral_eq_ok : ofLiteral literal = .ok x ↔ literal.type.dims = x.dims.map .fixed ∧
    List.Forall₂ (fun bytes a => ofElement? literal.type.elem bytes = some a) literal.elements x.data.toList := by
  have hnumbers : ∀ {ls : List (List UInt8)} {numbers : List Number.Binary64},
      List.Forall₂ (fun bytes n => Literal.decode? literal.type.elem bytes = some n) ls numbers →
      List.Forall₂ (fun bytes (a : α) => ofElement? literal.type.elem bytes = some a) ls (numbers.map Kernels.ofBinary) :=
    fun h => List.forall₂_map_right_iff.2 (h.imp fun _ _ h => by rw [ofElement?, h]; rfl)
  have hnumbers' : ∀ {ls : List (List UInt8)} {as : List α},
      List.Forall₂ (fun bytes a => ofElement? literal.type.elem bytes = some a) ls as → ∃ numbers,
        List.Forall₂ (fun bytes n => Literal.decode? literal.type.elem bytes = some n) ls numbers ∧
          as = numbers.map Kernels.ofBinary := fun h => by
    induction h with
    | nil => exact ⟨[], .nil, rfl⟩
    | cons h _ ih =>
      obtain ⟨n, hn, rfl⟩ := Option.map_eq_some_iff.1 h
      obtain ⟨numbers, hall, rfl⟩ := ih
      exact ⟨n :: numbers, .cons hn hall, rfl⟩
  unfold ofLiteral
  constructor
  · intro h
    split at h
    · cases h
    · rename_i dims hdims
      split at h
      · cases h
      · rename_i numbers hn
        obtain ⟨rfl, hdata⟩ := make_eq_ok.1 h
        refine ⟨TensorType.extents?_eq_some.1 hdims, ?_⟩
        rw [hdata]
        exact hnumbers (mapM_eq_some.1 hn)
  · rintro ⟨hdims, hall⟩
    obtain ⟨numbers, hn, hdata⟩ := hnumbers' hall
    rw [TensorType.extents?_eq_some.2 hdims, Literal.numbers?, mapM_eq_some.2 hn]
    exact make_eq_ok.2 ⟨rfl, by rw [← hdata]⟩

/-- A constant with the same elements and other extents. -/
theorem ofLiteral_reshaped (hx : ofLiteral literal = .ok x) {dims : List Nat} (hcount : size? dims = some x.data.size) :
    ofLiteral ⟨.ofExtents literal.type.elem dims, literal.bytes⟩ = .ok ⟨dims, x.data, hcount⟩ :=
  ofLiteral_eq_ok.2 ⟨rfl, (ofLiteral_eq_ok.1 hx).2⟩

/-- An element of a transposed tensor stands at its source. -/
theorem IsTranspose.getElem?_data {β : Type} {x y : Tensor β} (hp : p.Perm (range x.rank)) (h : IsTranspose p x y)
    {i : Nat} (hi : i < size y.dims) : y.data[i]? = x.data[source x.dims p i]? := by
  rw [h.1] at hi
  obtain ⟨cs', hcs', rfl⟩ := exists_offset hi
  obtain ⟨cs, hcs, rfl⟩ := exists_selectD hp hcs'
  have hat := h.2 cs hcs
  rwa [at?, at?, h.1, ← source_offset hp hcs] at hat

/-- A constant that has been transposed back shows what its payload is a transpose of. -/
theorem ofLiteral_permuted (hx : ofLiteral literal = .ok x) (hp : p.Perm (range x.rank))
    (h : literal.permuted (inverse p) = .ok new) : ∃ z, ofLiteral new = .ok z ∧ z.rank = x.rank ∧ IsTranspose p z x := by
  obtain ⟨hdims, hall⟩ := ofLiteral_eq_ok.1 hx
  obtain ⟨dims, n, hext, hq, ⟨_, hcount, _⟩, hnew⟩ := Literal.permuted_eq_ok.1 h
  obtain rfl : dims = x.dims := by
    rw [TensorType.extents?_eq_some.2 hdims] at hext
    exact (Option.some.inj hext).symm
  have htype : new.type = .ofExtents literal.type.elem (selectD x.dims (inverse p) 0) := by rw [hnew]
  obtain ⟨z, hz, ht⟩ := exists_untranspose_of_counted hp hcount
  have hback := ht.inverse (hz ▸ hp)
  have hlen : literal.elements.length = size x.dims := by simpa [x.size_eq] using hall.length_eq
  refine ⟨z, ofLiteral_eq_ok.2 ⟨by rw [htype, hback.1]; rfl, ?_⟩, hz, ht⟩
  rw [Literal.elements_permuted h hext hlen, ← hback.1]
  refine forall₂_of_getElem? (by simp [z.size_eq]) fun i bytes a hb ha => ?_
  rw [Array.getElem?_toList] at ha
  have hi : i < size z.dims := z.size_eq ▸ (Array.getElem?_eq_some_iff.1 ha).1
  rw [hback.getElem?_data hq hi, ← Array.getElem?_toList] at ha
  obtain ⟨bytes', hbytes', he⟩ := exists_getElem?_of_forall₂ hall.flip ha
  rw [List.getElem?_map, List.getElem?_range hi, Option.map_some, Array.getD_eq_getD_getElem?, List.getElem?_toArray,
    hbytes'] at hb
  rw [← Option.some.inj hb, htype]
  exact he

/-- A constant operand of a broadcast operation shows what is read in its place. -/
theorem ofLiteral_broadcastConstant (hp : p.Perm (range p.length)) {payload : Option Literal}
    (h : Layout.broadcastConstant literal p = .ok payload) (hx : ofLiteral literal = .ok x) :
    ∃ z, ofLiteral (payload.getD literal) = .ok z ∧ Shows p x z := by
  have hdims := (ofLiteral_eq_ok.1 hx).1
  have hrank : literal.type.rank = x.rank := by rw [TensorType.rank, hdims, List.length_map, rank]
  rcases Layout.broadcastConstant_eq_ok h with
    ⟨hnil, rfl⟩ | ⟨new, rfl, hlen, hnew⟩ | ⟨new, extent, axis, rfl, hvec, hlast, rfl⟩
  · refine ⟨x, hx, shows_scalar hp (List.length_eq_zero_iff.1 ?_)⟩
    rw [← rank, ← hrank, TensorType.rank, hnil, List.length_nil]
  · have hp' : p.Perm (range x.rank) := by rwa [← hrank, hlen]
    obtain ⟨z, hz, hzr, ht⟩ := ofLiteral_permuted hx hp' hnew
    exact ⟨z, hz, shows_of_isTranspose (hzr ▸ hp') ht⟩
  · have hx' : x.dims = [extent] := by
      have he : x.dims.map Dim.fixed = [extent].map Dim.fixed := by rw [← hdims, hvec]; rfl
      exact List.map_injective_iff.2 (fun _ _ h => Dim.fixed.inj h) he
    have haxis := (mem_of_perm hp).1 (List.mem_of_getLast? hlast)
    have hsize : size x.dims = extent := by rw [hx', size_cons, size_nil, mul_one]
    have hcount : size? ((List.replicate p.length 1).set axis extent) = some x.data.size := by
      rw [(wordSized_set_replicate haxis (hsize ▸ x.size_lt)).size?, size_set_replicate haxis, x.size_eq, hsize]
    exact ⟨_, ofLiteral_reshaped hx hcount, shows_vector hp hlast hx' rfl rfl⟩

theorem exists_ofElement? (hx : ofLiteral literal = .ok x) {bytes : List UInt8} (hb : bytes ∈ literal.elements) :
    ∃ a : α, ofElement? literal.type.elem bytes = some a := by
  obtain ⟨i, hi⟩ := List.mem_iff_getElem?.1 hb
  obtain ⟨a, _, ha⟩ := exists_getElem?_of_forall₂ (ofLiteral_eq_ok.1 hx).2 hi
  exact ⟨a, ha⟩

/-- A payload of the size of its type shows numbers if all of its elements do. -/
theorem exists_ofLiteral_of_elements (hs : literal.Sized)
    (h : ∀ bytes ∈ literal.elements, ∃ a : α, ofElement? literal.type.elem bytes = some a) :
    ∃ x : Tensor α, ofLiteral literal = .ok x := by
  obtain ⟨dims, hdims, hcount, _, hlen⟩ := hs.exists_extents
  obtain ⟨numbers, hall⟩ := exists_forall₂ h
  have hsize : size? dims = some numbers.toArray.size := by rw [hcount, List.size_toArray, ← hall.length_eq, hlen]
  exact ⟨⟨dims, numbers.toArray, hsize⟩, ofLiteral_eq_ok.2 ⟨hdims, hall⟩⟩

/-- A constant shows numbers if what is read in its place does. -/
theorem exists_ofLiteral_of_broadcastConstant (hs : literal.Sized) {payload : Option Literal}
    (h : Layout.broadcastConstant literal p = .ok payload) (hz : ofLiteral (payload.getD literal) = .ok x) :
    ∃ x : Tensor α, ofLiteral literal = .ok x := by
  rcases Layout.broadcastConstant_eq_ok h with
    ⟨_, rfl⟩ | ⟨new, rfl, _, hnew⟩ | ⟨new, extent, axis, rfl, _, _, rfl⟩
  · exact ⟨x, hz⟩
  · obtain ⟨dims, hdims, _, _, hlen⟩ := hs.exists_extents
    have hext := TensorType.extents?_eq_some.2 hdims
    have htype : new.type.elem = literal.type.elem := by
      obtain ⟨_, _, _, _, _, rfl⟩ := Literal.permuted_eq_ok.1 hnew
      rfl
    refine exists_ofLiteral_of_elements hs fun bytes hb => ?_
    obtain ⟨a, ha⟩ := exists_ofElement? hz (Literal.mem_elements_permuted hnew hext hlen hb)
    rw [Option.getD_some, htype] at ha
    exact ⟨a, ha⟩
  · exact exists_ofLiteral_of_elements hs fun bytes hb => exists_ofElement? hz hb

/-- A payload is a constant of positive extents if the constant in its place was. -/
theorem exists_ofLiteral_payload (hp : p.Perm (range p.length)) (h : Layout.Payload p literal new)
    (hx : ofLiteral literal = .ok x) (hpos : ∀ d ∈ x.dims, 0 < d) :
    ∃ z : Tensor α, ofLiteral new = .ok z ∧ ∀ d ∈ z.dims, 0 < d := by
  cases h with
  | broadcast h =>
    obtain ⟨z, hz, hshows⟩ := ofLiteral_broadcastConstant hp h hx
    exact ⟨z, hz, hshows.fits.forall hp Nat.one_pos hpos⟩
  | concat hrank h =>
    have hlen : x.rank = p.length := by
      rw [← hrank, TensorType.rank, (ofLiteral_eq_ok.1 hx).1, List.length_map, rank]
    obtain ⟨z, hz, hzr, ht⟩ := ofLiteral_permuted hx (hlen ▸ hp) h
    exact ⟨z, hz, (shows_of_isTranspose (hzr ▸ hlen ▸ hp) ht).fits.forall hp Nat.one_pos hpos⟩

end Tensor

end Relayout
