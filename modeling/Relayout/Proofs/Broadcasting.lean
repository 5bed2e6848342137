import Relayout.Proofs.Rules
import Relayout.Proofs.Transposition

/-!
# Broadcasting and transposes

Two lists of extents are met from the last axis on, so the shorter one is read with ones in front (`aligned`). An operand
`Fits` what is read in its place if the axes of the two, with ones in front, differ by the permutation: a transpose does,
a scalar does, and a vector along the last axis does if it is put along the axis which that one comes from.

Where operands fit, the types of results differ by the permutation (`broadcast_types`), and so do the results if their
extents are `WordSized` (`zipBroadcast_transposed`).
-/

namespace Relayout

open Perm
open List (range)

/-! ## Ones in front -/

section Aligned

variable {α : Type} {one : α} {n : Nat} {xs zs : List α} {p : List Nat}

/-- A list with entries in front, up to a length. -/
def aligned (n : Nat) (one : α) (xs : List α) : List α :=
  List.replicate (n - xs.length) one ++ xs

theorem length_aligned (h : xs.length ≤ n) : (aligned n one xs).length = n := by
  rw [aligned, List.length_append, List.length_replicate]
  omega

theorem aligned_of_length (h : xs.length = n) : aligned n one xs = xs := by
  rw [aligned, h, Nat.sub_self, List.replicate_zero, List.nil_append]

theorem getD_aligned (h : xs.length ≤ n) {i : Nat} (hi : i < n) :
    (aligned n one xs).getD i one = xs.reverse.getD (n - 1 - i) one := by
  rw [List.getD_eq_getElem?_getD, List.getD_eq_getElem?_getD, aligned, List.getElem?_append, List.length_replicate]
  split
  · rw [List.getElem?_replicate, List.getElem?_eq_none (by rw [List.length_reverse]; omega)]
    split <;> rfl
  · rw [List.getElem?_reverse (by omega)]
    congr 2
    omega

theorem aligned_map {β : Type} (f : α → β) : aligned n (f one) (xs.map f) = (aligned n one xs).map f := by
  rw [aligned, aligned, List.map_append, List.map_replicate, List.length_map]

/-- The axes of an operand are those of what is read in its place, rearranged, with ones in front. -/
structure Fits (one : α) (p : List Nat) (xs zs : List α) : Prop where
  length_le : xs.length ≤ p.length
  length_le' : zs.length ≤ p.length
  eq : aligned p.length one xs = selectD (aligned p.length one zs) p one

theorem Fits.getD_eq (h : Fits one p xs zs) {i : Nat} (hi : i < p.length) :
    (aligned p.length one xs).getD i one = (aligned p.length one zs).getD (p.getD i 0) one := by
  rw [h.eq, getD_selectD hi]

/-- What holds of one and of all axes of an operand holds of the axes of what is read in its place. -/
theorem Fits.forall (h : Fits one p xs zs) (hp : p.Perm (range p.length)) {P : α → Prop} (hone : P one)
    (hxs : ∀ x ∈ xs, P x) : ∀ z ∈ zs, P z := by
  intro z hz
  have hmem : z ∈ aligned p.length one xs := by
    rw [h.eq, (selectD_perm hp (length_aligned h.length_le') one).mem_iff]
    exact List.mem_append_right _ hz
  rcases List.mem_append.1 hmem with hz | hz
  · exact (List.eq_of_mem_replicate hz).symm ▸ hone
  · exact hxs z hz

theorem Fits.map {β : Type} (h : Fits one p xs zs) (f : α → β) : Fits (f one) p (xs.map f) (zs.map f) := by
  refine ⟨by simpa using h.length_le, by simpa using h.length_le', ?_⟩
  rw [aligned_map, aligned_map, h.eq, selectD_map]

theorem fits_of_perm (hp : p.Perm (range zs.length)) : Fits one p (selectD zs p one) zs := by
  have hlen := length_of_perm hp
  refine ⟨by simp, hlen.ge, ?_⟩
  rw [aligned_of_length (length_selectD ..), aligned_of_length hlen.symm]

theorem fits_nil (hp : p.Perm (range p.length)) : Fits one p [] [] := by
  refine ⟨Nat.zero_le _, Nat.zero_le _, ?_⟩
  have hlen : (aligned p.length one ([] : List α)).length = p.length := length_aligned (Nat.zero_le _)
  refine ext_getD hlen (length_selectD ..) one fun i hi => ?_
  rw [getD_selectD hi, getD_aligned (Nat.zero_le _) hi, getD_aligned (Nat.zero_le _) (getD_mem_of_perm hp hi)]
  rfl

theorem aligned_singleton (hn : 0 < n) (e : α) : aligned n one [e] = (List.replicate n one).set (n - 1) e := by
  have hle : [e].length ≤ n := hn
  refine ext_getD (length_aligned hle) (by simp) one fun i hi => ?_
  rw [getD_aligned hle hi, getD_set (by simpa using hi)]
  by_cases hlast : n - 1 = i
  · rw [if_pos hlast, hlast, Nat.sub_self]
    rfl
  · rw [if_neg hlast, List.getD_eq_default _ _ (by simp; omega), List.getD_eq_getElem _ _ (by simpa using hi),
      List.getElem_replicate]

/-- The axis that the last one comes from. -/
theorem getD_getLast? {axis : Nat} (h : p.getLast? = some axis) : 0 < p.length ∧ p.getD (p.length - 1) 0 = axis := by
  rw [List.getLast?_eq_getElem?] at h
  obtain ⟨hlt, _⟩ := List.getElem?_eq_some_iff.1 h
  refine ⟨by omega, ?_⟩
  rw [List.getD_eq_getElem?_getD, h]
  rfl

theorem fits_vector (hp : p.Perm (range p.length)) {axis : Nat} (hlast : p.getLast? = some axis) (e : α) :
    Fits one p [e] ((List.replicate p.length one).set axis e) := by
  obtain ⟨hpos, rfl⟩ := getD_getLast? hlast
  have hones : selectD (List.replicate p.length one) p one = List.replicate p.length one := by
    have hfits : Fits one p [] [] := fits_nil hp
    have heq := hfits.eq
    rw [aligned, List.append_nil] at heq
    exact heq.symm
  have hlen : ((List.replicate p.length one).set (p.getD (p.length - 1) 0) e).length = p.length := by simp
  refine ⟨hpos, by simp, ?_⟩
  rw [aligned_of_length hlen, aligned_singleton hpos,
    selectD_set hp (by simp) (by omega), hones]

end Aligned

/-! ## Types -/

namespace Typing

theorem joinDim?_one_left (d : Dim) : joinDim? (.fixed 1) d = some d := by
  rw [joinDim?]
  split
  · rename_i h
    rw [h]
  · rfl

theorem joinDim?_one_right (d : Dim) : joinDim? d (.fixed 1) = some d := by
  rw [joinDim?]
  split
  · rfl
  · split
    · rename_i _ h
      rw [Dim.isOne, beq_iff_eq] at h
      rw [h]
    · rfl

/-- Extents meet axis by axis, with ones where a list has ended. -/
theorem joinDims?_eq_some {as bs cs : List Dim} : joinDims? as bs = some cs ↔
    cs.length = max as.length bs.length ∧
      ∀ i < cs.length, joinDim? (as.getD i (.fixed 1)) (bs.getD i (.fixed 1)) = some (cs.getD i (.fixed 1)) := by
  induction as generalizing bs cs with
  | nil =>
    rw [joinDims?, Option.some.injEq]
    simp only [List.getD_nil, joinDim?_one_left, Option.some.injEq, List.length_nil, Nat.zero_max]
    exact ⟨fun h => h ▸ ⟨rfl, fun _ _ => rfl⟩, fun h => ext_getD h.1.symm rfl _ h.2⟩
  | cons a as ih =>
    cases bs with
    | nil =>
      rw [joinDims?, Option.some.injEq]
      · simp only [List.getD_nil, joinDim?_one_right, Option.some.injEq, List.length_nil, Nat.max_zero]
        exact ⟨fun h => h ▸ ⟨rfl, fun _ _ => rfl⟩, fun h => ext_getD h.1.symm rfl _ h.2⟩
      · exact fun h => by cases h
    | cons b bs =>
      rw [joinDims?]
      simp only [Option.bind_eq_bind, Option.bind_eq_some_iff, Option.pure_def, Option.some.injEq]
      constructor
      · rintro ⟨c, hc, cs', hcs, rfl⟩
        obtain ⟨hlen, hall⟩ := ih.1 hcs
        refine ⟨by simp [hlen, Nat.succ_max_succ], fun i hi => ?_⟩
        cases i with
        | zero => exact hc
        | succ i => exact hall i (Nat.lt_of_succ_lt_succ hi)
      · rintro ⟨hlen, hall⟩
        cases cs with
        | nil => simp at hlen
        | cons c cs =>
          refine ⟨c, hall 0 (Nat.succ_pos _), cs, ih.2 ⟨?_, fun i hi => hall (i + 1) (Nat.succ_lt_succ hi)⟩, rfl⟩
          simpa [Nat.succ_max_succ] using hlen

/-- Two operands have a type if their extents meet at all axes. -/
theorem broadcast_eq_ok {f : Binary} {x₁ x₂ y : TensorType} {n : Nat} (hn : max x₁.rank x₂.rank = n) :
    resultType (.binary f) [x₁, x₂] = .ok y ↔ x₁.elem = x₂.elem ∧ y.elem = x₁.elem ∧ y.rank = n ∧
      ∀ i < n, joinDim? ((aligned n (.fixed 1) x₁.dims).getD i (.fixed 1))
        ((aligned n (.fixed 1) x₂.dims).getD i (.fixed 1)) = some (y.dims.getD i (.fixed 1)) := by
  have h₁ : x₁.dims.length ≤ n := hn ▸ Nat.le_max_left ..
  have h₂ : x₂.dims.length ≤ n := hn ▸ Nat.le_max_right ..
  have hback : ∀ {cs : List Dim}, cs.length = n → ∀ i < n,
      cs.reverse.getD i (.fixed 1) = cs.getD (n - 1 - i) (.fixed 1) := fun hlen i hi => by
    rw [List.getD_eq_getElem?_getD, List.getElem?_reverse (hlen ▸ hi), hlen, List.getD_eq_getElem?_getD]
  have key : ∀ {cs : List Dim}, joinDims? x₁.dims.reverse x₂.dims.reverse = some cs.reverse ↔ cs.length = n ∧
      ∀ i < n, joinDim? ((aligned n (.fixed 1) x₁.dims).getD i (.fixed 1))
        ((aligned n (.fixed 1) x₂.dims).getD i (.fixed 1)) = some (cs.getD i (.fixed 1)) := fun {cs} => by
    rw [joinDims?_eq_some]
    simp only [List.length_reverse]
    rw [show max x₁.dims.length x₂.dims.length = n from hn]
    refine and_congr_right fun hlen => ?_
    rw [hlen]
    constructor
    · intro h i hi
      have := h (n - 1 - i) (by omega)
      rwa [← getD_aligned h₁ hi, ← getD_aligned h₂ hi, hback hlen _ (by omega), show n - 1 - (n - 1 - i) = i by omega] at this
    · intro h i hi
      have := h (n - 1 - i) (by omega)
      rwa [getD_aligned h₁ (by omega), getD_aligned h₂ (by omega), show n - 1 - (n - 1 - i) = i by omega,
        ← hback hlen i hi] at this
  rw [binary_eq_ok]
  constructor
  · rintro ⟨left, right, dims, ⟨⟩, he, hdims, rfl⟩
    rw [← List.reverse_reverse dims] at hdims
    exact ⟨he, rfl, key.1 hdims⟩
  · rintro ⟨he, hy, hrest⟩
    exact ⟨x₁, x₂, y.dims.reverse, rfl, he, key.2 hrest, by rw [List.reverse_reverse, ← hy]⟩

/-- The type of a broadcast of operands that fit is transposed as they are. -/
theorem broadcast_types {f : Binary} {p : List Nat} {x₁ x₂ z₁ z₂ y : TensorType}
    (h₁ : Fits (.fixed 1) p x₁.dims z₁.dims) (h₂ : Fits (.fixed 1) p x₂.dims z₂.dims) (he₁ : z₁.elem = x₁.elem)
    (he₂ : z₂.elem = x₂.elem) (hp : p.Perm (range p.length)) (hx : max x₁.rank x₂.rank = p.length)
    (hz : max z₁.rank z₂.rank = p.length) (h : resultType (.binary f) [x₁, x₂] = .ok y) :
    ∃ y', resultType (.binary f) [z₁, z₂] = .ok y' ∧ TensorType.IsTranspose p y' y := by
  obtain ⟨helem, hy, hrank, hall⟩ := (broadcast_eq_ok hx).1 h
  have ht := TensorType.isTranspose_untransposed (y := y) (p := p) (hrank.symm ▸ hp)
  refine ⟨_, (broadcast_eq_ok hz).2 ⟨?_, ?_, ?_, (forall_axis hp).2 fun i hi => ?_⟩, ht⟩
  · rw [he₁, he₂, helem]
  · rw [he₁]
    exact hy
  · exact ht.rank_eq'
  · rw [← h₁.getD_eq hi, ← h₂.getD_eq hi, hall i hi, ht.getD_eq hi]

end Typing

theorem Typing.joinDim?_fixed (a b : Nat) :
    joinDim? (.fixed a) (.fixed b) = (Tensor.joinExtent? a b).map .fixed := by
  simp only [joinDim?, Tensor.joinExtent?, Dim.isOne, Dim.fixed.injEq, beq_iff_eq]
  split
  · rfl
  · split
    · rfl
    · split <;> rfl

/-! ## Tensors -/

namespace Tensor

open RowMajor

variable {α β γ : Type}

theorem joinExtent?_cases {a b d : Nat} (h : joinExtent? a b = some d) : (a = 1 ∨ a = d) ∧ (b = 1 ∨ b = d) := by
  unfold joinExtent? at h
  split at h
  · cases h
    omega
  · split at h
    · cases h
      omega
    · split at h
      · cases h
        omega
      · cases h

theorem joinExtents_eq_some {as bs ds : List Nat} {n : Nat} (ha : as.length = n) (hb : bs.length = n) :
    ((as.zip bs).mapM fun (a, b) => joinExtent? a b) = some ds ↔
      ds.length = n ∧ ∀ i < n, joinExtent? (as.getD i 1) (bs.getD i 1) = some (ds.getD i 0) := by
  have hlen : (as.zip bs).length = n := by rw [List.length_zip, ha, hb, Nat.min_self]
  rw [mapM_eq_some_getD (1, 1) 0, hlen]
  refine and_congr_right fun _ => forall₂_congr fun i hi => ?_
  rw [getD_zip ha hb hi]

/-- The element that coordinates of a broadcast result show. -/
def shown? (x : Tensor α) (n : Nat) (cs : List Nat) : Option α :=
  x.data[broadcastSource (aligned n 1 x.dims) cs]?

theorem zipBroadcast_eq_ok {f : α → β → γ} {x : Tensor α} {y : Tensor β} {w : Tensor γ} {n : Nat}
    (hn : max x.rank y.rank = n) : zipBroadcast f x y = .ok w ↔
      (stridesFit (aligned n 1 x.dims) ∧ stridesFit (aligned n 1 y.dims) ∧ size w.dims * 4 < 2 ^ 63) ∧ w.rank = n ∧
      (∀ i < n, joinExtent? ((aligned n 1 x.dims).getD i 1) ((aligned n 1 y.dims).getD i 1) = some (w.dims.getD i 0)) ∧
      ∀ cs, InBounds w.dims cs → ∃ a b, x.shown? n cs = some a ∧ y.shown? n cs = some b ∧ w.at? cs = some (f a b) := by
  have hx : (aligned n 1 x.dims).length = n := length_aligned (hn ▸ Nat.le_max_left ..)
  have hy : (aligned n 1 y.dims).length = n := length_aligned (hn ▸ Nat.le_max_right ..)
  have hget : ∀ {dims : List Nat} {cs : List Nat}, InBounds dims cs → ∀ c : γ,
      (do let a ← x.get (broadcastSource (aligned n 1 x.dims) (coords dims (offset cs (strides dims))))
          let b ← y.get (broadcastSource (aligned n 1 y.dims) (coords dims (offset cs (strides dims))))
          return f a b : Eval γ) = .ok c ↔
        ∃ a b, x.shown? n cs = some a ∧ y.shown? n cs = some b ∧ f a b = c := fun hcs c => by
    simp only [bind_eq_ok, get_eq_ok, pure_eq_ok, coords_offset hcs, shown?, exists_and_left]
  have halign : ∀ dims, align n dims = aligned n 1 dims := fun _ => rfl
  rw [zipBroadcast]
  simp only [hn, halign]
  cases hdims : ((aligned n 1 x.dims).zip (aligned n 1 y.dims)).mapM fun (a, b) => joinExtent? a b with
  | none =>
    simp only [reduceCtorEq, false_iff, not_and]
    intro _ hrank hall
    rw [(joinExtents_eq_some hx hy).2 ⟨hrank, hall⟩] at hdims
    cases hdims
  | some dims =>
    obtain ⟨hlen, hall⟩ := (joinExtents_eq_some hx hy).1 hdims
    dsimp only
    rw [check_bind_eq_ok, checkStrides_eq_ok, check_bind_eq_ok, checkStrides_eq_ok, bind_eq_ok]
    constructor
    · rintro ⟨hx', hy', count, hcount, htab⟩
      obtain ⟨hcount, hroom⟩ := reserve_eq_ok.1 hcount
      have hsize := (size?_eq_some.1 hcount).2
      obtain ⟨rfl, hat⟩ := (tabulate_eq_ok hsize.symm).1 htab
      refine ⟨⟨hx', hy', hsize ▸ hroom⟩, hlen, hall, fun cs hcs => ?_⟩
      obtain ⟨c, hc, hw⟩ := hat cs hcs
      obtain ⟨a, b, ha, hb, rfl⟩ := (hget hcs c).1 hc
      exact ⟨a, b, ha, hb, hw⟩
    · rintro ⟨⟨hx', hy', hroom⟩, hrank, hall', hat⟩
      have heq : w.dims = dims := by
        rw [(joinExtents_eq_some hx hy).2 ⟨hrank, hall'⟩] at hdims
        exact Option.some.inj hdims
      subst heq
      have hcount : size? w.dims = some (size w.dims) := by rw [w.counted, w.size_eq]
      refine ⟨hx', hy', size w.dims, reserve_eq_ok.2 ⟨hcount, hroom⟩, (tabulate_eq_ok rfl).2 ⟨rfl, fun cs hcs => ?_⟩⟩
      obtain ⟨a, b, ha, hb, hw⟩ := hat cs hcs
      exact ⟨f a b, (hget hcs _).2 ⟨a, b, ha, hb, rfl⟩, hw⟩

theorem wordSized_aligned {dims es : List Nat} {n : Nat} (hword : WordSized es) (hle : dims.length ≤ n) (hlen : es.length = n)
    (h : ∀ i < n, (aligned n 1 dims).getD i 1 = 1 ∨ (aligned n 1 dims).getD i 1 = es.getD i 0) :
    WordSized (aligned n 1 dims) := by
  have haligned : (aligned n 1 dims).length = n := length_aligned hle
  refine hword.mono_getD (haligned.trans hlen.symm) fun i hi => ?_
  have := h i (haligned ▸ hi)
  omega

/-- The strides of operands fit if the extents of the result do in any order. -/
theorem zipBroadcast_eq_ok_of_wordSized {f : α → β → γ} {x : Tensor α} {y : Tensor β} {w : Tensor γ} {n : Nat}
    (hn : max x.rank y.rank = n) (hword : WordSized w.dims) : zipBroadcast f x y = .ok w ↔
      size w.dims * 4 < 2 ^ 63 ∧ w.rank = n ∧
      (∀ i < n, joinExtent? ((aligned n 1 x.dims).getD i 1) ((aligned n 1 y.dims).getD i 1) = some (w.dims.getD i 0)) ∧
      ∀ cs, InBounds w.dims cs → ∃ a b, x.shown? n cs = some a ∧ y.shown? n cs = some b ∧ w.at? cs = some (f a b) := by
  rw [zipBroadcast_eq_ok hn]
  constructor
  · rintro ⟨⟨_, _, hroom⟩, h⟩
    exact ⟨hroom, h⟩
  · rintro ⟨hroom, hrank, hall, hat⟩
    have hcases := fun i hi => joinExtent?_cases (hall i hi)
    have hx := wordSized_aligned hword (hn ▸ Nat.le_max_left ..) hrank fun i hi => (hcases i hi).1
    have hy := wordSized_aligned hword (hn ▸ Nat.le_max_right ..) hrank fun i hi => (hcases i hi).2
    exact ⟨⟨hx.stridesFit, hy.stridesFit, hroom⟩, hrank, hall, hat⟩

/-- Operands have no longer extents than their broadcast. -/
theorem wordSized_of_zipBroadcast {f : α → β → γ} {x : Tensor α} {y : Tensor β} {w : Tensor γ}
    (h : zipBroadcast f x y = .ok w) (hword : WordSized w.dims) : WordSized x.dims ∧ WordSized y.dims := by
  obtain ⟨_, hrank, hall, _⟩ := (zipBroadcast_eq_ok rfl).1 h
  have hcases := fun i hi => joinExtent?_cases (hall i hi)
  have hx := wordSized_aligned hword (Nat.le_max_left ..) hrank fun i hi => (hcases i hi).1
  have hy := wordSized_aligned hword (Nat.le_max_right ..) hrank fun i hi => (hcases i hi).2
  exact ⟨hx.sublist (List.sublist_append_right ..), hy.sublist (List.sublist_append_right ..)⟩

/-- An operand shows what is read in its place, at rearranged coordinates. -/
structure Shows (p : List Nat) (x z : Tensor α) : Prop where
  fits : Fits 1 p x.dims z.dims
  shown : ∀ cs, cs.length = p.length → (∀ i < p.length, (aligned p.length 1 z.dims).getD i 1 = 1 ∨
    cs.getD i 0 < (aligned p.length 1 z.dims).getD i 1) → x.shown? p.length (selectD cs p 0) = z.shown? p.length cs

theorem shows_of_isTranspose {p : List Nat} {x z : Tensor α} (hp : p.Perm (range z.rank)) (h : IsTranspose p z x) :
    Shows p x z := by
  have hlen : z.dims.length = p.length := (length_of_perm hp).symm
  have hlt : ∀ axis ∈ p, axis < z.dims.length := fun axis => (mem_of_perm hp).1
  have hfits : Fits 1 p x.dims z.dims := by
    rw [h.1, selectD_congr hlt 0 1]
    exact fits_of_perm hp
  have hp' : p.Perm (range p.length) := by
    rw [← hlen]
    exact hp
  refine ⟨hfits, fun cs hcs hbound => ?_⟩
  rw [aligned_of_length hlen] at hbound
  -- the coordinates that are read, without those along repeated axes
  have hclamp : InBounds z.dims (List.zipWith (fun d c => if d = 1 then 0 else c) z.dims cs) := by
    refine inBounds_iff.2 ⟨by rw [List.length_zipWith, hcs, hlen, Nat.min_self], fun i hi => ?_⟩
    rw [getD_zipWith hlen hcs (hlen ▸ hi) 1 0, getD_congr hi 0 1]
    have := hbound i (hlen ▸ hi)
    split <;> omega
  have hselect : List.zipWith (fun d c => if d = 1 then 0 else c) x.dims (selectD cs p 0) =
      selectD (List.zipWith (fun d c => if d = 1 then 0 else c) z.dims cs) p 0 := by
    have hx : x.dims.length = p.length := by rw [h.1, length_selectD]
    refine ext_getD (n := p.length) (by rw [List.length_zipWith, hx, length_selectD, Nat.min_self]) (length_selectD ..) 0
      fun i hi => ?_
    have hi' := getD_mem_of_perm hp' hi
    rw [getD_zipWith hx (length_selectD ..) hi 0 0, h.1, getD_selectD hi, getD_selectD hi, getD_selectD hi,
      getD_zipWith hlen hcs hi' 0 0]
  rw [shown?, shown?, aligned_of_length hlen, aligned_of_length (by rw [h.1, length_selectD]), broadcastSource, hselect]
  exact h.2 _ hclamp

theorem broadcastSource_replicate (n : Nat) (cs : List Nat) : broadcastSource (List.replicate n 1) cs = 0 := by
  induction n generalizing cs with
  | zero => rfl
  | succ n ih =>
    cases cs with
    | nil => rfl
    | cons c cs =>
      have := ih cs
      rw [broadcastSource] at this ⊢
      simpa [List.replicate_succ] using this

theorem shows_scalar {p : List Nat} {x : Tensor α} (hp : p.Perm (range p.length)) (h : x.dims = []) : Shows p x x := by
  refine ⟨?_, fun cs _ _ => ?_⟩
  · rw [h]
    exact fits_nil hp
  · rw [shown?, shown?, h, aligned, List.append_nil, broadcastSource_replicate, broadcastSource_replicate]

/-- A vector along one axis of many. -/
theorem broadcastSource_set {n k : Nat} {cs : List Nat} (hk : k < n) (hcs : cs.length = n) (e : Nat) :
    broadcastSource ((List.replicate n 1).set k e) cs = if e = 1 then 0 else cs.getD k 0 := by
  induction n generalizing k cs with
  | zero => omega
  | succ n ih =>
    cases cs with
    | nil => cases hcs
    | cons c cs =>
      have hcs : cs.length = n := Nat.succ.inj hcs
      cases k with
      | zero =>
        have := broadcastSource_replicate n cs
        rw [broadcastSource] at this ⊢
        simp [List.replicate_succ, this, size_eq_prod]
      | succ k =>
        have := ih (Nat.lt_of_succ_lt_succ hk) hcs
        rw [broadcastSource] at this ⊢
        simpa [List.replicate_succ] using this

theorem shows_vector {p : List Nat} {x z : Tensor α} {axis e : Nat} (hp : p.Perm (range p.length))
    (hlast : p.getLast? = some axis) (hx : x.dims = [e]) (hz : z.dims = (List.replicate p.length 1).set axis e)
    (hdata : x.data = z.data) : Shows p x z := by
  refine ⟨?_, fun cs hcs _ => ?_⟩
  · rw [hx, hz]
    exact fits_vector hp hlast e
  · obtain ⟨hpos, rfl⟩ := getD_getLast? hlast
    have haxis := getD_mem_of_perm hp (show p.length - 1 < p.length by omega)
    rw [shown?, shown?, hx, hz, hdata, aligned_singleton hpos, aligned_of_length (by simp),
      broadcastSource_set (by omega) (length_selectD ..), broadcastSource_set haxis hcs, getD_selectD (by omega)]

section Transposed

variable {f : α → β → γ} {p : List Nat} {x₁ z₁ : Tensor α} {x₂ z₂ : Tensor β} {y y' : Tensor γ}

/-- A tensor is the broadcast of operands if and only if what it is a transpose of is the broadcast of what is read in
their place. -/
theorem zipBroadcast_iff (h₁ : Shows p x₁ z₁) (h₂ : Shows p x₂ z₂) (hp : p.Perm (range p.length))
    (hx : max x₁.rank x₂.rank = p.length) (hz : max z₁.rank z₂.rank = p.length) (hrank : y'.rank = p.length)
    (ht : IsTranspose p y' y) (hword : WordSized y'.dims) :
    zipBroadcast f z₁ z₂ = .ok y' ↔ zipBroadcast f x₁ x₂ = .ok y := by
  have hp' : p.Perm (range y'.rank) := hrank.symm ▸ hp
  rw [zipBroadcast_eq_ok_of_wordSized hz hword, zipBroadcast_eq_ok_of_wordSized hx ((ht.wordSized_iff hp').2 hword),
    size_perm (ht.perm_dims hp')]
  refine and_congr_right fun _ => and_congr (iff_of_true hrank ht.rank_eq) ?_
  have hjoin : (∀ i < p.length, joinExtent? ((aligned p.length 1 z₁.dims).getD i 1) ((aligned p.length 1 z₂.dims).getD i 1) =
      some (y'.dims.getD i 0)) ↔ ∀ i < p.length, joinExtent? ((aligned p.length 1 x₁.dims).getD i 1)
        ((aligned p.length 1 x₂.dims).getD i 1) = some (y.dims.getD i 0) :=
    (forall_axis hp).trans <| forall₂_congr fun i hi => by
      rw [h₁.fits.getD_eq hi, h₂.fits.getD_eq hi, ht.getD_dims hp' (hrank.symm ▸ hi)]
  rw [← hjoin]
  refine and_congr_right fun hjoin => ?_
  -- what stands at coordinates of the one stands at the rearranged coordinates of the other
  have hshown : ∀ cs, InBounds y'.dims cs → x₁.shown? p.length (selectD cs p 0) = z₁.shown? p.length cs ∧
      x₂.shown? p.length (selectD cs p 0) = z₂.shown? p.length cs := fun cs hcs => by
    have hlen : y'.dims.length = p.length := hrank
    have hcslen : cs.length = p.length := hcs.length_eq.trans hlen
    constructor
    · refine h₁.shown cs hcslen fun i hi => (joinExtent?_cases (hjoin i hi)).1.imp_right fun he => ?_
      rw [he]
      exact hcs.getD_lt (hlen.symm ▸ hi)
    · refine h₂.shown cs hcslen fun i hi => (joinExtent?_cases (hjoin i hi)).2.imp_right fun he => ?_
      rw [he]
      exact hcs.getD_lt (hlen.symm ▸ hi)
  constructor
  · intro h cs hcs
    rw [ht.1] at hcs
    obtain ⟨cs, hcs', rfl⟩ := exists_selectD hp' hcs
    rw [(hshown cs hcs').1, (hshown cs hcs').2, ht.2 cs hcs']
    exact h cs hcs'
  · intro h cs hcs
    rw [← (hshown cs hcs).1, ← (hshown cs hcs).2, ← ht.2 cs hcs]
    exact h _ (ht.inBounds hp' hcs)

/-- Broadcasts of operands that show what is read in their place differ by the permutation. -/
theorem zipBroadcast_transposed (h₁ : Shows p x₁ z₁) (h₂ : Shows p x₂ z₂) (hp : p.Perm (range p.length))
    (hx : max x₁.rank x₂.rank = p.length) (hz : max z₁.rank z₂.rank = p.length) (h : zipBroadcast f x₁ x₂ = .ok y)
    (hword : WordSized y.dims) : ∃ y', zipBroadcast f z₁ z₂ = .ok y' ∧ y'.rank = p.length ∧ IsTranspose p y' y := by
  have hrank : y.rank = p.length := ((zipBroadcast_eq_ok hx).1 h).2.1
  obtain ⟨y', hrank', ht⟩ := exists_untranspose (y := y) (p := p) (hrank.symm ▸ hp) hword
  have hrank' := hrank'.trans hrank
  have hword' := (ht.wordSized_iff (hrank'.symm ▸ hp)).1 hword
  exact ⟨y', (zipBroadcast_iff h₁ h₂ hp hx hz hrank' ht hword').2 h, hrank', ht⟩

/-- What is read in place of operands has a broadcast only if they have one. -/
theorem exists_zipBroadcast_transposed (h₁ : Shows p x₁ z₁) (h₂ : Shows p x₂ z₂) (hp : p.Perm (range p.length))
    (hx : max x₁.rank x₂.rank = p.length) (hz : max z₁.rank z₂.rank = p.length) (h : zipBroadcast f z₁ z₂ = .ok y')
    (hword : WordSized y'.dims) : ∃ y, zipBroadcast f x₁ x₂ = .ok y ∧ IsTranspose p y' y := by
  have hrank : y'.rank = p.length := ((zipBroadcast_eq_ok hz).1 h).2.1
  obtain ⟨y, ht⟩ := exists_transpose (x := y') (p := p) (hrank.symm ▸ hp) hword
  exact ⟨y, (zipBroadcast_iff h₁ h₂ hp hx hz hrank ht hword).1 h, ht⟩

end Transposed

/-- The type of a broadcast has the extents of its result. -/
theorem broadcast_extents {g : Binary} {f : α → β → γ} {x₁ : Tensor α} {x₂ : Tensor β} {y : Tensor γ}
    {t₁ t₂ t : TensorType} (h₁ : t₁.dims = x₁.dims.map .fixed) (h₂ : t₂.dims = x₂.dims.map .fixed)
    (ht : Typing.resultType (.binary g) [t₁, t₂] = .ok t) (hy : zipBroadcast f x₁ x₂ = .ok y) :
    t.dims = y.dims.map .fixed := by
  have hr₁ : t₁.rank = x₁.rank := by rw [TensorType.rank, h₁, List.length_map, rank]
  have hr₂ : t₂.rank = x₂.rank := by rw [TensorType.rank, h₂, List.length_map, rank]
  obtain ⟨_, _, hrank, hall⟩ := (Typing.broadcast_eq_ok (n := max x₁.rank x₂.rank) (by rw [hr₁, hr₂])).1 ht
  obtain ⟨_, hrank', hall', _⟩ := (zipBroadcast_eq_ok rfl).1 hy
  refine ext_getD hrank (by rw [List.length_map]; exact hrank') (.fixed 1) fun i hi => ?_
  have hjoin := hall i hi
  rw [h₁, h₂, aligned_map, aligned_map, List.getD_map, List.getD_map, Typing.joinDim?_fixed, hall' i hi, Option.map_some,
    Option.some.injEq] at hjoin
  have hi' : i < y.dims.length := hi.trans_eq hrank'.symm
  rw [← hjoin, List.getD_map, getD_congr hi' 1 0]

end Tensor

end Relayout
