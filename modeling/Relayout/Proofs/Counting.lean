import Relayout.Proofs.Coordinates

/-!
# Counting in words

A checked product fits if all products on the way do: `size?` goes over the leading axes (`size?_eq_some`), `volume?`
over the last ones (`volume?_eq_some`). With an extent of zero among the axes one order may fit and another not.

Extents are `WordSized` if their product fits with every zero replaced by one. That does not depend on their order, it
holds of some of them if it does of all, and no checked product of them fails. Without a zero it says no more than that
the product fits (`wordSized_of_pos`).
-/

namespace Relayout

namespace Word

theorem size?_eq_some {m n : Nat} : size? m = some n ↔ m < 2 ^ 64 ∧ m = n := by
  rw [size?, Option.ite_none_right_eq_some, Option.some_inj]
  exact Iff.rfl

theorem size?_eq_none {n : Nat} : size? n = none ↔ 2 ^ 64 ≤ n := by
  rw [← not_lt, ← Option.not_isSome_iff_eq_none, Option.isSome_iff_exists]
  simp only [size?_eq_some, exists_eq_right', not_lt]

end Word

namespace RowMajor

open Word

/-! ## Checked products -/

/-- Extents are multiplied from the left, and every product on the way must fit. -/
theorem foldlM_mul?_eq_some {dims : List Nat} {m n : Nat} (hm : m < 2 ^ 64) : dims.foldlM mul? m = some n ↔
    (∀ k, m * size (dims.take k) < 2 ^ 64) ∧ m * size dims = n := by
  induction dims generalizing m with
  | nil => simpa using fun _ => hm
  | cons d dims ih =>
    have hprefixes : (∀ k, m * size ((d :: dims).take k) < 2 ^ 64) ↔ ∀ k, m * d * size (dims.take k) < 2 ^ 64 := by
      refine ⟨fun h k => ?_, fun h k => ?_⟩
      · simpa [mul_assoc] using h (k + 1)
      · cases k with
        | zero => simpa using hm
        | succ k => simpa [mul_assoc] using h k
    rw [List.foldlM_cons, hprefixes, size_cons, ← mul_assoc]
    by_cases hmd : m * d < 2 ^ 64
    · rw [mul?, size?_eq_some.2 ⟨hmd, rfl⟩]
      exact ih hmd
    · rw [mul?, size?_eq_none.2 (not_lt.1 hmd)]
      constructor
      · intro h
        cases h
      · rintro ⟨hprefixes', _⟩
        exact absurd (by simpa using hprefixes' 0) hmd

theorem size?_eq_some {dims : List Nat} {n : Nat} :
    size? dims = some n ↔ (∀ k, size (dims.take k) < 2 ^ 64) ∧ size dims = n := by
  rw [size?, foldlM_mul?_eq_some (by norm_num)]
  simp only [one_mul]

theorem size?_take {dims : List Nat} {n : Nat} (h : size? dims = some n) (k : Nat) :
    size? (dims.take k) = some (size (dims.take k)) := by
  refine size?_eq_some.2 ⟨fun j => ?_, rfl⟩
  rw [List.take_take]
  exact (size?_eq_some.1 h).1 _

theorem volume?_eq_some {dims : List Nat} {n : Nat} :
    volume? dims = some n ↔ (∀ k, size (dims.drop k) < 2 ^ 64) ∧ size dims = n := by
  induction dims generalizing n with
  | nil => simp [volume?, eq_comm]
  | cons d dims ih =>
    have hstep : volume? (d :: dims) = (volume? dims).bind (mul? · d) := by
      simp [volume?]
    have hsuffixes : (∀ k, size ((d :: dims).drop k) < 2 ^ 64) ↔
        d * size dims < 2 ^ 64 ∧ ∀ k, size (dims.drop k) < 2 ^ 64 := by
      refine ⟨fun h => ⟨h 0, fun k => h (k + 1)⟩, fun h k => ?_⟩
      cases k with
      | zero => exact h.1
      | succ k => exact h.2 k
    rw [hstep, Option.bind_eq_some_iff, hsuffixes]
    simp only [ih, mul?, Word.size?_eq_some, size_cons]
    grind

theorem stridesFit_iff {dims : List Nat} : stridesFit dims ↔ ∀ k, size (dims.tail.drop k) < 2 ^ 64 := by
  rw [stridesFit, Option.isSome_iff_exists]
  simp only [volume?_eq_some]
  grind

/-! ## Every order of the axes -/

/-- The product of the extents that are not zero is a size. -/
def WordSized (dims : List Nat) : Prop :=
  size (dims.map (max 1)) < 2 ^ 64

instance (dims : List Nat) : Decidable (WordSized dims) :=
  inferInstanceAs (Decidable (_ < _))

theorem size_le_of_forall₂ {es ds : List Nat} (h : List.Forall₂ (· ≤ ·) es ds) : size es ≤ size ds := by
  induction h with
  | nil => rfl
  | cons hd _ ih => exact Nat.mul_le_mul hd ih

theorem WordSized.mono {es ds : List Nat} (h : WordSized ds) (hle : List.Forall₂ (fun e d => e ≤ max 1 d) es ds) :
    WordSized es := by
  refine lt_of_le_of_lt (size_le_of_forall₂ ?_) h
  rw [List.forall₂_map_left_iff, List.forall₂_map_right_iff]
  exact hle.imp fun e d he => max_le (le_max_left ..) he

theorem WordSized.mono_getD {es ds : List Nat} (h : WordSized ds) (hlen : es.length = ds.length)
    (hle : ∀ i < es.length, es.getD i 1 ≤ max 1 (ds.getD i 0)) : WordSized es := by
  refine h.mono (List.forall₂_iff_get.2 ⟨hlen, fun i hi hi' => ?_⟩)
  have := hle i hi
  rwa [List.getD_eq_getElem _ _ hi, List.getD_eq_getElem _ _ hi'] at this

theorem WordSized.perm {es ds : List Nat} (h : WordSized ds) (hperm : es.Perm ds) : WordSized es := by
  rw [WordSized, size_perm (hperm.map _)]
  exact h

theorem WordSized.sublist {es ds : List Nat} (h : WordSized ds) (hsub : es.Sublist ds) : WordSized es := by
  refine lt_of_le_of_lt ?_ h
  rw [size_eq_prod, size_eq_prod]
  exact (hsub.map (max 1)).prod_le_prod' (by simp)

theorem WordSized.size_lt {dims : List Nat} (h : WordSized dims) : size dims < 2 ^ 64 := by
  refine lt_of_le_of_lt (size_le_of_forall₂ ?_) h
  rw [List.forall₂_map_right_iff, List.forall₂_same]
  exact fun d _ => le_max_right ..

theorem WordSized.lt_of_mem {dims : List Nat} (h : WordSized dims) {d : Nat} (hd : d ∈ dims) : d < 2 ^ 64 := by
  simpa using (h.sublist (List.singleton_sublist.2 hd)).size_lt

theorem WordSized.size? {dims : List Nat} (h : WordSized dims) : size? dims = some (size dims) :=
  size?_eq_some.2 ⟨fun _ => (h.sublist (List.take_sublist ..)).size_lt, rfl⟩

theorem WordSized.volume? {dims : List Nat} (h : WordSized dims) : volume? dims = some (size dims) :=
  volume?_eq_some.2 ⟨fun _ => (h.sublist (List.drop_sublist ..)).size_lt, rfl⟩

theorem WordSized.stridesFit {dims : List Nat} (h : WordSized dims) : stridesFit dims :=
  stridesFit_iff.2 fun _ => (h.sublist ((List.drop_sublist ..).trans (List.tail_sublist _))).size_lt

theorem wordSized_set_replicate {n axis extent : Nat} (h : axis < n) (hextent : extent < 2 ^ 64) :
    WordSized ((List.replicate n 1).set axis extent) := by
  rw [WordSized, List.map_set, List.map_replicate, max_self, size_set_replicate h]
  omega

theorem wordSized_of_pos {dims : List Nat} (hpos : ∀ d ∈ dims, 0 < d) (h : size dims < 2 ^ 64) : WordSized dims := by
  have hmap : dims.map (max 1) = dims := (List.map_congr_left fun d hd => max_eq_right (hpos d hd)).trans (List.map_id _)
  rwa [WordSized, hmap]

end RowMajor

end Relayout
