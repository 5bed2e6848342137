import Mathlib
import Relayout.Perm

/-!
# Permutations of axes as rearrangements

`Perm.isPermutation` says that a list is a rearrangement of `List.range` (`isPermutation_iff`), and this is the form in
which all proofs use it. Rearranging along one list and then along another is rearranging along their composition
(`selectD_selectD`), so a list that `cancels` another undoes it (`selectD_cancels`), and so does its inverse
(`selectD_inverse`, `selectD_inverse_left`).
-/

namespace Relayout.Perm

open List (range)

variable {α β γ : Type}

/-! ## What it is to be a permutation -/

theorem isPermutation_iff {p : List Nat} : isPermutation p ↔ p.Perm (range p.length) := by
  simp only [isPermutation, List.all_eq_true, List.contains_iff_mem]
  constructor
  · intro h
    have hsub : (range p.length).Subperm p := List.nodup_range.subperm h
    exact (hsub.perm_of_length_le (by simp)).symm
  · intro h axis ha
    exact h.mem_iff.2 ha

theorem nodup_of_perm {p : List Nat} {n : Nat} (h : p.Perm (range n)) : p.Nodup :=
  h.nodup_iff.2 List.nodup_range

theorem length_of_perm {p : List Nat} {n : Nat} (h : p.Perm (range n)) : p.length = n := by
  simpa using h.length_eq

theorem mem_of_perm {p : List Nat} {n axis : Nat} (h : p.Perm (range n)) : axis ∈ p ↔ axis < n := by
  rw [h.mem_iff, List.mem_range]

/-- Permutations of the same axes are in range of each other. -/
theorem lt_length_of_perm {p q : List Nat} {n : Nat} (hp : p.Perm (range n)) (hq : q.Perm (range n)) :
    ∀ axis ∈ q, axis < p.length := by
  intro axis ha
  rw [length_of_perm hp]
  exact (mem_of_perm hq).1 ha

/-- A list of as many axes as there are has all of them if it has none twice. -/
theorem perm_range_iff {p : List Nat} {n : Nat} :
    p.Perm (range n) ↔ p.length = n ∧ p.Nodup ∧ ∀ axis ∈ p, axis < n := by
  constructor
  · intro h
    exact ⟨length_of_perm h, nodup_of_perm h, fun axis ha => (mem_of_perm h).1 ha⟩
  · rintro ⟨hlen, hnd, hlt⟩
    have hsub : p.Subperm (range n) := hnd.subperm fun axis ha => List.mem_range.2 (hlt axis ha)
    exact hsub.perm_of_length_le (by simp [hlen])

/-! ## Rearranging lists -/

@[simp] theorem length_selectD (xs : List α) (axes : List Nat) (fill : α) :
    (selectD xs axes fill).length = axes.length := by
  simp [selectD]

theorem getElem?_selectD (xs : List α) (axes : List Nat) (fill : α) (i : Nat) :
    (selectD xs axes fill)[i]? = (axes[i]?).map (xs.getD · fill) := by
  simp [selectD]

theorem getD_selectD {xs : List α} {axes : List Nat} {fill : α} {i : Nat} (h : i < axes.length) (d : α) :
    (selectD xs axes fill).getD i d = xs.getD (axes.getD i 0) fill := by
  rw [List.getD_eq_getElem?_getD, getElem?_selectD, List.getD_eq_getElem?_getD (l := axes),
    List.getElem?_eq_getElem h]
  simp

theorem select?_eq_some {xs : List α} {axes : List Nat} (h : ∀ axis ∈ axes, axis < xs.length) (fill : α) :
    select? xs axes = some (selectD xs axes fill) := by
  induction axes with
  | nil => rfl
  | cons axis axes ih =>
    have ha := h axis List.mem_cons_self
    have ih := ih fun a ha => h a (List.mem_cons_of_mem _ ha)
    simp only [select?] at ih
    simp [select?, List.mapM_cons, ih, selectD, List.getElem?_eq_getElem ha]

theorem select?_isSome_iff {xs : List α} {axes : List Nat} :
    (select? xs axes).isSome ↔ ∀ axis ∈ axes, axis < xs.length := by
  constructor
  · induction axes with
    | nil => simp
    | cons axis axes ih =>
      intro h
      cases hx : xs[axis]? with
      | none => simp [select?, List.mapM_cons, hx] at h
      | some x =>
        cases hr : select? xs axes with
        | none =>
          rw [select?] at hr
          simp [select?, List.mapM_cons, hx, hr] at h
        | some rest =>
          intro a ha
          rcases List.mem_cons.1 ha with rfl | ha
          · exact (List.getElem?_eq_some_iff.1 hx).1
          · exact ih (by rw [hr]; rfl) a ha
  · intro h
    cases xs with
    | nil =>
      cases axes with
      | nil => rfl
      | cons axis axes => exact absurd (h axis List.mem_cons_self) (by simp)
    | cons x xs => rw [select?_eq_some h x]; rfl

theorem selectD_range {xs : List α} {n : Nat} (h : xs.length = n) (fill : α) : selectD xs (range n) fill = xs := by
  apply List.ext_getElem?
  intro i
  rw [getElem?_selectD]
  by_cases hi : i < n
  · rw [List.getElem?_range hi]
    simp [List.getD_eq_getElem?_getD, List.getElem?_eq_getElem (h ▸ hi)]
  · rw [List.getElem?_eq_none (by simpa using hi), List.getElem?_eq_none (by omega)]
    rfl

/-- One rearrangement after another. -/
theorem selectD_selectD {xs : List α} {p q : List Nat} (h : ∀ axis ∈ q, axis < p.length) (fill : α) :
    selectD (selectD xs p fill) q fill = selectD xs (selectD p q 0) fill := by
  simp only [selectD, List.map_map]
  apply List.map_congr_left
  intro axis ha
  have hget : (selectD xs p fill).getD axis fill = xs.getD (p.getD axis 0) fill := getD_selectD (h axis ha) fill
  simpa [selectD] using hget

theorem selectD_map {f : α → β} (xs : List α) (axes : List Nat) (a : α) :
    selectD (xs.map f) axes (f a) = (selectD xs axes a).map f := by
  simp only [selectD, List.map_map]
  apply List.map_congr_left
  intro axis _
  simp only [List.getD_eq_getElem?_getD, List.getElem?_map, Function.comp_apply]
  cases xs[axis]? <;> rfl

/-- A rearrangement of all entries. -/
theorem selectD_perm {xs : List α} {p : List Nat} {n : Nat} (hp : p.Perm (range n)) (h : xs.length = n) (fill : α) :
    (selectD xs p fill).Perm xs := by
  have := hp.map (xs.getD · fill)
  exact this.trans (.of_eq (selectD_range h fill))

/-- What is out of range does not matter if nothing is. -/
theorem selectD_congr {xs : List α} {axes : List Nat} (h : ∀ axis ∈ axes, axis < xs.length) (a a' : α) :
    selectD xs axes a = selectD xs axes a' := by
  refine List.map_congr_left fun axis ha => ?_
  rw [List.getD_eq_getElem _ _ (h axis ha), List.getD_eq_getElem _ _ (h axis ha)]

theorem getD_mem_of_perm {p : List Nat} {n i : Nat} (hp : p.Perm (range n)) (hi : i < n) : p.getD i 0 < n := by
  rw [List.getD_eq_getElem _ _ ((length_of_perm hp).symm ▸ hi)]
  exact (mem_of_perm hp).1 (List.getElem_mem _)

theorem exists_getD_eq {p : List Nat} {n axis : Nat} (hp : p.Perm (range n)) (h : axis < n) :
    ∃ i < n, p.getD i 0 = axis := by
  obtain ⟨i, hi, rfl⟩ := List.mem_iff_getElem.1 ((mem_of_perm hp).2 h)
  exact ⟨i, length_of_perm hp ▸ hi, List.getD_eq_getElem p 0 hi⟩

/-- What holds at all axes holds at all entries of a permutation, and the other way round. -/
theorem forall_axis {p : List Nat} {n : Nat} (hp : p.Perm (range n)) {P : Nat → Prop} :
    (∀ axis < n, P axis) ↔ ∀ i < n, P (p.getD i 0) := by
  refine ⟨fun h i hi => h _ (getD_mem_of_perm hp hi), fun h axis ha => ?_⟩
  obtain ⟨i, hi, rfl⟩ := exists_getD_eq hp ha
  exact h i hi

theorem getD_inj {p : List Nat} {n i j : Nat} (hp : p.Perm (range n)) (hi : i < n) (hj : j < n)
    (h : p.getD i 0 = p.getD j 0) : i = j := by
  have hlen := length_of_perm hp
  rw [List.getD_eq_getElem _ _ (hlen.symm ▸ hi), List.getD_eq_getElem _ _ (hlen.symm ▸ hj)] at h
  exact (nodup_of_perm hp).getElem_inj_iff.1 h

/-- A list is known by its entries. -/
theorem ext_getD {xs ys : List α} {n : Nat} (hx : xs.length = n) (hy : ys.length = n) (fill : α)
    (h : ∀ i < n, xs.getD i fill = ys.getD i fill) : xs = ys := by
  refine List.ext_getElem (hx.trans hy.symm) fun i hi hi' => ?_
  rw [← List.getD_eq_getElem xs fill hi, ← List.getD_eq_getElem ys fill hi']
  exact h i (hx ▸ hi)

theorem getD_map_range {f : Nat → α} {n i : Nat} (hi : i < n) (fill : α) : ((range n).map f).getD i fill = f i := by
  rw [List.getD_eq_getElem _ _ (by simpa using hi), List.getElem_map, List.getElem_range]

theorem getD_map {f : α → β} {xs : List α} {i : Nat} (hi : i < xs.length) (a : α) (b : β) :
    (xs.map f).getD i b = f (xs.getD i a) := by
  rw [List.getD_eq_getElem _ _ (by simpa using hi), List.getElem_map, List.getD_eq_getElem _ _ hi]

theorem zipIdx_eq_map (xs : List α) (fill : α) :
    xs.zipIdx = (range xs.length).map fun i => (xs.getD i fill, i) := by
  refine List.ext_getElem (by simp) fun i hi hi' => ?_
  have hlt : i < xs.length := by simpa using hi
  simp [List.getElem?_eq_getElem hlt]

theorem getD_zip {xs : List α} {ys : List β} {n i : Nat} (hx : xs.length = n) (hy : ys.length = n) (hi : i < n) (a : α)
    (b : β) : (xs.zip ys).getD i (a, b) = (xs.getD i a, ys.getD i b) := by
  rw [List.getD_eq_getElem _ _ (by rw [List.length_zip, hx, hy]; omega), List.getElem_zip,
    List.getD_eq_getElem _ _ (hx.symm ▸ hi), List.getD_eq_getElem _ _ (hy.symm ▸ hi)]

theorem getD_congr {xs : List α} {i : Nat} (hi : i < xs.length) (a b : α) : xs.getD i a = xs.getD i b := by
  rw [List.getD_eq_getElem _ _ hi, List.getD_eq_getElem _ _ hi]

theorem getD_zipWith {f : α → β → γ} {xs : List α} {ys : List β} {n i : Nat} (hx : xs.length = n) (hy : ys.length = n)
    (hi : i < n) (a : α) (b : β) (c : γ) : (List.zipWith f xs ys).getD i c = f (xs.getD i a) (ys.getD i b) := by
  rw [List.getD_eq_getElem _ _ (by rw [List.length_zipWith, hx, hy]; omega), List.getElem_zipWith,
    List.getD_eq_getElem _ _ (hx.symm ▸ hi), List.getD_eq_getElem _ _ (hy.symm ▸ hi)]

theorem getD_set {xs : List α} {i j : Nat} (hi : i < xs.length) (a fill : α) :
    (xs.set j a).getD i fill = if j = i then a else xs.getD i fill := by
  rw [List.getD_eq_getElem _ _ (by simpa using hi), List.getElem_set, List.getD_eq_getElem _ _ hi]

/-- An entry changed before or after a rearrangement. -/
theorem selectD_set {xs : List α} {p : List Nat} {n axis : Nat} (hp : p.Perm (range n)) (h : xs.length = n)
    (ha : axis < n) (a fill : α) : selectD (xs.set (p.getD axis 0) a) p fill = (selectD xs p fill).set axis a := by
  have hlen := length_of_perm hp
  refine ext_getD (n := n) (by simp [hlen]) (by simp [hlen]) fill fun i hi => ?_
  rw [getD_selectD (hlen.symm ▸ hi), getD_set (h.symm ▸ getD_mem_of_perm hp hi), getD_set (by simpa [hlen] using hi),
    getD_selectD (hlen.symm ▸ hi)]
  exact if_congr ⟨getD_inj hp ha hi, fun he => by rw [he]⟩ rfl rfl

/-! ## Inverses -/

/-- In a list without repetition the last place of an entry is its first. -/
theorem position_eq_idxOf {p : List Nat} (hp : p.Nodup) {axis : Nat} (h : axis ∈ p) :
    position p axis = p.idxOf axis := by
  have hlt := List.idxOf_lt_length_iff.2 h
  have hb : p.length - 1 - p.idxOf axis < p.reverse.length := by simp; omega
  have hget : p.reverse[p.length - 1 - p.idxOf axis] = axis := by
    rw [List.getElem_reverse]
    have : p.length - 1 - (p.length - 1 - p.idxOf axis) = p.idxOf axis := by omega
    simp [this]
  have hidx := (List.nodup_reverse.2 hp).idxOf_getElem _ hb
  rw [hget] at hidx
  rw [position, hidx]
  omega

theorem position_getD {p : List Nat} {n i : Nat} (hp : p.Perm (range n)) (hi : i < n) : position p (p.getD i 0) = i := by
  have hi' : i < p.length := (length_of_perm hp).symm ▸ hi
  rw [position_eq_idxOf (nodup_of_perm hp) ((mem_of_perm hp).2 (getD_mem_of_perm hp hi)), List.getD_eq_getElem _ _ hi',
    (nodup_of_perm hp).idxOf_getElem]

@[simp] theorem length_inverse (p : List Nat) : (inverse p).length = p.length := by
  simp [inverse]

theorem inverse_eq_map_idxOf {p : List Nat} {n : Nat} (hp : p.Perm (range n)) :
    inverse p = (range n).map p.idxOf := by
  rw [inverse, length_of_perm hp]
  apply List.map_congr_left
  intro axis ha
  exact position_eq_idxOf (nodup_of_perm hp) (hp.mem_iff.2 ha)

/-- Following a permutation to the place of an axis gives the axis. -/
theorem selectD_self_inverse {p : List Nat} {n : Nat} (hp : p.Perm (range n)) : selectD p (inverse p) 0 = range n := by
  rw [inverse_eq_map_idxOf hp, selectD, List.map_map]
  conv_rhs => rw [← List.map_id (range n)]
  apply List.map_congr_left
  intro axis ha
  have hlt := List.idxOf_lt_length_iff.2 (hp.mem_iff.2 ha)
  simp [List.getD_eq_getElem?_getD, List.getElem?_eq_getElem hlt]

theorem selectD_inverse_self {p : List Nat} {n : Nat} (hp : p.Perm (range n)) : selectD (inverse p) p 0 = range n := by
  have hlen := length_of_perm hp
  rw [inverse_eq_map_idxOf hp]
  apply List.ext_getElem?
  intro i
  rw [getElem?_selectD]
  by_cases hi : i < n
  · have hip : i < p.length := by omega
    have hmem : p[i] < n := (mem_of_perm hp).1 (List.getElem_mem hip)
    rw [List.getElem?_eq_getElem hip, List.getElem?_range hi, Option.map_some, List.getD_eq_getElem?_getD,
      List.getElem?_map, List.getElem?_range hmem]
    simp [(nodup_of_perm hp).idxOf_getElem]
  · rw [List.getElem?_eq_none (by omega), List.getElem?_eq_none (by simpa using hi)]
    rfl

theorem inverse_perm {p : List Nat} {n : Nat} (hp : p.Perm (range n)) : (inverse p).Perm (range n) := by
  have hlen : (inverse p).length = n := by simp [length_of_perm hp]
  have h := selectD_perm hp hlen 0
  rw [selectD_inverse_self hp] at h
  exact h.symm

theorem selectD_inverse {xs : List α} {p : List Nat} {n : Nat} (hp : p.Perm (range n)) (h : xs.length = n) (fill : α) :
    selectD (selectD xs p fill) (inverse p) fill = xs := by
  rw [selectD_selectD (lt_length_of_perm hp (inverse_perm hp)), selectD_self_inverse hp, selectD_range h]

theorem selectD_inverse_left {xs : List α} {p : List Nat} {n : Nat} (hp : p.Perm (range n)) (h : xs.length = n)
    (fill : α) : selectD (selectD xs (inverse p) fill) p fill = xs := by
  rw [selectD_selectD (lt_length_of_perm (inverse_perm hp) hp), selectD_inverse_self hp, selectD_range h]

/-- A list is known by its rearrangement. -/
theorem selectD_inj {xs ys : List α} {p : List Nat} {n : Nat} (hp : p.Perm (range n)) (hx : xs.length = n)
    (hy : ys.length = n) (fill : α) (h : selectD xs p fill = selectD ys p fill) : xs = ys := by
  rw [← selectD_inverse hp hx fill, h, selectD_inverse hp hy fill]

/-! ## Cancelling -/

theorem cancels_iff {p q : List Nat} :
    cancels p q ↔ p.length = q.length ∧ select? p q = some (range q.length) := by
  unfold cancels compose?
  by_cases hlen : p.length = q.length
  · simp only [hlen, if_true, true_and]
    cases h : select? p q with
    | none => simp
    | some r =>
      have hr : r.length = q.length := by
        have := select?_isSome_iff.1 (by rw [h]; rfl : (select? p q).isSome)
        rw [select?_eq_some this 0] at h
        cases h; simp
      simp [isIdentity, identity, hr]
  · simp [hlen]

/-- A list that cancels a permutation undoes the rearrangement along it. -/
theorem selectD_cancels {xs : List α} {p q : List Nat} (hc : cancels p q) (h : xs.length = p.length) (fill : α) :
    selectD (selectD xs p fill) q fill = xs := by
  obtain ⟨hlen, hsel⟩ := cancels_iff.1 hc
  have hlt := select?_isSome_iff.1 (by rw [hsel]; rfl : (select? p q).isSome)
  rw [select?_eq_some hlt 0] at hsel
  rw [selectD_selectD hlt, Option.some.inj hsel, selectD_range (by omega)]

end Relayout.Perm
