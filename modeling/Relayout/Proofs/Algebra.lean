import Relayout.Proofs.Action
import Relayout.Proofs.Reducing

/-!
# The algebra of permutations of axes

Permutations of `n` axes form a group under composition: `compose?` is rearranging one list along another, so it is
associative because rearranging is (`selectD_selectD`), and what cancels a permutation is its inverse and nothing else
(`cancels_iff_eq_inverse`).

Rearranging and then deleting some axes is deleting the axes that these come from, and rearranging what is left along
what remains of the permutation (`restrict_without`).
-/

namespace Relayout.Perm

open List (range)

/-- A permutation of a number of axes. -/
def Permutes (n : Nat) (p : List Nat) : Prop :=
  isPermutation p ∧ p.length = n
  deriving Decidable

/-- The entries of a list but for those at some positions. -/
def without {α : Type} (xs : List α) (positions : List Nat) : List α :=
  (xs.zipIdx.filter fun e => !positions.contains e.2).map (·.1)

section Group

variable {n : Nat} {p q r : List Nat}

theorem permutes_iff : Permutes n p ↔ p.Perm (range n) := by
  rw [Permutes, isPermutation_iff]
  constructor
  · rintro ⟨hp, rfl⟩
    exact hp
  · intro hp
    have hlen := length_of_perm hp
    exact ⟨hlen.symm ▸ hp, hlen⟩

theorem compose?_assoc (hp : p.Perm (range n)) (hq : q.Perm (range n)) (hr : r.Perm (range n)) :
    (compose? p q).bind (compose? · r) = (compose? q r).bind (compose? p) := by
  rw [compose?_eq_some hp hq, compose?_eq_some hq hr, Option.bind_some, Option.bind_some,
    compose?_eq_some (selectD_perm_range hp hq) hr, compose?_eq_some hp (selectD_perm_range hq hr),
    selectD_selectD (lt_length_of_perm hq hr)]

theorem selectD_range_left (hp : p.Perm (range n)) : selectD (range n) p 0 = p := by
  refine ext_getD (by simp [length_of_perm hp]) (length_of_perm hp) 0 fun i hi => ?_
  rw [getD_selectD ((length_of_perm hp).symm ▸ hi)]
  have hlt := getD_mem_of_perm hp hi
  rw [List.getD_eq_getElem _ _ (List.length_range.symm ▸ hlt), List.getElem_range]

theorem cancels_iff_eq_inverse (hp : p.Perm (range n)) (hq : q.Perm (range n)) : cancels p q ↔ q = inverse p := by
  rw [cancels_iff_selectD hp hq]
  constructor
  · intro h
    calc q = selectD (range n) q 0 := (selectD_range_left hq).symm
      _ = selectD (selectD (inverse p) p 0) q 0 := by rw [selectD_inverse_self hp]
      _ = selectD (inverse p) (range n) 0 := by rw [selectD_selectD (lt_length_of_perm hp hq), h]
      _ = inverse p := selectD_range (by rw [length_inverse, length_of_perm hp]) 0
  · rintro rfl
    exact selectD_self_inverse hp

end Group

/-! ## Deleting axes -/

section Deleting

variable {n : Nat} {p axes : List Nat}

theorem without_eq_kept {α : Type} (xs : List α) (positions : List Nat) (fill : α) :
    without xs positions = kept positions.contains fill xs := by
  rw [without, zipIdx_eq_map xs fill, List.filter_map, List.map_map]
  rfl

theorem length_keptAxes (h : ∀ axis ∈ axes, axis < n) : (keptAxes n axes.contains).length = n - axes.toFinset.card := by
  have hkept : (keptAxes n axes.contains).toFinset = Finset.range n \ axes.toFinset := by
    ext i
    simp [mem_keptAxes]
  have hsub : axes.toFinset ⊆ Finset.range n := fun i hi => Finset.mem_range.2 (h i (List.mem_toFinset.1 hi))
  rw [← List.toFinset_card_of_nodup (keptAxes_nodup ..), hkept, Finset.card_sdiff_of_subset hsub, Finset.card_range]

section Sources

variable (hp : p.Perm (range n)) (h : ∀ axis ∈ axes, axis < n)

include hp h

theorem restrict_permutes : (restrict p axes).Perm (range (n - axes.toFinset.card)) := by
  have hr : ∀ i < n, (selectD p axes 0).contains (p.getD i 0) = axes.contains i := fun i hi => contains_sources hp h hi
  have hlen := (map_keptAxes_perm hp hr).length_eq
  rw [List.length_map, length_keptAxes h] at hlen
  rw [hlen]
  exact restrict_perm hp hr fun _ _ => rfl

/-- What remains of a permutation rearranges what is left of a list. -/
theorem restrict_without {α : Type} {xs : List α} (hx : xs.length = n) (fill : α) :
    selectD (without xs (selectD p axes 0)) (restrict p axes) fill = without (selectD xs p fill) axes := by
  have hr : ∀ i < n, (selectD p axes 0).contains (p.getD i 0) = axes.contains i := fun i hi => contains_sources hp h hi
  have hlen := length_of_perm hp
  rw [without_eq_kept _ _ fill, without_eq_kept _ _ fill, kept, kept, hx, length_selectD, hlen,
    selectD_restrict hp hr fun _ _ => rfl]
  exact List.map_congr_left fun i hi => (getD_selectD (hlen.symm ▸ (mem_keptAxes.1 hi).1) fill).symm

/-- No entry is out of range, so nothing has to be filled in. -/
theorem select?_restrict {α : Type} {xs : List α} (hx : xs.length = n) : ∃ ys, select? xs p = some ys ∧
    select? (without xs (selectD p axes 0)) (restrict p axes) = some (without ys axes) := by
  cases xs with
  | nil =>
    subst hx
    rw [List.perm_nil.1 hp]
    exact ⟨[], rfl, rfl⟩
  | cons x xs =>
    have hlt : ∀ axis ∈ p, axis < (x :: xs).length := fun axis ha => hx ▸ (mem_of_perm hp).1 ha
    have hlt' : ∀ axis ∈ restrict p axes, axis < (without (x :: xs) (selectD p axes 0)).length := fun axis ha => by
      rw [without_eq_kept _ _ x, kept, List.length_map, hx]
      exact (mem_of_perm (restrict_perm hp (fun i hi => contains_sources hp h hi) fun _ _ => rfl)).1 ha
    exact ⟨_, select?_eq_some hlt x, by rw [select?_eq_some hlt' x, restrict_without hp h hx]⟩

end Sources

end Deleting

/-- **Permutation algebra.** A list passes as a permutation if and only if nothing is repeated in it and all of it is
in range. Permutations of one length form a group under composition, and two of them cancel if and only if the second
is the inverse of the first. What remains of a permutation when some axes are deleted is one of the axes that are left,
and rearranging a list and deleting those axes is deleting their sources and rearranging along what remains. -/
theorem algebra :
    (∀ p, isPermutation p ↔ p.Nodup ∧ ∀ axis ∈ p, axis < p.length) ∧
    (∀ n p q r, Permutes n p → Permutes n q → Permutes n r →
      (inverse? p = some (inverse p) ∧ Permutes n (inverse p)) ∧
      (∃ pq, compose? p q = some pq ∧ Permutes n pq) ∧
      (compose? p q).bind (compose? · r) = (compose? q r).bind (compose? p) ∧
      (compose? p (identity n) = some p ∧ compose? (identity n) p = some p) ∧
      (compose? p (inverse p) = some (identity n) ∧ compose? (inverse p) p = some (identity n)) ∧
      (cancels p q ↔ q = inverse p)) ∧
    ∀ n p axes, Permutes n p → (∀ axis ∈ axes, axis < n) →
      Permutes (n - axes.toFinset.card) (restrict p axes) ∧
        ∃ sources, select? p axes = some sources ∧ ∀ (α : Type) (dims : List α), dims.length = n →
          ∃ out, select? dims p = some out ∧
            select? (without dims sources) (restrict p axes) = some (without out axes) := by
  refine ⟨fun p => ?_, fun n p q r hp hq hr => ?_, fun n p axes hp haxes => ?_⟩
  · rw [isPermutation_iff, perm_range_iff]
    exact ⟨fun h => h.2, fun h => ⟨rfl, h⟩⟩
  · rw [permutes_iff] at hp hq hr
    have hid : (identity n).Perm (range n) := .refl _
    have hinv := inverse_perm hp
    refine ⟨⟨inverse?_eq_some hp, permutes_iff.2 hinv⟩,
      ⟨_, compose?_eq_some hp hq, permutes_iff.2 (selectD_perm_range hp hq)⟩, compose?_assoc hp hq hr, ⟨?_, ?_⟩,
      ⟨?_, ?_⟩, cancels_iff_eq_inverse hp hq⟩
    · rw [compose?_eq_some hp hid, identity, selectD_range (length_of_perm hp)]
    · rw [compose?_eq_some hid hp, identity, selectD_range_left hp]
    · rw [compose?_eq_some hp hinv, selectD_self_inverse hp, identity]
    · rw [compose?_eq_some hinv hp, selectD_inverse_self hp, identity]
  · rw [permutes_iff] at hp
    have hlt : ∀ axis ∈ axes, axis < p.length := fun axis ha => (length_of_perm hp).symm ▸ haxes axis ha
    exact ⟨permutes_iff.2 (restrict_permutes hp haxes), _, select?_eq_some hlt 0,
      fun α dims hdims => select?_restrict hp haxes hdims⟩

/-- A permutation that is not its own inverse, with the axis deleted that its first one comes from. -/
theorem algebra_cycle : Permutes 4 [2, 0, 3, 1] ∧ inverse [2, 0, 3, 1] = [1, 3, 0, 2] ∧
    compose? [2, 0, 3, 1] [1, 3, 0, 2] = some (identity 4) ∧ cancels [2, 0, 3, 1] [1, 3, 0, 2] ∧
    restrict [2, 0, 3, 1] [0] = [0, 2, 1] ∧ Permutes 3 (restrict [2, 0, 3, 1] [0]) ∧
    ∃ sources out, select? [2, 0, 3, 1] [0] = some sources ∧ select? ["a", "b", "c", "d"] [2, 0, 3, 1] = some out ∧
      select? (without ["a", "b", "c", "d"] sources) (restrict [2, 0, 3, 1] [0]) = some (without out [0]) := by
  have hp : Permutes 4 [2, 0, 3, 1] := by decide
  have hq : Permutes 4 [1, 3, 0, 2] := by decide
  have hinv : inverse [2, 0, 3, 1] = [1, 3, 0, 2] := by decide
  obtain ⟨_, _, _, _, ⟨hcomp, _⟩, hcancel⟩ := algebra.2.1 4 _ _ _ hp hq hq
  obtain ⟨hrest, sources, hsources, hdims⟩ := algebra.2.2 4 _ [0] hp (by decide)
  obtain ⟨out, hout, hdeleted⟩ := hdims String ["a", "b", "c", "d"] rfl
  exact ⟨hp, hinv, hinv ▸ hcomp, hcancel.2 hinv.symm, by decide, hrest, sources, out, hsources, hout, hdeleted⟩

end Relayout.Perm
