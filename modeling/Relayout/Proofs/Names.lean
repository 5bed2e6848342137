import Mathlib
import Relayout.Builder
import Relayout.Editor

/-!
# Fresh names are free

Numbered names with different numbers differ (`numbered_injective`), so among one more candidates than there are taken
names one is free, and the search for a fresh name finds the first of them (`numberedFree_eq`). So trying one number
after another comes to an end, however far the numbers go (`Search`, `fresh_names`), and editors and builders never get
a name that is taken.
-/

namespace Relayout

theorem toString_nat_injective {m n : Nat} (h : toString m = toString n) : m = n := by
  rw [Nat.toString_eq_ofList_toDigits, Nat.toString_eq_ofList_toDigits] at h
  have hd := congrArg String.toList h
  rw [String.toList_ofList, String.toList_ofList] at hd
  rw [← Nat.ofDigitChars_ten_toDigits (n := m), hd, Nat.ofDigitChars_ten_toDigits]

theorem numbered_injective {base : String} : Function.Injective (numbered base) := by
  intro m n h
  have hl := congrArg String.toList h
  simp only [numbered, String.toList_append, List.append_assoc, List.append_cancel_left_eq] at hl
  exact toString_nat_injective (String.toList_injective hl)

/-- Some number from `start` on gives a name that is not taken. -/
theorem exists_numbered_free (taken : List String) (base : String) (start : Nat) :
    ∃ k ∈ List.range' start (taken.length + 1), numbered base k ∉ taken := by
  by_contra hall
  push Not at hall
  have hsub : ((List.range' start (taken.length + 1)).map (numbered base)).Subperm taken := by
    have hnodup : (List.range' start (taken.length + 1)).Nodup := List.nodup_range' ..
    refine (hnodup.map numbered_injective).subperm fun name hname => ?_
    obtain ⟨k, hk, rfl⟩ := List.mem_map.1 hname
    exact hall k hk
  have := hsub.length_le
  simp at this

/-- The name that is found has the least number that is free. -/
theorem numberedFree_eq (taken : List String) (base : String) (start : Nat) :
    ∃ k, IsLeast {k | start ≤ k ∧ numbered base k ∉ taken} k ∧ numberedFree taken base start = numbered base k := by
  obtain ⟨k, hk, hfree⟩ := exists_numbered_free taken base start
  have hsome : ((List.range' start (taken.length + 1)).find? fun k => !taken.contains (numbered base k)).isSome := by
    rw [List.find?_isSome]
    exact ⟨k, hk, by simpa using hfree⟩
  obtain ⟨j, hj⟩ := Option.isSome_iff_exists.1 hsome
  refine ⟨j, ?_, by rw [numberedFree, hj, Option.getD_some]⟩
  obtain ⟨hfree, hmem, hleast⟩ := List.find?_range'_eq_some.1 hj
  refine ⟨⟨(List.mem_range'_1.1 hmem).1, by simpa using hfree⟩, fun i hi => ?_⟩
  by_contra hlt
  have := hleast i hi.1 (Nat.lt_of_not_le hlt)
  simp [hi.2] at this

theorem numberedFree_not_mem (taken : List String) (base : String) (start : Nat) :
    numberedFree taken base start ∉ taken := by
  obtain ⟨k, hk, he⟩ := numberedFree_eq taken base start
  rw [he]
  exact hk.1.2

theorem freshName_of_mem {taken : List String} {base : String} (h : base ∈ taken) :
    freshName taken base = numberedFree taken base 1 := by
  rw [freshName, if_pos (by simpa using h)]

theorem freshName_of_not_mem {taken : List String} {base : String} (h : base ∉ taken) : freshName taken base = base := by
  rw [freshName, if_neg (by simpa using h)]

theorem freshName_not_mem (taken : List String) (base : String) : freshName taken base ∉ taken := by
  by_cases h : base ∈ taken
  · rw [freshName_of_mem h]
    exact numberedFree_not_mem taken base 1
  · rwa [freshName_of_not_mem h]

/-- A fresh name is the name itself or a numbered one. -/
theorem freshName_eq (taken : List String) (base : String) :
    freshName taken base = base ∨ ∃ k, freshName taken base = numbered base k := by
  by_cases h : base ∈ taken
  · exact .inr ⟨_, freshName_of_mem h⟩
  · exact .inl (freshName_of_not_mem h)

/-! ## Searching without a bound -/

/-- Trying one number after another, from some number on, ends in a name. -/
inductive Search (taken : String → Prop) (base : String) : Nat → String → Prop
  | found {k : Nat} (h : ¬taken (numbered base k)) : Search taken base k (numbered base k)
  | next {k : Nat} {name : String} (h : taken (numbered base k)) (rest : Search taken base (k + 1) name) :
    Search taken base k name

/-- A search ends at the first number that is free. -/
theorem Search.of_isLeast {taken : String → Prop} {base : String} {start k : Nat}
    (h : IsLeast {k | start ≤ k ∧ ¬taken (numbered base k)} k) : Search taken base start (numbered base k) := by
  -- on the distance to the first free number
  obtain ⟨d, hd⟩ := Nat.exists_eq_add_of_le h.1.1
  induction d generalizing start with
  | zero =>
    rw [Nat.add_zero] at hd
    exact hd ▸ .found h.1.2
  | succ d ih =>
    have hstart : taken (numbered base start) := by
      by_contra hfree
      have := h.2 ⟨le_refl start, hfree⟩
      omega
    exact .next hstart (ih ⟨⟨by omega, h.1.2⟩, fun j hj => h.2 ⟨by have := hj.1; omega, hj.2⟩⟩ (by omega))

theorem Table.get?_eq_none {ν : Type} {t : Table String ν} {name : String} : t.get? name = none ↔ name ∉ t.map (·.1) := by
  rw [Table.get?, List.lookup_eq_none_iff]
  simp only [List.mem_map, not_exists, not_and, bne_iff_ne, ne_comm, ne_eq]

/-- **Fresh names.** However many names are taken, an editor finds a free name: the one asked for if it is free, and
otherwise the first free one numbered from one. A builder finds the first free one numbered from its next id. Both
searches come to an end without a bound on the numbers. -/
theorem fresh_names :
    (∀ (s : Editor) (base : String), s.index.named? (s.freshName base) = none ∧
      (s.index.named? base = none → s.freshName base = base) ∧
      (s.index.named? base ≠ none → Search (s.index.named? · ≠ none) base 1 (s.freshName base) ∧
        ∃ k, IsLeast {k | 1 ≤ k ∧ s.index.named? (numbered base k) = none} k ∧ s.freshName base = numbered base k)) ∧
    ∀ (s : Builder) (base : String), s.autoName base ∉ s.names ∧
      Search (· ∈ s.names) base s.nextValue (s.autoName base) ∧
        ∃ k, IsLeast {k | s.nextValue ≤ k ∧ numbered base k ∉ s.names} k ∧ s.autoName base = numbered base k := by
  refine ⟨fun s base => ?_, fun s base => ?_⟩
  · have hnamed : ∀ {name}, s.index.named? name = none ↔ name ∉ s.index.names.map (·.1) := Table.get?_eq_none
    refine ⟨hnamed.2 (freshName_not_mem _ _), fun h => freshName_of_not_mem (hnamed.1 h), fun h => ?_⟩
    have htaken : base ∈ s.index.names.map (·.1) := not_not.1 fun hfree => h (hnamed.2 hfree)
    obtain ⟨k, hk, he⟩ := numberedFree_eq (s.index.names.map (·.1)) base 1
    rw [Editor.freshName, freshName_of_mem htaken, he]
    simp only [← hnamed] at hk
    exact ⟨.of_isLeast (by simpa only [not_not] using hk), k, hk, rfl⟩
  · obtain ⟨k, hk, he⟩ := numberedFree_eq s.names base s.nextValue
    rw [Builder.autoName, he]
    exact ⟨hk.1.2, .of_isLeast hk, k, hk, rfl⟩

/-- An editor in which a name and two numbered ones are taken. -/
def crowded : Editor :=
  ⟨.empty "crowded", { names := [("t", ⟨0⟩), ("t_1", ⟨1⟩), ("t_3", ⟨2⟩)] }⟩

/-- A builder in which names are taken before and after its next id. -/
def crowdedBuilder : Builder :=
  ⟨.empty "crowded", ["relu_1", "relu_3", "relu_4"], 3, 3⟩

theorem fresh_names_crowded : crowded.index.named? "t" ≠ none ∧ crowded.freshName "t" = "t_2" ∧
    (∃ k, IsLeast {k | 1 ≤ k ∧ crowded.index.named? (numbered "t" k) = none} k ∧ crowded.freshName "t" = numbered "t" k) ∧
    crowdedBuilder.autoName "relu" = "relu_5" ∧
      Search (· ∈ crowdedBuilder.names) "relu" 3 (crowdedBuilder.autoName "relu") :=
  have htaken : crowded.index.named? "t" ≠ none := by decide
  ⟨htaken, by cbv, ((fresh_names.1 crowded "t").2.2 htaken).2, by cbv, (fresh_names.2 crowdedBuilder "relu").2.1⟩

end Relayout
