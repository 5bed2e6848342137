import Mathlib
import Relayout.Number.Binary

/-!
# Rounding to a word

A word is a power of two with a significand (`Format.exists_significand`), and so is the word after it, with the same
power. The quotients that lie between the midpoints to the two neighbours of a word are `Near` it; the midpoints belong
to it if it is even. A quotient is rounded to the word that it is near to (`Format.word_of_near`), since on either side
the significand is rounded on a grid of one power of two.
-/

namespace Relayout.Number

/-! ## Quotients -/

section RoundDiv

variable {num den m : Nat}

theorem div_eq_of_between (hlow : m * den ≤ num) (hhigh : num < (m + 1) * den) : num / den = m :=
  Nat.div_eq_of_lt_le hlow hhigh

/-- The remainder decides how a quotient between two whole numbers is rounded. -/
theorem roundDiv_eq (hlow : m * den ≤ num) (hhigh : num < (m + 1) * den) : roundDiv num den =
    if 2 * num < (2 * m + 1) * den then m else if (2 * m + 1) * den < 2 * num then m + 1 else m + m % 2 := by
  have hdiv := div_eq_of_between hlow hhigh
  have hmod : num % den = num - m * den := by rw [Nat.mod_def, hdiv, Nat.mul_comm]
  rw [roundDiv, hdiv, hmod]
  have hexpand : (2 * m + 1) * den = 2 * (m * den) + den := by ring
  rw [hexpand]
  congr 1
  · exact propext (by omega)
  · congr 1
    exact propext (by omega)

end RoundDiv

/-! ## Words -/

namespace Format

variable {f : Format}

/-- Every word is a power of two with a significand, which has its leading digit unless the power is the least one. -/
theorem exists_significand (f : Format) (w : Nat) :
    ∃ e m, w = e * 2 ^ f.fraction + m ∧ m < 2 * 2 ^ f.fraction ∧ (e = 0 ∨ 2 ^ f.fraction ≤ m) := by
  have hlow := Nat.mod_lt w (Nat.two_pow_pos f.fraction)
  have hw := Nat.div_add_mod' w (2 ^ f.fraction)
  cases hfield : w / 2 ^ f.fraction with
  | zero =>
    rw [hfield] at hw
    exact ⟨0, w, by omega, by omega, .inl rfl⟩
  | succ e =>
    rw [hfield, Nat.succ_mul] at hw
    exact ⟨e, 2 ^ f.fraction + w % 2 ^ f.fraction, by omega, by omega, .inr (by omega)⟩

/-- The magnitude of a word; twice the least significand stands for the next power. -/
theorem units_eq {e m : Nat} (hm : m ≤ 2 * 2 ^ f.fraction) (he : e = 0 ∨ 2 ^ f.fraction ≤ m) :
    f.units (e * 2 ^ f.fraction + m) = m * 2 ^ e := by
  have hpos := Nat.two_pow_pos f.fraction
  have hfield : ∀ {field low : Nat}, low < 2 ^ f.fraction → f.units (field * 2 ^ f.fraction + low) =
      if field = 0 then low else (2 ^ f.fraction + low) * 2 ^ (field - 1) := fun {field low} h => by
    have hdiv : (field * 2 ^ f.fraction + low) / 2 ^ f.fraction = field := by
      rw [Nat.mul_comm, Nat.mul_add_div hpos, Nat.div_eq_of_lt h, Nat.add_zero]
    have hmod : (field * 2 ^ f.fraction + low) % 2 ^ f.fraction = low := by
      rw [Nat.mul_comm, Nat.mul_add_mod, Nat.mod_eq_of_lt h]
    rw [units]
    simp only [Nat.pow_eq, hdiv, hmod]
  obtain hlt | hle := Nat.lt_or_ge m (2 ^ f.fraction)
  · obtain rfl := he.resolve_right (by omega)
    rw [hfield hlt, if_pos rfl, pow_zero, mul_one]
  · obtain hlt | rfl : m < 2 * 2 ^ f.fraction ∨ m = 2 * 2 ^ f.fraction := by omega
    · obtain ⟨low, rfl⟩ := Nat.exists_eq_add_of_le hle
      rw [show e * 2 ^ f.fraction + (2 ^ f.fraction + low) = (e + 1) * 2 ^ f.fraction + low by ring, hfield (by omega),
        if_neg (by omega), Nat.add_sub_cancel]
    · rw [show e * 2 ^ f.fraction + 2 * 2 ^ f.fraction = (e + 2) * 2 ^ f.fraction + 0 by ring, hfield hpos,
        if_neg (by omega), show e + 2 - 1 = e + 1 by omega]
      ring

theorem units_lt (f : Format) (w : Nat) : f.units w < f.units (w + 1) := by
  obtain ⟨e, m, rfl, hm, he⟩ := f.exists_significand w
  have hnext : f.units (e * 2 ^ f.fraction + m + 1) = (m + 1) * 2 ^ e :=
    units_eq (Nat.succ_le_of_lt hm) (he.imp_right Nat.le_succ_of_le)
  rw [units_eq hm.le he, hnext]
  exact Nat.mul_lt_mul_of_pos_right (Nat.lt_succ_self m) (Nat.two_pow_pos e)

/-- The neighbours of a word are two steps of a power of two apart, and the word is below twice its significands. -/
theorem exists_gap (f : Format) (w : Nat) : ∃ e, f.units w + 2 * 2 ^ e ≤ f.units (w + 2) ∧
    f.units (w + 1) ≤ 2 * 2 ^ f.fraction * 2 ^ e := by
  obtain ⟨e, m, rfl, hm, he⟩ := f.exists_significand w
  have hnext : f.units (e * 2 ^ f.fraction + m + 1) = (m + 1) * 2 ^ e :=
    units_eq (Nat.succ_le_of_lt hm) (he.imp_right Nat.le_succ_of_le)
  refine ⟨e, ?_, by rw [hnext]; exact Nat.mul_le_mul_right _ hm⟩
  rw [units_eq hm.le he]
  obtain hlt | heq : m + 1 < 2 * 2 ^ f.fraction ∨ m + 1 = 2 * 2 ^ f.fraction := by omega
  · have hafter : f.units (e * 2 ^ f.fraction + m + 2) = (m + 2) * 2 ^ e :=
      units_eq (Nat.succ_le_of_lt hlt) (he.imp_right fun h => by omega)
    rw [hafter, Nat.add_mul]
  · have hpos := Nat.two_pow_pos f.fraction
    have hafter : f.units ((e + 1) * 2 ^ f.fraction + (2 ^ f.fraction + 1)) = (2 ^ f.fraction + 1) * 2 ^ (e + 1) :=
      units_eq (by omega) (.inr (by omega))
    rw [show e * 2 ^ f.fraction + m + 2 = (e + 1) * 2 ^ f.fraction + (2 ^ f.fraction + 1) by rw [Nat.succ_mul]; omega,
      hafter, ← Nat.add_mul, pow_succ, ← mul_assoc, mul_right_comm]
    exact Nat.mul_le_mul_right _ (by omega)

/-- The power of two that a quotient is rounded on. -/
theorem shift_eq {q e m : Nat} (hlow : m * 2 ^ e ≤ q) (hhigh : q < (m + 1) * 2 ^ e) (hm : m < 2 * 2 ^ f.fraction)
    (he : e = 0 ∨ 2 ^ f.fraction ≤ m) : q.log2 - f.fraction = e := by
  have hq : q < 2 ^ (f.fraction + e + 1) := by
    calc q < (m + 1) * 2 ^ e := hhigh
      _ ≤ 2 * 2 ^ f.fraction * 2 ^ e := Nat.mul_le_mul_right _ hm
      _ = 2 ^ (f.fraction + e + 1) := by ring
  rcases he with rfl | he
  · have : q.log2 < f.fraction + 1 := by
      rcases Nat.eq_zero_or_pos q with rfl | hpos
      · simp
      · exact (Nat.log2_lt hpos.ne').2 (by simpa using hq)
    omega
  · have hle : 2 ^ (f.fraction + e) ≤ q := by
      calc 2 ^ (f.fraction + e) = 2 ^ f.fraction * 2 ^ e := pow_add ..
        _ ≤ m * 2 ^ e := Nat.mul_le_mul_right _ he
        _ ≤ q := hlow
    have hne : q ≠ 0 := (lt_of_lt_of_le (Nat.two_pow_pos _) hle).ne'
    rw [(Nat.log2_eq_iff hne).2 ⟨hle, hq⟩, Nat.add_sub_cancel_left]

theorem word_eq {num den e m : Nat} (hden : 0 < den) (hlow : m * (den * 2 ^ e) ≤ num)
    (hhigh : num < (m + 1) * (den * 2 ^ e)) (hm : m < 2 * 2 ^ f.fraction) (he : e = 0 ∨ 2 ^ f.fraction ≤ m) :
    f.word num den = min (e * 2 ^ f.fraction + roundDiv num (den * 2 ^ e)) f.infinity := by
  have hshift : (num / den).log2 - f.fraction = e := by
    refine shift_eq ?_ ?_ hm he
    · rw [Nat.le_div_iff_mul_le hden]
      linarith
    · rw [Nat.div_lt_iff_lt_mul hden]
      linarith
  rw [word]
  simp only [Nat.pow_eq, hshift]

/-- Quotients between the midpoints to the neighbours of a word, in least units. -/
structure Near (f : Format) (w : Nat) (q : ℚ) : Prop where
  low : (f.units (w - 1) + f.units w : ℚ) ≤ 2 * q
  high : 2 * q ≤ (f.units w + f.units (w + 1) : ℚ)
  odd : w % 2 = 1 → (f.units (w - 1) + f.units w : ℚ) < 2 * q ∧ 2 * q < (f.units w + f.units (w + 1) : ℚ)

theorem near_of_lt {w : Nat} {q : ℚ} (hlow : (f.units (w - 1) + f.units w : ℚ) < 2 * q)
    (hhigh : 2 * q < (f.units w + f.units (w + 1) : ℚ)) : f.Near w q :=
  ⟨hlow.le, hhigh.le, fun _ => ⟨hlow, hhigh⟩⟩

theorem Near.units_le {w : Nat} {q : ℚ} (h : f.Near w q) : (f.units w : ℚ) ≤ 2 * q := by
  have hbelow : (0 : ℚ) ≤ f.units (w - 1) := Nat.cast_nonneg _
  linarith [h.low]

/-- On a grid that is finer than the gap between the neighbours of a word, one of the two points around it is near. -/
theorem near_or_near {w : Nat} {p q : ℚ} (hgap : (f.units (w - 1) + 2 * q : ℚ) < f.units (w + 1))
    (hbelow : p ≤ f.units w) (habove : f.units w < p + q) : f.Near w p ∨ f.Near w (p + q) := by
  by_contra hneither
  obtain ⟨hnot, hnot'⟩ := not_or.1 hneither
  have hup : (f.units w : ℚ) < f.units (w + 1) := by exact_mod_cast f.units_lt w
  have hdown : (f.units (w - 1) : ℚ) ≤ f.units w := by
    rcases Nat.eq_zero_or_pos w with rfl | hw
    · exact le_rfl
    · have := f.units_lt (w - 1)
      rw [Nat.sub_add_cancel hw] at this
      exact_mod_cast this.le
  have hleft : 2 * p ≤ f.units (w - 1) + f.units w := by
    by_contra hlt
    exact hnot (near_of_lt (not_le.1 hlt) (by linarith))
  have hright : (f.units w + f.units (w + 1) : ℚ) ≤ 2 * (p + q) := by
    by_contra hlt
    exact hnot' (near_of_lt (by linarith) (not_le.1 hlt))
  linarith

/-- Significands have the parity of their words. -/
theorem significand_mod_two (hf : 0 < f.fraction) (e m : Nat) : (e * 2 ^ f.fraction + m) % 2 = m % 2 := by
  obtain ⟨n, hn⟩ := Nat.exists_eq_add_of_lt hf
  rw [hn, zero_add, pow_succ, ← mul_assoc, Nat.add_mod, Nat.mul_mod_left, zero_add, Nat.mod_mod]

/-- A quotient is rounded to the word that it is near to. -/
theorem word_of_near (hf : 0 < f.fraction) {w num den : Nat} (hw : 0 < w) (hfin : w < f.infinity) (hden : 0 < den)
    (h : f.Near w (num / den)) : f.word num den = w := by
  have hden' : (0 : ℚ) < den := by exact_mod_cast hden
  obtain ⟨hlow, hhigh, hodd⟩ := h
  rw [← mul_div_assoc, le_div_iff₀ hden'] at hlow
  rw [← mul_div_assoc, div_le_iff₀ hden'] at hhigh
  rw [← mul_div_assoc, lt_div_iff₀ hden', div_lt_iff₀ hden'] at hodd
  norm_cast at hlow hhigh hodd
  obtain hbelow | habove := Nat.lt_or_ge num (f.units w * den)
  · -- the significand of the word below goes up
    obtain ⟨w, rfl⟩ := Nat.exists_eq_succ_of_ne_zero hw.ne'
    obtain ⟨e, m, rfl, hm, he⟩ := f.exists_significand w
    have hunits := units_eq hm.le he
    have hnext : f.units (e * 2 ^ f.fraction + m).succ = (m + 1) * 2 ^ e :=
      units_eq (Nat.succ_le_of_lt hm) (he.imp_right Nat.le_succ_of_le)
    rw [Nat.succ_sub_one, hunits, hnext, show (m * 2 ^ e + (m + 1) * 2 ^ e) * den = (2 * m + 1) * (den * 2 ^ e) by ring]
      at hlow hodd
    rw [hnext, show (m + 1) * 2 ^ e * den = (m + 1) * (den * 2 ^ e) by ring] at hbelow
    have hD : 0 < den * 2 ^ e := Nat.mul_pos hden (Nat.two_pow_pos e)
    have hparity := significand_mod_two hf e m
    have hround : roundDiv num (den * 2 ^ e) = m + 1 := by
      rw [roundDiv_eq (by linarith) hbelow, if_neg (by omega)]
      split
      · rfl
      · have : m % 2 = 1 := by
          by_contra hm2
          exact absurd (hodd (by omega)).1 (by omega)
        rw [this]
    rw [word_eq hden (by linarith) hbelow hm he, hround, ← add_assoc]
    exact Nat.min_eq_left hfin.le
  · -- the significand of the word itself stays
    obtain ⟨e, m, rfl, hm, he⟩ := f.exists_significand w
    have hunits := units_eq hm.le he
    have hnext : f.units (e * 2 ^ f.fraction + m + 1) = (m + 1) * 2 ^ e :=
      units_eq (Nat.succ_le_of_lt hm) (he.imp_right Nat.le_succ_of_le)
    rw [hunits, hnext, show (m * 2 ^ e + (m + 1) * 2 ^ e) * den = (2 * m + 1) * (den * 2 ^ e) by ring] at hhigh hodd
    rw [hunits, show m * 2 ^ e * den = m * (den * 2 ^ e) by ring] at habove
    have hD : 0 < den * 2 ^ e := Nat.mul_pos hden (Nat.two_pow_pos e)
    have hparity := significand_mod_two hf e m
    have hlt : num < (m + 1) * (den * 2 ^ e) := by linarith
    have hround : roundDiv num (den * 2 ^ e) = m := by
      rw [roundDiv_eq habove hlt]
      split
      · rfl
      · rw [if_neg (by omega)]
        have : m % 2 = 0 := by
          by_contra hm2
          exact absurd (hodd (by omega)).2 (by omega)
        rw [this, add_zero]
    rw [word_eq hden habove hlt hm he, hround]
    exact Nat.min_eq_left hfin.le

end Format

end Relayout.Number
