import Relayout.Number.Numeral
import Relayout.Proofs.Cutting
import Relayout.Proofs.Rounding

/-!
# Numbers in text

Sizes and numbers are read back from their text (`readSize?_digitsOf`, `Binary64.read?_text`). For numbers, the shortest
decimal of a word is near it (`Decimal.shortest_near`): a candidate is taken only if it is, and on the grid of the
seventeenth digit one of the two decimals around a value is near, since the grid is finer than the gap between the words
around it. A decimal near a word is rounded to that word, however it is written (`Decimal.toBinary_of_near`).
-/

namespace Relayout.Number

/-! ## Digits -/

theorem digitsValue_append (s t : List Char) : digitsValue (s ++ t) = digitsValue s * 10 ^ t.length + digitsValue t := by
  change Nat.ofDigitChars 10 (s ++ t) 0 = _
  rw [Nat.ofDigitChars_append, Nat.ofDigitChars_eq_ofDigitChars_zero, Nat.mul_comm]
  rfl

@[simp] theorem digitsValue_digitsOf (n : Nat) : digitsValue (digitsOf n) = n :=
  Nat.ofDigitChars_ten_toDigits

theorem digitsValue_zeros (n : Nat) : digitsValue (List.replicate n '0') = 0 := by
  change Nat.ofDigitChars 10 _ 0 = 0
  rw [Nat.ofDigitChars_replicate_zero, Nat.mul_zero]

theorem digitsOf_ne_nil (n : Nat) : digitsOf n ≠ [] :=
  Nat.toDigits_ne_nil

theorem isDigit_of_mem_digitsOf {n : Nat} {c : Char} (h : c ∈ digitsOf n) : c.isDigit :=
  Nat.isDigit_of_mem_toDigits (by decide) (by decide) h

/-- Only zero starts with a zero. -/
theorem digitsOf_head? {n : Nat} (h : (digitsOf n).head? = some '0') : digitsOf n = ['0'] := by
  induction n using Nat.strongRecOn with
  | ind n ih =>
    rw [digitsOf, Nat.toDigits_eq_if (by decide)] at h ⊢
    split at h
    · rename_i hlt
      rw [if_pos hlt]
      exact congrArg ([·]) (Option.some.inj h)
    · rename_i hge
      rw [List.head?_append_of_ne_nil _ Nat.toDigits_ne_nil] at h
      have hzero : digitsValue (digitsOf (n / 10)) = 0 := by
        rw [ih (n / 10) (by omega) h]
        rfl
      rw [digitsValue_digitsOf] at hzero
      omega

theorem isDigit_of_mem_zeros {n : Nat} {c : Char} (h : c ∈ List.replicate n '0') : c.isDigit := by
  rw [List.eq_of_mem_replicate h]
  rfl

theorem lt_pow_length_digitsOf (n : Nat) : n < 10 ^ (digitsOf n).length :=
  (Nat.length_toDigits_le_iff (by decide) Nat.length_toDigits_pos).1 le_rfl

theorem pow_length_digitsOf_le {n : Nat} (h : 0 < n) : 10 ^ ((digitsOf n).length - 1) ≤ n := by
  obtain hone | hmore : (digitsOf n).length - 1 = 0 ∨ 0 < (digitsOf n).length - 1 := by omega
  · rw [hone]
    exact h
  · by_contra hlt
    have : (digitsOf n).length ≤ (digitsOf n).length - 1 :=
      (Nat.length_toDigits_le_iff (by decide) hmore).2 (not_le.1 hlt)
    omega

theorem toList_toString (n : Nat) : (toString n).toList = digitsOf n := by
  rw [Nat.toString_eq_ofList_toDigits, String.toList_ofList]
  rfl

theorem digitsOf_ne_cons {n : Nat} {c : Char} (hc : c.isDigit = false) (s : List Char) : digitsOf n ≠ c :: s := by
  intro h
  have := isDigit_of_mem_digitsOf (n := n) (c := c) (by rw [h]; exact List.mem_cons_self)
  rw [hc] at this
  cases this

/-- The text of a size is read back. -/
theorem readSize?_digitsOf {n : Nat} (h : n < 2 ^ 64) : readSize? (digitsOf n) = some n := by
  have hall : (digitsOf n).all Char.isDigit := List.all_eq_true.2 fun c hc => isDigit_of_mem_digitsOf hc
  unfold readSize?
  dsimp only
  split
  · rename_i rest heq
    exact absurd heq (digitsOf_ne_cons (by decide) rest)
  · rw [if_pos ⟨digitsOf_ne_nil n, hall, by rwa [digitsValue_digitsOf]⟩, digitsValue_digitsOf]

/-! ## Decimals -/

namespace Decimal

def value (d : Decimal) : ℚ :=
  d.digits * 10 ^ d.exponent

theorem powTen_pos (e : Int) : 0 < (powTen e).1 ∧ 0 < (powTen e).2 := by
  have hpos : 0 < Nat.pow 10 e.natAbs := Nat.pow_pos (by decide)
  rw [powTen]
  split
  · exact ⟨Nat.one_pos, hpos⟩
  · exact ⟨hpos, Nat.one_pos⟩

theorem powTen_eq (e : Int) : ((powTen e).1 : ℚ) / (powTen e).2 = 10 ^ e := by
  rw [powTen]
  split
  · rename_i he
    obtain ⟨n, hn⟩ := Int.exists_eq_neg_ofNat he.le
    subst hn
    simp
  · rename_i he
    obtain ⟨n, rfl⟩ := Int.eq_ofNat_of_zero_le (not_lt.1 he)
    simp

/-- The value of a decimal lies between two powers of ten. -/
theorem value_lt (d : Decimal) : d.value < 10 ^ (((digitsOf d.digits).length : Int) + d.exponent) := by
  rw [value, zpow_add₀ (by norm_num), zpow_natCast]
  refine mul_lt_mul_of_pos_right ?_ (by positivity)
  exact_mod_cast lt_pow_length_digitsOf d.digits

theorem le_value {d : Decimal} (h : 0 < d.digits) :
    (10 : ℚ) ^ (((digitsOf d.digits).length : Int) + d.exponent - 1) ≤ d.value := by
  have hpos : 0 < (digitsOf d.digits).length := List.length_pos_of_ne_nil (digitsOf_ne_nil _)
  rw [value, show ((digitsOf d.digits).length : Int) + d.exponent - 1 =
    ((digitsOf d.digits).length - 1 : Nat) + d.exponent by omega, zpow_add₀ (by norm_num), zpow_natCast]
  refine mul_le_mul_of_nonneg_right ?_ (by positivity)
  exact_mod_cast pow_length_digitsOf_le h

theorem value_trim (fuel : Nat) (d : Decimal) : (trim fuel d).value = d.value := by
  induction fuel generalizing d with
  | zero => rfl
  | succ fuel ih =>
    rw [trim]
    split
    · rename_i h
      rw [ih, value, value]
      dsimp only
      obtain ⟨n, hn⟩ := Nat.dvd_of_mod_eq_zero h
      rw [hn, Nat.mul_div_cancel_left _ (by decide), zpow_add_one₀ (by norm_num)]
      push_cast
      ring
    · rfl

/-! ## Candidates -/

open Format (double)

/-- The test for a candidate. -/
theorem inside_iff {f : Format} {w c n num den : Nat} (hden : 0 < den) :
    ((if w % 2 = 0 then
        decide ((f.units w + f.units (w - 1)) * den ≤ 2 * c * (num * Nat.pow 2 n)) &&
          decide (2 * c * (num * Nat.pow 2 n) ≤ (f.units w + f.units (w + 1)) * den)
      else
        decide ((f.units w + f.units (w - 1)) * den < 2 * c * (num * Nat.pow 2 n)) &&
          decide (2 * c * (num * Nat.pow 2 n) < (f.units w + f.units (w + 1)) * den)) = true) ↔
      f.Near w (c * (num / den) * 2 ^ n) := by
  have hden' : (0 : ℚ) < den := by exact_mod_cast hden
  have hq : 2 * ((c : ℚ) * (num / den) * 2 ^ n) = (2 * c * (num * 2 ^ n) : ℕ) / den := by
    push_cast
    ring
  have hlow : (f.units (w - 1) + f.units w : ℚ) ≤ 2 * (c * (num / den) * 2 ^ n) ↔
      (f.units w + f.units (w - 1)) * den ≤ 2 * c * (num * 2 ^ n) := by
    rw [hq, le_div_iff₀ hden', add_comm]
    norm_cast
  have hlow' : (f.units (w - 1) + f.units w : ℚ) < 2 * (c * (num / den) * 2 ^ n) ↔
      (f.units w + f.units (w - 1)) * den < 2 * c * (num * 2 ^ n) := by
    rw [hq, lt_div_iff₀ hden', add_comm]
    norm_cast
  have hhigh : 2 * (c * (num / den) * 2 ^ n) ≤ (f.units w + f.units (w + 1) : ℚ) ↔
      2 * c * (num * 2 ^ n) ≤ (f.units w + f.units (w + 1)) * den := by
    rw [hq, div_le_iff₀ hden']
    norm_cast
  have hhigh' : 2 * (c * (num / den) * 2 ^ n) < (f.units w + f.units (w + 1) : ℚ) ↔
      2 * c * (num * 2 ^ n) < (f.units w + f.units (w + 1)) * den := by
    rw [hq, div_lt_iff₀ hden']
    norm_cast
  simp only [Nat.pow_eq]
  split
  · rename_i heven
    rw [Bool.and_eq_true, decide_eq_true_eq, decide_eq_true_eq, ← hlow, ← hhigh]
    exact ⟨fun h => ⟨h.1, h.2, fun hodd => absurd heven (by omega)⟩, fun h => ⟨h.low, h.high⟩⟩
  · rename_i hodd
    rw [Bool.and_eq_true, decide_eq_true_eq, decide_eq_true_eq, ← hlow', ← hhigh']
    exact ⟨fun h => ⟨h.1.le, h.2.le, fun _ => h⟩, fun h => h.odd (by omega)⟩

theorem candidate_near {tie : Tie} {w : Nat} {e : Int} {d : Decimal} (h : candidate tie w e = some d) :
    double.Near w (d.value * 2 ^ double.scale) := by
  have hnear : ∀ c : Nat, double.Near w (c * ((powTen e).1 / (powTen e).2) * 2 ^ double.scale) →
      double.Near w ((⟨c, e⟩ : Decimal).value * 2 ^ double.scale) := fun c hc => by
    rwa [powTen_eq] at hc
  rw [candidate] at h
  dsimp only at h
  generalize double.units w * (powTen e).2 / ((powTen e).1 * Nat.pow 2 double.scale) = below at h
  split at h
  · rename_i hbelow habove
    rw [inside_iff (powTen_pos e).2] at hbelow habove
    obtain rfl := Option.some.inj h
    refine hnear _ ?_
    split
    · exact hbelow
    · split
      · exact habove
      · cases tie with
        | toEven =>
          obtain heven | hodd := Nat.mod_two_eq_zero_or_one below
          · simp only [heven, add_zero]
            exact hbelow
          · simp only [hodd]
            exact habove
        | away => exact habove
  · rename_i hbelow _
    rw [inside_iff (powTen_pos e).2] at hbelow
    obtain rfl := Option.some.inj h
    exact hnear _ hbelow
  · rename_i _ habove
    rw [inside_iff (powTen_pos e).2] at habove
    obtain rfl := Option.some.inj h
    exact hnear _ habove
  · cases h

/-- The multiples of a step around a number. -/
theorem multiples_around (n : Nat) {step den : Nat} (hstep : 0 < step) (hden : 0 < den) :
    (n * den / step : ℕ) * (step / den : ℚ) ≤ n ∧ (n : ℚ) < (n * den / step : ℕ) * (step / den : ℚ) + step / den := by
  have hden' : (0 : ℚ) < den := by exact_mod_cast hden
  rw [← mul_div_assoc, div_le_iff₀ hden', ← add_div, lt_div_iff₀ hden', ← add_one_mul]
  constructor
  · exact_mod_cast Nat.div_mul_le_self (n * den) step
  · have := Nat.lt_mul_div_succ (n * den) hstep
    rw [Nat.mul_comm step] at this
    exact_mod_cast this

/-- On a grid of seventeen digits one of the two decimals around a value is near. -/
theorem exists_candidate (tie : Tie) {w : Nat} (hw : 0 < w) {e : Int}
    (he : (10 : ℚ) ^ e * 2 ^ double.scale * 10 ^ 16 ≤ double.units w) : ∃ d, candidate tie w e = some d := by
  have hgap : (double.units (w - 1) + 2 * (10 ^ e * 2 ^ double.scale) : ℚ) < double.units (w + 1) := by
    obtain ⟨k, hgap, hle⟩ := double.exists_gap (w - 1)
    rw [Nat.sub_add_cancel hw] at hle
    rw [show w - 1 + 2 = w + 1 by omega] at hgap
    have hgap' : (double.units (w - 1) + 2 * 2 ^ k : ℚ) ≤ double.units (w + 1) := by exact_mod_cast hgap
    have hle' : (double.units w : ℚ) ≤ 2 * 2 ^ 52 * 2 ^ k := by exact_mod_cast hle
    have hpow : (0 : ℚ) < 2 ^ k := by positivity
    linarith
  have hstep : 0 < (powTen e).1 * Nat.pow 2 double.scale :=
    Nat.mul_pos (powTen_pos e).1 (by rw [Nat.pow_eq]; positivity)
  have hgrid : (((powTen e).1 * Nat.pow 2 double.scale : ℕ) / (powTen e).2 : ℚ) = 10 ^ e * 2 ^ double.scale := by
    rw [← powTen_eq, Nat.pow_eq]
    push_cast
    ring
  obtain ⟨hbelow, habove⟩ := multiples_around (double.units w) hstep (powTen_pos e).2
  rw [hgrid] at hbelow habove
  have hnear := Format.near_or_near hgap hbelow habove
  rw [candidate]
  dsimp only
  generalize double.units w * (powTen e).2 / ((powTen e).1 * Nat.pow 2 double.scale) = below at hnear ⊢
  split
  · exact ⟨_, rfl⟩
  · exact ⟨_, rfl⟩
  · exact ⟨_, rfl⟩
  · rename_i hno hno'
    rw [← Bool.not_eq_true, inside_iff (powTen_pos e).2, powTen_eq, mul_assoc] at hno hno'
    refine absurd hnear (not_or.2 ⟨hno, ?_⟩)
    rwa [Nat.cast_succ, add_one_mul] at hno'

theorem le_zeros {num den : Nat} : ∀ {fuel k : Nat}, den ≤ num * 10 ^ (k + fuel) →
    den ≤ num * 10 ^ zeros num den fuel k
  | 0, _, h => h
  | fuel + 1, k, h => by
    rw [zeros]
    split
    · assumption
    · exact le_zeros (by rwa [Nat.add_right_comm, Nat.add_assoc])

/-- The leading digit of a quotient stands at its leading exponent. -/
theorem pow_leading_le {num den : Nat} (hden : 0 < den) (hle : den ≤ num * 10 ^ (1 + 400)) :
    (10 : ℚ) ^ leading num den ≤ num / den := by
  have hden' : (0 : ℚ) < den := by exact_mod_cast hden
  rw [le_div_iff₀ hden', leading]
  split
  · rename_i h
    have hq : 0 < num / den := Nat.div_pos h hden
    have hlen : 0 < (Nat.toDigits 10 (num / den)).length := Nat.length_toDigits_pos
    rw [show ((Nat.toDigits 10 (num / den)).length : Int) - 1 = ((Nat.toDigits 10 (num / den)).length - 1 : Nat) by omega,
      zpow_natCast]
    have hpow := pow_length_digitsOf_le hq
    have := (Nat.mul_le_mul_right den hpow).trans (Nat.div_mul_le_self num den)
    exact_mod_cast this
  · have hzeros : den ≤ num * 10 ^ zeros num den 400 1 := le_zeros hle
    rw [zpow_neg, zpow_natCast, inv_mul_le_iff₀ (by positivity), mul_comm]
    exact_mod_cast hzeros

theorem units_pos {w : Nat} (hw : 0 < w) : 0 < double.units w := by
  have := double.units_lt (w - 1)
  rw [Nat.sub_add_cancel hw] at this
  omega

theorem two_pow_lt {n : Nat} (h : n ≤ 3 * 400) : 2 ^ n < 10 ^ 400 :=
  calc 2 ^ n ≤ 2 ^ (3 * 400) := Nat.pow_le_pow_right (by decide) h
    _ = (2 ^ 3) ^ 400 := by rw [← Nat.pow_mul]
    _ < 10 ^ 400 := Nat.pow_lt_pow_left (by decide) (Nat.succ_ne_zero 399)

theorem pow_first_le {w : Nat} (hw : 0 < w) :
    (10 : ℚ) ^ leading (double.units w) (Nat.pow 2 double.scale) * 2 ^ double.scale ≤ double.units w := by
  have hle : Nat.pow 2 double.scale ≤ double.units w * 10 ^ (1 + 400) :=
    calc Nat.pow 2 double.scale = 2 ^ double.scale := by rw [Nat.pow_eq]
      _ ≤ 10 ^ 400 := (two_pow_lt (by decide)).le
      _ ≤ 10 ^ (1 + 400) := Nat.pow_le_pow_right (by decide) (by decide)
      _ ≤ double.units w * 10 ^ (1 + 400) := Nat.le_mul_of_pos_left _ (units_pos hw)
  have hpos : 0 < Nat.pow 2 double.scale := by rw [Nat.pow_eq]; positivity
  have hlead := pow_leading_le hpos hle
  rw [le_div_iff₀ (by exact_mod_cast hpos)] at hlead
  exact_mod_cast hlead

/-- The shortest decimal of a word is near it: the seventeenth digit has a candidate. -/
theorem shortest_near (tie : Tie) {w : Nat} (hw : 0 < w) :
    double.Near w ((shortest tie w).value * 2 ^ double.scale) := by
  rw [shortest, value_trim]
  have hfirst := pow_first_le hw
  generalize leading (double.units w) (Nat.pow 2 double.scale) = first at hfirst ⊢
  have hlast : (10 : ℚ) ^ (first - (16 : ℕ)) * 2 ^ double.scale * 10 ^ 16 ≤ double.units w := by
    rw [zpow_sub₀ (by norm_num), zpow_natCast]
    calc (10 : ℚ) ^ first / 10 ^ 16 * 2 ^ double.scale * 10 ^ 16 = 10 ^ first * 2 ^ double.scale := by ring
      _ ≤ double.units w := hfirst
  obtain ⟨d, hd⟩ := exists_candidate tie hw hlast
  obtain ⟨d', hd'⟩ : ∃ d', ((List.range 17).findSome? fun (n : Nat) => candidate tie w (first - n)) = some d' := by
    rw [← Option.isSome_iff_exists, List.findSome?_isSome_iff]
    exact ⟨16, by decide, Option.isSome_iff_exists.2 ⟨d, hd⟩⟩
  obtain ⟨n, _, hn⟩ := List.exists_of_findSome?_eq_some hd'
  rw [hd']
  exact candidate_near hn

/-! ## Reading -/

theorem units_infinity : double.units double.infinity = 2 ^ 1024 * 2 ^ double.scale := by
  have hinf : double.infinity = 2045 * 2 ^ double.fraction + 2 * 2 ^ double.fraction := by decide
  rw [hinf, Format.units_eq le_rfl (.inr (by omega)), ← Nat.pow_succ', ← Nat.pow_add, ← Nat.pow_add]
  exact congrArg (2 ^ ·) (by decide)

theorem units_le {w : Nat} (h : w ≤ double.infinity) : double.units w ≤ 2 ^ 1024 * 2 ^ double.scale := by
  rw [← units_infinity]
  exact (strictMono_nat_of_lt_succ double.units_lt).monotone h

section Near

variable {d : Decimal} {w : Nat}

theorem digits_pos_of_near (hw : 0 < w) (h : double.Near w (d.value * 2 ^ double.scale)) : 0 < d.digits := by
  rw [Nat.pos_iff_ne_zero]
  intro hzero
  have hunits : (0 : ℚ) < double.units w := by exact_mod_cast units_pos hw
  have hle := h.units_le
  rw [value, hzero, Nat.cast_zero, zero_mul, zero_mul, mul_zero] at hle
  exact absurd hunits (not_lt.2 hle)

theorem le_magnitude_of_near (hw : 0 < w) (h : double.Near w (d.value * 2 ^ double.scale)) :
    -400 ≤ ((digitsOf d.digits).length : Int) + d.exponent := by
  by_contra hlt
  have hunits : (1 : ℚ) ≤ double.units w := by exact_mod_cast units_pos hw
  have hvalue : d.value ≤ (10 ^ 400)⁻¹ := by
    rw [← zpow_natCast, ← zpow_neg]
    exact (value_lt d).le.trans (zpow_le_zpow_right₀ (by norm_num) (by push_cast; omega))
  have hpow : (2 * 2 ^ double.scale : ℚ) < 10 ^ 400 := by
    rw [← pow_succ']
    exact_mod_cast two_pow_lt (by decide)
  have hlow : (1 : ℚ) ≤ d.value * (2 * 2 ^ double.scale) := by linarith [h.units_le]
  have hle := hlow.trans (mul_le_mul_of_nonneg_right hvalue (by positivity))
  rw [le_inv_mul_iff₀ (by positivity), mul_one] at hle
  exact absurd hpow (not_lt.2 hle)

theorem magnitude_le_of_near (hfin : w < double.infinity) (hpos : 0 < d.digits)
    (h : double.Near w (d.value * 2 ^ double.scale)) :
    ((digitsOf d.digits).length : Int) + d.exponent ≤ 400 := by
  by_contra hlt
  have hvalue : (10 : ℚ) ^ 400 ≤ d.value := by
    rw [← zpow_natCast]
    exact (zpow_le_zpow_right₀ (by norm_num) (by push_cast; omega)).trans (le_value hpos)
  have hpow : (2 ^ 1024 : ℚ) < 10 ^ 400 := by exact_mod_cast two_pow_lt (by decide)
  have hle : (double.units w : ℚ) ≤ 2 ^ 1024 * 2 ^ double.scale := by exact_mod_cast units_le hfin.le
  have hle' : (double.units (w + 1) : ℚ) ≤ 2 ^ 1024 * 2 ^ double.scale := by
    exact_mod_cast units_le (Nat.succ_le_of_lt hfin)
  have hle : d.value * 2 ^ double.scale ≤ 2 ^ 1024 * 2 ^ double.scale := by linarith [h.high]
  have := le_of_mul_le_mul_right hle (by positivity)
  exact absurd (hpow.trans_le hvalue) (not_lt.2 this)

/-- A decimal near a word is rounded to that word. -/
theorem toBinary_of_near {negative : Bool} (hw : 0 < w) (hfin : w < double.infinity)
    (h : double.Near w (d.value * 2 ^ double.scale)) : d.toBinary negative = Binary64.ofMagnitude negative w := by
  have hpos := digits_pos_of_near hw h
  have hlow := le_magnitude_of_near hw h
  have hhigh := magnitude_le_of_near hfin hpos h
  have hratio : ((d.digits * (powTen d.exponent).1 * Nat.pow 2 double.scale : ℕ) / (powTen d.exponent).2 : ℚ) =
      d.value * 2 ^ double.scale := by
    rw [value, ← powTen_eq, Nat.pow_eq]
    push_cast
    ring
  rw [toBinary]
  dsimp only
  rw [if_neg (not_or.2 ⟨hpos.ne', not_lt.2 hlow⟩), if_neg (not_lt.2 hhigh), Binary64.ofRatio,
    Format.word_of_near (by decide) hw hfin (powTen_pos _).2 (by rwa [hratio])]

end Near

end Decimal

/-! ## Texts -/

namespace Binary64

theorem readDecimal?_whole {s : List Char} (hne : s ≠ []) (hs : ∀ c ∈ s, c.isDigit) :
    readDecimal? s = some ⟨digitsValue s, 0⟩ := by
  rw [readDecimal?, List.takeWhile_eq_self_iff.2 hs, List.dropWhile_eq_nil_iff.2 hs]
  simp [readFraction, readExponent?, hne]

theorem readDecimal?_point {s t : List Char} (hne : s ≠ []) (hs : ∀ c ∈ s, c.isDigit) (ht : ∀ c ∈ t, c.isDigit) :
    readDecimal? (s ++ '.' :: t) = some ⟨digitsValue (s ++ t), -t.length⟩ := by
  have hpoint : ∀ c ∈ ('.' :: t).head?, c.isDigit = false := by
    rintro _ ⟨⟩
    rfl
  obtain ⟨hwhole, hrest⟩ := Text.takeWhile_append_stop hs hpoint
  rw [readDecimal?, hwhole, hrest]
  simp [readFraction, readExponent?, hne, List.takeWhile_eq_self_iff.2 ht, List.dropWhile_eq_nil_iff.2 ht]

/-- The positional text of a decimal stands for the same value. -/
theorem exists_readDecimal? (d : Decimal) : ∃ d', readDecimal? d.positional = some d' ∧ d'.value = d.value := by
  have hne := digitsOf_ne_nil d.digits
  have hpos : 0 < (digitsOf d.digits).length := List.length_pos_of_ne_nil hne
  have hdigits : ∀ c ∈ digitsOf d.digits, c.isDigit := fun c => isDigit_of_mem_digitsOf
  rw [Decimal.positional]
  split
  · -- the zeros behind the digits carry the exponent
    rename_i he
    obtain ⟨n, hn⟩ := Int.eq_ofNat_of_zero_le he
    refine ⟨_, readDecimal?_whole (by simp [hne]) fun c hc => ?_, ?_⟩
    · exact (List.mem_append.1 hc).elim (hdigits c) isDigit_of_mem_zeros
    · rw [Decimal.value, Decimal.value, digitsValue_append, digitsValue_digitsOf, digitsValue_zeros, hn]
      simp
  · split
    · rename_i he hplaces
      refine ⟨_, readDecimal?_point ?_ (fun c hc => hdigits c (List.mem_of_mem_take hc))
        (fun c hc => hdigits c (List.mem_of_mem_drop hc)), ?_⟩
      · rw [Ne, List.take_eq_nil_iff, not_or]
        exact ⟨by omega, hne⟩
      · rw [List.take_append_drop, digitsValue_digitsOf, List.length_drop]
        congr 2
        omega
    · rename_i he hplaces
      refine ⟨_, readDecimal?_point (s := ['0']) (by decide) (by simp) (fun c hc => ?_), ?_⟩
      · exact (List.mem_append.1 hc).elim isDigit_of_mem_zeros (hdigits c)
      · rw [← List.append_assoc, digitsValue_append, digitsValue_digitsOf, List.singleton_append,
          ← List.replicate_succ, digitsValue_zeros, zero_mul, zero_add, List.length_append, List.length_replicate]
        congr 2
        omega

theorem exists_positional_eq (d : Decimal) : ∃ c s, d.positional = c :: s ∧ c.isDigit := by
  obtain ⟨c, s, hc⟩ := List.exists_cons_of_ne_nil (digitsOf_ne_nil d.digits)
  have hdigit : c.isDigit := isDigit_of_mem_digitsOf (n := d.digits) (by rw [hc]; exact List.mem_cons_self)
  rw [Decimal.positional, hc]
  split
  · exact ⟨c, _, rfl, hdigit⟩
  · split
    · rename_i hplaces
      obtain ⟨n, hn⟩ := Int.eq_succ_of_zero_lt hplaces
      rw [hn]
      exact ⟨c, _, rfl, hdigit⟩
    · exact ⟨'0', _, rfl, by decide⟩

theorem toLower_of_isDigit {c : Char} (h : c.isDigit) : c.toLower = c := by
  rw [Char.isDigit, Bool.and_eq_true, decide_eq_true_eq, decide_eq_true_eq] at h
  rw [Char.toLower, dif_neg]
  intro hupper
  exact absurd (UInt32.le_trans hupper.1 h.2) (by decide)

/-- A text that starts with a digit is read as a decimal, with a sign or without. -/
theorem read?_cons {c : Char} (hc : c.isDigit) (s : List Char) (negative : Bool) :
    read? (if negative then '-' :: c :: s else c :: s) = (readDecimal? (c :: s)).map (·.toBinary negative) := by
  have hsign : readSign (if negative then '-' :: c :: s else c :: s) = (negative, c :: s) := by
    cases negative with
    | true => rfl
    | false =>
      rw [if_neg Bool.false_ne_true]
      unfold readSign
      split
      · rename_i heq
        cases heq
        cases hc
      · rename_i heq
        cases heq
        cases hc
      · rfl
  have hword : ∀ w : String, w.toList.head?.any Char.isDigit = false →
      String.ofList ((c :: s).map Char.toLower) ≠ w := by
    rintro _ hne rfl
    rw [String.toList_ofList, List.map_cons, List.head?_cons, toLower_of_isDigit hc, Option.any_some, hc] at hne
    cases hne
  rw [read?, hsign]
  dsimp only
  rw [if_neg (not_or.2 ⟨hword "inf" (by simp), hword "infinity" (by simp)⟩), if_neg (hword "nan" (by simp))]

theorem ofMagnitude_magnitude (x : Binary64) : ofMagnitude x.isNegative x.magnitude = x := by
  have hlt := x.bits.toNat_lt
  have hbits : (if x.isNegative then Nat.pow 2 63 + x.magnitude else x.magnitude) = x.bits.toNat := by
    rw [isNegative, magnitude]
    simp only [Nat.pow_eq, decide_eq_true_eq]
    split <;> omega
  rw [ofMagnitude, hbits, UInt64.ofNat_toNat]

/-- The text of a number is read back. -/
theorem read?_text {x : Binary64} (h : x.isNaN = false) : read? x.text.toList = some x := by
  rw [text, if_neg (by rw [h]; exact Bool.false_ne_true)]
  dsimp only
  rw [String.toList_ofList]
  by_cases hinf : x.isInfinite
  · have hx : infinity x.isNegative = x := by
      rw [infinity, ← eq_of_beq hinf, ofMagnitude_magnitude]
    rw [if_pos hinf]
    cases hneg : x.isNegative with
    | true =>
      rw [hneg] at hx
      exact congrArg some hx
    | false =>
      rw [hneg] at hx
      exact congrArg some hx
  · rw [if_neg hinf]
    by_cases hzero : x.magnitude = 0
    · rw [if_pos hzero, read?_cons (by decide), readDecimal?_whole (by decide) (by simp), Option.map_some,
        Decimal.toBinary]
      dsimp only
      rw [if_pos (.inl (by decide)), ← hzero, ofMagnitude_magnitude]
    · obtain ⟨c, s, hcs, hc⟩ := exists_positional_eq (Decimal.shortest .away x.magnitude)
      obtain ⟨d, hd, hvalue⟩ := exists_readDecimal? (Decimal.shortest .away x.magnitude)
      have hnear := Decimal.shortest_near .away (Nat.pos_of_ne_zero hzero)
      have hlt : x.magnitude < Format.double.infinity := by
        rw [isNaN, decide_eq_false_iff_not] at h
        rw [isInfinite, beq_iff_eq] at hinf
        omega
      rw [← hvalue] at hnear
      rw [if_neg hzero]
      rw [hcs] at hd ⊢
      rw [read?_cons hc, hd, Option.map_some, Decimal.toBinary_of_near (Nat.pos_of_ne_zero hzero) hlt hnear,
        ofMagnitude_magnitude]

end Binary64

end Relayout.Number
