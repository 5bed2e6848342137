import Relayout.Proofs.Action
import Relayout.Proofs.KindText

/-!
# Integers as numbers

An integer constant is printed by way of 64-bit floating-point numbers, which have 53 significant bits. Rounding leaves
a whole number as it is if and only if it is that short (`Number.whole_eq_iff`). All integers of up to 32 bits are, so
their bytes come back, while the bytes of longer ones come back if they are short or the rounded number saturates
(`Literal.ofTruncated_iff`). A truth value comes back as zero or one (`Literal.Faithful`).
-/

namespace Relayout

namespace Number

open Format

/-! ## Rounding whole numbers -/

/-- At most 53 significant bits. -/
def Short (a : Nat) : Prop :=
  ∃ m k, m < 2 ^ 53 ∧ a = m * 2 ^ k

/-- What a whole number is rounded to. -/
def whole (a : Nat) : Nat :=
  double.units (double.word (a * 2 ^ double.scale) 1) / 2 ^ double.scale

theorem roundDiv_mul (m : Nat) {den : Nat} (hden : 0 < den) : roundDiv (m * den) den = m := by
  rw [roundDiv, Nat.mul_div_cancel m hden, Nat.mul_mod_left]
  simp [hden]

theorem le_roundDiv (num den : Nat) : num / den ≤ roundDiv num den ∧ roundDiv num den ≤ num / den + 1 := by
  rw [roundDiv]
  split
  · omega
  · split <;> omega

section Words

variable {a : Nat}

/-- The word of a positive number: its significand is rounded, and is what it was if nothing is cut off. -/
theorem exists_word (ha : 0 < a) {k : Nat} (hk : a.log2 + k ≤ 2045) : ∃ r, 2 ^ 52 ≤ r ∧ r ≤ 2 * 2 ^ 52 ∧
    double.word (a * 2 ^ (52 + k)) 1 = (a.log2 + k) * 2 ^ 52 + r ∧ ∀ c, a * 2 ^ 52 = c * 2 ^ a.log2 → r = c := by
  have hlow : 2 ^ a.log2 ≤ a := Nat.log2_self_le ha.ne'
  have hhigh : a < 2 ^ (a.log2 + 1) := Nat.lt_log2_self
  generalize a.log2 = L at hlow hhigh hk ⊢
  have hnum : a * 2 ^ (52 + k) = a * 2 ^ 52 * 2 ^ k := by rw [mul_assoc, ← pow_add]
  have hquot : a * 2 ^ (52 + k) / 2 ^ (L + k) = a * 2 ^ 52 / 2 ^ L := by
    rw [hnum, pow_add, Nat.mul_div_mul_right _ _ (Nat.two_pow_pos k)]
  have hge : 2 ^ 52 ≤ a * 2 ^ 52 / 2 ^ L := by
    rw [Nat.le_div_iff_mul_le (Nat.two_pow_pos L), mul_comm]
    exact Nat.mul_le_mul_right _ hlow
  have hlt : a * 2 ^ 52 / 2 ^ L < 2 * 2 ^ 52 := by
    rw [Nat.div_lt_iff_lt_mul (Nat.two_pow_pos L), mul_comm (2 * 2 ^ 52), ← mul_assoc, ← pow_succ]
    exact Nat.mul_lt_mul_of_pos_right hhigh (Nat.two_pow_pos 52)
  obtain ⟨hround, hround'⟩ := le_roundDiv (a * 2 ^ (52 + k)) (2 ^ (L + k))
  rw [hquot] at hround hround'
  refine ⟨roundDiv (a * 2 ^ (52 + k)) (2 ^ (L + k)), hge.trans hround, hround'.trans hlt, ?_, fun c hc => ?_⟩
  · have hinf : (L + k) * 2 ^ 52 + roundDiv (a * 2 ^ (52 + k)) (2 ^ (L + k)) ≤ double.infinity := by
      have hvalue : double.infinity = 2047 * 2 ^ 52 := by decide
      omega
    rw [word_eq Nat.one_pos (m := a * 2 ^ 52 / 2 ^ L) (e := L + k) ?_ ?_ hlt (.inr hge), one_mul]
    · exact Nat.min_eq_left hinf
    · rw [one_mul, ← hquot]
      exact Nat.div_mul_le_self _ _
    · rw [one_mul, ← hquot]
      exact (Nat.div_lt_iff_lt_mul (Nat.two_pow_pos _)).1 (Nat.lt_succ_self _)
  · rw [hnum, hc, mul_assoc, ← pow_add, roundDiv_mul c (Nat.two_pow_pos _)]

theorem scale_double : double.scale = 52 + 1022 := by
  decide

theorem word_lt_infinity (ha : a < 2 ^ 64) : double.word (a * 2 ^ double.scale) 1 < double.infinity := by
  have hvalue : double.infinity = 2047 * 2 ^ 52 := by decide
  rcases Nat.eq_zero_or_pos a with rfl | hpos
  · rw [zero_mul]
    decide
  · have hlog : a.log2 < 64 := (Nat.log2_lt hpos.ne').2 ha
    obtain ⟨r, _, hr, hword, _⟩ := exists_word hpos (show a.log2 + 1022 ≤ 2045 by omega)
    rw [scale_double, hword]
    omega

/-- A number is rounded to itself if and only if it is short. -/
theorem whole_eq_iff (ha : a < 2 ^ 64) : whole a = a ↔ Short a := by
  rcases Nat.eq_zero_or_pos a with rfl | hpos
  · refine iff_of_true ?_ ⟨0, 0, by decide, rfl⟩
    rw [whole, zero_mul, show double.units (double.word 0 1) = 0 by decide, Nat.zero_div]
  have hlog : a.log2 < 64 := (Nat.log2_lt hpos.ne').2 ha
  have hk : a.log2 + 1022 ≤ 2045 := by omega
  rw [whole, scale_double]
  -- only the bound on the exponent matters from here on
  generalize 1022 = k at hk ⊢
  obtain ⟨r, hr, hr', hword, hexact⟩ := exists_word hpos hk
  have hunits : double.units ((a.log2 + k) * 2 ^ 52 + r) = r * 2 ^ (a.log2 + k) := units_eq hr' (.inr hr)
  rw [hword, hunits]
  constructor
  · intro h
    by_cases hshort : a < 2 ^ 53
    · exact ⟨a, 0, hshort, by rw [pow_zero, mul_one]⟩
    · obtain ⟨j, hj⟩ : ∃ j, a.log2 = 52 + j :=
        Nat.exists_eq_add_of_le (Nat.le_of_lt ((Nat.le_log2 hpos.ne').2 (Nat.not_lt.1 hshort)))
      rw [hj, Nat.add_right_comm, pow_add, ← mul_assoc, mul_right_comm, Nat.mul_div_cancel _ (Nat.two_pow_pos _)] at h
      obtain hlt | heq := Nat.lt_or_eq_of_le hr'
      · exact ⟨r, j, hlt, h.symm⟩
      · exact ⟨1, 53 + j, by decide, by rw [one_mul, pow_add, ← h, heq]; rfl⟩
  · rintro ⟨m, j, hm, rfl⟩
    have hle : (m * 2 ^ j).log2 ≤ j + 52 := by
      rw [← Nat.lt_succ_iff, Nat.log2_lt hpos.ne', Nat.succ_eq_add_one, add_assoc, pow_add, mul_comm (2 ^ j)]
      exact Nat.mul_lt_mul_of_pos_right hm (Nat.two_pow_pos j)
    obtain ⟨d, hd⟩ := Nat.exists_eq_add_of_le hle
    have hcut : m * 2 ^ j * 2 ^ 52 = m * 2 ^ d * 2 ^ (m * 2 ^ j).log2 := by
      rw [mul_assoc, mul_assoc, ← pow_add, ← pow_add, hd, add_comm]
    rw [hexact _ hcut, pow_add, ← mul_assoc, ← hcut, mul_assoc (m * 2 ^ j), ← pow_add,
      Nat.mul_div_cancel _ (Nat.two_pow_pos _)]

end Words

namespace Binary64

theorem toNat_bits_ofMagnitude (negative : Bool) {w : Nat} (hw : w < 2 ^ 63) :
    (ofMagnitude negative w).bits.toNat = if negative then 2 ^ 63 + w else w := by
  rw [ofMagnitude, UInt64.toNat_ofNat', Nat.pow_eq]
  refine Nat.mod_eq_of_lt ?_
  split <;> omega

theorem magnitude_ofMagnitude (negative : Bool) {w : Nat} (hw : w < 2 ^ 63) : (ofMagnitude negative w).magnitude = w := by
  rw [magnitude, toNat_bits_ofMagnitude negative hw, Nat.pow_eq]
  split <;> omega

theorem isNegative_ofMagnitude (negative : Bool) {w : Nat} (hw : w < 2 ^ 63) :
    (ofMagnitude negative w).isNegative = negative := by
  rw [isNegative, toNat_bits_ofMagnitude negative hw, Nat.pow_eq]
  cases negative with
  | false => simpa using hw
  | true => simp

theorem truncate_bounds (x : Binary64) {low high : Int} (hlow : low ≤ 0) (hhigh : 0 ≤ high) :
    low ≤ x.truncate low high ∧ x.truncate low high ≤ high := by
  rw [truncate]
  generalize double.units x.magnitude / Nat.pow 2 double.scale = w
  dsimp only
  split_ifs <;> omega

section OfInt

variable {n low high : Int}

theorem ofInt_eq (n : Int) :
    ofInt n = ofMagnitude (n < 0) (double.word (n.natAbs * 2 ^ double.scale) 1) := by
  rw [ofInt, ofRatio, Nat.pow_eq]

theorem magnitude_ofInt (hn : n.natAbs < 2 ^ 64) :
    (ofInt n).magnitude = double.word (n.natAbs * 2 ^ double.scale) 1 := by
  rw [ofInt_eq, magnitude_ofMagnitude _ ((word_lt_infinity hn).trans (show double.infinity < 2 ^ 63 by decide))]

theorem isNaN_ofInt (hn : n.natAbs < 2 ^ 64) : (ofInt n).isNaN = false := by
  rw [isNaN, magnitude_ofInt hn]
  simpa using (word_lt_infinity hn).le

/-- Truncating an integer that was rounded. -/
theorem truncate_ofInt (hn : n.natAbs < 2 ^ 64) (low high : Int) : (ofInt n).truncate low high =
    max low (min high (if n < 0 then -(whole n.natAbs : Int) else whole n.natAbs)) := by
  have hfin := word_lt_infinity hn
  have hword := hfin.trans (show double.infinity < 2 ^ 63 by decide)
  have hinf : (ofInt n).isInfinite = false := by
    rw [isInfinite, magnitude_ofInt hn]
    simpa using hfin.ne
  have hneg : (ofInt n).isNegative = decide (n < 0) := by rw [ofInt_eq, isNegative_ofMagnitude _ hword]
  rw [truncate, isNaN_ofInt hn, hinf, magnitude_ofInt hn, hneg, Nat.pow_eq, whole]
  generalize double.units (double.word (n.natAbs * 2 ^ double.scale) 1) / 2 ^ double.scale = w
  simp

/-- A short integer is not changed by rounding. -/
theorem truncate_of_short (hn : n.natAbs < 2 ^ 64) (hshort : Short n.natAbs) (hlow : low ≤ n) (hhigh : n ≤ high) :
    (ofInt n).truncate low high = n := by
  rw [truncate_ofInt hn, (whole_eq_iff hn).2 hshort]
  split <;> omega

/-- The largest integer is rounded up and saturates, so it is not changed either. -/
theorem truncate_eq_self_iff (hlow : -2 ^ 63 ≤ n) (hhigh : n < 2 ^ 63) :
    (ofInt n).truncate (-2 ^ 63) (2 ^ 63 - 1) = n ↔ n = 2 ^ 63 - 1 ∨ Short n.natAbs := by
  have hn : n.natAbs < 2 ^ 64 := by omega
  constructor
  · intro h
    rw [truncate_ofInt hn] at h
    obtain hmax | hmax := eq_or_ne n (2 ^ 63 - 1)
    · exact .inl hmax
    · refine .inr ?_
      obtain rfl | hmin := eq_or_ne n (-2 ^ 63)
      · exact ⟨1, 63, by decide, by decide⟩
      · -- neither bound is reached, so that the rounded number is the number itself
        rw [← whole_eq_iff hn]
        split at h <;> omega
  · rintro (rfl | hshort)
    · decide +kernel
    · exact truncate_of_short hn hshort hlow (by omega)

end OfInt

end Binary64

end Number

/-! ## Bytes -/

namespace Literal

open Number

section Bytes

variable {width n : Nat}

theorem littleEndian_succ (width n : Nat) :
    littleEndian (width + 1) n = UInt8.ofNat n :: littleEndian width (n / 256) := by
  rw [littleEndian, List.range_succ_eq_map, List.map_cons, List.map_map, littleEndian]
  refine congrArg₂ List.cons (by simp) (List.map_congr_left fun i _ => ?_)
  rw [Function.comp_apply, Nat.pow_eq, Nat.pow_eq, Nat.pow_succ', Nat.div_div_eq_div_mul]

theorem length_littleEndian (width n : Nat) : (littleEndian width n).length = width := by
  simp [littleEndian]

theorem ofLittleEndian_lt (bytes : List UInt8) : ofLittleEndian bytes < 256 ^ bytes.length := by
  induction bytes with
  | nil => decide
  | cons b bytes ih =>
    have hb : b.toNat < 256 := b.toNat_lt
    rw [List.length_cons, Nat.pow_succ', show ofLittleEndian (b :: bytes) = b.toNat + 256 * ofLittleEndian bytes from rfl]
    omega

theorem ofLittleEndian_littleEndian (h : n < 256 ^ width) : ofLittleEndian (littleEndian width n) = n := by
  induction width generalizing n with
  | zero => exact (Nat.lt_one_iff.1 h).symm
  | succ width ih =>
    have hrest : n / 256 < 256 ^ width := (Nat.div_lt_iff_lt_mul (by decide)).2 h
    rw [littleEndian_succ, ofLittleEndian, List.foldr_cons, ← ofLittleEndian, ih hrest, UInt8.toNat_ofNat']
    exact Nat.mod_add_div n 256

theorem littleEndian_ofLittleEndian (bytes : List UInt8) : littleEndian bytes.length (ofLittleEndian bytes) = bytes := by
  induction bytes with
  | nil => rfl
  | cons b bytes ih =>
    have hb : b.toNat < 256 := b.toNat_lt
    have hdiv : (b.toNat + 256 * ofLittleEndian bytes) / 256 = ofLittleEndian bytes := by omega
    rw [List.length_cons, littleEndian_succ,
      show ofLittleEndian (b :: bytes) = b.toNat + 256 * ofLittleEndian bytes from rfl, hdiv, ih]
    refine congrArg (· :: bytes) (UInt8.toNat_inj.1 ?_)
    rw [UInt8.toNat_ofNat']
    omega

theorem toSigned_bounds (bytes : List UInt8) :
    -(256 ^ bytes.length : Nat) ≤ 2 * toSigned bytes ∧ 2 * toSigned bytes < (256 ^ bytes.length : Nat) := by
  have hlt := ofLittleEndian_lt bytes
  rw [toSigned, Nat.pow_eq]
  split <;> omega

theorem ofSigned_toSigned (bytes : List UInt8) : ofSigned bytes.length (toSigned bytes) = bytes := by
  have hlt := ofLittleEndian_lt bytes
  have hmod : (toSigned bytes % (256 ^ bytes.length : Nat)).toNat = ofLittleEndian bytes := by
    rw [toSigned, Nat.pow_eq]
    split
    · rw [← Int.natCast_mod, Nat.mod_eq_of_lt hlt, Int.toNat_natCast]
    · rw [Int.sub_emod_right, ← Int.natCast_mod, Nat.mod_eq_of_lt hlt, Int.toNat_natCast]
  rw [ofSigned, Nat.pow_eq, hmod, littleEndian_ofLittleEndian]

theorem toSigned_ofSigned {v : Int} (hlow : -(256 ^ width : Nat) ≤ 2 * v) (hhigh : 2 * v < (256 ^ width : Nat)) :
    toSigned (ofSigned width v) = v := by
  have hpos : 0 < 256 ^ width := Nat.pow_pos (by decide)
  have hlt : (v % (256 ^ width : Nat)).toNat < 256 ^ width := by
    have := Int.emod_lt_of_pos v (Int.natCast_pos.2 hpos)
    omega
  rw [toSigned, ofSigned, Nat.pow_eq, Nat.pow_eq, ofLittleEndian_littleEndian hlt, length_littleEndian]
  obtain hneg | hnonneg := lt_or_ge v 0
  · rw [← Int.add_emod_right, Int.emod_eq_of_lt (by omega) (by omega), if_neg (by omega)]
    omega
  · rw [Int.emod_eq_of_lt hnonneg (by omega), if_pos (by omega)]
    omega

end Bytes

/-! ## Elements -/

section Elements

variable {elem : ElemType} {bytes : List UInt8}

/-- The bytes of an integer come back from the number if the integer does. -/
theorem ofTruncated_iff {width : Nat} (hlen : bytes.length = width) (hwidth : 0 < width) :
    ofTruncated width (.ofInt (toSigned bytes)) = bytes ↔
      (Binary64.ofInt (toSigned bytes)).truncate (-(256 ^ width / 2 : Nat)) ((256 ^ width / 2 : Nat) - 1) =
        toSigned bytes := by
  subst hlen
  have heven : 2 * (256 ^ bytes.length / 2) = 256 ^ bytes.length :=
    Nat.mul_div_cancel' (dvd_pow (by decide) hwidth.ne')
  have hpos : 0 < 256 ^ bytes.length := Nat.pow_pos (by decide)
  rw [ofTruncated, Nat.pow_eq]
  have hmin : -((256 ^ bytes.length / 2 : Nat) : Int) ≤ 0 := by omega
  have hmax : 0 ≤ ((256 ^ bytes.length / 2 : Nat) : Int) - 1 := by omega
  obtain ⟨hlow, hhigh⟩ := (Binary64.ofInt (toSigned bytes)).truncate_bounds hmin hmax
  generalize (Binary64.ofInt (toSigned bytes)).truncate _ _ = v at *
  constructor
  · intro h
    rw [← h, toSigned_ofSigned (by omega) (by omega)]
  · rintro rfl
    exact ofSigned_toSigned bytes

theorem natAbs_toSigned_le {width : Nat} (h : bytes.length ≤ width) : 2 * (toSigned bytes).natAbs ≤ 256 ^ width := by
  have hbounds := toSigned_bounds bytes
  have hpow : 256 ^ bytes.length ≤ 256 ^ width := Nat.pow_le_pow_right (by decide) h
  omega

/-- Integers of up to 32 bits are short. -/
theorem ofTruncated_toSigned {width : Nat} (hlen : bytes.length = width) (hwidth : 0 < width) (hle : width ≤ 4) :
    ofTruncated width (.ofInt (toSigned bytes)) = bytes := by
  have habs := natAbs_toSigned_le (hlen.trans_le hle)
  have hbounds := toSigned_bounds bytes
  have heven : 2 * (256 ^ width / 2) = 256 ^ width := Nat.mul_div_cancel' (dvd_pow (by decide) hwidth.ne')
  rw [hlen] at hbounds
  rw [ofTruncated_iff hlen hwidth]
  exact Binary64.truncate_of_short (by omega) ⟨_, 0, by omega, (mul_one _).symm⟩ (by omega) (by omega)

/-- The element is that of a number. -/
def Faithful (elem : ElemType) (bytes : List UInt8) : Prop :=
  match elem with
  | .i1 => bytes = [0] ∨ bytes = [1]
  | .si64 => toSigned bytes = 2 ^ 63 - 1 ∨ Short (toSigned bytes).natAbs
  | _ => True

/-- An integer element is read as a number, which is stored as an element again. -/
theorem exists_recoded (helem : elem.isFloat = false) (hlen : bytes.length = elem.width) : ∃ x element,
    decode? elem bytes = some x ∧ x.isNaN = false ∧ encode? elem x = some element ∧ element.length = elem.width ∧
      (element = bytes ↔ Faithful elem bytes) := by
  have hsigned : ∀ {width : Nat}, bytes.length = width → 0 < width → width ≤ 4 → ∃ x element,
      some (Binary64.ofInt (toSigned bytes)) = some x ∧ x.isNaN = false ∧ some (ofTruncated width x) = some element ∧
        element.length = width ∧ (element = bytes ↔ True) := by
    intro width hlen hwidth hle
    have habs := natAbs_toSigned_le (hlen.trans_le hle)
    have hsame := ofTruncated_toSigned hlen hwidth hle
    exact ⟨_, _, rfl, Binary64.isNaN_ofInt (by omega), rfl, by rw [hsame, hlen], iff_true_intro hsame⟩
  cases elem with
  | i1 =>
    obtain ⟨b, rfl⟩ := List.length_eq_one_iff.1 hlen
    obtain rfl | hb := eq_or_ne b 0
    · exact ⟨.ofInt 0, [0], rfl, by decide +kernel, by decide +kernel, rfl, iff_of_true rfl (.inl rfl)⟩
    · have hread : ofLittleEndian [b] ≠ 0 := fun h => hb (UInt8.toNat_inj.1 h)
      refine ⟨.ofInt 1, [1], by rw [decode?, if_neg hread], by decide +kernel, by decide +kernel, rfl, ?_⟩
      rw [Faithful]
      simp [hb, eq_comm]
  | ui8 =>
    have hlt := ofLittleEndian_lt bytes
    have hlen : bytes.length = 1 := hlen
    rw [hlen] at hlt
    have hsame : (Binary64.ofInt (ofLittleEndian bytes)).truncate 0 255 = ofLittleEndian bytes :=
      Binary64.truncate_of_short (by omega) ⟨_, 0, by omega, (mul_one _).symm⟩ (by omega) (by omega)
    refine ⟨_, bytes, rfl, Binary64.isNaN_ofInt (by omega), ?_, hlen, iff_true_intro rfl⟩
    rw [encode?, hsame, Int.toNat_natCast, ← hlen, littleEndian_ofLittleEndian]
  | si8 => exact hsigned hlen (by decide) (by decide)
  | si16 => exact hsigned hlen (by decide) (by decide)
  | si32 => exact hsigned hlen (by decide) (by decide)
  | si64 =>
    have hlen : bytes.length = 8 := hlen
    have habs := natAbs_toSigned_le hlen.le
    have hbounds := toSigned_bounds bytes
    rw [hlen] at hbounds
    refine ⟨_, _, rfl, Binary64.isNaN_ofInt (by omega), rfl, length_littleEndian 8 _, ?_⟩
    rw [ofTruncated_iff hlen (by decide), show ((256 ^ 8 / 2 : Nat) : Int) = 2 ^ 63 by decide]
    exact Binary64.truncate_eq_self_iff (by omega) (by omega)
  | _ => cases helem

end Elements

/-! ## Literals -/

theorem Sized.elementCount?_eq {l : Literal} (h : l.Sized) : l.type.elementCount? = some l.elements.length := by
  obtain ⟨n, hn, hlen⟩ := h.exists_elementCount
  rw [hn, elements, length_pieces, ← hlen, Nat.mul_div_cancel n l.type.elem.width_pos]

/-- **Integer constants as numbers.** An integer literal has numbers, which are stored as a literal again, and that one is
read back from the text of the constant. It is the first one if and only if all elements are faithful. -/
theorem readConst_integers {type : TensorType} {bytes : List UInt8} {l : Literal} (hl : make type bytes = .ok l)
    (helem : type.elem.isFloat = false) : ∃ numbers l', l.numbers? = some numbers ∧ ofNumbers type numbers = .ok l' ∧
      (∀ operands, Reader.readConst ⟨operands, OpKind.printed (.const l)⟩ (some type) = .ok (.const l')) ∧
        (l' = l ↔ ∀ element ∈ l.elements, Faithful type.elem element) := by
  obtain ⟨heq, hsized⟩ := make_eq_ok.1 hl
  obtain rfl : l.type = type := congrArg Literal.type heq
  have : Nonempty Binary64 := ⟨.zero⟩
  choose! number recoded hdecode hnan hencode hlength hsame using
    fun element (h : element ∈ l.elements) => exists_recoded helem (length_of_mem_elements h)
  have hnumbers : l.numbers? = some (l.elements.map number) := by
    rw [numbers?, mapM_eq_some, List.forall₂_map_right_iff, List.forall₂_same]
    exact hdecode
  have helements : (l.elements.map number).mapM (encode? l.type.elem) = some (l.elements.map recoded) := by
    rw [mapM_eq_some, List.forall₂_map_left_iff, List.forall₂_map_right_iff, List.forall₂_same]
    exact hencode
  have hwidths : ∀ element ∈ l.elements.map recoded, element.length = l.type.elem.width :=
    List.forall_mem_map.2 hlength
  have hstored : ofNumbers l.type (l.elements.map number) = .ok ⟨l.type, (l.elements.map recoded).flatten⟩ := by
    have hbytes : (l.elements.map recoded).flatten.length = l.bytes.length := by
      rw [length_flatten hwidths, List.length_map, ← length_flatten fun _ => length_of_mem_elements,
        hsized.flatten_elements]
    rw [ofNumbers, helements, ofElements, hsized.elementCount?_eq, List.length_map]
    refine (if_pos rfl).trans (make_eq_ok.2 ⟨rfl, ?_⟩)
    rw [Sized, hbytes, hsized]
  refine ⟨_, _, hnumbers, hstored, fun operands => ?_, fun h element helement => ?_, fun h => ?_⟩
  · exact OpKind.readConst_of_numbers operands hnumbers (List.forall_mem_map.2 hnan) hstored
  · have hall : (⟨l.type, (l.elements.map recoded).flatten⟩ : Literal).elements = l.elements.map recoded :=
      elements_eq hwidths rfl
    rw [h] at hall
    rw [← hsame element helement]
    exact List.map_inj_left.1 (hall.symm.trans (List.map_id _).symm) element helement
  · have hall : l.elements.map recoded = l.elements :=
      (List.map_congr_left fun element helement => (hsame element helement).2 (h element helement)).trans (List.map_id _)
    rw [hall, hsized.flatten_elements]

/-- A small negative integer and the largest one of 64 bits. -/
def extremes : Literal :=
  ⟨.ofExtents .si64 [2], [254, 255, 255, 255, 255, 255, 255, 255, 255, 255, 255, 255, 255, 255, 255, 127]⟩

theorem readConst_extremes : make extremes.type extremes.bytes = .ok extremes ∧
    (∀ element ∈ extremes.elements, Faithful .si64 element) ∧ ∀ operands,
      Reader.readConst ⟨operands, OpKind.printed (.const extremes)⟩ (some extremes.type) = .ok (.const extremes) := by
  have hl : make extremes.type extremes.bytes = .ok extremes := by decide
  have hfaithful : ∀ element ∈ extremes.elements, Faithful .si64 element := by
    refine List.forall_mem_cons.2 ⟨Or.inr ⟨1, 1, by decide, by decide⟩, List.forall_mem_singleton.2 (Or.inl ?_)⟩
    decide
  obtain ⟨numbers, l', _, _, hread, hsame⟩ := readConst_integers hl rfl
  rw [hsame.2 hfaithful] at hread
  exact ⟨hl, hfaithful, hread⟩

/-- The first integer that is not short comes back as the one before it, and a truth value of two comes back as one. -/
theorem recoded_integers :
    (∃ l numbers, make (.ofExtents .si64 [1]) [1, 0, 0, 0, 0, 0, 32, 0] = .ok l ∧ l.numbers? = some numbers ∧
      ofNumbers (.ofExtents .si64 [1]) numbers = .ok ⟨.ofExtents .si64 [1], [0, 0, 0, 0, 0, 0, 32, 0]⟩) ∧
    ∃ l numbers, make (.ofExtents .i1 [1]) [2] = .ok l ∧ l.numbers? = some numbers ∧
      ofNumbers (.ofExtents .i1 [1]) numbers = .ok ⟨.ofExtents .i1 [1], [1]⟩ := by
  refine ⟨⟨_, [.ofInt (2 ^ 53 + 1)], rfl, ?_, ?_⟩, _, [.ofInt 1], rfl, ?_, ?_⟩
  all_goals decide +kernel

end Literal

end Relayout
