import Mathlib
import Relayout.Text.Split

/-!
# Cutting printed text

Printed text is made of tokens, that is, names and numbers, with separators and brackets around them. No token holds a
separator, a bracket or a blank, so the first separator that a cut finds is the one that was printed (`cut?_append`,
`cutAt?_arrow`, `enclosed?_append`), and a list printed with commas falls into its items (`splitTop_intercalate`). There an
item may hold commas of its own between brackets (`Whole`).
-/

namespace Relayout.Text

/-- A text is cut where its characters stop. -/
theorem takeWhile_append_stop {p : Char → Bool} {s rest : List Char} (hs : ∀ c ∈ s, p c)
    (hrest : ∀ c ∈ rest.head?, p c = false) : (s ++ rest).takeWhile p = s ∧ (s ++ rest).dropWhile p = rest := by
  rw [List.takeWhile_append_of_pos hs, List.dropWhile_append_of_pos hs]
  cases rest with
  | nil => exact ⟨List.append_nil s, rfl⟩
  | cons c rest =>
    have hc : ¬p c = true := by rw [hrest c rfl]; exact Bool.false_ne_true
    rw [List.takeWhile_cons_of_neg hc, List.dropWhile_cons_of_neg hc]
    exact ⟨List.append_nil s, rfl⟩

/-! ## Tokens -/

/-- Characters of names and numbers. -/
def isToken (c : Char) : Bool :=
  c.isAlphanum || c == '_' || c == '-' || c == '.'

/-- A text of such characters. -/
structure Token (s : List Char) : Prop where
  ne : s ≠ []
  chars : ∀ c ∈ s, isToken c

theorem token_of_all {s : List Char} (hne : s ≠ []) (h : s.all isToken) : Token s :=
  ⟨hne, List.all_eq_true.1 h⟩

theorem Token.not_mem {s : List Char} (h : Token s) {c : Char} (hc : isToken c = false) : c ∉ s := by
  intro hmem
  rw [h.chars c hmem] at hc
  cases hc

theorem isToken_of_isDigit {c : Char} (h : c.isDigit) : isToken c := by
  simp [isToken, Char.isAlphanum, h]

theorem isToken_of_isLetter {c : Char} (h : c.isAlpha || c == '_') : isToken c := by
  simp only [isToken, Char.isAlphanum, Bool.or_eq_true] at h ⊢
  exact .inl (.inl (h.imp_left .inl))

theorem toNat_of_isToken {c : Char} (h : isToken c) : 33 ≤ c.toNat ∧ c.toNat ≤ 126 := by
  simp only [isToken, Char.isAlphanum, Char.isAlpha, Char.isUpper, Char.isLower, Char.isDigit, Bool.or_eq_true,
    Bool.and_eq_true, decide_eq_true_eq, beq_iff_eq, UInt32.le_iff_toNat_le, ge_iff_le] at h
  change ((((65 ≤ c.toNat ∧ c.toNat ≤ 90 ∨ 97 ≤ c.toNat ∧ c.toNat ≤ 122) ∨ 48 ≤ c.toNat ∧ c.toNat ≤ 57) ∨ c = '_') ∨
    c = '-') ∨ c = '.' at h
  rcases h with ((h | rfl) | rfl) | rfl
  · omega
  · decide
  · decide
  · decide

theorem isBlank_of_isToken {c : Char} (h : isToken c) : isBlank c = false := by
  have := toNat_of_isToken h
  rw [isBlank]
  simp
  omega

theorem isAsciiBlank_of_isToken {c : Char} (h : isToken c) : isAsciiBlank c = false := by
  rw [Bool.eq_false_iff]
  simp only [isAsciiBlank, ne_eq, Bool.or_eq_true, beq_iff_eq]
  rintro ((((rfl | rfl) | rfl) | rfl) | rfl) <;> cases h

/-- A text of tokens and other characters. -/
def Chars (others : List Char) (s : List Char) : Prop :=
  ∀ c ∈ s, isToken c ∨ c ∈ others

section Chars

variable {others s t : List Char}

theorem Chars.not_mem (h : Chars others s) {c : Char} (hc : isToken c = false ∧ c ∉ others) : c ∉ s := by
  intro hmem
  rcases h c hmem with htoken | hother
  · rw [hc.1] at htoken
    cases htoken
  · exact hc.2 hother

theorem chars_nil : Chars others [] := by
  intro c hc
  cases hc

theorem Chars.cons {c : Char} (hc : c ∈ others) (hs : Chars others s) : Chars others (c :: s) :=
  List.forall_mem_cons.2 ⟨.inr hc, hs⟩

theorem Chars.append (hs : Chars others s) (ht : Chars others t) : Chars others (s ++ t) :=
  List.forall_mem_append.2 ⟨hs, ht⟩

theorem Token.chars' (h : Token s) : Chars others s :=
  fun c hc => .inl (h.chars c hc)

theorem Chars.mono {more : List Char} (h : Chars others s) (hsub : ∀ c ∈ others, c ∈ more) : Chars more s :=
  fun c hc => (h c hc).imp_right (hsub c)

theorem Chars.intercalate {ps : List (List Char)} (ht : Chars others t) (h : ∀ p ∈ ps, Chars others p) :
    Chars others (t.intercalate ps) := by
  induction ps with
  | nil => exact chars_nil
  | cons p ps ih =>
    rw [List.forall_mem_cons] at h
    cases ps with
    | nil => simpa using h.1
    | cons q ps =>
      rw [List.intercalate_cons_cons]
      exact (h.1.append ht).append (ih h.2)

end Chars

/-! ## Blanks -/

/-- Texts without blanks around them. -/
structure Tight (s : List Char) : Prop where
  ne : s ≠ []
  first : ∀ c ∈ s.head?, isBlank c = false
  last : ∀ c ∈ s.getLast?, isBlank c = false

theorem Token.tight {s : List Char} (h : Token s) : Tight s :=
  ⟨h.ne, fun c hc => isBlank_of_isToken (h.chars c (List.mem_of_mem_head? hc)),
    fun c hc => isBlank_of_isToken (h.chars c (List.mem_of_mem_getLast? hc))⟩

theorem Tight.cons {c : Char} {s : List Char} (h : Tight s) (hc : isBlank c = false) : Tight (c :: s) := by
  refine ⟨List.cons_ne_nil c s, ?_, ?_⟩
  · rintro _ ⟨⟩
    exact hc
  · intro d hd
    rw [List.getLast?_cons_of_ne_nil h.ne] at hd
    exact h.last d hd

theorem tight_enclosed {c d : Char} (hc : isBlank c = false) (hd : isBlank d = false) (s : List Char) :
    Tight (c :: s ++ [d]) := by
  refine ⟨List.cons_ne_nil _ _, ?_, ?_⟩
  · rintro _ ⟨⟩
    exact hc
  · intro e he
    rw [List.getLast?_concat] at he
    cases he
    exact hd

theorem Tight.append {s t : List Char} (hs : Tight s) (ht : Tight t) (m : List Char) : Tight (s ++ m ++ t) := by
  refine ⟨by simp [hs.ne], ?_, ?_⟩
  · rw [List.append_assoc, List.head?_append_of_ne_nil _ hs.ne]
    exact hs.first
  · rw [List.getLast?_append_of_ne_nil _ ht.ne]
    exact ht.last

theorem Tight.intercalate {p : List Char} {ps : List (List Char)} (sep : List Char) (h : ∀ q ∈ p :: ps, Tight q) :
    Tight (sep.intercalate (p :: ps)) := by
  induction ps generalizing p with
  | nil =>
    rw [List.intercalate_singleton]
    exact h p List.mem_cons_self
  | cons q ps ih =>
    rw [List.forall_mem_cons] at h
    rw [List.intercalate_cons_cons]
    exact h.1.append (ih h.2) sep

theorem trimStart_append {a s : List Char} (ha : ∀ c ∈ a, isBlank c) (hs : ∀ c ∈ s.head?, isBlank c = false) :
    trimStart (a ++ s) = s :=
  (takeWhile_append_stop ha hs).2

theorem trimStart_cons {c : Char} {s : List Char} (hc : isBlank c) (hs : ∀ d ∈ s.head?, isBlank d = false) :
    trimStart (c :: s) = s :=
  trimStart_append (a := [c]) (List.forall_mem_singleton.2 hc) hs

theorem trim_append {a s b : List Char} (ha : ∀ c ∈ a, isBlank c) (hs : Tight s) (hb : ∀ c ∈ b, isBlank c) :
    trim (a ++ (s ++ b)) = s := by
  obtain ⟨c, t, hct⟩ := List.exists_cons_of_ne_nil hs.ne
  have hfirst : ∀ c ∈ (s ++ b).head?, isBlank c = false := by
    rw [List.head?_append_of_ne_nil _ hs.ne]
    exact hs.first
  rw [trim, trimStart_append ha hfirst, trimEnd, List.reverse_append]
  have hlast : ∀ c ∈ s.reverse.head?, isBlank c = false := by
    rw [List.head?_reverse]
    exact hs.last
  have hrev := trimStart_append (fun c hc => hb c (List.mem_reverse.1 hc)) hlast
  rw [trimStart] at hrev
  rw [hrev, List.reverse_reverse]

theorem trim_nil : trim [] = [] :=
  rfl

theorem Tight.trim_eq {s : List Char} (hs : Tight s) : trim s = s := by
  have := trim_append (a := []) (b := []) (by simp) hs (by simp)
  rwa [List.append_nil] at this

theorem Tight.trim_cons {s : List Char} (hs : Tight s) {c : Char} (hc : isBlank c) : trim (c :: s) = s := by
  have := trim_append (a := [c]) (b := []) (by simpa using hc) hs (by simp)
  rwa [List.append_nil] at this

/-! ## First occurrences -/

theorem dropStart?_append (lead s : List Char) : dropStart? lead (lead ++ s) = some s := by
  induction lead with
  | nil => rfl
  | cons c lead ih => rw [List.cons_append, dropStart?, if_pos rfl, ih]

theorem dropStart?_eq_some {lead s rest : List Char} : dropStart? lead s = some rest ↔ s = lead ++ rest := by
  refine ⟨fun h => ?_, fun h => by rw [h, dropStart?_append]⟩
  fun_induction dropStart? lead s with
  | case1 s => exact Option.some.inj h
  | case2 => cases h
  | case3 c lead s ih => rw [ih h, List.cons_append]
  | case4 => cases h

theorem dropLast?_append (c : Char) (s : List Char) : dropLast? c (s ++ [c]) = some s := by
  rw [dropLast?, List.reverse_append]
  simp

theorem cut?_append {c : Char} {s : List Char} (h : c ∉ s) (rest : List Char) :
    cut? c (s ++ c :: rest) = some (s, rest) := by
  induction s with
  | nil => exact if_pos rfl
  | cons d s ih =>
    rw [List.mem_cons, not_or] at h
    rw [List.cons_append, cut?, if_neg (Ne.symm h.1), ih h.2]
    rfl

theorem cut?_eq_none {c : Char} {s : List Char} (h : c ∉ s) : cut? c s = none := by
  induction s with
  | nil => rfl
  | cons d s ih =>
    rw [List.mem_cons, not_or] at h
    rw [cut?, if_neg (Ne.symm h.1), ih h.2]
    rfl

theorem cutAt?_arrow {s : List Char} (h : '>' ∉ s) (rest : List Char) :
    cutAt? ['-', '>'] (s ++ '-' :: '>' :: rest) = some (s, rest) := by
  induction s with
  | nil => rfl
  | cons d s ih =>
    rw [List.mem_cons, not_or] at h
    have hnone : dropStart? ['-', '>'] (d :: (s ++ '-' :: '>' :: rest)) = none := by
      rw [dropStart?]
      split
      · -- a dash is followed by the next character, which is no bracket
        cases s with
        | nil => rfl
        | cons e s =>
          refine if_neg ?_
          rintro rfl
          exact h.2 List.mem_cons_self
      · rfl
    rw [List.cons_append, cutAt?, hnone, ih h.2]
    rfl

theorem enclosed?_append {opening closing : Char} {s : List Char} (hopen : opening ∉ s) (hclose : closing ∉ s)
    (rest : List Char) : enclosed? opening closing 1 (s ++ closing :: rest) = some (s, rest) := by
  induction s with
  | nil => simp [enclosed?]
  | cons d s ih =>
    rw [List.mem_cons, not_or] at hopen hclose
    rw [List.cons_append, enclosed?, if_neg (Ne.symm hclose.1)]
    dsimp only
    rw [if_neg (Ne.symm hopen.1), ih hopen.2 hclose.2]
    rfl

/-! ## Every occurrence -/

theorem exists_splitOn (c : Char) (s : List Char) : ∃ p ps, splitOn c s = p :: ps := by
  cases s with
  | nil => exact ⟨_, _, rfl⟩
  | cons d s =>
    rw [splitOn]
    split
    · exact ⟨_, _, rfl⟩
    · split <;> exact ⟨_, _, rfl⟩

theorem splitOn_of_not_mem {c : Char} {p : List Char} (h : c ∉ p) : splitOn c p = [p] := by
  induction p with
  | nil => rfl
  | cons d p ih =>
    rw [List.mem_cons, not_or] at h
    rw [splitOn, ih h.2]
    exact if_neg (Ne.symm h.1)

theorem splitOn_append {c : Char} {p : List Char} (h : c ∉ p) (s : List Char) :
    splitOn c (p ++ c :: s) = p :: splitOn c s := by
  induction p with
  | nil =>
    obtain ⟨q, qs, hq⟩ := exists_splitOn c s
    rw [List.nil_append, splitOn, hq]
    exact if_pos rfl
  | cons d p ih =>
    rw [List.mem_cons, not_or] at h
    rw [List.cons_append, splitOn, ih h.2]
    exact if_neg (Ne.symm h.1)

theorem splitOn_intercalate {c : Char} {p : List Char} {ps : List (List Char)} (h : ∀ q ∈ p :: ps, c ∉ q) :
    splitOn c ([c].intercalate (p :: ps)) = p :: ps := by
  induction ps generalizing p with
  | nil =>
    rw [List.intercalate_singleton]
    exact splitOn_of_not_mem (h p List.mem_cons_self)
  | cons q ps ih =>
    rw [List.forall_mem_cons] at h
    rw [List.intercalate_cons_cons, List.append_assoc, List.singleton_append, splitOn_append h.1, ih h.2]

/-- Lines that are all ended fall apart at their ends. -/
theorem splitOn_flatMap {c : Char} {lines : List (List Char)} (h : ∀ l ∈ lines, c ∉ l) (s : List Char) :
    splitOn c (lines.flatMap (· ++ [c]) ++ s) = lines ++ splitOn c s := by
  induction lines with
  | nil => rfl
  | cons l lines ih =>
    rw [List.forall_mem_cons] at h
    rw [List.flatMap_cons, List.append_assoc, List.append_assoc, List.singleton_append, splitOn_append h.1, ih h.2,
      List.cons_append]

/-- A list printed with commas falls into its items, which start with a blank but for the first. -/
theorem splitOn_commas {p : List Char} {ps : List (List Char)} (h : ∀ q ∈ p :: ps, ',' ∉ q) :
    splitOn ',' ([',', ' '].intercalate (p :: ps)) = p :: ps.map (' ' :: ·) := by
  induction ps generalizing p with
  | nil =>
    rw [List.intercalate_singleton]
    exact splitOn_of_not_mem (h p List.mem_cons_self)
  | cons q ps ih =>
    obtain ⟨hp, hq, hps⟩ : ',' ∉ p ∧ ',' ∉ q ∧ ∀ q ∈ ps, ',' ∉ q := by simpa using h
    have hblank : ' ' :: [',', ' '].intercalate (q :: ps) = [',', ' '].intercalate ((' ' :: q) :: ps) := by
      cases ps with
      | nil => rfl
      | cons r ps => rw [List.intercalate_cons_cons, List.intercalate_cons_cons]; rfl
    rw [List.intercalate_cons_cons, List.append_assoc]
    change splitOn ',' (p ++ ',' :: ' ' :: [',', ' '].intercalate (q :: ps)) = _
    rw [splitOn_append hp, hblank, ih (by simpa using ⟨hq, hps⟩), List.map_cons]

/-! ## Outside brackets -/

/-- The pieces with a text in front of the first one. -/
def attach (p : List Char) : List (List Char) → List (List Char)
  | [] => [p]
  | q :: qs => (p ++ q) :: qs

theorem attach_attach (p q : List Char) (pieces : List (List Char)) :
    attach p (attach q pieces) = attach (p ++ q) pieces := by
  cases pieces with
  | nil => rfl
  | cons r pieces => exact congrArg (· :: pieces) (List.append_assoc p q r).symm

def isBracket (c : Char) : Bool :=
  c ∈ ['<', '(', '[', '>', ')', ']']

theorem exists_splitBracketed (c : Char) (depth : Nat) (s : List Char) :
    ∃ p ps, splitBracketed c depth s = p :: ps := by
  cases s with
  | nil => exact ⟨_, _, rfl⟩
  | cons d s =>
    rw [splitBracketed]
    split
    · exact ⟨_, _, rfl⟩
    · dsimp only
      split <;> exact ⟨_, _, rfl⟩

/-- The depth after a character. -/
def depthAfter (d : Char) (depth : Nat) : Nat :=
  if d ∈ ['<', '(', '['] then depth + 1 else if d ∈ ['>', ')', ']'] then depth - 1 else depth

/-- A character that is no cut goes to the first piece. -/
theorem splitBracketed_cons {c d : Char} {depth : Nat} (h : d = c → depth ≠ 0 ∨ isBracket d) (s : List Char) :
    splitBracketed c depth (d :: s) = attach [d] (splitBracketed c (depthAfter d depth) s) := by
  have hcut : ¬(d = c ∧ depth = 0 ∧ d ∉ ['<', '(', '[', '>', ')', ']']) := by
    rintro ⟨heq, hdepth, hmem⟩
    exact (h heq).elim (fun hne => hne hdepth) fun hb => hmem (of_decide_eq_true hb)
  obtain ⟨q, qs, hq⟩ := exists_splitBracketed c (depthAfter d depth) s
  rw [splitBracketed, if_neg hcut]
  change (match splitBracketed c (depthAfter d depth) s with
    | [] => [[d]]
    | piece :: rest => (d :: piece) :: rest) = _
  rw [hq]
  rfl

theorem splitBracketed_flat {c : Char} {depth : Nat} {p : List Char} (h : ∀ d ∈ p, isBracket d = false)
    (hc : c ∉ p ∨ depth ≠ 0) (s : List Char) :
    splitBracketed c depth (p ++ s) = attach p (splitBracketed c depth s) := by
  induction p with
  | nil =>
    obtain ⟨q, qs, hq⟩ := exists_splitBracketed c depth s
    rw [List.nil_append, hq]
    rfl
  | cons d p ih =>
    rw [List.forall_mem_cons] at h
    have hdepth : depthAfter d depth = depth := by
      have hmem : d ∉ ['<', '(', '[', '>', ')', ']'] := of_decide_eq_false h.1
      simp only [List.mem_cons, List.not_mem_nil, or_false, not_or] at hmem
      simp [depthAfter, hmem]
    rw [List.cons_append, splitBracketed_cons, hdepth, ih h.2 (hc.imp_left fun hmem h => hmem (List.mem_cons_of_mem d h)),
      attach_attach]
    · rfl
    · rintro rfl
      exact .inl (hc.resolve_left fun hmem => hmem List.mem_cons_self)

/-- Texts that are passed over in one piece. -/
def Whole (p : List Char) : Prop :=
  ∀ s, splitBracketed ',' 0 (p ++ s) = attach p (splitBracketed ',' 0 s)

theorem Whole.append {p q : List Char} (hp : Whole p) (hq : Whole q) : Whole (p ++ q) := by
  intro s
  rw [List.append_assoc, hp, hq, attach_attach]

theorem whole_flat {p : List Char} (h : ∀ d ∈ p, isBracket d = false) (hc : ',' ∉ p) : Whole p :=
  splitBracketed_flat h (.inl hc)

theorem Chars.not_bracket {others s : List Char} (h : Chars others s) (hothers : others.all (!isBracket ·)) :
    ∀ c ∈ s, isBracket c = false := by
  intro c hc
  rcases h c hc with htoken | hother
  · rw [isBracket, decide_eq_false_iff_not]
    simp only [List.mem_cons, List.not_mem_nil, or_false]
    rintro (rfl | rfl | rfl | rfl | rfl | rfl) <;> cases htoken
  · simpa using List.all_eq_true.1 hothers c hother

theorem Token.whole {s : List Char} (h : Token s) : Whole s := by
  have hchars : Chars [] s := h.chars'
  exact whole_flat (hchars.not_bracket rfl) (h.not_mem rfl)

/-- Between brackets there may be commas. -/
theorem whole_angle {p : List Char} (h : ∀ d ∈ p, isBracket d = false) : Whole ('<' :: p ++ ['>']) := by
  intro s
  rw [List.cons_append, List.cons_append, List.append_assoc, splitBracketed_cons (by decide), depthAfter,
    if_pos (by decide), splitBracketed_flat h (.inr (by decide)), List.singleton_append, splitBracketed_cons (by decide),
    depthAfter, if_neg (by decide), if_pos (by decide), attach_attach, attach_attach]
  rfl

theorem splitTop_blank (s : List Char) : splitTop ',' (' ' :: s) = splitTop ',' s := by
  obtain ⟨q, qs, hq⟩ := exists_splitBracketed ',' 0 s
  rw [splitTop, splitBracketed_cons (by decide), depthAfter, if_neg (by decide), if_neg (by decide), splitTop, hq]
  rfl

theorem splitTop_cons {p : List Char} (hp : Whole p) (ht : Tight p) (s : List Char) :
    splitTop ',' (p ++ ',' :: s) = p :: splitTop ',' s := by
  have hcut : splitBracketed ',' 0 (',' :: s) = [] :: splitBracketed ',' 0 s := if_pos (by decide)
  rw [splitTop, hp, hcut, attach, List.append_nil, List.map_cons, ht.trim_eq, List.filter_cons_of_pos]
  · rfl
  · simpa using ht.ne

theorem splitTop_last {p : List Char} (hp : Whole p) (ht : Tight p) {t : List Char} (h : ∀ c ∈ t, c = ' ') :
    splitTop ',' (p ++ t) = [p] := by
  have hflat : splitBracketed ',' 0 (t ++ []) = attach t (splitBracketed ',' 0 []) := by
    refine splitBracketed_flat (fun d hd => ?_) (.inl fun hmem => absurd (h _ hmem) (by decide)) []
    rw [h d hd]
    rfl
  have htrim : trim (p ++ t) = p := trim_append (a := []) (by simp) ht fun c hc => by rw [h c hc]; rfl
  rw [List.append_nil] at hflat
  rw [splitTop, hp, hflat, attach_attach]
  change List.filter (!·.isEmpty) [trim (p ++ t ++ [])] = [p]
  rw [List.append_nil, htrim, List.filter_cons_of_pos (by simpa using ht.ne), List.filter_nil]

/-- A list printed with commas falls into its items. -/
theorem splitTop_intercalate {ps : List (List Char)} (h : ∀ p ∈ ps, Whole p ∧ Tight p) {t : List Char}
    (ht : ∀ c ∈ t, c = ' ') : splitTop ',' ([',', ' '].intercalate ps ++ t) = ps := by
  induction ps with
  | nil =>
    rw [List.intercalate_nil, List.nil_append]
    induction t with
    | nil => rfl
    | cons c t ih =>
      rw [List.forall_mem_cons] at ht
      rw [ht.1, splitTop_blank, ih ht.2]
  | cons p ps ih =>
    rw [List.forall_mem_cons] at h
    cases ps with
    | nil =>
      rw [List.intercalate_singleton]
      exact splitTop_last h.1.1 h.1.2 ht
    | cons q ps =>
      rw [List.intercalate_cons_cons, List.append_assoc, List.append_assoc]
      change splitTop ',' (p ++ ',' :: ' ' :: ([',', ' '].intercalate (q :: ps) ++ t)) = _
      rw [splitTop_cons h.1.1 h.1.2, splitTop_blank, ih h.2]

end Relayout.Text
