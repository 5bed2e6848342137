import Mathlib
import Relayout.Json.Printer
import Relayout.Json.Reader
import Relayout.Proofs.Cutting
import Relayout.Proofs.Numerals

/-!
# Documents in text

A printed document is read back (`Json.parse?_render`) if its numerals are well formed, that is, if they are numerals that
the reader can find: it has digits where it needs them and no zero in front. Strings need no such condition, since every
character has an escape or stands for itself (`Json.units?_escape`).

The reader is given more text than one document takes, so its lemmas speak of a document and a rest. The rest must not go
on with a numeral; in printed text it starts with a comma or a new line, or is empty.
-/

namespace Relayout.Json

open Number

/-! ## Strings -/

theorem unit?_hexDigit : ∀ n < 32, unit? '0' '0' (hexDigit (n / 16)) (hexDigit n) = some n := by
  decide

/-- A character is escaped by a letter or by its number, or it stands for itself. -/
theorem escape_cases (c : Char) :
    (∃ d, escape c = ['\\', d] ∧ escaped? d = some c.toNat) ∨
      (c.toNat < 32 ∧ escape c = ['\\', 'u', '0', '0', hexDigit (c.toNat / 16), hexDigit c.toNat]) ∨
      (c ≠ '"' ∧ c ≠ '\\' ∧ 32 ≤ c.toNat ∧ escape c = [c]) := by
  by_cases hletter : c ∈ ['"', '\\', '\x08', '\x0c', '\n', '\r', '\t']
  · simp only [List.mem_cons, List.not_mem_nil, or_false] at hletter
    rcases hletter with rfl | rfl | rfl | rfl | rfl | rfl | rfl <;> exact .inl ⟨_, rfl, rfl⟩
  · simp only [List.mem_cons, List.not_mem_nil, or_false, not_or] at hletter
    obtain ⟨h₁, h₂, h₃, h₄, h₅, h₆, h₇⟩ := hletter
    rw [escape, if_neg h₁, if_neg h₂, if_neg h₃, if_neg h₄, if_neg h₅, if_neg h₆, if_neg h₇]
    obtain hlow | hhigh := Nat.lt_or_ge c.toNat 32
    · exact .inr (.inl ⟨hlow, if_pos hlow⟩)
    · exact .inr (.inr ⟨h₁, h₂, hhigh, if_neg (not_lt.2 hhigh)⟩)

theorem units?_backslash {c : Char} {n : Nat} (h : escaped? c = some n) (s : List Char) :
    units? ('\\' :: c :: s) = (units? s).map fun p => (n :: p.1, p.2) := by
  rw [units?]
  · rw [h]
    cases units? s <;> rfl
  · rintro a b c' d s' rfl
    cases h

theorem units?_plain {c : Char} (hquote : c ≠ '"') (hslash : c ≠ '\\') (h : 32 ≤ c.toNat) (s : List Char) :
    units? (c :: s) = (units? s).map fun p => (c.toNat :: p.1, p.2) := by
  rw [units?]
  · rw [if_neg (not_lt.2 h)]
    cases units? s <;> rfl
  · exact hquote
  · rintro a b c' d s' rfl
    exact fun _ => hslash rfl
  · rintro c' s' rfl
    exact fun _ => hslash rfl

/-- The escape of a character is read as the character. -/
theorem units?_escape (c : Char) (s : List Char) :
    units? (escape c ++ s) = (units? s).map fun p => (c.toNat :: p.1, p.2) := by
  obtain ⟨d, hescape, hd⟩ | ⟨hlow, hescape⟩ | ⟨hquote, hslash, hhigh, hescape⟩ := escape_cases c
  · rw [hescape]
    exact units?_backslash hd s
  · rw [hescape]
    simp only [List.cons_append, List.nil_append]
    rw [units?, unit?_hexDigit _ hlow]
    cases units? s <;> rfl
  · rw [hescape]
    exact units?_plain hquote hslash hhigh s

theorem not_surrogate (c : Char) : c.toNat < 0xD800 ∨ 0xDFFF < c.toNat :=
  c.valid.imp_right And.left

/-- Characters are no surrogates. -/
theorem decode?_map_toNat (s : List Char) : decode? (s.map Char.toNat) = some s := by
  induction s with
  | nil => rfl
  | cons c s ih =>
    have hc := not_surrogate c
    cases s with
    | nil => rw [List.map_singleton, decode?, if_neg (by omega), Char.ofNat_toNat]
    | cons d s =>
      rw [List.map_cons, List.map_cons, decode?, if_neg (by omega), if_neg (by omega), ← List.map_cons, ih,
        Option.map_some, Char.ofNat_toNat]

theorem string?_flatMap_escape (s : String) (rest : List Char) :
    string? (s.toList.flatMap escape ++ '"' :: rest) = some (some s, rest) := by
  have hunits : ∀ t : List Char, units? (t.flatMap escape ++ '"' :: rest) = some (t.map Char.toNat, rest) := by
    intro t
    induction t with
    | nil => rfl
    | cons c t ih => rw [List.flatMap_cons, List.append_assoc, units?_escape, ih]; rfl
  rw [string?, hunits, Option.map_some]
  dsimp only
  rw [decode?_map_toNat, Option.map_some, String.ofList_toList]

theorem quoted_eq (s : Option String) : quoted s = '"' :: (quoted s).tail := by
  cases s <;> rfl

/-- A string is read back after its opening quote. -/
theorem string?_quoted (s : Option String) (rest : List Char) : string? ((quoted s).tail ++ rest) = some (s, rest) := by
  cases s with
  | some s =>
    rw [quoted, List.cons_append, List.tail_cons, List.append_assoc]
    exact string?_flatMap_escape s rest
  | none =>
    have hunits : units? ('\\' :: 'u' :: 'd' :: '8' :: '0' :: '0' :: '"' :: rest) = some ([0xD800], rest) := by
      rw [units?, show unit? 'd' '8' '0' '0' = some 0xD800 by decide]
      rfl
    change string? ('\\' :: 'u' :: 'd' :: '8' :: '0' :: '0' :: '"' :: rest) = _
    rw [string?, hunits, Option.map_some]
    dsimp only
    rw [decode?, if_pos (by decide), Option.map_none]

/-! ## Numerals -/

/-- Numerals that can be found in a text. -/
structure Numeral.WellFormed (n : Numeral) : Prop where
  whole_ne : n.whole ≠ []
  whole_digits : ∀ c ∈ n.whole, c.isDigit
  whole_zero : n.whole.head? = some '0' → n.whole = ['0']
  fraction_digits : ∀ c ∈ n.fraction, c.isDigit
  exponent_sign : ∀ e ∈ n.exponent, e.1 = none ∨ e.1 = some '+' ∨ e.1 = some '-'
  exponent_ne : ∀ e ∈ n.exponent, e.2 ≠ []
  exponent_digits : ∀ e ∈ n.exponent, ∀ c ∈ e.2, c.isDigit

/-- Texts that do not go on with a numeral. -/
def Stops (rest : List Char) : Prop :=
  ∀ c ∈ rest.head?, c = ',' ∨ c = '\n'

theorem Stops.not_digit {rest : List Char} (h : Stops rest) : ∀ c ∈ rest.head?, c.isDigit = false := by
  intro c hc
  rcases h c hc with rfl | rfl <;> rfl

theorem whole?_append {digits rest : List Char} (hne : digits ≠ []) (hdigits : ∀ c ∈ digits, c.isDigit)
    (hzero : digits.head? = some '0' → digits = ['0']) (h : ∀ c ∈ rest.head?, c.isDigit = false) :
    whole? (digits ++ rest) = some (digits, rest) := by
  obtain ⟨htake, hdrop⟩ := Text.takeWhile_append_stop hdigits h
  obtain ⟨c, digits, rfl⟩ := List.exists_cons_of_ne_nil hne
  unfold whole?
  split
  · rename_i heq
    rw [List.cons_append, List.cons.injEq] at heq
    obtain ⟨rfl, rfl⟩ := heq
    obtain rfl : digits = [] := (List.cons.inj (hzero rfl)).2
    rfl
  · rw [htake, hdrop, if_neg hne]

/-- What a numeral has after its whole part. -/
def Numeral.printFraction (n : Numeral) : List Char :=
  if n.fraction = [] then [] else '.' :: n.fraction

def Numeral.printExponent (n : Numeral) : List Char :=
  match n.exponent with
  | none => []
  | some (sign, digits) => 'e' :: sign.toList ++ digits

theorem Numeral.print_eq (n : Numeral) :
    n.print = (if n.negative then ['-'] else []) ++ n.whole ++ n.printFraction ++ n.printExponent :=
  rfl

section Numeral

variable {n : Numeral} {rest : List Char}

theorem head?_printExponent (h : Stops rest) :
    ∀ c ∈ (n.printExponent ++ rest).head?, c = 'e' ∨ c = ',' ∨ c = '\n' := by
  rw [Numeral.printExponent]
  split
  · exact fun c hc => .inr (h c hc)
  · intro c hc
    cases hc
    exact .inl rfl

theorem head?_printFraction (h : Stops rest) :
    ∀ c ∈ (n.printFraction ++ (n.printExponent ++ rest)).head?, c = '.' ∨ c = 'e' ∨ c = ',' ∨ c = '\n' := by
  rw [Numeral.printFraction]
  split
  · exact fun c hc => .inr (head?_printExponent h c hc)
  · intro c hc
    cases hc
    exact .inl rfl

theorem fraction?_print (hdigits : ∀ c ∈ n.fraction, c.isDigit) (h : Stops rest) :
    fraction? (n.printFraction ++ (n.printExponent ++ rest)) = some (n.fraction, n.printExponent ++ rest) := by
  have hhead := head?_printExponent (n := n) h
  rw [Numeral.printFraction]
  split
  · rename_i hnil
    rw [hnil, List.nil_append]
    unfold fraction?
    split
    · rename_i heq
      rw [heq] at hhead
      rcases hhead '.' rfl with h | h | h <;> cases h
    · rfl
  · rename_i hne
    have hnot : ∀ c ∈ (n.printExponent ++ rest).head?, c.isDigit = false := by
      intro c hc
      rcases hhead c hc with rfl | rfl | rfl <;> rfl
    obtain ⟨htake, hdrop⟩ := Text.takeWhile_append_stop hdigits hnot
    rw [List.cons_append, fraction?, htake, hdrop, if_neg hne]

theorem exponent?_print (hsign : ∀ e ∈ n.exponent, e.1 = none ∨ e.1 = some '+' ∨ e.1 = some '-')
    (hne : ∀ e ∈ n.exponent, e.2 ≠ []) (hdigits : ∀ e ∈ n.exponent, ∀ c ∈ e.2, c.isDigit) (h : Stops rest) :
    exponent? (n.printExponent ++ rest) = some (n.exponent, rest) := by
  rw [Numeral.printExponent]
  split
  · rename_i hnone
    rw [hnone, List.nil_append]
    cases rest with
    | nil => rfl
    | cons c rest => rcases h c rfl with rfl | rfl <;> rfl
  · rename_i sign digits hsome
    have hall : ∀ c ∈ digits, c.isDigit := hdigits _ hsome
    have hnil : digits ≠ [] := hne _ hsome
    obtain ⟨htake, hdrop⟩ := Text.takeWhile_append_stop hall h.not_digit
    have hread : (if (digits ++ rest).takeWhile Char.isDigit = [] then none
        else some (some (sign, (digits ++ rest).takeWhile Char.isDigit), (digits ++ rest).dropWhile Char.isDigit)) =
          some (some (sign, digits), rest) := by
      rw [htake, hdrop, if_neg hnil]
    have hfirst : ∀ {c s}, digits ++ rest = c :: s → c.isDigit := by
      intro c s heq
      obtain ⟨d, digits, rfl⟩ := List.exists_cons_of_ne_nil hnil
      rw [← (List.cons.inj heq).1]
      exact hall d List.mem_cons_self
    rw [hsome]
    rcases hsign _ hsome with rfl | rfl | rfl
    · change exponent? ('e' :: (digits ++ rest)) = _
      unfold exponent?
      dsimp only
      rw [if_pos (.inl rfl)]
      split
      · rename_i heq
        cases hfirst heq
      · rename_i heq
        cases hfirst heq
      · exact hread
    · exact hread
    · exact hread

/-- What follows the sign of a well-formed numeral is read back. -/
theorem unsigned?_print (hn : n.WellFormed) (h : Stops rest) (negative : Bool) : (do
    let (whole, s) ← whole? (n.whole ++ (n.printFraction ++ (n.printExponent ++ rest)))
    let (fraction, s) ← fraction? s
    let (exponent, s) ← exponent? s
    pure ((⟨negative, whole, fraction, exponent⟩ : Numeral), s)) =
      some (⟨negative, n.whole, n.fraction, n.exponent⟩, rest) := by
  have hnot : ∀ c ∈ (n.printFraction ++ (n.printExponent ++ rest)).head?, c.isDigit = false := by
    intro c hc
    rcases head?_printFraction h c hc with rfl | rfl | rfl | rfl <;> rfl
  have hwhole := whole?_append hn.whole_ne hn.whole_digits hn.whole_zero hnot
  have hfraction := fraction?_print hn.fraction_digits h
  have hexponent := exponent?_print hn.exponent_sign hn.exponent_ne hn.exponent_digits h
  rw [hwhole, Option.bind_eq_bind, Option.bind_some]
  dsimp only
  rw [hfraction, Option.bind_some]
  dsimp only
  rw [hexponent]
  rfl

/-- A well-formed numeral is read back. -/
theorem numeral?_print (hn : n.WellFormed) (h : Stops rest) : numeral? (n.print ++ rest) = some (n, rest) := by
  rw [Numeral.print_eq]
  simp only [List.append_assoc]
  cases hneg : n.negative with
  | true =>
    refine (unsigned?_print hn h true).trans ?_
    rw [← hneg]
  | false =>
    rw [if_neg Bool.false_ne_true, List.nil_append]
    unfold numeral?
    dsimp only
    split
    · rename_i s heq
      obtain ⟨c, whole, hc⟩ := List.exists_cons_of_ne_nil hn.whole_ne
      rw [hc, List.cons_append, List.cons.injEq] at heq
      have := hn.whole_digits c (by rw [hc]; exact List.mem_cons_self)
      rw [heq.1] at this
      cases this
    · refine (unsigned?_print hn h false).trans ?_
      rw [← hneg]

end Numeral

/-! ## Documents -/

/-- Documents whose numerals are well formed. -/
inductive WellFormed : Json → Prop
  | null : WellFormed .null
  | bool (b : Bool) : WellFormed (.bool b)
  | number {n : Numeral} (h : n.WellFormed) : WellFormed (.number n)
  | string (s : Option String) : WellFormed (.string s)
  | array {items : List Json} (h : ∀ x ∈ items, WellFormed x) : WellFormed (.array items)
  | object {fields : List (Option String × Json)} (h : ∀ f ∈ fields, WellFormed f.2) : WellFormed (.object fields)

def isSkipped (c : Char) : Bool :=
  c == ' ' || c == '\n' || c == '\t' || c == '\r'

theorem skip_cons {c : Char} (h : isSkipped c = false) (s : List Char) : skip (c :: s) = c :: s :=
  List.dropWhile_cons_of_neg (by rw [← isSkipped, h]; exact Bool.false_ne_true)

theorem skip_newline (depth : Nat) (s : List Char) : skip (newline depth ++ s) = skip s := by
  refine List.dropWhile_append_of_pos fun c hc => ?_
  rcases List.mem_cons.1 hc with rfl | hc
  · rfl
  · rw [List.eq_of_mem_replicate hc]
    rfl

theorem Numeral.WellFormed.print_cons {n : Numeral} (h : n.WellFormed) :
    ∃ c s, n.print = c :: s ∧ (c = '-' ∨ c.isDigit) := by
  obtain ⟨c, whole, hc⟩ := List.exists_cons_of_ne_nil h.whole_ne
  rw [Numeral.print_eq]
  cases n.negative with
  | true => exact ⟨'-', _, rfl, .inl rfl⟩
  | false => exact ⟨c, _, by rw [hc]; rfl, .inr (h.whole_digits c (by rw [hc]; exact List.mem_cons_self))⟩

theorem isSkipped_of_numeral {c : Char} (h : c = '-' ∨ c.isDigit) : isSkipped c = false ∧ c ≠ ']' := by
  rcases h with rfl | h
  · decide
  · refine ⟨Bool.eq_false_iff.2 fun hskip => ?_, ?_⟩
    · simp only [isSkipped, Bool.or_eq_true, beq_iff_eq] at hskip
      rcases hskip with ((rfl | rfl) | rfl) | rfl <;> cases h
    · rintro rfl
      cases h

/-- A printed document starts with what is neither skipped nor ends an array. -/
theorem WellFormed.print_cons {j : Json} (h : j.WellFormed) (depth : Nat) :
    ∃ c s, j.print depth = c :: s ∧ isSkipped c = false ∧ c ≠ ']' := by
  cases h with
  | null => exact ⟨'n', _, rfl, rfl, by decide⟩
  | bool b => cases b <;> exact ⟨_, _, rfl, rfl, by decide⟩
  | number h =>
    obtain ⟨c, s, hcs, hc⟩ := h.print_cons
    exact ⟨c, s, hcs, isSkipped_of_numeral hc⟩
  | string s => exact ⟨'"', _, quoted_eq s, rfl, by decide⟩
  | @array items _ => cases items <;> exact ⟨'[', _, rfl, rfl, by decide⟩
  | @object fields _ => rcases fields with _ | ⟨_, _⟩ <;> exact ⟨'\x7b', _, rfl, rfl, by decide⟩

theorem stops_items (depth outer : Nat) (xs : List Json) (rest : List Char) :
    Stops (printItems depth xs ++ (newline outer ++ rest)) := by
  intro c hc
  cases xs with
  | nil => exact .inr (Option.some.inj hc).symm
  | cons x xs => exact .inl (Option.some.inj hc).symm

theorem stops_fields (depth outer : Nat) (fields : List (Option String × Json)) (rest : List Char) :
    Stops (printFields depth fields ++ (newline outer ++ rest)) := by
  intro c hc
  rcases fields with _ | ⟨⟨key, x⟩, fields⟩
  · exact .inr (Option.some.inj hc).symm
  · exact .inl (Option.some.inj hc).symm

section Step

variable {fuel : Nat} {s t rest : List Char}

theorem value?_quote (h : skip s = '"' :: t) : value? (fuel + 1) s = (string? t).map fun p => (.string p.1, p.2) := by
  rw [value?, h]
  rfl

theorem value?_open_bracket (h : skip s = '[' :: t) : value? (fuel + 1) s = match skip t with
    | ']' :: rest => some (.array [], rest)
    | rest => (items? fuel rest).map fun p => (.array p.1, p.2) := by
  rw [value?, h]
  rfl

theorem value?_open_brace (h : skip s = '\x7b' :: t) : value? (fuel + 1) s = match skip t with
    | '\x7d' :: rest => some (.object [], rest)
    | rest => (fields? fuel rest).map fun p => (.object p.1, p.2) := by
  rw [value?, h]
  rfl

theorem value?_bracket (h : skip s = '[' :: t) (hne : ∀ u, skip t ≠ ']' :: u) :
    value? (fuel + 1) s = (items? fuel (skip t)).map fun p => (.array p.1, p.2) := by
  rw [value?_open_bracket h]
  split
  · rename_i u heq
    exact absurd heq (hne u)
  · rfl

theorem value?_brace (h : skip s = '\x7b' :: t) (hne : ∀ u, skip t ≠ '\x7d' :: u) :
    value? (fuel + 1) s = (fields? fuel (skip t)).map fun p => (.object p.1, p.2) := by
  rw [value?_open_brace h]
  split
  · rename_i u heq
    exact absurd heq (hne u)
  · rfl

theorem value?_number {n : Numeral} (hn : n.WellFormed) (h : Stops rest) (hs : skip s = n.print ++ rest) :
    value? (fuel + 1) s = some (.number n, rest) := by
  have hread := numeral?_print hn h
  obtain ⟨c, t, hct, hc⟩ := hn.print_cons
  have hne : ∀ {d u}, c :: (t ++ rest) = d :: u → d = '-' ∨ d.isDigit := by
    intro d u heq
    rwa [← (List.cons.inj heq).1]
  rw [hct, List.cons_append] at hs hread
  rw [value?, hs]
  split
  case h_7 => rw [hread]; rfl
  all_goals
    rename_i heq
    rcases hne heq with h | h <;> cases h

theorem items?_comma {x : Json} {xs : List Json} {u : List Char} (hx : value? fuel s = some (x, t))
    (ht : skip t = ',' :: u) (hxs : items? fuel u = some (xs, rest)) : items? (fuel + 1) s = some (x :: xs, rest) := by
  rw [items?, hx, Option.bind_eq_bind, Option.bind_some]
  dsimp only
  rw [ht]
  change (items? fuel u).bind _ = _
  rw [hxs]
  rfl

theorem items?_bracket {x : Json} (hx : value? fuel s = some (x, t)) (ht : skip t = ']' :: rest) :
    items? (fuel + 1) s = some ([x], rest) := by
  rw [items?, hx, Option.bind_eq_bind, Option.bind_some]
  dsimp only
  rw [ht]
  rfl

section Field

variable {key : Option String} {x : Json} {u : List Char}

theorem fields?_comma {fields : List (Option String × Json)} {v : List Char} (hs : skip s = quoted key ++ ':' :: t)
    (hx : value? fuel t = some (x, u)) (hu : skip u = ',' :: v) (hfields : fields? fuel v = some (fields, rest)) :
    fields? (fuel + 1) s = some ((key, x) :: fields, rest) := by
  rw [fields?, hs, quoted_eq, List.cons_append]
  change (string? ((quoted key).tail ++ ':' :: t)).bind _ = _
  rw [string?_quoted, Option.bind_some]
  change (value? fuel t).bind _ = _
  rw [hx, Option.bind_some]
  dsimp only
  rw [hu]
  change (fields? fuel v).bind _ = _
  rw [hfields]
  rfl

theorem fields?_brace (hs : skip s = quoted key ++ ':' :: t) (hx : value? fuel t = some (x, u))
    (hu : skip u = '\x7d' :: rest) : fields? (fuel + 1) s = some ([(key, x)], rest) := by
  rw [fields?, hs, quoted_eq, List.cons_append]
  change (string? ((quoted key).tail ++ ':' :: t)).bind _ = _
  rw [string?_quoted, Option.bind_some]
  change (value? fuel t).bind _ = _
  rw [hx, Option.bind_some]
  dsimp only
  rw [hu]
  rfl

end Field

end Step

theorem WellFormed.skip_print {j : Json} (h : j.WellFormed) (depth : Nat) (rest : List Char) :
    skip (j.print depth ++ rest) = j.print depth ++ rest := by
  obtain ⟨c, s, hcs, hc, _⟩ := h.print_cons depth
  rw [hcs]
  exact skip_cons hc _

theorem skip_quoted (key : Option String) (rest : List Char) : skip (quoted key ++ rest) = quoted key ++ rest := by
  rw [quoted_eq]
  exact skip_cons rfl _

mutual

/-- A printed document is read back, whatever follows it. -/
theorem value?_print : ∀ {fuel : Nat} (depth : Nat) {j : Json} {s rest : List Char}, j.WellFormed → Stops rest →
    (j.print depth).length < fuel → skip s = j.print depth ++ rest → value? fuel s = some (j, rest)
  | 0, _, _, _, _, _, _, hfuel, _ => absurd hfuel (Nat.not_lt_zero _)
  | fuel + 1, depth, j, s, rest, hj, hrest, hfuel, hs => by
    cases hj with
    | null =>
      rw [value?, hs]
      rfl
    | bool b =>
      rw [value?, hs]
      cases b <;> rfl
    | number hn => exact value?_number hn hrest hs
    | string t =>
      rw [print, quoted_eq, List.cons_append] at hs
      rw [value?_quote hs, string?_quoted]
      rfl
    | @array items h =>
      cases items with
      | nil =>
        rw [value?, hs]
        rfl
      | cons x xs =>
        obtain ⟨hx, hxs⟩ := List.forall_mem_cons.1 h
        obtain ⟨c, u, hcu, _, hne⟩ := hx.print_cons (depth + 1)
        simp only [print, List.cons_append, List.append_assoc, List.length_cons, List.length_append] at hs hfuel
        rw [value?_bracket hs, skip_newline, items?_print (depth + 1) depth hx hxs (by omega)]
        · rfl
        · rw [hx.skip_print, hx.skip_print]
          rfl
        · rw [skip_newline, hx.skip_print, hcu]
          exact fun v heq => hne (List.cons.inj heq).1
    | @object fields h =>
      rcases fields with _ | ⟨⟨key, x⟩, fields⟩
      · rw [value?, hs]
        rfl
      · obtain ⟨hx, hfields⟩ : x.WellFormed ∧ ∀ f ∈ fields, f.2.WellFormed := List.forall_mem_cons.1 h
        simp only [print, List.cons_append, List.append_assoc, List.length_cons, List.length_append] at hs hfuel
        rw [value?_brace hs, skip_newline, fields?_print (depth + 1) depth hx hfields (by omega)]
        · rfl
        · rw [skip_quoted, skip_quoted]
          rfl
        · rw [skip_newline, skip_quoted, quoted_eq]
          exact fun v heq => absurd (List.cons.inj heq).1 (by decide)

theorem items?_print : ∀ {fuel : Nat} (depth outer : Nat) {x : Json} {xs : List Json} {s rest : List Char},
    x.WellFormed → (∀ y ∈ xs, y.WellFormed) → (x.print depth).length + (printItems depth xs).length + 1 < fuel →
    skip s = x.print depth ++ (printItems depth xs ++ (newline outer ++ ']' :: rest)) →
      items? fuel s = some (x :: xs, rest)
  | 0, _, _, _, _, _, _, _, _, hfuel, _ => absurd hfuel (Nat.not_lt_zero _)
  | fuel + 1, depth, outer, x, xs, s, rest, hx, hxs, hfuel, hs => by
    have hvalue : value? fuel s = some (x, printItems depth xs ++ (newline outer ++ ']' :: rest)) :=
      value?_print depth hx (stops_items depth outer xs (']' :: rest)) (by omega) hs
    cases xs with
    | nil =>
      refine items?_bracket hvalue ?_
      rw [printItems, List.nil_append, skip_newline]
      exact skip_cons rfl rest
    | cons y ys =>
      obtain ⟨hy, hys⟩ := List.forall_mem_cons.1 hxs
      simp only [printItems, List.cons_append, List.append_assoc, List.length_cons, List.length_append] at hvalue hfuel
      refine items?_comma hvalue (skip_cons rfl _) (items?_print depth outer hy hys (by omega) ?_)
      rw [skip_newline, hy.skip_print]

theorem fields?_print : ∀ {fuel : Nat} (depth outer : Nat) {key : Option String} {x : Json}
    {fields : List (Option String × Json)} {s rest : List Char}, x.WellFormed → (∀ f ∈ fields, f.2.WellFormed) →
    (x.print depth).length + (printFields depth fields).length + 1 < fuel →
    skip s = quoted key ++ ':' :: ' ' :: (x.print depth ++ (printFields depth fields ++ (newline outer ++ '\x7d' :: rest))) →
      fields? fuel s = some ((key, x) :: fields, rest)
  | 0, _, _, _, _, _, _, _, _, _, hfuel, _ => absurd hfuel (Nat.not_lt_zero _)
  | fuel + 1, depth, outer, key, x, fields, s, rest, hx, hfields, hfuel, hs => by
    have hvalue : value? fuel (' ' :: (x.print depth ++ (printFields depth fields ++ (newline outer ++ '\x7d' :: rest)))) =
        some (x, printFields depth fields ++ (newline outer ++ '\x7d' :: rest)) :=
      value?_print depth hx (stops_fields depth outer fields ('\x7d' :: rest)) (by omega) (hx.skip_print depth _)
    rcases fields with _ | ⟨⟨key', y⟩, fields⟩
    · refine fields?_brace hs hvalue ?_
      rw [printFields, List.nil_append, skip_newline]
      exact skip_cons rfl rest
    · obtain ⟨hy, hfields⟩ : y.WellFormed ∧ ∀ f ∈ fields, f.2.WellFormed := List.forall_mem_cons.1 hfields
      simp only [printFields, List.cons_append, List.append_assoc, List.length_cons, List.length_append] at hs hvalue hfuel
      refine fields?_comma hs hvalue (skip_cons rfl _) (fields?_print depth outer hy hfields (by omega) ?_)
      rw [skip_newline, skip_quoted]
      rfl

end

/-- The text of a document is read back. -/
theorem parse?_render {j : Json} (h : j.WellFormed) : parse? j.render = some j := by
  have hvalue : value? ((j.print 0).length + 1) (j.print 0) = some (j, []) :=
    value?_print 0 h (fun c hc => by cases hc) (Nat.lt_succ_self _) (by simpa using h.skip_print 0 [])
  rw [parse?, render, String.length_ofList, String.toList_ofList, hvalue]
  rfl

end Relayout.Json
