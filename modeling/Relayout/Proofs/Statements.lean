import Relayout.Proofs.KindText

/-!
# Statements in text

A printed statement has results, the name of an operation, operands, attributes and types, in this order (`Statement`).
Reading it hands the same parts to the builder (`Statement.readStatement_text`).
-/

namespace Relayout

open Text Reader

/-! ## Operands and attributes -/

section Arguments

variable {names : List (List Char)} {as : List Attribute}

theorem valueName_operand {n : List Char} (h : Token n) : valueName ('%' :: n) = String.ofList n := by
  have hstop : ∀ c ∈ n.head?, (c == '%') = false := by
    intro c hc
    rw [beq_eq_false_iff_ne]
    rintro rfl
    exact h.not_mem rfl (List.mem_of_mem_head? hc)
  have hdrop : (['%'] ++ n).dropWhile (· == '%') = n := (takeWhile_append_stop (by simp) hstop).2
  rw [valueName, (h.tight.cons rfl).trim_eq]
  exact congrArg String.ofList hdrop

theorem operandText_eq_nil : operandText names = [] ↔ names = [] := by
  rcases names with _ | ⟨n, _ | ⟨m, names⟩⟩ <;> simp [operandText, List.intercalate_cons_cons]

/-- Operands start with the sign of the first one. -/
theorem exists_operandText (hne : names ≠ []) : ∃ s, operandText names = '%' :: s := by
  obtain ⟨n, names, rfl⟩ := List.exists_cons_of_ne_nil hne
  cases names with
  | nil => exact ⟨n, List.intercalate_singleton⟩
  | cons m names => exact ⟨_, List.intercalate_cons_cons⟩

theorem chars_operandText (h : ∀ n ∈ names, Token n) : Chars ['%', ',', ' '] (operandText names) := by
  refine .intercalate (.cons (by decide) (.cons (by decide) chars_nil)) ?_
  rw [List.forall_mem_map]
  exact fun n hn => .cons (by decide) (h n hn).chars'

theorem tight_operandText (hne : names ≠ []) (h : ∀ n ∈ names, Token n) : Tight (operandText names) := by
  obtain ⟨n, names, rfl⟩ := List.exists_cons_of_ne_nil hne
  refine .intercalate _ ?_
  change ∀ s ∈ (n :: names).map ('%' :: ·), Tight s
  rw [List.forall_mem_map]
  exact fun n hn => (h n hn).tight.cons rfl

/-- Operands fall apart at the commas between them. -/
theorem splitTop_operandText (h : ∀ n ∈ names, Token n) {t : List Char} (ht : ∀ c ∈ t, c = ' ') :
    splitTop ',' (operandText names ++ t) = names.map ('%' :: ·) := by
  refine splitTop_intercalate ?_ ht
  rw [List.forall_mem_map]
  intro n hn
  have hflat : Whole ['%'] := whole_flat (by simp [isBracket]) (by simp)
  exact ⟨hflat.append (h n hn).whole, (h n hn).tight.cons rfl⟩

namespace Reader.Attribute

theorem Legible.token {a : Attribute} (h : a.Legible) : Token a.name.toList := by
  refine ⟨mt String.toList_eq_nil_iff.1 h.ne, fun c hc => ?_⟩
  exact isToken_of_isLetter (List.all_eq_true.1 h.letters c hc)

theorem listText_eq_nil : listText as = [] ↔ as = [] := by
  rcases as with _ | ⟨a, _ | ⟨a', as⟩⟩ <;> simp [listText, text, List.intercalate_cons_cons]

theorem chars_listText (h : ∀ a ∈ as, a.Legible) : Chars [',', ' ', '[', ']'] (listText as) := by
  refine .intercalate (.cons (by decide) chars_nil) ?_
  rw [List.forall_mem_map]
  intro a ha
  have hvalue : Chars [',', ' ', '[', ']'] a.value := (h a ha).chars.mono (by simp)
  exact (h a ha).token.chars'.append (.cons (by decide) (hvalue.append (.cons (by decide) chars_nil)))

theorem tight_listText (hne : as ≠ []) (h : ∀ a ∈ as, a.Legible) : Tight (listText as) := by
  obtain ⟨a, as, rfl⟩ := List.exists_cons_of_ne_nil hne
  refine .intercalate _ ?_
  change ∀ s ∈ (a :: as).map text, Tight s
  rw [List.forall_mem_map]
  intro a ha
  have hclose : Tight [']'] := ⟨by simp, by rintro _ ⟨⟩; rfl, by rintro _ ⟨⟩; rfl⟩
  have := (h a ha).token.tight.append hclose ('[' :: a.value)
  rwa [List.append_assoc, List.cons_append] at this

end Reader.Attribute

theorem chars_argumentText (hnames : ∀ n ∈ names, Token n) (has : ∀ a ∈ as, a.Legible) :
    Chars ['%', ',', ' ', '[', ']'] (argumentText names as) := by
  have hoperands : Chars ['%', ',', ' ', '[', ']'] (operandText names) := (chars_operandText hnames).mono (by simp)
  have hattributes : Chars ['%', ',', ' ', '[', ']'] (Attribute.listText as) :=
    (Attribute.chars_listText has).mono (by simp)
  rw [argumentText]
  split
  · exact hoperands
  · split
    · exact hattributes
    · exact hoperands.append (.cons (by decide) hattributes)

theorem tight_argumentText (hne : names ≠ [] ∨ as ≠ []) (hnames : ∀ n ∈ names, Token n) (has : ∀ a ∈ as, a.Legible) :
    Tight (argumentText names as) := by
  by_cases hnil : as = []
  · rw [argumentText, if_pos (by simp [hnil])]
    exact tight_operandText (hne.resolve_right (not_not.2 hnil)) hnames
  · have hattributes := Attribute.tight_listText hnil has
    rw [argumentText, if_neg (by simpa using hnil)]
    split
    · exact hattributes
    · rename_i hnames'
      have hoperands := tight_operandText (by simpa using hnames') hnames
      simpa using hoperands.append hattributes [' ']

end Arguments

/-! ## Statements -/

/-- The parts of a statement. -/
structure Statement where
  results : List (List Char)
  word : List Char
  operands : List (List Char)
  attributes : List Attribute
  types : List TensorType

namespace Statement

/-- Operands and attributes with a blank after them, if there are any. -/
def arguments (p : Statement) : List Char :=
  if p.operands = [] ∧ p.attributes = [] then [] else argumentText p.operands p.attributes ++ [' ']

/-- What follows the name of the operation. -/
def tail (p : Statement) : List Char :=
  p.arguments ++ '-' :: '>' :: ' ' :: TensorType.listText p.types

/-- What follows the sign of equality. -/
def right (p : Statement) : List Char :=
  ' ' :: (p.word ++ ' ' :: p.tail)

def text (p : Statement) : List Char :=
  operandText p.results ++ [' '] ++ '=' :: p.right

/-- Statements that are read back. -/
structure Legible (p : Statement) : Prop where
  results_ne : p.results ≠ []
  results : ∀ n ∈ p.results, Token n
  word_ne : p.word ≠ []
  word : Chars ['<', '>'] p.word
  operands : ∀ n ∈ p.operands, Token n
  attributes : ∀ a ∈ p.attributes, a.Legible
  types : ∀ t ∈ p.types, t.Legible

variable {p : Statement}

/-- Operands and attributes as they are printed, each with a blank before it. -/
theorem blank_arguments (p : Statement) :
    (if operandText p.operands = [] then [] else ' ' :: operandText p.operands) ++
      (if Attribute.listText p.attributes = [] then [] else ' ' :: Attribute.listText p.attributes) ++ [' '] =
        ' ' :: p.arguments := by
  simp only [operandText_eq_nil, Attribute.listText_eq_nil, arguments, argumentText, List.isEmpty_iff]
  by_cases hoperands : p.operands = [] <;> by_cases hattributes : p.attributes = [] <;> simp [hoperands, hattributes]

theorem chars_arguments (h : p.Legible) : Chars ['%', ',', ' ', '[', ']'] p.arguments := by
  rw [arguments]
  split
  · exact chars_nil
  · exact (chars_argumentText h.operands h.attributes).append (.cons (by decide) chars_nil)

/-- The characters of statements that no token holds. -/
def marks : List Char :=
  ['%', ',', ' ', '=', '<', '>', '[', ']', '?', '(', ')']

theorem Legible.chars_text (h : p.Legible) : Chars marks p.text := by
  have hblank : Chars marks [' '] := .cons (by decide) chars_nil
  have hresults : Chars marks (operandText p.results) := (chars_operandText h.results).mono (by simp [marks])
  have hword : Chars marks p.word := h.word.mono (by simp [marks])
  have harguments : Chars marks p.arguments := (chars_arguments h).mono (by simp [marks])
  have htypes : Chars marks (TensorType.listText p.types) := (TensorType.chars_listText h.types).mono (by simp [marks])
  have hdash : Chars marks ['-'] := List.forall_mem_singleton.2 (.inl (by decide))
  have harrow : Chars marks ['-', '>'] := hdash.append (.cons (by decide) chars_nil)
  have htail : Chars marks p.tail := harguments.append (harrow.append (.cons (by decide) htypes))
  have hright : Chars marks p.right := .cons (by decide) (hword.append (.cons (by decide) htail))
  exact (hresults.append hblank).append (.cons (by decide) hright)

theorem Legible.tight_text (h : p.Legible) : Tight p.text := by
  have hleft := tight_operandText h.results_ne h.results
  have := hleft.append (TensorType.tight_listText p.types)
    (' ' :: '=' :: ' ' :: (p.word ++ ' ' :: (p.arguments ++ ['-', '>', ' '])))
  simpa [text, right, tail] using this

theorem cut_text (h : p.Legible) : cut? '=' p.text = some (operandText p.results ++ [' '], p.right) := by
  refine cut?_append ?_ p.right
  have hleft : Chars ['%', ',', ' '] (operandText p.results ++ [' ']) :=
    (chars_operandText h.results).append (.cons (by decide) chars_nil)
  exact hleft.not_mem (by decide)

theorem map_valueName (h : p.Legible) :
    (splitTop ',' (operandText p.results ++ [' '])).map valueName = p.results.map String.ofList := by
  rw [splitTop_operandText h.results (by simp), List.map_map]
  exact List.map_congr_left fun n hn => valueName_operand (h.results n hn)

theorem head?_tail (h : p.Legible) : ∀ c ∈ p.tail.head?, isBlank c = false := by
  rw [tail, arguments]
  split
  · rintro _ ⟨⟩
    rfl
  · rename_i hne
    have htight := tight_argumentText (by rwa [not_and_or] at hne) h.operands h.attributes
    rw [List.append_assoc, List.head?_append_of_ne_nil _ htight.ne]
    exact htight.first

theorem readOpName_right (h : p.Legible) : readOpName p.right = .ok (String.ofList p.word, p.tail) := by
  have hword : ∀ c ∈ p.word, isBlank c = false ∧ (c == '(') = false ∧ (c == '%') = false := by
    intro c hc
    rcases h.word c hc with htoken | hother
    · refine ⟨isBlank_of_isToken htoken, ?_, ?_⟩
      all_goals
        rw [beq_eq_false_iff_ne]
        rintro rfl
        cases htoken
    · rcases List.mem_pair.1 hother with rfl | rfl <;> decide
  have hgo : ∀ c ∈ p.word, (!(isBlank c || c == '(' || c == '%')) = true := by
    intro c hc
    obtain ⟨hblank, hparen, hpercent⟩ := hword c hc
    rw [hblank, hparen, hpercent]
    rfl
  have hstop : ∀ c ∈ (' ' :: p.tail).head?, (!(isBlank c || c == '(' || c == '%')) = false := by
    rintro _ ⟨⟩
    decide
  obtain ⟨htake, hdrop⟩ := takeWhile_append_stop hgo hstop
  have hstart : trimStart p.right = p.word ++ ' ' :: p.tail := by
    refine trimStart_cons (by decide) ?_
    rw [List.head?_append_of_ne_nil _ h.word_ne]
    exact fun c hc => (hword c (List.mem_of_mem_head? hc)).1
  rw [readOpName, hstart]
  dsimp only
  rw [htake, hdrop, trimStart_cons (by decide) (head?_tail h), if_neg (by simp), if_neg h.word_ne]

/-- The arguments of a statement are read back. -/
theorem readArguments_arguments (h : p.Legible) : readArguments (p.arguments.length + 1) (trim p.arguments) {} =
    .ok ⟨p.operands.map ('%' :: ·), p.attributes⟩ := by
  have hreads := reads_argumentText h.operands h.attributes
  rw [arguments]
  split
  · rename_i hnil
    rw [hnil.1, hnil.2] at hreads ⊢
    exact hreads 1 Nat.zero_lt_one
  · rename_i hne
    have htight := tight_argumentText (by rwa [not_and_or] at hne) h.operands h.attributes
    have htrim : trim ([] ++ (argumentText p.operands p.attributes ++ [' '])) = argumentText p.operands p.attributes :=
      trim_append (by simp) htight (List.forall_mem_singleton.2 (by decide))
    rw [List.nil_append] at htrim
    rw [htrim]
    refine hreads _ ?_
    rw [List.length_append]
    omega

/-- A printed statement is read part by part. -/
theorem readStatement_text [IdSpace] (h : p.Legible) {s : Builder} {inputs : List ValueId}
    (hinputs : (p.operands.map ('%' :: ·)).mapM (lookup s) = .ok inputs) :
    readStatement p.text s = (customName? (String.ofList p.word)).elim
      (emitOne (String.ofList p.word) (p.results.map String.ofList) inputs
        ⟨p.operands.map ('%' :: ·), p.attributes⟩ (some p.types) s)
      fun custom => emitCustom custom (p.results.map String.ofList) inputs (some p.types) s := by
  have hresults : ¬(p.results.map String.ofList = [] ∨ (p.results.map String.ofList).any (· == "")) := by
    rw [not_or, List.map_eq_nil_iff, List.any_eq_true, not_exists]
    refine ⟨h.results_ne, fun s hs => ?_⟩
    obtain ⟨n, hn, rfl⟩ := List.mem_map.1 hs.1
    exact (h.results n hn).ne (by simpa using hs.2)
  have harrow : cutAt? ['-', '>'] p.tail = some (p.arguments, ' ' :: TensorType.listText p.types) :=
    cutAt?_arrow ((chars_arguments h).not_mem (by decide)) _
  rw [readStatement, cut_text h, orError_some, ok_bind]
  dsimp only
  rw [map_valueName h, if_neg hresults, readOpName_right h, ok_bind]
  dsimp only
  rw [harrow]
  dsimp only
  rw [readArguments_arguments h, ok_bind, hinputs, ok_bind]
  have htypes : (some (' ' :: TensorType.listText p.types)).mapM readTypes = .ok (some p.types) := by
    change readTypes (' ' :: TensorType.listText p.types) >>= (fun types => pure (some types)) = _
    rw [TensorType.readTypes_listText h.types]
    rfl
  rw [htypes, ok_bind]
  cases customName? (String.ofList p.word) <;> rfl

end Statement

end Relayout
