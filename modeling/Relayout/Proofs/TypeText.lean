import Relayout.Block.Reader
import Relayout.Proofs.Cutting
import Relayout.Proofs.Numerals
import Relayout.Proofs.Results

/-!
# Types in text

Printed names and numbers are tokens (`IsName.token`, `token_text`), and printed types are read back
(`TensorType.readType_text`, `TensorType.readTypes_listText`) if their extents are legible: a size must fit in a word, and
the name of an extent must not hold the separator of extents.
-/

namespace Relayout

open Text Number Reader

theorem orError_some {α : Type} (e : ReadError) (a : α) : orError e (some a) = .ok a :=
  rfl

theorem ok_bind {α β : Type} (a : α) (f : α → Read β) : (Except.ok a >>= f) = f a :=
  rfl

/-! ## Names -/

/-- Texts of letters, digits and underscores. -/
def IsName (s : String) : Prop :=
  s ≠ "" ∧ s.toList.all fun c => c.isAlphanum || c == '_'

instance (s : String) : Decidable (IsName s) :=
  inferInstanceAs (Decidable (_ ∧ _))

theorem IsName.token {s : String} (h : IsName s) : Token s.toList := by
  refine ⟨fun hnil => h.1 (String.toList_eq_nil_iff.1 hnil), fun c hc => ?_⟩
  have := List.all_eq_true.1 h.2 c hc
  rw [Bool.or_eq_true] at this
  simp only [isToken, Bool.or_eq_true]
  exact .inl (.inl this)

theorem token_digitsOf (n : Nat) : Token (digitsOf n) :=
  ⟨digitsOf_ne_nil n, fun _ hc => isToken_of_isDigit (isDigit_of_mem_digitsOf hc)⟩

theorem isToken_of_mem_positional {d : Decimal} {c : Char} (h : c ∈ d.positional) : isToken c := by
  have hdigit : c.isDigit ∨ c = '.' := by
    rw [Decimal.positional] at h
    split at h
    · exact .inl ((List.mem_append.1 h).elim isDigit_of_mem_digitsOf isDigit_of_mem_zeros)
    · split at h
      · rcases List.mem_append.1 h with h | h
        · exact .inl (isDigit_of_mem_digitsOf (List.mem_of_mem_take h))
        · exact (List.mem_cons.1 h).symm.imp_left fun h => isDigit_of_mem_digitsOf (List.mem_of_mem_drop h)
      · rcases List.mem_cons.1 h with rfl | h
        · exact .inl rfl
        · refine (List.mem_cons.1 h).symm.imp_left fun h => ?_
          exact (List.mem_append.1 h).elim isDigit_of_mem_zeros isDigit_of_mem_digitsOf
  rcases hdigit with hdigit | rfl
  · exact isToken_of_isDigit hdigit
  · rfl

theorem token_text (x : Binary64) : Token x.text.toList := by
  have hbody : Token (if x.isInfinite then ['i', 'n', 'f'] else if x.magnitude = 0 then ['0']
      else (Decimal.shortest .away x.magnitude).positional) := by
    split
    · exact token_of_all (by decide) (by decide)
    · split
      · exact token_of_all (by decide) (by decide)
      · obtain ⟨c, s, hcs, _⟩ := Binary64.exists_positional_eq (Decimal.shortest .away x.magnitude)
        exact ⟨by rw [hcs]; exact List.cons_ne_nil c s, fun c => isToken_of_mem_positional⟩
  rw [Binary64.text]
  split
  · exact token_of_all (by decide) (by decide)
  · rw [String.toList_ofList]
    split
    · exact ⟨List.cons_ne_nil _ _, List.forall_mem_cons.2 ⟨rfl, hbody.chars⟩⟩
    · exact hbody

/-! ## Types -/

/-- Extents that are read back: sizes of 64 bits and names without the separator of extents. -/
def Dim.Legible : Dim → Prop
  | .fixed n => n < 2 ^ 64
  | .dynamic symbol => IsName symbol ∧ 'x' ∉ symbol.toList

namespace Dim

instance : (d : Dim) → Decidable d.Legible
  | .fixed _ => inferInstanceAs (Decidable (_ < _))
  | .dynamic _ => inferInstanceAs (Decidable (_ ∧ _))

variable {d : Dim}

theorem toList_text_fixed (n : Nat) : (Dim.fixed n).text.toList = digitsOf n :=
  toList_toString n

theorem toList_text_dynamic (symbol : String) : (Dim.dynamic symbol).text.toList = '?' :: symbol.toList := by
  rw [text, String.toList_append]
  rfl

theorem chars_text (h : d.Legible) : Chars ['?'] d.text.toList := by
  cases d with
  | fixed n =>
    rw [toList_text_fixed]
    exact (token_digitsOf n).chars'
  | dynamic symbol =>
    rw [toList_text_dynamic]
    exact .cons (by decide) h.1.token.chars'

theorem tight_text (h : d.Legible) : Tight d.text.toList := by
  cases d with
  | fixed n =>
    rw [toList_text_fixed]
    exact (token_digitsOf n).tight
  | dynamic symbol =>
    rw [toList_text_dynamic]
    exact h.1.token.tight.cons (by decide)

theorem not_mem_text (h : d.Legible) : 'x' ∉ d.text.toList := by
  cases d with
  | fixed n =>
    rw [toList_text_fixed]
    intro hmem
    cases isDigit_of_mem_digitsOf hmem
  | dynamic symbol =>
    rw [toList_text_dynamic, List.mem_cons, not_or]
    exact ⟨by decide, h.2⟩

theorem readDim_text (h : d.Legible) : readDim d.text.toList = .ok d := by
  cases d with
  | fixed n =>
    rw [toList_text_fixed, readDim.eq_def, (token_digitsOf n).tight.trim_eq]
    split
    · rename_i symbol heq
      exact absurd heq (digitsOf_ne_cons (by decide) symbol)
    · rw [readSize?_digitsOf h]
      rfl
  | dynamic symbol =>
    have htight := tight_text h
    rw [toList_text_dynamic] at htight ⊢
    rw [readDim, htight.trim_eq]
    exact (if_neg h.1.token.ne).trans (by rw [String.ofList_toList])

end Dim

namespace TensorType

/-- Types that are read back. -/
def Legible (t : TensorType) : Prop :=
  ∀ d ∈ t.dims, d.Legible

instance (t : TensorType) : Decidable t.Legible :=
  inferInstanceAs (Decidable (∀ d ∈ t.dims, d.Legible))

/-- What a type has between its brackets. -/
def inner (t : TensorType) : List Char :=
  t.elem.name.toList ++ if t.dims = [] then [] else [',', ' '] ++ ['x'].intercalate (t.dims.map (·.text.toList))

theorem toList_text (t : TensorType) : t.text.toList = "tensor".toList ++ ('<' :: t.inner ++ ['>']) := by
  obtain ⟨elem, dims⟩ := t
  cases dims with
  | nil => simp [text, inner]
  | cons d dims => simp [text, inner, Function.comp_def]

theorem token_elem (elem : ElemType) : Token elem.name.toList := by
  cases elem <;> exact token_of_all (by decide) (by decide)

theorem read?_elem (elem : ElemType) : ElemType.read? elem.name.toList = some elem := by
  cases elem <;> decide

section Legible

variable {t : TensorType}

theorem chars_inner (h : t.Legible) : Chars [',', ' ', '?'] t.inner := by
  refine (token_elem t.elem).chars'.append ?_
  split
  · exact chars_nil
  · refine .append (.cons (by decide) (.cons (by decide) chars_nil)) (.intercalate ?_ fun s hs => ?_)
    · exact (token_of_all (by decide) (by decide)).chars'
    · obtain ⟨d, hd, rfl⟩ := List.mem_map.1 hs
      exact (Dim.chars_text (h d hd)).mono (by simp)

theorem chars_text (h : t.Legible) : Chars ['<', '>', ',', ' ', '?'] t.text.toList := by
  have hinner : Chars ['<', '>', ',', ' ', '?'] t.inner := (chars_inner h).mono (by simp)
  rw [toList_text]
  exact (token_of_all (by decide) (by decide)).chars'.append
    (.append (.cons (by decide) hinner) (.cons (by decide) chars_nil))

theorem tight_text (t : TensorType) : Tight t.text.toList := by
  rw [toList_text]
  change Tight ('t' :: ("ensor<".toList ++ t.inner) ++ ['>'])
  exact tight_enclosed (by decide) (by decide) _

theorem whole_text (h : t.Legible) : Whole t.text.toList := by
  rw [toList_text]
  exact (token_of_all (by decide) (by decide)).whole.append (whole_angle ((chars_inner h).not_bracket (by decide)))

theorem readDims (h : t.Legible) (hne : t.dims ≠ []) :
    (splitOn 'x' (['x'].intercalate (t.dims.map (·.text.toList)))).mapM readDim = .ok t.dims := by
  obtain ⟨d, dims, hd⟩ := List.exists_cons_of_ne_nil hne
  have hsplit : splitOn 'x' (['x'].intercalate (t.dims.map (·.text.toList))) = t.dims.map (·.text.toList) := by
    rw [hd, List.map_cons]
    refine splitOn_intercalate ?_
    change ∀ s ∈ (d :: dims).map (·.text.toList), 'x' ∉ s
    rw [← hd, List.forall_mem_map]
    exact fun d hd => Dim.not_mem_text (h d hd)
  rw [hsplit, mapM_eq_ok, List.forall₂_map_left_iff, List.forall₂_same]
  exact fun d hd => Dim.readDim_text (h d hd)

theorem tight_dims (h : t.Legible) (hne : t.dims ≠ []) : Tight (['x'].intercalate (t.dims.map (·.text.toList))) := by
  obtain ⟨d, dims, hd⟩ := List.exists_cons_of_ne_nil hne
  rw [hd, List.map_cons]
  refine .intercalate ['x'] ?_
  change ∀ s ∈ (d :: dims).map (·.text.toList), Tight s
  rw [← hd, List.forall_mem_map]
  exact fun d hd => Dim.tight_text (h d hd)

/-- A type is read back. -/
theorem readType_text (h : t.Legible) {a b : List Char} (ha : ∀ c ∈ a, isBlank c) (hb : ∀ c ∈ b, isBlank c) :
    readType (a ++ (t.text.toList ++ b)) = .ok t := by
  have hbody : (dropStart? "tensor<".toList t.text.toList).bind (dropLast? '>') = some t.inner := by
    rw [toList_text]
    change (dropStart? "tensor<".toList ("tensor<".toList ++ (t.inner ++ ['>']))).bind _ = _
    rw [dropStart?_append, Option.bind_some, dropLast?_append]
  rw [readType, trim_append ha t.tight_text hb, hbody]
  by_cases hdims : t.dims = []
  · have hinner : t.inner = t.elem.name.toList := by rw [inner, if_pos hdims, List.append_nil]
    have hcut : cut? ',' t.inner = none := by
      rw [hinner]
      exact cut?_eq_none ((token_elem t.elem).not_mem rfl)
    simp only [orError_some, ok_bind, hcut, Option.getD_none]
    rw [hinner, read?_elem]
    simp only [orError_some, ok_bind, trim_nil, ↓reduceIte]
    obtain ⟨elem, dims⟩ := t
    cases hdims
    rfl
  · have hcut : cut? ',' t.inner = some (t.elem.name.toList, ' ' :: ['x'].intercalate (t.dims.map (·.text.toList))) := by
      rw [inner, if_neg hdims]
      exact cut?_append ((token_elem t.elem).not_mem rfl) _
    simp only [orError_some, ok_bind, hcut, Option.getD_some]
    have htight := tight_dims h hdims
    have htrim : trim (' ' :: ['x'].intercalate (t.dims.map (·.text.toList))) =
        ['x'].intercalate (t.dims.map (·.text.toList)) :=
      htight.trim_cons rfl
    rw [read?_elem]
    simp only [orError_some, ok_bind]
    rw [htrim, if_neg htight.ne, readDims h hdims]
    rfl

end Legible

/-- The types of results: one alone, any other number in parentheses. -/
def listText : List TensorType → List Char
  | [t] => t.text.toList
  | ts => '(' :: [',', ' '].intercalate (ts.map (·.text.toList)) ++ [')']

theorem listText_of_ne {ts : List TensorType} (h : ∀ t, ts ≠ [t]) :
    listText ts = '(' :: [',', ' '].intercalate (ts.map (·.text.toList)) ++ [')'] := by
  unfold listText
  split
  · exact absurd rfl (h _)
  · rfl

theorem chars_listText {ts : List TensorType} (h : ∀ t ∈ ts, t.Legible) :
    Chars ['<', '>', ',', ' ', '?', '(', ')'] (listText ts) := by
  have hitem : ∀ t ∈ ts, Chars ['<', '>', ',', ' ', '?', '(', ')'] t.text.toList :=
    fun t ht => (chars_text (h t ht)).mono (by simp)
  unfold listText
  split
  · exact hitem _ List.mem_cons_self
  · refine .append (.cons (by decide) (.intercalate ?_ (List.forall_mem_map.2 hitem))) (.cons (by decide) chars_nil)
    exact .cons (by decide) (.cons (by decide) chars_nil)

theorem tight_listText (ts : List TensorType) : Tight (listText ts) := by
  unfold listText
  split
  · exact tight_text _
  · exact tight_enclosed rfl rfl _

/-- The types of results are read back. -/
theorem readTypes_listText {ts : List TensorType} (h : ∀ t ∈ ts, t.Legible) : readTypes (' ' :: listText ts) = .ok ts := by
  have hmany : ∀ body, readTypes (' ' :: ('(' :: body ++ [')'])) = (splitTop ',' body).mapM readType := by
    intro body
    have htrim : trim (' ' :: ('(' :: body ++ [')'])) = '(' :: body ++ [')'] :=
      (tight_enclosed rfl rfl body).trim_cons rfl
    have hbody : (dropStart? ['('] ('(' :: body ++ [')'])).bind (dropLast? ')') = some body :=
      dropLast?_append ')' body
    rw [readTypes, htrim, hbody]
  have hitems : (splitTop ',' ([',', ' '].intercalate (ts.map (·.text.toList)))).mapM readType = .ok ts := by
    have hsplit : splitTop ',' ([',', ' '].intercalate (ts.map (·.text.toList)) ++ []) = ts.map (·.text.toList) := by
      refine splitTop_intercalate ?_ (by simp)
      rw [List.forall_mem_map]
      exact fun t ht => ⟨whole_text (h t ht), t.tight_text⟩
    rw [List.append_nil] at hsplit
    rw [hsplit, mapM_eq_ok, List.forall₂_map_left_iff, List.forall₂_same]
    exact fun t ht => by simpa using readType_text (h t ht) (a := []) (b := []) (by simp) (by simp)
  unfold listText
  split
  · rename_i t
    have hread : readType t.text.toList = .ok t := by
      simpa using readType_text (h t List.mem_cons_self) (a := []) (b := []) (by simp) (by simp)
    have hnone : (dropStart? ['('] t.text.toList).bind (dropLast? ')') = none := by
      rw [toList_text]
      rfl
    rw [readTypes, t.tight_text.trim_cons rfl, hnone]
    dsimp only
    rw [hread]
    rfl
  · rw [hmany, hitems]

end TensorType

end Relayout
