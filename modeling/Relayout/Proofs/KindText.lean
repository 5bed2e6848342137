import Relayout.Block.Printer
import Relayout.Proofs.Attributes
import Relayout.Proofs.Payloads
import Relayout.Proofs.TypeText

/-!
# Operations in text

What is printed after the name of an operation falls into its operands and attributes again (`reads_argumentText`), and
from the attributes its kind is read back (`OpKind.readKind_printed`).
-/

namespace Relayout

open Text Number Reader

/-! ## Operands and attributes -/

/-- What is left of a text of arguments is added to what was read. The length of the text is enough fuel. -/
def Reads (s : List Char) (args args' : Arguments) : Prop :=
  ∀ fuel, s.length < fuel → readArguments fuel s args = .ok args'

section Reads

variable {s : List Char} {args args' : Arguments}

theorem reads_nil (args : Arguments) : Reads [] args args := by
  rintro (_ | fuel) hfuel
  · cases hfuel
  · rfl

theorem Reads.blank (h : Reads s args args') : Reads (' ' :: s) args args' := by
  rintro (_ | fuel) hfuel
  · cases hfuel
  · exact h (fuel + 1) (Nat.lt_of_succ_lt hfuel)

theorem Reads.comma (h : Reads s args args') : Reads (',' :: s) args args' := by
  rintro (_ | fuel) hfuel
  · cases hfuel
  · exact h fuel (Nat.lt_of_succ_lt_succ hfuel)

theorem not_end_of_isToken {c : Char} (h : isToken c) : (!(isAsciiBlank c || c == ',' || c == ')')) = true := by
  rw [isAsciiBlank_of_isToken h, Bool.false_or, Bool.not_eq_true', Bool.eq_false_iff]
  simp only [ne_eq, Bool.or_eq_true, beq_iff_eq]
  rintro (rfl | rfl) <;> cases h

/-- An operand ends at a blank or a comma. -/
theorem Reads.operand {name : List Char} (hname : Token name) (hs : ∀ c ∈ s.head?, c = ' ' ∨ c = ',')
    (h : Reads s { args with operands := args.operands ++ ['%' :: name] } args') :
    Reads ('%' :: (name ++ s)) args args' := by
  rintro (_ | fuel) hfuel
  · cases hfuel
  · have hstop : ∀ c ∈ s.head?, (!(isAsciiBlank c || c == ',' || c == ')')) = false := by
      intro c hc
      rcases hs c hc with rfl | rfl <;> rfl
    obtain ⟨htake, hdrop⟩ := takeWhile_append_stop (fun c hc => not_end_of_isToken (hname.chars c hc)) hstop
    change readArguments fuel ((name ++ s).dropWhile _)
      { args with operands := args.operands ++ ['%' :: (name ++ s).takeWhile _] } = _
    rw [htake, hdrop]
    exact h fuel (by simp only [List.length_cons, List.length_append] at hfuel; omega)

theorem Reads.attribute {name : String} {value : List Char} (hne : name ≠ "")
    (hname : name.toList.all fun c => c.isAlpha || c == '_') (hopen : '[' ∉ value) (hclose : ']' ∉ value)
    (h : Reads s { args with attributes := args.attributes ++ [⟨name, trim value⟩] } args') :
    Reads (name.toList ++ '[' :: (value ++ ']' :: s)) args args' := by
  rintro (_ | fuel) hfuel
  · cases hfuel
  · have hletters := List.all_eq_true.1 hname
    obtain ⟨c, t, hct⟩ := List.exists_cons_of_ne_nil (mt String.toList_eq_nil_iff.1 hne)
    have hc : c.isAlpha || c == '_' := hletters c (by rw [hct]; exact List.mem_cons_self)
    have hstop : ∀ c ∈ ('[' :: (value ++ ']' :: s)).head?, (c.isAlpha || c == '_') = false := by
      rintro _ ⟨⟩
      rfl
    obtain ⟨htake, hdrop⟩ := takeWhile_append_stop hletters hstop
    have hblank : isAsciiBlank c = false := isAsciiBlank_of_isToken (isToken_of_isLetter hc)
    have hne' : ∀ {d rest}, name.toList ++ '[' :: (value ++ ']' :: s) = d :: rest → d.isAlpha || d == '_' := by
      intro d rest heq
      rw [hct, List.cons_append, List.cons.injEq] at heq
      rwa [← heq.1]
    have hskip : (name.toList ++ '[' :: (value ++ ']' :: s)).dropWhile isAsciiBlank =
        name.toList ++ '[' :: (value ++ ']' :: s) := by
      rw [hct]
      exact List.dropWhile_cons_of_neg (by rw [hblank]; exact Bool.false_ne_true)
    unfold readArguments
    rw [hskip]
    split
    · rename_i heq
      exact absurd heq (by simp)
    · rename_i heq
      cases hne' heq
    · rename_i heq
      cases hne' heq
    · rename_i heq
      cases hne' heq
    · dsimp only
      rw [hdrop]
      change (orError .unmatchedBracket (enclosed? '[' ']' 1 (value ++ ']' :: s))).bind _ = _
      rw [enclosed?_append hopen hclose, htake, String.ofList_toList]
      exact h fuel (by simp only [List.length_cons, List.length_append] at hfuel; omega)

end Reads

/-- A list of operands, each with a percent sign. -/
def operandText (names : List (List Char)) : List Char :=
  [',', ' '].intercalate (names.map ('%' :: ·))

theorem Reads.operands {names : List (List Char)} (hnames : ∀ n ∈ names, Token n) {s : List Char}
    (hs : ∀ c ∈ s.head?, c = ' ') {args args' : Arguments}
    (h : Reads s { args with operands := args.operands ++ names.map ('%' :: ·) } args') :
    Reads (operandText names ++ s) args args' := by
  induction names generalizing args with
  | nil => simpa [operandText] using h
  | cons n names ih =>
    rw [List.forall_mem_cons] at hnames
    cases names with
    | nil =>
      rw [operandText, List.map_singleton, List.intercalate_singleton]
      exact .operand hnames.1 (fun c hc => .inl (hs c hc)) h
    | cons m names =>
      rw [operandText, List.map_cons, List.map_cons, List.intercalate_cons_cons, ← List.map_cons, ← operandText,
        List.append_assoc, List.append_assoc]
      refine .operand hnames.1 ?_ (.comma (.blank (ih hnames.2 ?_)))
      · rintro _ ⟨⟩
        exact .inr rfl
      · simpa using h

namespace Reader.Attribute

/-- An attribute as it is printed. -/
def text (a : Attribute) : List Char :=
  a.name.toList ++ '[' :: (a.value ++ [']'])

def listText (as : List Attribute) : List Char :=
  [' '].intercalate (as.map text)

/-- Attributes that are read back. -/
structure Legible (a : Attribute) : Prop where
  ne : a.name ≠ ""
  letters : a.name.toList.all fun c => c.isAlpha || c == '_'
  chars : Chars [',', ' '] a.value
  trim_eq : trim a.value = a.value

end Reader.Attribute

theorem Reads.attributes {as : List Attribute} (has : ∀ a ∈ as, a.Legible) (args : Arguments) :
    Reads (Attribute.listText as) args { args with attributes := args.attributes ++ as } := by
  induction as generalizing args with
  | nil => simpa [Attribute.listText] using reads_nil args
  | cons a as ih =>
    rw [List.forall_mem_cons] at has
    have hopen := has.1.chars.not_mem (c := '[') (by decide)
    have hclose := has.1.chars.not_mem (c := ']') (by decide)
    have hread : (⟨a.name, trim a.value⟩ : Attribute) = a := by rw [has.1.trim_eq]
    cases as with
    | nil =>
      rw [Attribute.listText, List.map_singleton, List.intercalate_singleton]
      exact .attribute has.1.ne has.1.letters hopen hclose (by rw [hread]; exact reads_nil _)
    | cons a' as =>
      rw [Attribute.listText, List.map_cons, List.map_cons, List.intercalate_cons_cons, ← List.map_cons,
        ← Attribute.listText, Attribute.text]
      simp only [List.append_assoc, List.cons_append]
      refine .attribute has.1.ne has.1.letters hopen hclose (.blank ?_)
      rw [hread]
      simpa using ih has.2 { args with attributes := args.attributes ++ [a] }

/-- Operands and attributes as they are printed. -/
def argumentText (names : List (List Char)) (as : List Attribute) : List Char :=
  if as.isEmpty then operandText names else if names.isEmpty then Attribute.listText as
  else operandText names ++ ' ' :: Attribute.listText as

theorem reads_argumentText {names : List (List Char)} {as : List Attribute} (hnames : ∀ n ∈ names, Token n)
    (has : ∀ a ∈ as, a.Legible) : Reads (argumentText names as) {} ⟨names.map ('%' :: ·), as⟩ := by
  have hattributes := Reads.attributes has ⟨names.map ('%' :: ·), []⟩
  rw [argumentText]
  split
  · rename_i hnil
    obtain rfl := List.isEmpty_iff.1 hnil
    rw [← List.append_nil (operandText names)]
    exact Reads.operands hnames (by simp) (reads_nil _)
  · split
    · rename_i hnil
      obtain rfl := List.isEmpty_iff.1 hnil
      exact hattributes
    · refine Reads.operands hnames ?_ (.blank hattributes)
      rintro _ ⟨⟩
      rfl

/-! ## Attribute values -/

/-- A list of tokens as it is printed. -/
def tokenText (items : List (List Char)) : List Char :=
  [',', ' '].intercalate items

section Values

variable {items : List (List Char)}

theorem chars_tokenText (h : ∀ s ∈ items, Token s) : Chars [',', ' '] (tokenText items) :=
  .intercalate (.cons (by decide) (.cons (by decide) chars_nil)) fun s hs => (h s hs).chars'

theorem tight_tokenText (hne : items ≠ []) (h : ∀ s ∈ items, Token s) : Tight (tokenText items) := by
  obtain ⟨p, ps, rfl⟩ := List.exists_cons_of_ne_nil hne
  exact .intercalate _ fun s hs => (h s hs).tight

theorem trim_tokenText (h : ∀ s ∈ items, Token s) : trim (tokenText items) = tokenText items := by
  by_cases hne : items = []
  · rw [hne]
    rfl
  · exact (tight_tokenText hne h).trim_eq

/-- A list of tokens is read item by item, each with a blank in front or not. -/
theorem mapM_splitOn_tokenText {α : Type} {read : List Char → Read α} {f : α → List Char} {xs : List α} (hne : xs ≠ [])
    (htoken : ∀ x ∈ xs, Token (f x)) (hread : ∀ x ∈ xs, ∀ s, trim s = f x → read s = .ok x) :
    (splitOn ',' (tokenText (xs.map f))).mapM read = .ok xs := by
  obtain ⟨x, xs, rfl⟩ := List.exists_cons_of_ne_nil hne
  rw [List.forall_mem_cons] at htoken hread
  have hcommas : ∀ s ∈ f x :: xs.map f, ',' ∉ s := by
    rw [List.forall_mem_cons, List.forall_mem_map]
    exact ⟨htoken.1.not_mem rfl, fun y hy => (htoken.2 y hy).not_mem rfl⟩
  rw [List.map_cons, tokenText, splitOn_commas hcommas, List.map_map, mapM_eq_ok]
  refine .cons (hread.1 _ htoken.1.tight.trim_eq) ?_
  rw [List.forall₂_map_left_iff, List.forall₂_same]
  exact fun y hy => hread.2 y hy _ ((htoken.2 y hy).tight.trim_cons rfl)

def sizesText (ns : List Nat) : List Char :=
  tokenText (ns.map digitsOf)

theorem tokens_sizes (ns : List Nat) : ∀ s ∈ ns.map digitsOf, Token s := by
  rw [List.forall_mem_map]
  exact fun n _ => token_digitsOf n

theorem readSizes_sizesText {ns : List Nat} (h : ∀ n ∈ ns, n < 2 ^ 64) : readSizes (sizesText ns) = .ok ns := by
  rw [readSizes, sizesText, trim_tokenText (tokens_sizes ns)]
  by_cases hne : ns = []
  · rw [hne]
    rfl
  · rw [if_neg (tight_tokenText (by simpa using hne) (tokens_sizes ns)).ne]
    refine mapM_splitOn_tokenText hne (fun n _ => token_digitsOf n) fun n hn s hs => ?_
    dsimp only
    rw [hs, readSize?_digitsOf (h n hn)]
    rfl

def numbersText (xs : List Binary64) : List Char :=
  tokenText (xs.map (·.text.toList))

theorem tokens_numbers (xs : List Binary64) : ∀ s ∈ xs.map (·.text.toList), Token s := by
  rw [List.forall_mem_map]
  exact fun x _ => token_text x

theorem readNumber_text {x : Binary64} (h : x.isNaN = false) {s : List Char} (hs : trim s = x.text.toList) :
    readNumber s = .ok x := by
  rw [readNumber, hs, Binary64.read?_text h]
  rfl

theorem readNumbers_numbersText {xs : List Binary64} (h : ∀ x ∈ xs, x.isNaN = false) :
    readNumbers (numbersText xs) = .ok xs := by
  rw [readNumbers, numbersText, trim_tokenText (tokens_numbers xs)]
  by_cases hne : xs = []
  · rw [hne]
    rfl
  · rw [if_neg (tight_tokenText (by simpa using hne) (tokens_numbers xs)).ne]
    exact mapM_splitOn_tokenText hne (fun x _ => token_text x) fun x hx s hs => readNumber_text (h x hx) hs

end Values

/-! ## Kinds -/

/-- A literal with a numeric view is given by its numbers. -/
def Literal.Legible (l : Literal) : Prop :=
  l.type.elem ≠ .f16 → ∀ xs ∈ l.numbers?, (∀ x ∈ xs, x.isNaN = false) ∧ Literal.ofNumbers l.type xs = .ok l

instance (l : Literal) : Decidable l.Legible :=
  inferInstanceAs (Decidable (_ → _))

namespace OpKind

/-- Kinds that are read back, if a payload without a numeric view has its size. -/
structure Legible (kind : OpKind) : Prop where
  sizes : ∀ n ∈ kind.sizes, n < 2 ^ 64
  scalars : ∀ x ∈ kind.scalars, x.isNaN = false
  literals : ∀ l ∈ kind.literal?, l.Legible

instance (kind : OpKind) : Decidable kind.Legible :=
  decidable_of_iff ((∀ n ∈ kind.sizes, n < 2 ^ 64) ∧ (∀ x ∈ kind.scalars, x.isNaN = false) ∧
    ∀ l ∈ kind.literal?, l.Legible) ⟨fun h => ⟨h.1, h.2.1, h.2.2⟩, fun h => ⟨h.1, h.2, h.3⟩⟩

/-- The attributes of a kind, as they are printed. -/
def printed : OpKind → List Attribute
  | const literal =>
    match literal.numbers? with
    | some numbers => [⟨"value", numbersText numbers⟩]
    | none => [⟨"bytes", sizesText (literal.bytes.map (·.toNat))⟩]
  | transpose perm => [⟨"perm", sizesText perm⟩]
  | reduce spec => [⟨"axes", sizesText spec.axes⟩, ⟨"keep_dims", (boolText spec.keepDims).toList⟩]
  | concat axis => [⟨"axis", sizesText [axis]⟩]
  | activation spec => [⟨"alpha", spec.alpha.text.toList⟩, ⟨"beta", spec.beta.text.toList⟩]
  | pad spec =>
    [⟨"pad", sizesText spec.amounts⟩, ⟨"mode", spec.mode.name.toList⟩, ⟨"constant_val", spec.fill.text.toList⟩]
  | pool spec => [⟨"kernel", sizesText spec.kernel⟩, ⟨"strides", sizesText spec.strides⟩]
  | unary _ | binary _ | custom _ => []

theorem toList_listText (ns : List Nat) : (listText ns).toList = '[' :: (sizesText ns ++ [']']) := by
  have hdigits : ns.map (fun n => (toString n).toList) = ns.map digitsOf :=
    List.map_congr_left fun n _ => toList_toString n
  simp [listText, sizesText, tokenText, Function.comp_def, ← hdigits]

theorem toList_attributes (kind : OpKind) : kind.attributes.toList = Attribute.listText kind.printed := by
  cases kind with
  | const literal =>
    rw [attributes, printed]
    cases literal.numbers? with
    | none =>
      have hbytes : literal.bytes.map (fun b => (toString b.toNat).toList) = literal.bytes.map (fun b => digitsOf b.toNat) :=
        List.map_congr_left fun b _ => toList_toString b.toNat
      simp [Attribute.listText, Attribute.text, commas, sizesText, tokenText, Function.comp_def, ← hbytes]
    | some numbers =>
      simp [Attribute.listText, Attribute.text, commas, numbersText, tokenText, Function.comp_def]
  | transpose perm => simp [attributes, printed, Attribute.listText, Attribute.text, toList_listText]
  | unary op => rfl
  | activation spec => simp [attributes, printed, Attribute.listText, Attribute.text]
  | binary op => rfl
  | reduce spec => simp [attributes, printed, Attribute.listText, Attribute.text, toList_listText]
  | concat axis => simp [attributes, printed, Attribute.listText, Attribute.text, toList_listText]
  | pad spec => simp [attributes, printed, Attribute.listText, Attribute.text, toList_listText]
  | pool spec => simp [attributes, printed, Attribute.listText, Attribute.text, toList_listText]
  | custom name => rfl

theorem legible_tokenText {name : String} (hne : name ≠ "") (hname : name.toList.all fun c => c.isAlpha || c == '_')
    {items : List (List Char)} (h : ∀ s ∈ items, Token s) : (⟨name, tokenText items⟩ : Attribute).Legible :=
  ⟨hne, hname, chars_tokenText h, trim_tokenText h⟩

theorem legible_token {name : String} (hne : name ≠ "") (hname : name.toList.all fun c => c.isAlpha || c == '_')
    {value : List Char} (h : Token value) : (⟨name, value⟩ : Attribute).Legible :=
  ⟨hne, hname, h.chars', h.tight.trim_eq⟩

theorem legible_printed (kind : OpKind) : ∀ a ∈ kind.printed, a.Legible := by
  have hsizes : ∀ {name : String}, name ≠ "" → (name.toList.all fun c => c.isAlpha || c == '_') → ∀ ns,
      (⟨name, sizesText ns⟩ : Attribute).Legible := fun hne hname ns => legible_tokenText hne hname (tokens_sizes ns)
  have hnumber : ∀ {name : String}, name ≠ "" → (name.toList.all fun c => c.isAlpha || c == '_') → ∀ x : Binary64,
      (⟨name, x.text.toList⟩ : Attribute).Legible := fun hne hname x => legible_token hne hname (token_text x)
  cases kind with
  | const literal =>
    rw [printed]
    split
    · exact List.forall_mem_singleton.2 (legible_tokenText (by decide) (by decide) (tokens_numbers _))
    · exact List.forall_mem_singleton.2 (hsizes (by decide) (by decide) _)
  | transpose perm => simpa [printed] using hsizes (by decide) (by decide) perm
  | unary op => simp [printed]
  | activation spec =>
    simpa [printed] using ⟨hnumber (by decide) (by decide) spec.alpha, hnumber (by decide) (by decide) spec.beta⟩
  | binary op => simp [printed]
  | reduce spec =>
    have hbool : Token (boolText spec.keepDims).toList := by
      cases spec.keepDims <;> exact token_of_all (by decide) (by decide)
    simpa [printed] using ⟨hsizes (by decide) (by decide) spec.axes, legible_token (by decide) (by decide) hbool⟩
  | concat axis => simpa [printed] using hsizes (by decide) (by decide) [axis]
  | pad spec =>
    have hmode : Token spec.mode.name.toList := by
      cases spec.mode <;> exact token_of_all (by decide) (by decide)
    simpa [printed] using ⟨hsizes (by decide) (by decide) spec.amounts, legible_token (by decide) (by decide) hmode,
      hnumber (by decide) (by decide) spec.fill⟩
  | pool spec =>
    simpa [printed] using ⟨hsizes (by decide) (by decide) spec.kernel, hsizes (by decide) (by decide) spec.strides⟩
  | custom name => simp [printed]

end OpKind

namespace Literal

variable {l : Literal} {xs : List Binary64}

theorem elementCount_of_ofNumbers {type : TensorType} (h : ofNumbers type xs = .ok l) :
    type.elementCount? = some xs.length := by
  rw [ofNumbers, ofElements] at h
  split at h
  · cases h
  · rename_i expected hcount
    split at h
    · rename_i heq
      rw [hcount, heq]
    · cases h

theorem Sized.exists_elementCount (h : l.Sized) :
    ∃ n, l.type.elementCount? = some n ∧ n * l.type.elem.width = l.bytes.length := by
  obtain ⟨n, hn, hmul⟩ := Option.bind_eq_some_iff.1 h
  exact ⟨n, hn, (Word.size?_eq_some.1 hmul).2⟩

/-- Only one element type has no numeric view. -/
theorem elem_of_numbers?_eq_none (h : l.numbers? = none) : l.type.elem = .f16 := by
  by_contra helem
  have hdecode : ∀ bytes ∈ l.elements, ∃ x, decode? l.type.elem bytes = some x := by
    intro bytes _
    revert helem
    cases l.type.elem <;> simp [decode?]
  obtain ⟨xs, hxs⟩ := exists_forall₂ hdecode
  rw [numbers?, mapM_eq_some.2 hxs] at h
  cases h

/-- Without a numeric view, only a literal without elements has numbers. -/
theorem eq_nil_of_f16 (hsized : l.Sized) (helem : l.type.elem = .f16) (h : l.numbers? = some xs) :
    xs = [] ∧ l.bytes = [] := by
  obtain ⟨n, _, hlen⟩ := hsized.exists_elementCount
  rw [numbers?, mapM_eq_some] at h
  have hcount : l.elements.length = n := by
    rw [elements, length_pieces, ← hlen, Nat.mul_div_cancel n l.type.elem.width_pos]
  cases hx : xs with
  | nil =>
    rw [hx] at h
    rw [List.forall₂_nil_right_iff.1 h, List.length_nil] at hcount
    rw [← hcount, Nat.zero_mul, eq_comm, List.length_eq_zero_iff] at hlen
    exact ⟨rfl, hlen⟩
  | cons x xs =>
    rw [hx] at h
    obtain ⟨_, _, hdecode, _, _⟩ := List.forall₂_cons_right_iff.1 h
    rw [helem] at hdecode
    cases hdecode

/-- A literal is stored again from its numbers. -/
theorem Legible.ofNumbers (h : l.Legible) (hhalf : l.type.elem = .f16 → l.Sized) (hxs : l.numbers? = some xs) :
    (∀ x ∈ xs, x.isNaN = false) ∧ Literal.ofNumbers l.type xs = .ok l := by
  by_cases helem : l.type.elem = .f16
  · have hsized := hhalf helem
    obtain ⟨rfl, hbytes⟩ := eq_nil_of_f16 hsized helem hxs
    refine ⟨by simp, ?_⟩
    obtain ⟨n, hn, hlen⟩ := hsized.exists_elementCount
    have hzero : n = 0 := by
      rw [hbytes] at hlen
      exact (Nat.mul_eq_zero.1 hlen).resolve_right l.type.elem.width_pos.ne'
    have hmake := make_of_sized hsized
    rw [hbytes] at hmake
    rw [Literal.ofNumbers, ofElements, hn, hzero]
    exact hmake
  · exact h helem xs hxs

end Literal

section Find

variable {args : Arguments} {name : String} {value : List Char}

theorem require_of_find? (h : args.find? name = some value) (op : String) : args.require op name = .ok value := by
  rw [Arguments.require, h, orError_some]

theorem get_of_find? {α : Type} (h : args.find? name = some value) (default : α) (read : List Char → Read α) :
    args.get name default read = read value := by
  rw [Arguments.get, h]

end Find

namespace OpKind

theorem splat_eq_ok {type : TensorType} {xs : List Binary64} (h : type.elementCount? = some xs.length) :
    splat type xs = .ok xs := by
  rw [splat, h, orError_some, ok_bind]
  split <;> rfl

/-- The numbers of a constant are read back, whatever literal they are stored as. -/
theorem readConst_of_numbers (operands : List (List Char)) {l l' : Literal} {xs : List Binary64}
    (hnumbers : l.numbers? = some xs) (hnan : ∀ x ∈ xs, x.isNaN = false) (hl : Literal.ofNumbers l.type xs = .ok l') :
    readConst ⟨operands, printed (const l)⟩ (some l.type) = .ok (const l') := by
  rw [printed, hnumbers]
  change readNumbers (numbersText xs) >>= (fun xs =>
    splat l.type xs >>= fun xs => liftLiteral (Literal.ofNumbers l.type xs)) = _
  rw [readNumbers_numbersText hnan, ok_bind, splat_eq_ok (Literal.elementCount_of_ofNumbers hl), ok_bind, hl]
  rfl

theorem readConst_printed (operands : List (List Char)) {l : Literal} (h : l.Legible)
    (hhalf : l.type.elem = .f16 → l.Sized) :
    readConst ⟨operands, printed (const l)⟩ (some l.type) = .ok (const l) := by
  cases hnumbers : l.numbers? with
  | some xs =>
    obtain ⟨hnan, hl⟩ := h.ofNumbers hhalf hnumbers
    exact readConst_of_numbers operands hnumbers hnan hl
  | none =>
    rw [printed, hnumbers]
    change readSizes (sizesText (l.bytes.map (·.toNat))) >>=
      (fun ns => ns.mapM readByte >>= fun bytes => liftLiteral (Literal.make l.type bytes)) = _
    have hsizes : ∀ n ∈ l.bytes.map (·.toNat), n < 2 ^ 64 := by
      rw [List.forall_mem_map]
      exact fun b _ => b.toNat_lt.trans (by decide)
    have hbytes : (l.bytes.map (·.toNat)).mapM readByte = .ok l.bytes := by
      rw [mapM_eq_ok, List.forall₂_map_left_iff, List.forall₂_same]
      intro b _
      rw [readByte, if_pos b.toNat_lt, UInt8.ofNat_toNat]
    rw [readSizes_sizesText hsizes, ok_bind, hbytes, ok_bind,
      Literal.make_of_sized (hhalf (Literal.elem_of_numbers?_eq_none hnumbers))]
    rfl

section Readers

variable (operands : List (List Char))

theorem readActivation_printed {spec : Activate} (h : (activation spec).Legible) :
    readActivation spec.function ⟨operands, printed (activation spec)⟩ = .ok (activation spec) := by
  have halpha : Arguments.find? ⟨operands, printed (activation spec)⟩ "alpha" = some spec.alpha.text.toList := rfl
  have hbeta : Arguments.find? ⟨operands, printed (activation spec)⟩ "beta" = some spec.beta.text.toList := rfl
  rw [readActivation, get_of_find? halpha, get_of_find? hbeta,
    readNumber_text (h.scalars _ (by simp [scalars])) (token_text _).tight.trim_eq,
    readNumber_text (h.scalars _ (by simp [scalars])) (token_text _).tight.trim_eq]
  rfl

theorem readReduce_printed {spec : Reduce} (h : (reduce spec).Legible) :
    readReduce spec.kind ⟨operands, printed (reduce spec)⟩ = .ok (reduce spec) := by
  have hsizes : ∀ n ∈ spec.axes, n < 2 ^ 64 := h.sizes
  have haxes : Arguments.find? ⟨operands, printed (reduce spec)⟩ "axes" = some (sizesText spec.axes) := rfl
  have hkeep : Arguments.find? ⟨operands, printed (reduce spec)⟩ "keep_dims" =
    some (boolText spec.keepDims).toList := rfl
  have hbool : readBool (boolText spec.keepDims).toList = .ok spec.keepDims := by cases spec.keepDims <;> decide
  rw [readReduce, get_of_find? haxes, get_of_find? hkeep, readSizes_sizesText hsizes, hbool]
  rfl

theorem readConcat_printed {axis : Nat} (h : (concat axis).Legible) :
    readConcat ⟨operands, printed (concat axis)⟩ = .ok (concat axis) := by
  have haxis : Arguments.find? ⟨operands, printed (concat axis)⟩ "axis" = some (sizesText [axis]) := rfl
  have htrim : trim (sizesText [axis]) = digitsOf axis := by
    rw [sizesText, trim_tokenText (tokens_sizes [axis])]
    exact List.intercalate_singleton
  rw [readConcat, require_of_find? haxis, ok_bind, htrim]
  dsimp only
  rw [readSize?_digitsOf (h.sizes axis (by simp [sizes]))]
  rfl

theorem readPad_printed {spec : Pad} (h : (pad spec).Legible) :
    readPad ⟨operands, printed (pad spec)⟩ = .ok (pad spec) := by
  have hsizes : ∀ n ∈ spec.amounts, n < 2 ^ 64 := h.sizes
  have hamounts : Arguments.find? ⟨operands, printed (pad spec)⟩ "pad" = some (sizesText spec.amounts) := rfl
  have hmode : Arguments.find? ⟨operands, printed (pad spec)⟩ "mode" = some spec.mode.name.toList := rfl
  have hfill : Arguments.find? ⟨operands, printed (pad spec)⟩ "constant_val" = some spec.fill.text.toList := rfl
  have hread : orError (.unknownPadMode (String.ofList spec.mode.name.toList))
      (Named.ofName? (String.ofList (trim spec.mode.name.toList))) = .ok spec.mode := by
    cases spec.mode <;> decide
  rw [readPad, require_of_find? hamounts, ok_bind, readSizes_sizesText hsizes, ok_bind, get_of_find? hmode, hread, ok_bind,
    get_of_find? hfill, readNumber_text (h.scalars _ (by simp [scalars])) (token_text _).tight.trim_eq]
  rfl

theorem readPool_printed {spec : Pool} (h : (pool spec).Legible) :
    readPool spec.kind ⟨operands, printed (pool spec)⟩ = .ok (pool spec) := by
  have hsizes : ∀ n ∈ spec.kernel ++ spec.strides, n < 2 ^ 64 := h.sizes
  rw [List.forall_mem_append] at hsizes
  have hkernel : Arguments.find? ⟨operands, printed (pool spec)⟩ "kernel" = some (sizesText spec.kernel) := rfl
  have hstrides : Arguments.find? ⟨operands, printed (pool spec)⟩ "strides" = some (sizesText spec.strides) := rfl
  rw [readPool, require_of_find? hkernel, ok_bind, readSizes_sizesText hsizes.1, ok_bind, get_of_find? hstrides,
    readSizes_sizesText hsizes.2]
  rfl

/-- A kind is read back from its name and its printed attributes. -/
theorem readKind_printed {kind : OpKind} (h : kind.Legible) (hc : kind.isCustom = false) {type : TensorType}
    (hhalf : ∀ l ∈ kind.literal?, l.type.elem = .f16 → l.Sized) (htype : ∀ l ∈ kind.literal?, l.type = type) :
    readKind kind.name ⟨operands, kind.printed⟩ (some type) = .ok kind := by
  cases kind with
  | const l =>
    obtain rfl := htype l rfl
    exact readConst_printed operands (h.literals l rfl) (hhalf l rfl)
  | transpose perm =>
    have hsizes : ∀ n ∈ perm, n < 2 ^ 64 := h.sizes
    have hperm : Arguments.find? ⟨operands, printed (transpose perm)⟩ "perm" = some (sizesText perm) := rfl
    change Arguments.require _ "transpose" "perm" >>= _ = _
    rw [require_of_find? hperm, ok_bind, readSizes_sizesText hsizes]
    rfl
  | unary op =>
    have hop : (Named.ofName? op.name : Option Unary) = some op := Named.Lawful.ofName?_name op
    rw [name, readKind.eq_def, hop]
    rfl
  | activation spec =>
    have hop : (Named.ofName? spec.function.name : Option Activation) = some spec.function :=
      Named.Lawful.ofName?_name spec.function
    have hunary : (Named.ofName? spec.function.name : Option Unary) = none := by cases spec.function <;> decide
    rw [name, readKind.eq_def, hop, hunary]
    exact readActivation_printed operands h
  | binary op =>
    have hop : (Named.ofName? op.name : Option Binary) = some op := Named.Lawful.ofName?_name op
    have hunary : (Named.ofName? op.name : Option Unary) = none := by cases op <;> decide
    have hactivation : (Named.ofName? op.name : Option Activation) = none := by cases op <;> decide
    rw [name, readKind.eq_def, hop, hunary, hactivation]
    rfl
  | reduce spec =>
    have hop : (Named.ofName? spec.kind.name : Option Reduction) = some spec.kind :=
      Named.Lawful.ofName?_name spec.kind
    have hunary : (Named.ofName? spec.kind.name : Option Unary) = none := by cases spec.kind <;> decide
    have hactivation : (Named.ofName? spec.kind.name : Option Activation) = none := by cases spec.kind <;> decide
    have hbinary : (Named.ofName? spec.kind.name : Option Binary) = none := by cases spec.kind <;> decide
    rw [name, readKind.eq_def, hop, hunary, hactivation, hbinary]
    exact readReduce_printed operands h
  | concat axis => exact readConcat_printed operands h
  | pad spec => exact readPad_printed operands h
  | pool spec =>
    have hop : (Named.ofName? spec.kind.name : Option Pooling) = some spec.kind :=
      Named.Lawful.ofName?_name spec.kind
    have hunary : (Named.ofName? spec.kind.name : Option Unary) = none := by cases spec.kind <;> decide
    have hactivation : (Named.ofName? spec.kind.name : Option Activation) = none := by cases spec.kind <;> decide
    have hbinary : (Named.ofName? spec.kind.name : Option Binary) = none := by cases spec.kind <;> decide
    have hreduction : (Named.ofName? spec.kind.name : Option Reduction) = none := by cases spec.kind <;> decide
    rw [name, readKind.eq_def, hop, hunary, hactivation, hbinary, hreduction]
    exact readPool_printed operands h
  | custom name => cases hc

end Readers

end OpKind

end Relayout
