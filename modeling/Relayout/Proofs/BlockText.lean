import Relayout.Proofs.Rebuilding
import Relayout.Proofs.Statements

/-!
# Blocks in text

The text of a block has a line for the header, one for each operation and one for the outputs. Each of them is printed from
the names and types of values (`Block.toList_header`, `Block.toList_statement`) and takes the builder from one state of
`Block.building` to the next (`Block.addParameters_declared`, `Block.readStatement_parts`, `Block.readLines_returnLine`). So the
text of a legible block is read back up to the numbers of values and operations, which are not printed (`Block.read_text`).
-/

namespace Relayout

open Text Reader

namespace Block

variable {b : Block}

/-! ## What is printed -/

section Printed

variable {ids : List ValueId} {v : ValueId} {r : Value} {op : Operation}

theorem declared_cons (hr : b.value? v = some r) : b.declared (v :: ids) = (r.name, r.type) :: b.declared ids := by
  rw [declared, List.filterMap_cons_some hr]
  rfl

/-- What is known of values by their names and types. -/
theorem map_declared {α : Type} {f : ValueId → α} {g : String × TensorType → α} (hs : b.Sound)
    (hids : ∀ v ∈ ids, v ∈ b.defined) (h : ∀ v r, b.value? v = some r → f v = g (r.name, r.type)) :
    (b.declared ids).map g = ids.map f := by
  induction ids with
  | nil => rfl
  | cons v ids ih =>
    rw [List.forall_mem_cons] at hids
    obtain ⟨r, hr⟩ := hs.exists_value hids.1
    rw [declared_cons hr, List.map_cons, List.map_cons, h v r hr, ih hids.2]

theorem valueText_eq (hr : b.value? v = some r) : b.valueText v = "%" ++ r.name := by
  rw [valueText, name?, hr]
  rfl

theorem typeText_eq (hr : b.value? v = some r) : b.typeText v = r.type.text := by
  rw [typeText, type?, hr]
  rfl

theorem toList_commas_values (hs : b.Sound) (hids : ∀ v ∈ ids, v ∈ b.defined) :
    (commas (ids.map b.valueText)).toList = operandText ((b.declared ids).map (·.1.toList)) := by
  rw [← map_declared (g := fun d => "%" ++ d.1) hs hids fun v r hr => valueText_eq hr]
  simp [commas, operandText, Function.comp_def]

theorem toList_resultTypes (hs : b.Sound) (hout : ∀ v ∈ op.outputs, v ∈ b.defined) :
    (b.resultTypes op).toList = TensorType.listText ((b.declared op.outputs).map (·.2)) := by
  have htypes := map_declared (g := fun d => d.2.text) hs hout fun v r hr => typeText_eq hr
  unfold resultTypes
  split
  · rename_i v hv
    rw [hv] at htypes hout ⊢
    obtain ⟨r, hr⟩ := hs.exists_value (hout v List.mem_cons_self)
    rw [declared_cons hr, typeText_eq hr]
    rfl
  · rename_i hne
    have hlen := congrArg List.length htypes
    rw [List.length_map, List.length_map] at hlen
    have hne' : ∀ t, (b.declared op.outputs).map (·.2) ≠ [t] := by
      intro t ht
      have hone := congrArg List.length ht
      rw [List.length_map, hlen] at hone
      obtain ⟨v, hv⟩ := List.length_eq_one_iff.1 hone
      exact hne v hv
    rw [TensorType.listText_of_ne hne', ← htypes]
    simp [commas, Function.comp_def]

/-- The parts of the statement of an operation. -/
def parts (b : Block) (op : Operation) : Statement where
  results := (b.declared op.outputs).map (·.1.toList)
  word := op.kind.word.toList
  operands := (b.declared op.inputs).map (·.1.toList)
  attributes := op.kind.printed
  types := (b.declared op.outputs).map (·.2)

theorem toList_blankBefore (s : String) :
    (if s = "" then "" else " " ++ s).toList = if s.toList = [] then [] else ' ' :: s.toList := by
  by_cases h : s = "" <;> simp [h]

theorem toList_statement (hs : b.Sound) (hop : op ∈ b.operations) : (b.statement op).toList = (b.parts op).text := by
  have hin := toList_commas_values hs fun v hv => hs.input_defined hop hv
  have hout := toList_commas_values hs fun v hv => Sound.output_defined hop hv
  have htypes := toList_resultTypes hs fun v hv => Sound.output_defined hop hv
  have hblank : ' ' :: (b.parts op).tail = _ := congrArg (· ++ '-' :: '>' :: ' ' :: TensorType.listText (b.parts op).types)
    (b.parts op).blank_arguments.symm
  simp only [statement, String.toList_append, toList_blankBefore, hin, hout, htypes, OpKind.toList_attributes]
  rw [Statement.text, Statement.right, hblank]
  simp only [parts, List.append_assoc, String.reduceToList, List.cons_append, List.nil_append]
  rfl

end Printed

/-! ## Blocks that are read back -/

/-- Blocks whose text is read back: names are made of letters, digits and underscores, and kinds and types are legible. -/
structure Legible (b : Block) : Prop where
  name : IsName b.name
  values : ∀ r ∈ b.values, IsName r.name ∧ r.type.Legible
  kinds : ∀ op ∈ b.operations, op.kind.Legible
  customs : ∀ op ∈ b.operations, op.kind.isCustom → IsName op.kind.name ∧ op.outputs ≠ []

instance (b : Block) : Decidable b.Legible :=
  decidable_of_iff (IsName b.name ∧ (∀ r ∈ b.values, IsName r.name ∧ r.type.Legible) ∧
    (∀ op ∈ b.operations, op.kind.Legible) ∧
    ∀ op ∈ b.operations, op.kind.isCustom → IsName op.kind.name ∧ op.outputs ≠ [])
    ⟨fun h => ⟨h.1, h.2.1, h.2.2.1, h.2.2.2⟩, fun h => ⟨h.1, h.2, h.3, h.4⟩⟩

theorem Legible.declared (hl : b.Legible) (ids : List ValueId) :
    ∀ d ∈ b.declared ids, IsName d.1 ∧ d.2.Legible := by
  intro d hd
  obtain ⟨r, hr, rfl⟩ := List.mem_map.1 hd
  obtain ⟨v, _, hr⟩ := List.mem_filterMap.1 hr
  exact hl.values r (mem_of_value? hr).1

theorem Legible.token_names (hl : b.Legible) (ids : List ValueId) : ∀ n ∈ (b.declared ids).map (·.1.toList), Token n := by
  rw [List.forall_mem_map]
  exact fun d hd => (hl.declared ids d hd).1.token

end Block

namespace OpKind

variable {kind : OpKind}

theorem isName_name (hk : kind.isCustom = false) : IsName kind.name := by
  cases kind with
  | const literal => exact (by decide : IsName "const")
  | transpose perm => exact (by decide : IsName "transpose")
  | unary op => cases op <;> decide
  | activation spec => rw [name]; cases spec.function <;> decide
  | binary op => cases op <;> decide
  | reduce spec => rw [name]; cases spec.kind <;> decide
  | concat axis => exact (by decide : IsName "concat")
  | pad spec => exact (by decide : IsName "pad")
  | pool spec => rw [name]; cases spec.kind <;> decide
  | custom name => cases hk

theorem isCustom_iff : kind.isCustom ↔ ∃ name, kind = custom name := by
  cases kind <;> simp [isCustom]

theorem word_eq_name (hk : kind.isCustom = false) : kind.word = kind.name := by
  cases kind <;> first | rfl | cases hk

theorem toList_word_custom (name : String) : (custom name).word.toList = "custom<".toList ++ (name.toList ++ ['>']) := by
  simp [word]

/-- Of the operations only the custom ones are written with brackets. -/
theorem chars_word (hk : kind.isCustom → IsName kind.name) :
    kind.word.toList ≠ [] ∧ Chars ['<', '>'] kind.word.toList := by
  cases hc : kind.isCustom with
  | false =>
    have hname := isName_name hc
    rw [word_eq_name hc]
    exact ⟨hname.token.ne, hname.token.chars'⟩
  | true =>
    obtain ⟨name, rfl⟩ := isCustom_iff.1 hc
    have hname : Chars ['<', '>'] name.toList := (hk rfl).token.chars'
    have hcustom : Chars ['<', '>'] "custom".toList := (token_of_all (by decide) (by decide)).chars'
    rw [toList_word_custom]
    exact ⟨by simp, (hcustom.append (.cons (by decide) chars_nil)).append (hname.append (.cons (by decide) chars_nil))⟩

theorem customName?_custom (name : String) : customName? (custom name).word = some name := by
  rw [customName?, toList_word_custom, dropStart?_append, Option.bind_some, dropLast?_append, Option.map_some,
    String.ofList_toList]

theorem customName?_of_isCustom (hk : kind.isCustom = false) : customName? kind.word = none := by
  have hno : '<' ∉ kind.name.toList := (isName_name hk).token.not_mem rfl
  rw [word_eq_name hk, customName?]
  cases hdrop : dropStart? "custom<".toList kind.name.toList with
  | none => rfl
  | some rest =>
    rw [dropStart?_eq_some.1 hdrop] at hno
    exact absurd (List.mem_append_left rest (by decide : '<' ∈ "custom<".toList)) hno

end OpKind

namespace Block

variable {b : Block}

/-! ## Statements -/

section Statements

variable {ins ids rest : List ValueId} {ops : List Operation} {op : Operation}

theorem declared_outputs_ne (hs : b.Sound) (hl : b.Legible) (hop : op ∈ b.operations) (har : op.FitsArity) :
    b.declared op.outputs ≠ [] := by
  have hne : op.outputs ≠ [] := by
    cases hk : op.kind.isCustom with
    | false =>
      obtain ⟨v, hv⟩ := har.exists_output hk
      rw [hv]
      exact List.cons_ne_nil v []
    | true => exact (hl.customs op hop hk).2
  obtain ⟨v, vs, hvs⟩ := List.exists_cons_of_ne_nil hne
  obtain ⟨r, hr⟩ := hs.exists_value (Sound.output_defined hop (by rw [hvs]; exact List.mem_cons_self))
  rw [hvs, declared_cons hr]
  exact List.cons_ne_nil _ _

theorem legible_parts (hl : b.Legible) (hop : op ∈ b.operations) (hout : b.declared op.outputs ≠ []) :
    (b.parts op).Legible := by
  have hword := OpKind.chars_word fun hk => (hl.customs op hop hk).1
  exact
    { results_ne := by simpa [parts] using hout
      results := hl.token_names op.outputs
      word_ne := hword.1
      word := hword.2
      operands := hl.token_names op.inputs
      attributes := op.kind.legible_printed
      types := List.forall_mem_map.2 fun d hd => (hl.declared op.outputs d hd).2 }

/-- Names lead to the values that have them. -/
theorem mapM_lookup (ins : List ValueId) (ops : List Operation) (hs : b.Sound) (hl : b.Legible)
    {known : List ValueId} (hdef : ∀ v ∈ known, v ∈ b.defined) (h : ∀ v ∈ known, v ∈ ids) :
    (((b.declared known).map (·.1.toList)).map ('%' :: ·)).mapM (lookup (b.building ins ops ids)) =
      .ok (known.map b.number) := by
  rw [List.map_map]
  induction known with
  | nil => rfl
  | cons v known ih =>
    rw [List.forall_mem_cons] at hdef h
    obtain ⟨r, hr⟩ := hs.exists_value hdef.1
    have hname : IsName r.name := (hl.values r (mem_of_value? hr).1).1
    have hlookup : lookup (b.building ins ops ids) ('%' :: r.name.toList) = .ok (b.number v) := by
      rw [lookup, valueName_operand hname.token, String.ofList_toList, valueNamed?_building hs h.1 hr]
    rw [declared_cons hr, List.map_cons, List.mapM_cons, Function.comp_apply, hlookup, ok_bind, ih hdef.2 h.2]
    rfl

/-- A constant has the type of its payload. -/
theorem TypedOp.literal_type (ht : b.TypedOp op) {v : ValueId} {r : Value} (hout : op.outputs = [v])
    (hr : b.value? v = some r) : ∀ l ∈ op.kind.literal?, l.type = r.type := by
  intro l hl
  obtain ⟨types, hstatic, hrec⟩ := ht
  have hkind : op.kind = .const l := by
    revert hl
    cases op.kind <;> simp [OpKind.literal?]
  obtain ⟨inTypes, t, _, hresult, rfl⟩ := (static_eq_ok (by rw [hkind]; rfl)).1 hstatic
  rw [hkind, Typing.resultType] at hresult
  rw [hout, recorded_eq_ok, List.forall₂_cons, type?, hr] at hrec
  split at hresult
  · exact (Except.ok.inj hresult).trans (Option.some.inj hrec.1).symm
  · cases hresult

theorem emitOne_parts [IdSpace] (hs : b.Sound) (hn : b.Numberable) (hl : b.Legible)
    (hhalves : ∀ l ∈ b.literals, l.type.elem = .f16 → l.Sized) (hop : op ∈ b.operations) (ht : b.TypedOp op)
    (hlt : ops.length < b.operations.length) (hk : op.kind.isCustom = false)
    {v : ValueId} {r : Value} (hout : op.outputs = [v]) (hr : b.value? v = some r)
    (heq : b.defined = ids ++ v :: rest) (hin : ∀ v ∈ op.inputs, v ∈ ids) (operands : List (List Char)) :
    emitOne op.kind.name [r.name] (op.inputs.map b.number) ⟨operands, op.kind.printed⟩ (some [r.type])
      (b.building ins ops ids) = .ok (b.building ins (ops ++ [op]) (ids ++ [v])) := by
  have hhalf : ∀ l ∈ op.kind.literal?, l.type.elem = .f16 → l.Sized := fun l hlit =>
    hhalves l (List.mem_filterMap.2 ⟨op, hop, hlit⟩)
  have hkind := OpKind.readKind_printed operands (hl.kinds op hop) hk hhalf (ht.literal_type hout hr)
  have hrun := run_emitChecked ins hs hn hlt heq hin hk ht hout hr
  change readKind op.kind.name ⟨operands, op.kind.printed⟩ (some r.type) >>= _ = _
  rw [hkind, ok_bind, run, hrun]
  rfl

theorem emitCustom_parts [IdSpace] (hs : b.Sound) (hn : b.Numberable) (hlt : ops.length < b.operations.length)
    {name : String} (hk : op.kind = .custom name)
    (heq : b.defined = ids ++ (op.outputs ++ rest)) (hin : ∀ v ∈ op.inputs, v ∈ ids) :
    emitCustom name ((b.declared op.outputs).map (·.1)) (op.inputs.map b.number)
      (some ((b.declared op.outputs).map (·.2))) (b.building ins ops ids) =
        .ok (b.building ins (ops ++ [op]) (ids ++ op.outputs)) := by
  have hrun := run_emitCustom ins hs hn hlt heq hin hk
  have hzip : ((b.declared op.outputs).map (·.1)).zip ((b.declared op.outputs).map (·.2)) = b.declared op.outputs := by
    rw [List.zip_map', List.map_id'']
    exact fun _ => rfl
  rw [emitCustom, orError_some, ok_bind, if_neg (by simp), hzip, run, hrun]
  rfl

/-- The statement of an operation leads the builder to its next state. -/
theorem readStatement_parts [IdSpace] (hs : b.Sound) (hn : b.Numberable) (hl : b.Legible)
    (hhalves : ∀ l ∈ b.literals, l.type.elem = .f16 → l.Sized) (hop : op ∈ b.operations) (har : op.FitsArity)
    (ht : b.TypedOp op) (hlt : ops.length < b.operations.length) (heq : b.defined = ids ++ (op.outputs ++ rest))
    (hin : ∀ v ∈ op.inputs, v ∈ ids) :
    readStatement (b.parts op).text (b.building ins ops ids) = .ok (b.building ins (ops ++ [op]) (ids ++ op.outputs)) := by
  have hinputs := mapM_lookup ins ops hs hl (fun v hv => hs.input_defined hop hv) hin
  have hnames : (b.parts op).results.map String.ofList = (b.declared op.outputs).map (·.1) := by
    simp [parts, Function.comp_def]
  have hword : String.ofList (b.parts op).word = op.kind.word := String.ofList_toList
  rw [Statement.readStatement_text (legible_parts hl hop (declared_outputs_ne hs hl hop har)) hinputs, hnames, hword]
  cases hk : op.kind.isCustom with
  | false =>
    obtain ⟨v, hv⟩ := har.exists_output hk
    obtain ⟨r, hr⟩ := hs.exists_value (Sound.output_defined hop (by rw [hv]; exact List.mem_cons_self))
    have hout : b.declared op.outputs = [(r.name, r.type)] := by rw [hv, declared_cons hr]; rfl
    rw [OpKind.customName?_of_isCustom hk, OpKind.word_eq_name hk, parts, hout]
    rw [hv] at heq ⊢
    exact emitOne_parts hs hn hl hhalves hop ht hlt hk hv hr heq hin _
  | true =>
    obtain ⟨name, hname⟩ := OpKind.isCustom_iff.1 hk
    rw [hname, OpKind.customName?_custom]
    exact emitCustom_parts hs hn hlt hname heq hin

end Statements

/-! ## Lines -/

theorem statementOf_append {a s t : List Char} (ha : ∀ c ∈ a, c = ' ') (hs : Tight s) (ht : ∀ c ∈ t, c = ' ')
    (hsemi : ';' ∉ s) : statementOf (a ++ (s ++ t)) = s := by
  have hblank : ∀ {l : List Char}, (∀ c ∈ l, c = ' ') → ∀ c ∈ l, isBlank c := fun hl c hc => by rw [hl c hc]; rfl
  have hlast : ∀ c ∈ s.reverse.head?, (c == ';') = false := by
    intro c hc
    rw [beq_eq_false_iff_ne]
    rintro rfl
    exact hsemi (List.mem_reverse.1 (List.mem_of_mem_head? hc))
  have hdrop : ([] ++ s.reverse).dropWhile (· == ';') = s.reverse := (takeWhile_append_stop (by simp) hlast).2
  rw [List.nil_append] at hdrop
  rw [statementOf, trim_append (hblank ha) hs (hblank ht), hdrop, List.reverse_reverse, hs.trim_eq]

/-- The line of an operation. -/
def opLine (b : Block) (op : Operation) : List Char :=
  ' ' :: ' ' :: (b.parts op).text

/-- The last line. -/
def returnLine (b : Block) : List Char :=
  [' ', ' '] ++ ("return".toList ++ ' ' :: operandText ((b.declared b.outputs).map (·.1.toList)))

theorem readLines_opLine [IdSpace] {op : Operation} (hleg : (b.parts op).Legible) (lines : List (List Char)) (s : Builder) :
    readLines (b.opLine op :: lines) s none = readStatement (b.parts op).text s >>= (readLines lines · none) := by
  have hline : statementOf (b.opLine op) = (b.parts op).text := by
    have := statementOf_append (a := [' ', ' ']) (t := []) (by simp) hleg.tight_text (by simp)
      (hleg.chars_text.not_mem (by decide))
    rwa [List.append_nil] at this
  obtain ⟨text, htext⟩ := exists_operandText hleg.results_ne
  rw [readLines, hline, Statement.text, htext]
  rfl

/-- The lines of operations that follow one another lead to the state with all of them. -/
theorem readLines_ops [IdSpace] (hs : b.Sound) (hn : b.Numberable) (hl : b.Legible)
    (hhalves : ∀ l ∈ b.literals, l.type.elem = .f16 → l.Sized) (har : ∀ op ∈ b.operations, op.FitsArity)
    (ht : ∀ op ∈ b.operations, b.TypedOp op) (lines : List (List Char)) :
    ∀ after before, b.operations = before ++ after →
      readLines (after.map b.opLine ++ lines) (b.building b.inputs before (b.inputs ++ results before)) none =
        readLines lines (b.building b.inputs b.operations b.defined) none := by
  intro after
  induction after with
  | nil =>
    intro before heq
    rw [List.append_nil] at heq
    rw [List.map_nil, List.nil_append, defined_eq, heq]
  | cons op after ih =>
    intro before heq
    have hop : op ∈ b.operations := by simp [heq]
    have hdef : b.defined = (b.inputs ++ results before) ++ (op.outputs ++ results after) := by
      rw [defined_eq, heq, results_append, results_cons, List.append_assoc]
    have hnext := ih (before ++ [op]) (by rw [heq, List.append_assoc, List.singleton_append])
    have hlt : before.length < b.operations.length := by simp [heq]
    rw [List.map_cons, List.cons_append, readLines_opLine (legible_parts hl hop (declared_outputs_ne hs hl hop (har op hop))),
      readStatement_parts hs hn hl hhalves hop (har op hop) (ht op hop) hlt hdef (fun x hx => hs.operand_scope heq hx),
      ok_bind, List.append_assoc]
    rw [results_append, results_cons, results_nil, List.append_nil] at hnext
    exact hnext

/-- The last line gives the outputs. -/
theorem readLines_returnLine [IdSpace] (hs : b.Sound) (hl : b.Legible) :
    readLines [b.returnLine, []] (b.building b.inputs b.operations b.defined) none =
      .ok (b.building b.inputs b.operations b.defined, b.outputs.map b.number) := by
  have hnames := hl.token_names b.outputs
  have hlookup := mapM_lookup b.inputs b.operations hs hl hs.outputsDefined hs.outputsDefined
  have hread : ∀ values, statementOf b.returnLine = "return".toList ++ values →
      splitTop ',' (trim values) = ((b.declared b.outputs).map (·.1.toList)).map ('%' :: ·) →
      readLines [b.returnLine, []] (b.building b.inputs b.operations b.defined) none =
        .ok (b.building b.inputs b.operations b.defined, b.outputs.map b.number) := by
    intro values hline hvalues
    rw [readLines, hline]
    change ((splitTop ',' (trim values)).mapM (lookup _) >>= fun ids => readLines [[]] _ (some ids)) = _
    rw [hvalues, hlookup]
    rfl
  have hreturn : Tight "return".toList := (token_of_all (by decide) (by decide)).tight
  by_cases hnil : (b.declared b.outputs).map (·.1.toList) = []
  · refine hread [] ?_ (by rw [hnil]; rfl)
    have hempty : ∀ c ∈ ' ' :: operandText [], c = ' ' := by simp [operandText]
    rw [returnLine, hnil, List.append_nil]
    exact statementOf_append (by simp) hreturn hempty (by decide)
  · have htight := tight_operandText hnil hnames
    have hchars : Chars ['%', ',', ' '] "return".toList := (token_of_all (by decide) (by decide)).chars'
    have hblank : Chars ['%', ',', ' '] [' '] := .cons (by decide) chars_nil
    have hsemi : ';' ∉ "return".toList ++ ([' '] ++ operandText ((b.declared b.outputs).map (·.1.toList))) :=
      (hchars.append (hblank.append (chars_operandText hnames))).not_mem (by decide)
    refine hread (' ' :: operandText ((b.declared b.outputs).map (·.1.toList))) ?_ ?_
    · have hline := hreturn.append htight [' ']
      rw [List.append_assoc] at hline
      have := statementOf_append (a := [' ', ' ']) (t := []) (by simp) hline (by simp) hsemi
      rwa [List.append_nil] at this
    · have := splitTop_operandText hnames (t := []) (by simp)
      rwa [htight.trim_cons rfl, ← List.append_nil (operandText _)]

/-! ## The header -/

/-- A parameter as it is printed. -/
def parameterText (d : String × TensorType) : List Char :=
  '%' :: (d.1.toList ++ ':' :: ' ' :: d.2.text.toList)

section Parameters

variable {d : String × TensorType}

theorem readParameter_text (hd : IsName d.1) : readParameter (parameterText d) = .ok ⟨d.1, ' ' :: d.2.text.toList⟩ := by
  have hcut : cut? ':' (parameterText d) = some ('%' :: d.1.toList, ' ' :: d.2.text.toList) := by
    refine cut?_append (s := '%' :: d.1.toList) ?_ _
    rw [List.mem_cons, not_or]
    exact ⟨by decide, hd.token.not_mem rfl⟩
  rw [readParameter, hcut, orError_some, ok_bind]
  dsimp only
  rw [valueName_operand hd.token, String.ofList_toList, if_neg hd.1]

theorem chars_parameterText (hd : IsName d.1 ∧ d.2.Legible) :
    Chars ['%', ':', '<', '>', ',', ' ', '?'] (parameterText d) := by
  have hname : Chars ['%', ':', '<', '>', ',', ' ', '?'] d.1.toList := hd.1.token.chars'
  have htype : Chars ['%', ':', '<', '>', ',', ' ', '?'] d.2.text.toList := (TensorType.chars_text hd.2).mono (by simp)
  exact .cons (by decide) (hname.append (.cons (by decide) (.cons (by decide) htype)))

theorem whole_parameterText (hd : IsName d.1 ∧ d.2.Legible) : Whole (parameterText d) := by
  have hsign : Whole ['%'] := whole_flat (by simp [isBracket]) (by simp)
  have hcolon : Whole [':', ' '] := whole_flat (by simp [isBracket]) (by simp)
  have := (hsign.append hd.1.token.whole).append (hcolon.append (TensorType.whole_text hd.2))
  simpa [parameterText] using this

theorem tight_parameterText (hd : IsName d.1) : Tight (parameterText d) := by
  have := (hd.token.tight.cons (c := '%') rfl).append d.2.tight_text [':', ' ']
  simpa [parameterText] using this

end Parameters

/-- What stands between the parentheses. -/
def parametersText (b : Block) : List Char :=
  [',', ' '].intercalate ((b.declared b.inputs).map parameterText)

/-- The header up to the brace. -/
def headerText (b : Block) : List Char :=
  "func".toList ++ ' ' :: '@' :: (b.name.toList ++ '(' :: (b.parametersText ++ [')']))

theorem toList_header (hs : b.Sound) : b.header.toList = b.headerText ++ [' ', '\x7b'] := by
  have hinputs : (b.declared b.inputs).map (fun d => "%" ++ d.1 ++ ": " ++ d.2.text) =
      b.inputs.map fun v => b.valueText v ++ ": " ++ b.typeText v :=
    map_declared hs (fun v hv => List.mem_append_left _ hv) fun v r hr => by rw [valueText_eq hr, typeText_eq hr]
  have hparameters : (commas (b.inputs.map fun id => b.valueText id ++ ": " ++ b.typeText id)).toList =
      b.parametersText := by
    rw [← hinputs, parametersText, commas, String.toList_intercalate, List.map_map]
    refine congrArg _ (List.map_congr_left fun d _ => ?_)
    simp [parameterText]
  simp [header, headerText, hparameters]

theorem chars_parametersText (hl : b.Legible) : Chars ['%', ':', '<', '>', ',', ' ', '?'] b.parametersText := by
  refine .intercalate (.cons (by decide) (.cons (by decide) chars_nil)) ?_
  rw [List.forall_mem_map]
  exact fun d hd => chars_parameterText (hl.declared b.inputs d hd)

theorem readHeader_headerText (hl : b.Legible) : readHeader b.headerText =
    .ok (b.name, (b.declared b.inputs).map fun d => ⟨d.1, ' ' :: d.2.text.toList⟩) := by
  have hname := hl.name.token
  have hchars := chars_parametersText hl
  have hfunc : dropStart? "func".toList b.headerText =
      some (' ' :: '@' :: (b.name.toList ++ '(' :: (b.parametersText ++ [')']))) :=
    dropStart?_append _ _
  have hstart : trimStart (' ' :: '@' :: (b.name.toList ++ '(' :: (b.parametersText ++ [')']))) =
      '@' :: b.name.toList ++ '(' :: (b.parametersText ++ [')']) :=
    trimStart_cons rfl (by rintro _ ⟨⟩; rfl)
  have hcut : cut? '(' ('@' :: b.name.toList ++ '(' :: (b.parametersText ++ [')'])) =
      some ('@' :: b.name.toList, b.parametersText ++ [')']) := by
    refine cut?_append ?_ _
    rw [List.mem_cons, not_or]
    exact ⟨by decide, hname.not_mem rfl⟩
  have hclose : enclosed? '(' ')' 1 (b.parametersText ++ [')']) = some (b.parametersText, []) :=
    enclosed?_append (hchars.not_mem (by decide)) (hchars.not_mem (by decide)) []
  have hdrop : (dropStart? ['@'] ('@' :: b.name.toList)).getD ('@' :: b.name.toList) = b.name.toList := rfl
  have hsplit : splitTop ',' (b.parametersText ++ []) = (b.declared b.inputs).map parameterText := by
    refine splitTop_intercalate ?_ (by simp)
    rw [List.forall_mem_map]
    intro d hd
    have := hl.declared b.inputs d hd
    exact ⟨whole_parameterText this, tight_parameterText this.1⟩
  have hread : ((b.declared b.inputs).map parameterText).mapM readParameter =
      .ok ((b.declared b.inputs).map fun d => ⟨d.1, ' ' :: d.2.text.toList⟩) := by
    rw [mapM_eq_ok, List.forall₂_map_left_iff, List.forall₂_map_right_iff, List.forall₂_same]
    exact fun d hd => readParameter_text (hl.declared b.inputs d hd).1
  rw [List.append_nil] at hsplit
  rw [readHeader, hfunc, orError_some, ok_bind, hstart]
  dsimp only
  rw [hcut, orError_some, ok_bind]
  dsimp only
  rw [hclose, orError_some, ok_bind]
  dsimp only
  rw [(hname.tight.cons rfl).trim_eq, hdrop, hname.tight.trim_eq, if_neg hname.ne, trim_nil, if_neg (by simp), hsplit, hread,
    String.ofList_toList]
  rfl

/-- The inputs are added one after the other. -/
theorem addParameters_declared [IdSpace] (hs : b.Sound) (hn : b.Numberable) (hl : b.Legible) :
    ∀ after before, b.inputs = before ++ after →
    addParameters ((b.declared after).map fun d => ⟨d.1, ' ' :: d.2.text.toList⟩) (b.building before [] before) =
      .ok (b.building b.inputs [] b.inputs) := by
  intro after
  induction after with
  | nil =>
    intro before heq
    rw [heq, List.append_nil]
    rfl
  | cons v after ih =>
    intro before heq
    have hdef : b.defined = before ++ v :: (after ++ results b.operations) := by
      rw [defined_eq, heq, List.append_assoc, List.cons_append]
    obtain ⟨r, hr⟩ := hs.exists_value (show v ∈ b.defined by simp [hdef])
    have htype : readType (' ' :: r.type.text.toList) = .ok r.type := by
      have := TensorType.readType_text (a := [' ']) (b := []) (hl.values r (mem_of_value? hr).1).2
        (List.forall_mem_singleton.2 rfl) (by simp)
      rwa [List.append_nil] at this
    rw [declared_cons hr, List.map_cons, addParameters]
    dsimp only
    rw [htype, ok_bind, run, run_addInput hs hn hdef hr]
    exact ih (before ++ [v]) (by rw [heq, List.append_assoc, List.singleton_append])

/-! ## Blocks -/

def lines (b : Block) : List (List Char) :=
  [] :: (b.operations.map b.opLine ++ [b.returnLine])

/-- What stands between the braces: every line is ended. -/
def bodyText (b : Block) : List Char :=
  b.lines.flatMap (· ++ ['\n'])

theorem toList_text (hs : b.Sound) :
    b.text.toList = b.headerText ++ ' ' :: '\x7b' :: (b.bodyText ++ ['\x7d']) ++ ['\n'] := by
  have hops : (String.join (b.operations.map fun op => "  " ++ b.statement op ++ "\n")).toList =
      (b.operations.map b.opLine).flatMap (· ++ ['\n']) := by
    rw [String.toList_join, List.flatMap_map, List.flatMap_map]
    refine List.flatMap_congr fun op hop => ?_
    simp [opLine, toList_statement hs hop]
  have houtputs := toList_commas_values hs hs.outputsDefined
  simp [text, hops, houtputs, toList_header hs, bodyText, lines, returnLine]

theorem splitOn_bodyText (hs : b.Sound) (hl : b.Legible) (har : ∀ op ∈ b.operations, op.FitsArity) :
    splitOn '\n' b.bodyText = b.lines ++ [[]] := by
  have hops : ∀ op ∈ b.operations, '\n' ∉ b.opLine op := by
    intro op hop
    have hleg := legible_parts hl hop (declared_outputs_ne hs hl hop (har op hop))
    simpa [opLine] using hleg.chars_text.not_mem (c := '\n') (by decide)
  have hreturn : '\n' ∉ b.returnLine := by
    simpa [returnLine] using (chars_operandText (hl.token_names b.outputs)).not_mem (c := '\n') (by decide)
  have hlines : ∀ l ∈ b.lines, '\n' ∉ l := by
    rw [lines, List.forall_mem_cons, List.forall_mem_append, List.forall_mem_map, List.forall_mem_singleton]
    exact ⟨by simp, hops, hreturn⟩
  have := splitOn_flatMap hlines []
  rwa [List.append_nil] at this

theorem tight_headerText (b : Block) : Tight b.headerText := by
  have hfunc : Tight "func".toList := (token_of_all (by decide) (by decide)).tight
  have hclose : Tight [')'] := ⟨by simp, by rintro _ ⟨⟩; rfl, by rintro _ ⟨⟩; rfl⟩
  have := hfunc.append hclose (' ' :: '@' :: (b.name.toList ++ '(' :: b.parametersText))
  simpa only [headerText, List.append_assoc, List.cons_append] using this

theorem braces_text (hl : b.Legible) : braces (b.headerText ++ ' ' :: '\x7b' :: (b.bodyText ++ ['\x7d'])) =
    .ok (b.headerText ++ [' '], b.bodyText) := by
  have hheader : '\x7b' ∉ b.headerText ++ [' '] := by
    have hparameters := (chars_parametersText hl).not_mem (c := '\x7b') (by decide)
    have hname := hl.name.token.not_mem (c := '\x7b') rfl
    simp [headerText, hparameters, hname]
  have hopen := cut?_append hheader (b.bodyText ++ ['\x7d'])
  have hclose : cut? '\x7d' (b.bodyText ++ ['\x7d']).reverse = some ([], b.bodyText.reverse) := by
    rw [List.reverse_append]
    rfl
  rw [List.append_assoc, List.singleton_append] at hopen
  rw [braces, hopen, orError_some, ok_bind]
  dsimp only
  rw [if_neg (by simp), hclose, orError_some, ok_bind]
  dsimp only
  rw [List.reverse_reverse]
  rfl

/-- The text of a block is read back. -/
theorem read_legible [IdSpace] (hs : b.Sound) (hn : b.Numberable) (hl : b.Legible)
    (hhalves : ∀ l ∈ b.literals, l.type.elem = .f16 → l.Sized) (har : ∀ op ∈ b.operations, op.FitsArity)
    (ht : ∀ op ∈ b.operations, b.TypedOp op) : Block.read b.text = .ok b.numbered := by
  have htight : Tight (b.headerText ++ ' ' :: '\x7b' :: (b.bodyText ++ ['\x7d'])) := by
    have hclose : Tight ['\x7d'] := ⟨by simp, by rintro _ ⟨⟩; rfl, by rintro _ ⟨⟩; rfl⟩
    have := b.tight_headerText.append hclose (' ' :: '\x7b' :: b.bodyText)
    simpa using this
  have htrim : trim b.text.toList = b.headerText ++ ' ' :: '\x7b' :: (b.bodyText ++ ['\x7d']) := by
    rw [toList_text hs]
    exact trim_append (a := []) (by simp) htight (List.forall_mem_singleton.2 rfl)
  have hheader : trim (b.headerText ++ [' ']) = b.headerText :=
    trim_append (a := []) (by simp) b.tight_headerText (List.forall_mem_singleton.2 rfl)
  have hinputs : addParameters ((b.declared b.inputs).map fun d => ⟨d.1, ' ' :: d.2.text.toList⟩) (Builder.empty b.name) =
      .ok (b.building b.inputs [] b.inputs) := addParameters_declared hs hn hl b.inputs [] rfl
  have hlines : readLines (b.lines ++ [[]]) (b.building b.inputs [] b.inputs) none =
      .ok (b.building b.inputs b.operations b.defined, b.outputs.map b.number) := by
    have hops := readLines_ops hs hn hl hhalves har ht [b.returnLine, []] b.operations [] rfl
    rw [results_nil, List.append_nil, readLines_returnLine hs hl] at hops
    rw [lines, List.cons_append, List.append_assoc, ← hops]
    rfl
  rw [Block.read, htrim, if_neg htight.ne, braces_text hl, ok_bind]
  dsimp only
  rw [hheader, readHeader_headerText hl, ok_bind]
  dsimp only
  rw [hinputs, ok_bind, splitOn_bodyText hs hl har, hlines, ok_bind]
  dsimp only
  rw [finish_building hs]

/-! ## Numbers are not printed -/

section Numbered

variable {v : ValueId} {op : Operation}

theorem value?_numbered {r : Value} (hv : v ∈ b.defined) (hr : b.value? v = some r) :
    b.numbered.value? (b.number v) = some { r with id := b.number v } :=
  value?_building [] [] hv hv hr

theorem valueText_numbered (hs : b.Sound) (hv : v ∈ b.defined) : b.numbered.valueText (b.number v) = b.valueText v := by
  obtain ⟨r, hr⟩ := hs.exists_value hv
  rw [valueText_eq (value?_numbered hv hr), valueText_eq hr]

theorem typeText_numbered (hs : b.Sound) (hv : v ∈ b.defined) : b.numbered.typeText (b.number v) = b.typeText v := by
  obtain ⟨r, hr⟩ := hs.exists_value hv
  rw [typeText_eq (value?_numbered hv hr), typeText_eq hr]

theorem map_valueText_numbered (hs : b.Sound) {ids : List ValueId} (hids : ∀ v ∈ ids, v ∈ b.defined) :
    (ids.map b.number).map b.numbered.valueText = ids.map b.valueText := by
  rw [List.map_map]
  exact List.map_congr_left fun v hv => valueText_numbered hs (hids v hv)

theorem statement_numbered (hs : b.Sound) (hop : op ∈ b.operations) (position : Nat) :
    b.numbered.statement (b.numberedOp position op) = b.statement op := by
  have htypes : b.numbered.resultTypes (b.numberedOp position op) = b.resultTypes op := by
    have hmap : (op.outputs.map b.number).map b.numbered.typeText = op.outputs.map b.typeText := by
      rw [List.map_map]
      exact List.map_congr_left fun v hv => typeText_numbered hs (Sound.output_defined hop hv)
    rw [resultTypes, resultTypes, numberedOp]
    rcases hout : op.outputs with _ | ⟨v, _ | ⟨w, vs⟩⟩
    · rfl
    · rw [hout] at hmap
      exact (List.cons.inj hmap).1
    · rw [hout] at hmap
      exact congrArg (fun types => "(" ++ commas types ++ ")") hmap
  have hin := map_valueText_numbered hs fun v hv => hs.input_defined hop hv
  have hout := map_valueText_numbered hs fun v hv => Sound.output_defined hop hv
  rw [statement, statement, htypes]
  dsimp only [numberedOp]
  rw [hin, hout]

theorem header_numbered (hs : b.Sound) : b.numbered.header = b.header := by
  have hinputs : (b.numbered.inputs.map fun v => b.numbered.valueText v ++ ": " ++ b.numbered.typeText v) =
      b.inputs.map fun v => b.valueText v ++ ": " ++ b.typeText v := by
    rw [numbered, List.map_map]
    refine List.map_congr_left fun v hv => ?_
    have hdef : v ∈ b.defined := List.mem_append_left _ hv
    rw [← valueText_numbered hs hdef, ← typeText_numbered hs hdef]
    rfl
  rw [header, header, hinputs]
  rfl

theorem text_numbered (hs : b.Sound) : b.numbered.text = b.text := by
  have hops : (b.numbered.operations.map fun op => "  " ++ b.numbered.statement op ++ "\n") =
      b.operations.map fun op => "  " ++ b.statement op ++ "\n" := by
    refine List.ext_getElem (by simp [numbered]) fun i hi hi' => ?_
    rw [List.getElem_map, List.getElem_map, ← statement_numbered hs (List.getElem_mem _) i]
    simp [numbered]
  have houtputs : b.numbered.outputs.map b.numbered.valueText = b.outputs.map b.valueText :=
    map_valueText_numbered hs hs.outputsDefined
  rw [text, text, header_numbered hs, hops, houtputs]

end Numbered

/-- The text of a legible block is read back, with numbers in the order of definition, if payloads without a numeric
view have their size and there are ids for everything in the block. -/
theorem read_text [IdSpace] (hc : b.check = .ok ()) (ht : b.WellTyped) (hl : b.Legible)
    (hhalves : ∀ l ∈ b.literals, l.type.elem = .f16 → l.Sized) (hn : b.Numberable) :
    Block.read b.text = .ok b.numbered ∧ (b.Consecutive → b.numbered = b) ∧ b.numbered.text = b.text := by
  obtain ⟨hs, har, _⟩ := check_eq_ok.1 hc
  exact ⟨read_legible hs hn hl hhalves har (retype_typed hs har ht).2, numbered_eq_self hs, text_numbered hs⟩

/-- Scattered numbers, an extent without a size, two results of one operation, and a payload that is given in bytes. -/
def tagged : Block where
  name := "tagged"
  inputs := [⟨5⟩]
  outputs := [⟨2⟩, ⟨9⟩, ⟨5⟩]
  operations := [⟨⟨3⟩, .const ⟨.ofExtents .f16 [2], [0, 60, 255, 127]⟩, [], [⟨7⟩]⟩,
    ⟨⟨1⟩, .custom "split_2", [⟨5⟩, ⟨7⟩], [⟨2⟩, ⟨8⟩]⟩,
    ⟨⟨0⟩, .activation ⟨.elu, .infinity true, .ofRatio true 1 10⟩, [⟨8⟩], [⟨9⟩]⟩]
  values := [⟨⟨2⟩, "a", .ofExtents .f32 []⟩, ⟨⟨5⟩, "x_1", ⟨.f32, [.dynamic "n", .fixed 3]⟩⟩,
    ⟨⟨7⟩, "half", .ofExtents .f16 [2]⟩, ⟨⟨8⟩, "_b", ⟨.f32, [.dynamic "n"]⟩⟩, ⟨⟨9⟩, "out", ⟨.f32, [.dynamic "n"]⟩⟩]

theorem read_tagged : tagged.check = .ok () ∧ tagged.WellTyped ∧ tagged.Legible ∧
    (∀ l ∈ tagged.literals, l.type.elem = .f16 → l.Sized) ∧ tagged.Numberable ∧ ¬tagged.Consecutive ∧
    Block.read tagged.text = .ok tagged.numbered ∧ tagged.numbered.text = tagged.text := by
  have hc : tagged.check = .ok () := by decide
  have ht : tagged.WellTyped := by decide +kernel
  have hl : tagged.Legible := by decide +kernel
  have hhalves : ∀ l ∈ tagged.literals, l.type.elem = .f16 → l.Sized := by decide +kernel
  have hn : tagged.Numberable := ⟨by decide, by decide⟩
  obtain ⟨hread, _, htext⟩ := read_text hc ht hl hhalves hn
  exact ⟨hc, ht, hl, hhalves, hn, by decide, hread, htext⟩

/-- A payload of three bytes for two elements without a numeric view. -/
def clipped : Block where
  name := "clipped"
  inputs := []
  outputs := [⟨0⟩]
  operations := [⟨⟨0⟩, .const ⟨.ofExtents .f16 [2], [1, 2, 3]⟩, [], [⟨0⟩]⟩]
  values := [⟨⟨0⟩, "half", .ofExtents .f16 [2]⟩]

/-- A payload that has not the size of its type is printed, and then refused. -/
theorem read_clipped : clipped.check = .ok () ∧ clipped.WellTyped ∧ clipped.Legible ∧ clipped.Numberable ∧
    clipped.Consecutive ∧ Block.read clipped.text = .error (.literal (.byteLength (.ofExtents .f16 [2]) 4 3)) :=
  ⟨by decide, by decide +kernel, by decide +kernel, ⟨by decide, by decide⟩, by decide, by decide +kernel⟩

end Block

end Relayout
