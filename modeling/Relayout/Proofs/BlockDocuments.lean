import Relayout.Block.Json
import Relayout.Proofs.Attributes
import Relayout.Proofs.Documents
import Relayout.Proofs.Payloads

/-!
# Blocks as documents

A block whose literals have the size of their types is read back from its document (`Block.readJson?_printJson`), whatever
its ids, names and order, unless one of its attributes is not finite: such a number is written as `null`, which is no
number, and nothing is read. That a finite number is read back from its numeral is a hypothesis on the attributes.

Ids and sizes are words here as in the documents (`Block.InRange`).
-/

namespace Relayout

open Number

/-! ## Numerals -/

namespace Json

@[simp] theorem wellFormed_ofNat (n : Nat) : (ofNat n).WellFormed :=
  .number ⟨digitsOf_ne_nil n, fun _ => isDigit_of_mem_digitsOf, digitsOf_head?, by simp, by simp, by simp, by simp⟩

theorem wellFormed_ofDecimal (negative : Bool) {d : Decimal} (h : 0 < d.digits) :
    (Numeral.ofDecimal negative d).WellFormed := by
  have hne := digitsOf_ne_nil d.digits
  have hdigits : ∀ c ∈ digitsOf d.digits, c.isDigit := fun c => isDigit_of_mem_digitsOf
  have hhead : (digitsOf d.digits).head? ≠ some '0' := fun hzero => by
    have := digitsValue_digitsOf d.digits
    rw [digitsOf_head? hzero] at this
    exact absurd this h.ne
  have htake : ∀ {n : Nat}, n ≠ 0 → ((digitsOf d.digits).take n).head? ≠ some '0' := fun hn => by
    rwa [List.head?_take, if_neg hn]
  rw [Numeral.ofDecimal]
  dsimp only
  split
  · refine ⟨?_, fun c hc => hdigits c (List.mem_of_mem_take hc), fun h => absurd h (htake Nat.one_ne_zero),
      fun c hc => hdigits c (List.mem_of_mem_drop hc), ?_, ?_, ?_⟩
    · rw [Ne, List.take_eq_nil_iff, not_or]
      exact ⟨Nat.one_ne_zero, hne⟩
    · rintro _ ⟨⟩
      dsimp only
      split
      · exact .inr (.inr rfl)
      · exact .inr (.inl rfl)
    · rintro _ ⟨⟩
      exact digitsOf_ne_nil _
    · rintro _ ⟨⟩ c hc
      exact isDigit_of_mem_digitsOf hc
  · split
    · refine ⟨by simp [hne], fun c hc => (List.mem_append.1 hc).elim (hdigits c) isDigit_of_mem_zeros, ?_, by simp,
        by simp, by simp, by simp⟩
      rw [List.head?_append_of_ne_nil _ hne]
      exact fun h => absurd h hhead
    · split
      · rename_i hplaces
        have hn : ((digitsOf d.digits).length + d.exponent).natAbs ≠ 0 := by omega
        refine ⟨?_, fun c hc => hdigits c (List.mem_of_mem_take hc), fun h => absurd h (htake hn),
          fun c hc => hdigits c (List.mem_of_mem_drop hc), by simp, by simp, by simp⟩
        rw [Ne, List.take_eq_nil_iff, not_or]
        exact ⟨hn, hne⟩
      · exact ⟨by simp, by simp, by simp, fun c hc => (List.mem_append.1 hc).elim isDigit_of_mem_zeros (hdigits c),
          by simp, by simp, by simp⟩

@[simp] theorem wellFormed_ofBinary (x : Binary64) : (ofBinary x).WellFormed := by
  rw [ofBinary]
  split
  · exact .null
  · split
    · exact .number ⟨by simp, by simp, by simp, by simp, by simp, by simp, by simp⟩
    · rename_i hzero
      have hpos := Nat.pos_of_ne_zero hzero
      exact .number (wellFormed_ofDecimal _ (Decimal.digits_pos_of_near hpos (Decimal.shortest_near _ hpos)))

/-- A number is read back from its numeral. -/
def ReadsBack (x : Binary64) : Prop :=
  (ofBinary x).binary? = some x

instance (x : Binary64) : Decidable (ReadsBack x) :=
  inferInstanceAs (Decidable (_ = _))

theorem binary?_ofBinary {x : Binary64} (h : x.isFinite → ReadsBack x) :
    (ofBinary x).binary? = if x.isFinite then some x else none := by
  split
  · rename_i hfin
    exact h hfin
  · rename_i hinf
    rw [ofBinary, if_pos (by simpa using hinf)]
    rfl

/-! ## Records -/

@[simp] theorem wellFormed_text (s : String) : (text s).WellFormed :=
  .string _

@[simp] theorem wellFormed_choice {α : Type} [Named α] (a : α) : (choice a).WellFormed :=
  .string _

@[simp] theorem wellFormed_record {fields : List (String × Json)} :
    (record fields).WellFormed ↔ ∀ f ∈ fields, f.2.WellFormed := by
  constructor
  · rintro ⟨⟩ f hf
    rename_i h
    exact h _ (List.mem_map_of_mem hf)
  · refine fun h => .object fun f hf => ?_
    obtain ⟨f, hmem, rfl⟩ := List.mem_map.1 hf
    exact h f hmem

@[simp] theorem wellFormed_list {α : Type} {f : α → Json} {xs : List α} :
    (array (xs.map f)).WellFormed ↔ ∀ x ∈ xs, (f x).WellFormed := by
  constructor
  · rintro ⟨⟩ x hx
    rename_i h
    exact h _ (List.mem_map_of_mem hx)
  · refine fun h => .array fun j hj => ?_
    obtain ⟨x, hmem, rfl⟩ := List.mem_map.1 hj
    exact h x hmem

@[simp] theorem wellFormed_variant (tag : String) {j : Json} : (variant tag j).WellFormed ↔ j.WellFormed := by
  simp [variant]

@[simp] theorem wellFormed_sizes (ns : List Nat) : (sizes ns).WellFormed := by
  simp [sizes]

theorem only?_of_mem {fields : List (String × Json)} (hnodup : (fields.map Prod.fst).Nodup) {key : String} {j : Json}
    (h : (key, j) ∈ fields) : only? (fields.map fun f => (some f.1, f.2)) key = some j := by
  obtain ⟨before, after, rfl⟩ := List.append_of_mem h
  rw [List.map_append, List.map_cons, List.nodup_middle, List.nodup_cons, List.mem_append, not_or] at hnodup
  have hother : ∀ {fs : List (String × Json)}, key ∉ fs.map Prod.fst →
      (fs.map fun f => (some f.1, f.2)).filter (·.1 == some key) = [] := by
    intro fs hkey
    rw [List.filter_eq_nil_iff]
    intro f hf
    obtain ⟨g, hg, rfl⟩ := List.mem_map.1 hf
    rw [beq_iff_eq, Option.some.injEq]
    rintro rfl
    exact hkey (List.mem_map_of_mem hg)
  rw [only?, List.map_append, List.map_cons, List.filter_append, List.filter_cons_of_pos (by simp), hother hnodup.1.1,
    hother hnodup.1.2]
  rfl

/-- A record is read field by field. -/
theorem record?_record {fields : List (String × Json)} {names : List String} (hnames : fields.map Prod.fst = names)
    (hnodup : names.Nodup) : (Json.record fields).record? names = some (fields.map Prod.snd) := by
  subst hnames
  rw [Json.record, record?, if_pos (by simp), mapM_eq_some, List.forall₂_map_left_iff, List.forall₂_map_right_iff,
    List.forall₂_same]
  exact fun f hf => only?_of_mem hnodup hf

theorem list?_map {α : Type} {f : α → Json} {item? : Json → Option α} {xs : List α} (h : ∀ x ∈ xs, item? (f x) = some x) :
    (array (xs.map f)).list? item? = some xs := by
  rw [list?, mapM_eq_some, List.forall₂_map_left_iff, List.forall₂_same]
  exact h

/-- A list is read if all its items are. -/
theorem list?_map_all {α : Type} {f : α → Json} {item? : Json → Option α} {p : α → Bool} {xs : List α}
    (h : ∀ x ∈ xs, item? (f x) = if p x then some x else none) :
    (array (xs.map f)).list? item? = if xs.all p then some xs else none := by
  split
  · rename_i hall
    exact list?_map fun x hx => by rw [h x hx, if_pos (List.all_eq_true.1 hall x hx)]
  · rename_i hnot
    obtain ⟨x, hx, hp⟩ : ∃ x ∈ xs, p x = false := by simpa using hnot
    rw [list?, Option.eq_none_iff_forall_ne_some]
    intro ys hys
    obtain ⟨i, hi⟩ := List.mem_iff_getElem?.1 (List.mem_map_of_mem hx)
    obtain ⟨y, _, hy⟩ := exists_getElem?_of_forall₂ (mapM_eq_some.1 hys) hi
    rw [h x hx, hp, if_neg Bool.false_ne_true] at hy
    cases hy

theorem variant?_variant (tag : String) (j : Json) : (variant tag j).variant? = some (tag, some j) :=
  rfl

theorem size?_ofNat {n bound : Nat} (h : n < bound) : (ofNat n).size? bound = some n := by
  have hvalue : digitsValue (Nat.toDigits 10 n) = n := digitsValue_digitsOf n
  rw [ofNat, size?, Numeral.size?]
  dsimp only
  rw [hvalue, if_neg]
  simp [h]

theorem choice?_choice {α : Type} [Named α] [Named.Lawful α] (a : α) : (choice a).choice? = some a :=
  Named.Lawful.ofTag?_tag a

theorem extent?_ofNat {n : Nat} (h : n < 2 ^ 64) : (ofNat n).extent? = some n :=
  size?_ofNat h

theorem extents?_sizes {ns : List Nat} (h : ∀ n ∈ ns, n < 2 ^ 64) : (sizes ns).extents? = some ns :=
  list?_map fun n hn => size?_ofNat (h n hn)

end Json

/-! ## Types and literals -/

@[simp] theorem Dim.wellFormed_toJson (d : Dim) : d.toJson.WellFormed := by
  cases d <;> simp [toJson]

theorem Dim.ofJson?_toJson {d : Dim} (h : ∀ n ∈ d.extent?, n < 2 ^ 64) : Dim.ofJson? d.toJson = some d := by
  cases d with
  | fixed n =>
    change (Json.ofNat n).extent?.map Dim.fixed = _
    rw [Json.extent?_ofNat (h n rfl)]
    rfl
  | dynamic symbol => rfl

namespace TensorType

@[simp] theorem wellFormed_toJson (t : TensorType) : t.toJson.WellFormed := by
  simp [toJson]

theorem ofJson?_toJson {t : TensorType} (h : ∀ n ∈ t.sizes, n < 2 ^ 64) : ofJson? t.toJson = some t := by
  have hdims : dimsOfJson? (.record [("dims", .array (t.dims.map Dim.toJson))]) = some t.dims := by
    rw [dimsOfJson?, Json.record?_record]
    · exact Json.list?_map fun d hd => d.ofJson?_toJson fun n hn => h n (List.mem_filterMap.2 ⟨d, hd, hn⟩)
    · rfl
    · decide
  rw [ofJson?, toJson, Json.record?_record]
  · dsimp only [List.map]
    rw [Json.choice?_choice, hdims]
    rfl
  · rfl
  · decide

end TensorType

namespace Literal

@[simp] theorem wellFormed_toJson (l : Literal) : l.toJson.WellFormed := by
  simp [toJson]

theorem ofJson?_toJson {l : Literal} (hsized : l.Sized) (h : ∀ n ∈ l.type.sizes, n < 2 ^ 64) :
    ofJson? l.toJson = some l := by
  have hbytes : (Json.sizes (l.bytes.map (·.toNat))).list? (Json.size? 256) = some (l.bytes.map (·.toNat)) := by
    refine Json.list?_map fun n hn => Json.size?_ofNat ?_
    obtain ⟨b, _, rfl⟩ := List.mem_map.1 hn
    exact b.toNat_lt
  have hback : (l.bytes.map (·.toNat)).map UInt8.ofNat = l.bytes := by
    rw [List.map_map]
    exact (List.map_congr_left fun b _ => UInt8.ofNat_toNat).trans (List.map_id _)
  rw [ofJson?, toJson, Json.record?_record]
  · dsimp only [List.map]
    rw [TensorType.ofJson?_toJson h, hbytes]
    change (make l.type ((l.bytes.map (·.toNat)).map UInt8.ofNat)).toOption = _
    rw [hback, make_of_sized hsized]
    rfl
  · rfl
  · decide

end Literal

/-! ## Operation kinds -/

namespace OpKind

@[simp] theorem wellFormed_toJson (kind : OpKind) : kind.toJson.WellFormed := by
  cases kind <;> simp [toJson, Activate.toJson, Reduce.toJson, Pad.toJson, Pool.toJson, Json.WellFormed.bool]

end OpKind

theorem Activate.ofJson?_toJson {spec : Activate} (h : ∀ x ∈ [spec.alpha, spec.beta], x.isFinite → Json.ReadsBack x) :
    Activate.ofJson? spec.toJson = if [spec.alpha, spec.beta].all (·.isFinite) then some spec else none := by
  rw [Activate.ofJson?, toJson, Json.record?_record]
  · dsimp only [List.map]
    rw [Json.choice?_choice, Json.binary?_ofBinary (h _ (by simp)), Json.binary?_ofBinary (h _ (by simp))]
    cases hα : spec.alpha.isFinite <;> cases hβ : spec.beta.isFinite <;> simp [hα, hβ]
  · rfl
  · decide

theorem Reduce.ofJson?_toJson {spec : Reduce} (h : ∀ n ∈ spec.axes, n < 2 ^ 64) :
    Reduce.ofJson? spec.toJson = some spec := by
  rw [Reduce.ofJson?, toJson, Json.record?_record]
  · dsimp only [List.map]
    rw [Json.choice?_choice, Json.extents?_sizes h]
    rfl
  · rfl
  · decide

theorem Pad.ofJson?_toJson {spec : Pad} (hsizes : ∀ n ∈ spec.amounts, n < 2 ^ 64)
    (h : spec.fill.isFinite → Json.ReadsBack spec.fill) :
    Pad.ofJson? spec.toJson = if spec.fill.isFinite then some spec else none := by
  rw [Pad.ofJson?, toJson, Json.record?_record]
  · dsimp only [List.map]
    rw [Json.choice?_choice, Json.extents?_sizes hsizes, Json.binary?_ofBinary h]
    cases spec.fill.isFinite <;> rfl
  · rfl
  · decide

theorem Pool.ofJson?_toJson {spec : Pool} (h : ∀ n ∈ spec.kernel ++ spec.strides, n < 2 ^ 64) :
    Pool.ofJson? spec.toJson = some spec := by
  rw [List.forall_mem_append] at h
  rw [Pool.ofJson?, toJson, Json.record?_record]
  · dsimp only [List.map]
    rw [Json.choice?_choice, Json.extents?_sizes h.1, Json.extents?_sizes h.2]
    rfl
  · rfl
  · decide

theorem OpKind.ofJson?_toJson {kind : OpKind} (hsizes : ∀ n ∈ kind.sizes, n < 2 ^ 64)
    (hsized : ∀ literal ∈ kind.literal?, literal.Sized) (hback : ∀ x ∈ kind.scalars, x.isFinite → Json.ReadsBack x) :
    OpKind.ofJson? kind.toJson = if kind.scalars.all (·.isFinite) then some kind else none := by
  cases kind with
  | const literal =>
    change (Literal.ofJson? literal.toJson).map const = _
    rw [Literal.ofJson?_toJson (hsized literal rfl) hsizes]
    rfl
  | transpose perm =>
    have hrecord : (Json.record [("perm", Json.sizes perm)]).record? ["perm"] = some [Json.sizes perm] :=
      Json.record?_record rfl (by decide)
    have hperm : ∀ n ∈ perm, n < 2 ^ 64 := hsizes
    rw [OpKind.ofJson?, toJson, Json.variant?_variant]
    simp only [hrecord]
    rw [Json.extents?_sizes hperm]
    rfl
  | unary op =>
    change (Json.choice op).choice?.map unary = _
    rw [Json.choice?_choice]
    rfl
  | activation spec =>
    change (Activate.ofJson? spec.toJson).map activation = _
    rw [Activate.ofJson?_toJson hback, scalars]
    split <;> rfl
  | binary op =>
    change (Json.choice op).choice?.map binary = _
    rw [Json.choice?_choice]
    rfl
  | reduce spec =>
    change (Reduce.ofJson? spec.toJson).map reduce = _
    rw [Reduce.ofJson?_toJson hsizes]
    rfl
  | concat axis =>
    have hrecord : (Json.record [("axis", Json.ofNat axis)]).record? ["axis"] = some [Json.ofNat axis] :=
      Json.record?_record rfl (by decide)
    rw [OpKind.ofJson?, toJson, Json.variant?_variant]
    simp only [hrecord]
    rw [Json.extent?_ofNat (hsizes axis (List.mem_singleton_self axis))]
    rfl
  | pad spec =>
    change (Pad.ofJson? spec.toJson).map pad = _
    rw [Pad.ofJson?_toJson hsizes (hback _ (List.mem_singleton_self _)), scalars, List.all_cons, List.all_nil, Bool.and_true]
    split <;> rfl
  | pool spec =>
    change (Pool.ofJson? spec.toJson).map pool = _
    rw [Pool.ofJson?_toJson hsizes]
    rfl
  | custom name =>
    have hrecord : (Json.record [("name", Json.text name)]).record? ["name"] = some [Json.text name] :=
      Json.record?_record rfl (by decide)
    rw [OpKind.ofJson?, toJson, Json.variant?_variant]
    simp only [hrecord]
    rfl

/-! ## Blocks -/

namespace ValueId

@[simp] theorem wellFormed_toJson (v : ValueId) : v.toJson.WellFormed :=
  Json.wellFormed_ofNat v.index

@[simp] theorem wellFormed_listToJson (ids : List ValueId) : (listToJson ids).WellFormed := by
  simp [listToJson]

theorem ofJson?_toJson {v : ValueId} (h : v.index < 2 ^ 32) : ofJson? v.toJson = some v := by
  rw [ofJson?, toJson, Nat.pow_eq, Json.size?_ofNat h]
  rfl

theorem listOfJson?_listToJson {ids : List ValueId} (h : ∀ v ∈ ids, v.index < 2 ^ 32) :
    listOfJson? (listToJson ids) = some ids :=
  Json.list?_map fun v hv => ofJson?_toJson (h v hv)

end ValueId

namespace Operation

/-- Ids and sizes fit in their words. -/
structure InRange (op : Operation) : Prop where
  id : op.id.index < 2 ^ 32
  inputs : ∀ v ∈ op.inputs, v.index < 2 ^ 32
  outputs : ∀ v ∈ op.outputs, v.index < 2 ^ 32
  sizes : ∀ n ∈ op.kind.sizes, n < 2 ^ 64

instance (op : Operation) : Decidable op.InRange :=
  decidable_of_iff (op.id.index < 2 ^ 32 ∧ (∀ v ∈ op.inputs, v.index < 2 ^ 32) ∧ (∀ v ∈ op.outputs, v.index < 2 ^ 32) ∧
    ∀ n ∈ op.kind.sizes, n < 2 ^ 64) ⟨fun h => ⟨h.1, h.2.1, h.2.2.1, h.2.2.2⟩, fun h => ⟨h.1, h.2, h.3, h.4⟩⟩

@[simp] theorem wellFormed_toJson (op : Operation) : op.toJson.WellFormed := by
  simp [toJson]

theorem ofJson?_toJson {op : Operation} (h : op.InRange) (hsized : ∀ literal ∈ op.kind.literal?, literal.Sized)
    (hback : ∀ x ∈ op.kind.scalars, x.isFinite → Json.ReadsBack x) :
    ofJson? op.toJson = if op.kind.scalars.all (·.isFinite) then some op else none := by
  rw [ofJson?, toJson, Json.record?_record]
  · dsimp only [List.map]
    rw [Nat.pow_eq, Json.size?_ofNat h.id, OpKind.ofJson?_toJson h.sizes hsized hback,
      ValueId.listOfJson?_listToJson h.inputs, ValueId.listOfJson?_listToJson h.outputs]
    split <;> rfl
  · rfl
  · decide

end Operation

namespace Value

@[simp] theorem wellFormed_toJson (v : Value) : v.toJson.WellFormed := by
  simp [toJson]

theorem ofJson?_toJson {v : Value} (hid : v.id.index < 2 ^ 32) (hsizes : ∀ n ∈ v.type.sizes, n < 2 ^ 64) :
    ofJson? v.toJson = some v := by
  rw [ofJson?, toJson, Json.record?_record]
  · dsimp only [List.map]
    rw [ValueId.ofJson?_toJson hid, TensorType.ofJson?_toJson hsizes]
    rfl
  · rfl
  · decide

end Value

namespace Block

/-- Ids and sizes fit in their words. -/
structure InRange (b : Block) : Prop where
  inputs : ∀ v ∈ b.inputs, v.index < 2 ^ 32
  outputs : ∀ v ∈ b.outputs, v.index < 2 ^ 32
  operations : ∀ op ∈ b.operations, op.InRange
  values : ∀ r ∈ b.values, r.id.index < 2 ^ 32 ∧ ∀ n ∈ r.type.sizes, n < 2 ^ 64

instance (b : Block) : Decidable b.InRange :=
  decidable_of_iff ((∀ v ∈ b.inputs, v.index < 2 ^ 32) ∧ (∀ v ∈ b.outputs, v.index < 2 ^ 32) ∧
    (∀ op ∈ b.operations, op.InRange) ∧ ∀ r ∈ b.values, r.id.index < 2 ^ 32 ∧ ∀ n ∈ r.type.sizes, n < 2 ^ 64)
    ⟨fun h => ⟨h.1, h.2.1, h.2.2.1, h.2.2.2⟩, fun h => ⟨h.1, h.2, h.3, h.4⟩⟩

theorem wellFormed_toJson (b : Block) : b.toJson.WellFormed := by
  simp [toJson]

theorem ofJson?_toJson {b : Block} (h : b.InRange) (hsized : ∀ literal ∈ b.literals, literal.Sized)
    (hback : ∀ x ∈ b.scalars, x.isFinite → Json.ReadsBack x) :
    ofJson? b.toJson = if b.operations.all (·.kind.scalars.all (·.isFinite)) then some b else none := by
  have hops : (Json.array (b.operations.map (·.toJson))).list? Operation.ofJson? =
      if b.operations.all (·.kind.scalars.all (·.isFinite)) then some b.operations else none :=
    Json.list?_map_all fun op hop => Operation.ofJson?_toJson (h.operations op hop)
      (fun literal hl => hsized literal (List.mem_filterMap.2 ⟨op, hop, hl⟩))
      fun x hx => hback x (List.mem_flatMap.2 ⟨op, hop, hx⟩)
  have hvalues : (Json.array (b.values.map (·.toJson))).list? Value.ofJson? = some b.values :=
    Json.list?_map fun r hr => Value.ofJson?_toJson (h.values r hr).1 (h.values r hr).2
  rw [ofJson?, toJson, Json.record?_record]
  · dsimp only [List.map]
    rw [ValueId.listOfJson?_listToJson h.inputs, ValueId.listOfJson?_listToJson h.outputs, hops, hvalues]
    split <;> rfl
  · rfl
  · decide

/-- A block is read back from its document exactly if its attributes are finite. -/
theorem readJson?_printJson {b : Block} (h : b.InRange) (hsized : ∀ literal ∈ b.literals, literal.Sized)
    (hback : ∀ x ∈ b.scalars, x.isFinite → Json.ReadsBack x) :
    readJson? b.printJson = if ∀ x ∈ b.scalars, x.isFinite then some b else none := by
  have hall : b.operations.all (·.kind.scalars.all (·.isFinite)) ↔ ∀ x ∈ b.scalars, x.isFinite := by
    simp only [List.all_eq_true, scalars, List.mem_flatMap]
    exact ⟨fun h x ⟨op, hop, hx⟩ => h op hop x hx, fun h op hop x hx => h x ⟨op, hop, hx⟩⟩
  rw [readJson?, printJson, Json.parse?_render b.wellFormed_toJson, Option.bind_some, ofJson?_toJson h hsized hback]
  exact if_congr hall rfl rfl

/-- Ids and names in no order, one operation id and one name given twice, and values used but never defined. -/
def scattered (alpha : Binary64) : Block where
  name := "größe \"1\""
  inputs := [⟨7⟩]
  outputs := [⟨9⟩]
  operations := [⟨⟨5⟩, .activation ⟨.elu, alpha, .zero⟩, [⟨4⟩], [⟨2⟩]⟩,
    ⟨⟨5⟩, .const ⟨.ofExtents .ui8 [2], [1, 255]⟩, [], [⟨3⟩]⟩]
  values := [⟨⟨7⟩, "a\n", ⟨.f32, [.fixed 2, .dynamic "n"]⟩⟩, ⟨⟨2⟩, "a\n", .ofExtents .f32 []⟩]

theorem readJson?_printJson_scattered :
    readJson? (scattered (.ofRatio true 1 10)).printJson = some (scattered (.ofRatio true 1 10)) ∧
      readJson? (scattered (.infinity false)).printJson = none :=
  ⟨(readJson?_printJson (by decide) (by decide) (by decide +kernel)).trans (if_pos (by decide +kernel)),
    (readJson?_printJson (by decide) (by decide) (by decide +kernel)).trans (if_neg (by decide +kernel))⟩

end Block

end Relayout
