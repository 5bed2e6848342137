import Relayout.Proofs.Structure
import Relayout.UseIndex

/-!
# What an index says about its block

An index `Agrees` with a block if each of its tables says what can be read off the block: where operations stand, who
defines a value, who reads it, which names are taken, and that the next ids are free. The index that `UseIndex.build`
collects for a sound block agrees with it (`exists_build`), unless the block uses the last id there is and none is free
(`build_overflow`).
-/

namespace Relayout

/-! ## Tables -/

namespace Table

variable {κ ν : Type} [BEq κ]

theorem get?_map_snd (f : ν → ν) (t : Table κ ν) (k : κ) :
    Table.get? (t.map fun e => (e.1, f e.2)) k = (t.get? k).map f := by
  induction t with
  | nil => rfl
  | cons e t ih =>
    obtain ⟨key, v⟩ := e
    simp only [get?, List.map_cons, List.lookup_cons] at ih ⊢
    cases k == key with
    | true => rfl
    | false => exact ih

theorem contains_iff (t : Table κ ν) (k : κ) : t.contains k ↔ ∃ v, t.get? k = some v := by
  rw [contains, Option.isSome_iff_exists]

variable [LawfulBEq κ]

theorem mem_keys (t : Table κ ν) (k : κ) : k ∈ t.map (·.1) ↔ ∃ v, t.get? k = some v := by
  rw [← lookup_isSome, Option.isSome_iff_exists]
  rfl

variable [DecidableEq κ]

theorem get?_remove (t : Table κ ν) (k k' : κ) : (t.remove k).get? k' = if k' = k then none else t.get? k' := by
  induction t with
  | nil => simp [get?, remove]
  | cons e t ih =>
    obtain ⟨key, v⟩ := e
    simp only [get?, remove] at ih ⊢
    by_cases hkey : key = k
    · subst hkey
      by_cases hk : k' = key
      · subst hk; simpa using ih
      · simp [hk, List.lookup_cons, beq_false_of_ne hk] at ih ⊢
        exact ih
    · have hne : (!key == k) = true := by simpa using hkey
      rw [List.filter_cons_of_pos (by simpa using hkey), List.lookup_cons, List.lookup_cons]
      by_cases hk : k' = key
      · subst hk; simp [hkey]
      · rw [beq_false_of_ne hk]; exact ih

theorem get?_put (t : Table κ ν) (k k' : κ) (v : ν) : (t.put k v).get? k' = if k' = k then some v else t.get? k' := by
  have h := get?_remove t k k'
  simp only [get?] at h
  simp only [get?, put, List.lookup_cons]
  by_cases hk : k' = k
  · simp [hk]
  · rw [beq_false_of_ne hk]; simpa [hk] using h

theorem get?_foldl_put {es : List (κ × ν)} (hnd : (es.map (·.1)).Nodup) (t : Table κ ν)
    {k : κ} {v : ν} : (es.foldl (fun t e => t.put e.1 e.2) t).get? k = some v ↔
      (k, v) ∈ es ∨ (k ∉ es.map (·.1) ∧ t.get? k = some v) := by
  induction es generalizing t with
  | nil => simp
  | cons e es ih =>
    rw [List.map_cons, List.nodup_cons] at hnd
    obtain ⟨key, value⟩ := e
    rw [List.foldl_cons, ih hnd.2, get?_put]
    by_cases hk : k = key
    · subst hk
      have hnot : ∀ w, (k, w) ∉ es := fun w hin => hnd.1 (List.mem_map_of_mem (f := (·.1)) hin)
      simp [hnot, hnd.1, eq_comm]
    · simp [hk]

theorem get?_foldl_remove (ks : List κ) (t : Table κ ν) (k' : κ) :
    (ks.foldl (·.remove ·) t).get? k' = if k' ∈ ks then none else t.get? k' := by
  induction ks generalizing t with
  | nil => simp
  | cons k ks ih =>
    rw [List.foldl_cons, ih, get?_remove]
    by_cases hk : k' = k <;> by_cases hks : k' ∈ ks <;> simp [hk, hks]

end Table

/-! ## Ids -/

section Ids

variable [IdSpace] {m n : Nat}

theorem IdSpace.admits_iff : admits n ↔ ∀ last, last? = some last → n ≤ last := by
  rw [admits]
  cases last? <;> simp

theorem IdSpace.admits_of_le (hle : m ≤ n) (h : admits n) : admits m :=
  admits_iff.2 fun last hlast => hle.trans (admits_iff.1 h last hlast)

/-- There is no last id. -/
def IdSpace.Unbounded : Prop :=
  (last? : Option Nat) = none

theorem IdSpace.Unbounded.admits (h : Unbounded) (n : Nat) : admits n := by
  rw [IdSpace.admits, h]
  rfl

/-- None of the ids is the last one. -/
structure Block.HasFreeIds (b : Block) : Prop where
  values : ∀ r ∈ b.values, IdSpace.admits (r.id.index + 1)
  operations : ∀ o ∈ b.operations, IdSpace.admits (o.id.index + 1)

theorem IdSpace.Unbounded.hasFreeIds (h : Unbounded) (b : Block) : b.HasFreeIds :=
  ⟨fun _ _ => h.admits _, fun _ _ => h.admits _⟩

end Ids

namespace UseIndex

/-! ## Users -/

/-- The users that a table has for a value. -/
def usersIn (users : Table ValueId (List OpId)) (value : ValueId) : List OpId :=
  (users.get? value).getD []

theorem usersOf_eq (x : UseIndex) (value : ValueId) : x.usersOf value = usersIn x.users value := rfl

section Users

variable {users : Table ValueId (List OpId)} {value v : ValueId} {op o : OpId}

theorem usersIn_addUser :
    usersIn (addUser users value op) v =
      if v = value ∧ op ∉ usersIn users value then usersIn users value ++ [op] else usersIn users v := by
  unfold addUser usersIn
  by_cases hc : ((users.get? value).getD []).contains op
  · have : op ∈ (users.get? value).getD [] := by simpa using hc
    simp [this]
  · have hm : op ∉ (users.get? value).getD [] := by simpa using hc
    simp only [hc, Bool.false_eq_true, if_false, Table.get?_put, hm, not_false_eq_true, and_true]
    split <;> simp

theorem mem_addUser : o ∈ usersIn (addUser users value op) v ↔ o ∈ usersIn users v ∨ (v = value ∧ o = op) := by
  rw [usersIn_addUser]
  by_cases hv : v = value
  · subst hv
    by_cases hop : op ∈ usersIn users v
    · simp only [hop, not_true, and_false, if_false, true_and]
      exact ⟨.inl, fun h => h.elim id fun h => h ▸ hop⟩
    · simp [hop]
  · simp [hv]

theorem nodup_addUser (h : ∀ v, (usersIn users v).Nodup) : (usersIn (addUser users value op) v).Nodup := by
  rw [usersIn_addUser]
  split
  · rename_i hc
    rw [List.nodup_append]
    refine ⟨h value, List.nodup_singleton op, ?_⟩
    rintro a ha _ hb rfl
    rw [List.mem_singleton.1 hb] at ha
    exact hc.2 ha
  · exact h v

theorem mem_addUsers {values : List ValueId} :
    o ∈ usersIn (addUsers users op values) v ↔ o ∈ usersIn users v ∨ (v ∈ values ∧ o = op) := by
  induction values generalizing users with
  | nil => simp [addUsers]
  | cons value values ih =>
    rw [addUsers, List.foldl_cons]
    rw [← addUsers, ih, mem_addUser, List.mem_cons]
    tauto

theorem nodup_addUsers {values : List ValueId} (h : ∀ v, (usersIn users v).Nodup) :
    (usersIn (addUsers users op values) v).Nodup := by
  induction values generalizing users with
  | nil => exact h v
  | cons value values ih => exact ih fun v => nodup_addUser h

theorem usersIn_removeUser :
    usersIn (removeUser users value op) v =
      if v = value then (usersIn users value).filter (· != op) else usersIn users v := by
  unfold removeUser usersIn
  cases hu : users.get? value with
  | none =>
    by_cases hv : v = value
    · subst hv; simp [hu]
    · simp [hv]
  | some ops =>
    simp only [Option.getD_some]
    split
    · rename_i hnil
      rw [Table.get?_remove]
      by_cases hv : v = value <;> simp [hv, hnil]
    · rw [Table.get?_put]
      by_cases hv : v = value <;> simp [hv]

theorem mem_removeUser :
    o ∈ usersIn (removeUser users value op) v ↔ o ∈ usersIn users v ∧ ¬(v = value ∧ o = op) := by
  rw [usersIn_removeUser]
  by_cases hv : v = value
  · subst hv; simp
  · simp [hv]

theorem nodup_removeUser (h : ∀ v, (usersIn users v).Nodup) : (usersIn (removeUser users value op) v).Nodup := by
  rw [usersIn_removeUser]
  split
  · exact (h value).filter _
  · exact h v

theorem mem_foldl_removeUser {values : List ValueId} :
    o ∈ usersIn (values.foldl (removeUser · · op) users) v ↔ o ∈ usersIn users v ∧ ¬(v ∈ values ∧ o = op) := by
  induction values generalizing users with
  | nil => simp
  | cons value values ih =>
    rw [List.foldl_cons, ih, mem_removeUser, List.mem_cons]
    tauto

theorem nodup_foldl_removeUser {values : List ValueId} (h : ∀ v, (usersIn users v).Nodup) :
    (usersIn (values.foldl (removeUser · · op) users) v).Nodup := by
  induction values generalizing users with
  | nil => exact h v
  | cons value values ih => exact ih fun v => nodup_removeUser h

end Users

/-! ## Agreement -/

theorem isDefined_iff {x : UseIndex} {inputs : List ValueId} {ops : List Operation} (hinputs : x.inputs = inputs)
    (hprod : ∀ value op, x.producer? value = some op ↔ ∃ o ∈ ops, o.id = op ∧ value ∈ o.outputs) {value : ValueId} :
    x.isDefined value ↔ value ∈ inputs ++ results ops := by
  rw [isDefined, Bool.or_eq_true, isInput, hinputs, List.contains_iff_mem, Table.contains_iff, List.mem_append, mem_results]
  refine or_congr_right ⟨fun ⟨op, hop⟩ => ?_, fun ⟨op, hop, hv⟩ => ?_⟩
  · obtain ⟨o, ho, _, hv⟩ := (hprod value op).1 hop
    exact ⟨o, ho, hv⟩
  · exact ⟨op.id, (hprod value op.id).2 ⟨op, hop, rfl, hv⟩⟩

/-- What may be read from some position on is defined. -/
theorem isDefined_of_availableFrom? {x : UseIndex} {value : ValueId} {start : Nat}
    (h : x.availableFrom? value = some start) : x.isDefined value := by
  rw [availableFrom?] at h
  rw [isDefined, Bool.or_eq_true]
  split at h
  · rename_i hin
    exact .inl hin
  · obtain ⟨op, hop, _⟩ := Option.bind_eq_some_iff.1 h
    exact .inr ((Table.contains_iff _ _).2 ⟨op, hop⟩)

/-- An index says of inputs and operations what is the case. -/
structure Covers (x : UseIndex) (inputs : List ValueId) (ops : List Operation) : Prop where
  positions : ∀ op pos, x.position? op = some pos ↔ (ops.map (·.id))[pos]? = some op
  producers : ∀ value op, x.producer? value = some op ↔ ∃ o ∈ ops, o.id = op ∧ value ∈ o.outputs
  users : ∀ value op, op ∈ x.usersOf value ↔ ∃ o ∈ ops, o.id = op ∧ value ∈ o.inputs
  usersOnce : ∀ value, (x.usersOf value).Nodup
  inputs : x.inputs = inputs

/-- An index says of a block what is the case. -/
structure Agrees [IdSpace] (x : UseIndex) (b : Block) : Prop extends Covers x b.inputs b.operations where
  names : ∀ name value, x.named? name = some value ↔ ∃ r ∈ b.values, r.name = name ∧ r.id = value
  nextValue : ∀ r ∈ b.values, r.id.index < x.nextValue
  nextOp : ∀ o ∈ b.operations, o.id.index < x.nextOp
  free : IdSpace.admits x.nextValue ∧ IdSpace.admits x.nextOp

namespace Covers

variable {x : UseIndex} {inputs : List ValueId} {ops : List Operation}

theorem isInput (h : x.Covers inputs ops) {value : ValueId} : x.isInput value ↔ value ∈ inputs := by
  rw [UseIndex.isInput, h.inputs, List.contains_iff_mem]

theorem isDefined (h : x.Covers inputs ops) {value : ValueId} : x.isDefined value ↔ value ∈ inputs ++ results ops :=
  isDefined_iff h.inputs h.producers

theorem position_of_append (h : x.Covers inputs ops) {before after : List Operation} {op : Operation}
    (heq : ops = before ++ op :: after) : x.position? op.id = some before.length := by
  rw [h.positions, heq]
  simp

theorem contains (h : x.Covers inputs ops) {op : OpId} : x.contains op ↔ op ∈ ops.map (·.id) := by
  rw [UseIndex.contains, Table.contains_iff, List.mem_iff_getElem?]
  exact exists_congr fun pos => h.positions op pos

end Covers

namespace Agrees

variable [IdSpace] {x : UseIndex} {b : Block}

theorem mem_names (h : x.Agrees b) {name : String} : name ∈ x.names.map (·.1) ↔ name ∈ b.values.map (·.name) := by
  rw [Table.mem_keys, List.mem_map]
  constructor
  · rintro ⟨v, hv⟩
    obtain ⟨r, hr, hn, _⟩ := (h.names name v).1 hv
    exact ⟨r, hr, hn⟩
  · rintro ⟨r, hr, hn⟩
    exact ⟨r.id, (h.names name r.id).2 ⟨r, hr, hn, rfl⟩⟩

theorem contains_names (h : x.Agrees b) {name : String} : x.names.contains name = true ↔ name ∈ b.values.map (·.name) := by
  rw [Table.contains_iff, ← Table.mem_keys, h.mem_names]

/-- A value may be read at a position if it is in scope there. -/
theorem availableFrom (h : x.Agrees b) (hs : b.Sound) {before after : List Operation}
    (heq : b.operations = before ++ after) {value : ValueId} :
    (∃ start, x.availableFrom? value = some start ∧ start ≤ before.length) ↔
      value ∈ b.inputs ++ results before := by
  unfold availableFrom?
  by_cases hin : value ∈ b.inputs
  · simp [h.isInput.2 hin, hin]
  · have hnot : x.isInput value = false := by rw [← Bool.not_eq_true, h.isInput]; exact hin
    simp only [hnot, Bool.false_eq_true, if_false, List.mem_append, hin, false_or, Option.bind_eq_some_iff,
      Option.map_eq_some_iff, mem_results]
    constructor
    · rintro ⟨start, ⟨op, hop, pos, hpos, rfl⟩, hle⟩
      obtain ⟨o, ho, rfl, hv⟩ := (h.producers value op).1 hop
      have hget := (h.positions o.id pos).1 hpos
      have hlt : pos < before.length := by omega
      rw [heq, List.map_append, List.getElem?_append_left (by simpa using hlt), List.getElem?_map,
        Option.map_eq_some_iff] at hget
      obtain ⟨o', ho', hid⟩ := hget
      have ho'' : o' ∈ b.operations := by rw [heq]; exact List.mem_append_left _ (List.mem_of_getElem? ho')
      exact ⟨o', List.mem_of_getElem? ho', by rw [hs.op_ext ho'' ho hid]; exact hv⟩
    · rintro ⟨op, hop, hv⟩
      obtain ⟨l, r, rfl⟩ := List.append_of_mem hop
      have hop' : op ∈ b.operations := by rw [heq]; simp
      exact ⟨_, ⟨op.id, (h.producers value op.id).2 ⟨op, hop', rfl, hv⟩, l.length,
        h.position_of_append (by rw [heq, List.append_assoc, List.cons_append]), rfl⟩, by simp⟩

end Agrees

/-! ## Building -/

theorem addNames_ok {records : List Value} {names : Table String ValueId} (hnd : (records.map (·.name)).Nodup)
    (hfree : ∀ r ∈ records, names.get? r.name = none) :
    ∃ names', addNames records names = .ok names' ∧ ∀ name value, names'.get? name = some value ↔
      names.get? name = some value ∨ ∃ r ∈ records, r.name = name ∧ r.id = value := by
  induction records generalizing names with
  | nil => exact ⟨names, rfl, by simp⟩
  | cons r records ih =>
    rw [List.map_cons, List.nodup_cons] at hnd
    have hr : names.get? r.name = none := hfree r List.mem_cons_self
    have hput : ∀ s ∈ records, (names.put r.name r.id).get? s.name = none := by
      intro s hs
      have hne : s.name ≠ r.name := fun he => hnd.1 (List.mem_map.2 ⟨s, hs, he⟩)
      rw [Table.get?_put, if_neg hne]
      exact hfree s (List.mem_cons_of_mem _ hs)
    obtain ⟨names', hrun, hget⟩ := ih hnd.2 hput
    refine ⟨names', ?_, fun name value => ?_⟩
    · rw [addNames, if_neg (by simp [Table.contains, hr])]
      exact hrun
    · rw [hget, Table.get?_put]
      simp only [List.mem_cons, exists_eq_or_imp]
      by_cases hn : name = r.name
      · subst hn
        simp [hr]
      · simp [hn, Ne.symm hn]

theorem addInputs_ok {b : Block} {ids : List ValueId} {x : UseIndex} (hprod : x.producers = [])
    (hnd : (x.inputs ++ ids).Nodup) (hrec : ∀ id ∈ ids, id ∈ b.values.map (·.id)) :
    addInputs b ids x = .ok { x with inputs := x.inputs ++ ids } := by
  induction ids generalizing x with
  | nil => simp [addInputs]
  | cons id ids ih =>
    have hid : (b.value? id).isNone = false := by
      have := Block.value?_isSome.2 (hrec id List.mem_cons_self)
      rw [Option.isNone_eq_false_iff]
      exact this
    have hnew : id ∉ x.inputs := by
      intro h
      exact (List.nodup_append.1 hnd).2.2 id h id List.mem_cons_self rfl
    have hundef : x.isDefined id = false := by
      simp [isDefined, isInput, hprod, hnew, Table.contains, Table.get?]
    rw [addInputs, hid, hundef]
    simp only [Bool.false_eq_true, if_false]
    have hrest := ih (x := { x with inputs := x.inputs ++ [id] }) hprod (by simpa using hnd)
      fun i hi => hrec i (List.mem_cons_of_mem _ hi)
    rw [hrest]
    simp

theorem addOutputs_ok {b : Block} {op : OpId} {ids : List ValueId} {x : UseIndex} (hnd : ids.Nodup)
    (hnew : ∀ id ∈ ids, x.isDefined id = false) (hrec : ∀ id ∈ ids, id ∈ b.values.map (·.id)) :
    addOutputs b op ids x = .ok { x with producers := ids.foldl (·.put · op) x.producers } := by
  induction ids generalizing x with
  | nil => simp [addOutputs]
  | cons id ids ih =>
    have hid : (b.value? id).isNone = false := by
      rw [Option.isNone_eq_false_iff]
      exact Block.value?_isSome.2 (hrec id List.mem_cons_self)
    rw [List.nodup_cons] at hnd
    rw [addOutputs, hid, hnew id List.mem_cons_self]
    simp only [Bool.false_eq_true, if_false]
    rw [ih hnd.2 (fun i hi => ?_) fun i hi => hrec i (List.mem_cons_of_mem _ hi)]
    · rfl
    · have hne : i ≠ id := fun he => hnd.1 (he ▸ hi)
      have := hnew i (List.mem_cons_of_mem _ hi)
      simp only [isDefined, isInput, Table.contains, Table.get?_put, if_neg hne] at this ⊢
      exact this

theorem get?_foldl_put {ids : List ValueId} {op : OpId} {t : Table ValueId OpId} {value : ValueId} :
    (ids.foldl (·.put · op) t).get? value = if value ∈ ids then some op else t.get? value := by
  induction ids generalizing t with
  | nil => simp
  | cons id ids ih =>
    rw [List.foldl_cons, ih, Table.get?_put]
    by_cases hid : value = id <;> by_cases hids : value ∈ ids <;> simp [hid, hids]

/-- The positions with one more operation at the end. -/
theorem get?_put_length {t : Table OpId Nat} {ids : List OpId} {new : OpId}
    (h : ∀ op pos, t.get? op = some pos ↔ ids[pos]? = some op) (hnot : new ∉ ids) (op : OpId) (pos : Nat) :
    (t.put new ids.length).get? op = some pos ↔ (ids ++ [new])[pos]? = some op := by
  rw [Table.get?_put, List.getElem?_append]
  by_cases hop : op = new
  · subst hop
    have hno : ids[pos]? ≠ some op := fun hget => hnot (List.mem_of_getElem? hget)
    rw [if_pos rfl, Option.some.injEq]
    split
    · exact ⟨fun he => by omega, fun he => absurd he hno⟩
    · rw [List.getElem?_singleton]
      split <;> simp <;> omega
  · rw [if_neg hop, h]
    split
    · rfl
    · rename_i hle
      rw [List.getElem?_eq_none (Nat.le_of_not_lt hle), List.getElem?_singleton]
      split <;> simp [Ne.symm hop]

/-- The producers with one more operation, whose results are new. -/
theorem get?_foldl_put_iff {t : Table ValueId OpId} {ops ops' : List Operation} {new : Operation}
    (h : ∀ value op, t.get? value = some op ↔ ∃ o ∈ ops, o.id = op ∧ value ∈ o.outputs)
    (hmem : ∀ o, o ∈ ops' ↔ o = new ∨ o ∈ ops) (hnew : ∀ v ∈ new.outputs, ∀ o ∈ ops, v ∉ o.outputs)
    (value : ValueId) (op : OpId) :
    (new.outputs.foldl (·.put · new.id) t).get? value = some op ↔ ∃ o ∈ ops', o.id = op ∧ value ∈ o.outputs := by
  simp only [hmem]
  rw [get?_foldl_put]
  by_cases hv : value ∈ new.outputs
  · rw [if_pos hv, Option.some.injEq]
    constructor
    · rintro rfl
      exact ⟨new, .inl rfl, rfl, hv⟩
    · rintro ⟨o, rfl | ho, rfl, hv'⟩
      · rfl
      · exact absurd hv' (hnew value hv o ho)
  · rw [if_neg hv, h]
    constructor
    · rintro ⟨o, ho, hrest⟩
      exact ⟨o, .inr ho, hrest⟩
    · rintro ⟨o, rfl | ho, rfl, hv'⟩
      · exact absurd hv' hv
      · exact ⟨o, ho, rfl, hv'⟩

/-- The users with one more operation. -/
theorem mem_addUsers_iff {users : Table ValueId (List OpId)} {ops ops' : List Operation} {new : Operation}
    (h : ∀ value op, op ∈ usersIn users value ↔ ∃ o ∈ ops, o.id = op ∧ value ∈ o.inputs)
    (hmem : ∀ o, o ∈ ops' ↔ o = new ∨ o ∈ ops) (value : ValueId) (op : OpId) :
    op ∈ usersIn (addUsers users new.id new.inputs) value ↔ ∃ o ∈ ops', o.id = op ∧ value ∈ o.inputs := by
  simp only [hmem]
  rw [mem_addUsers, h]
  constructor
  · rintro (⟨o, ho, hrest⟩ | ⟨hv, rfl⟩)
    · exact ⟨o, .inr ho, hrest⟩
    · exact ⟨new, .inl rfl, rfl, hv⟩
  · rintro ⟨o, rfl | ho, rfl, hv⟩
    · exact .inr ⟨hv, rfl⟩
    · exact .inl ⟨o, ho, rfl, hv⟩

theorem addOp_ok {b : Block} {inputs : List ValueId} {before : List Operation} {op : Operation} {x : UseIndex}
    (h : x.Covers inputs before) (hid : op.id ∉ before.map (·.id))
    (hscope : ∀ id ∈ op.inputs, id ∈ inputs ++ results before) (hnd : op.outputs.Nodup)
    (hnew : ∀ id ∈ op.outputs, id ∉ inputs ++ results before) (hrec : ∀ id ∈ op.outputs, id ∈ b.values.map (·.id)) :
    ∃ x', addOp b before.length op x = .ok x' ∧ x'.Covers inputs (before ++ [op]) ∧ x'.names = x.names := by
  have hnot : x.contains op.id = false := by rw [← Bool.not_eq_true, h.contains]; exact hid
  have hfind : op.inputs.find? (!x.isDefined ·) = none := by
    rw [List.find?_eq_none]
    intro id hmem
    simp [h.isDefined.2 (hscope id hmem)]
  have hmem : ∀ o, o ∈ before ++ [op] ↔ o = op ∨ o ∈ before := fun o => by
    rw [List.mem_append, List.mem_singleton, or_comm]
  rw [addOp, hnot]
  simp only [Bool.false_eq_true, if_false, hfind]
  rw [addOutputs_ok hnd (fun id hid => ?_) hrec]
  · refine ⟨_, rfl, ⟨fun o pos => ?_, fun value o => ?_, fun value o => ?_, fun value => ?_, h.inputs⟩, rfl⟩
    · have hput := get?_put_length h.positions hid o pos
      rw [List.length_map] at hput
      rw [List.map_append]
      exact hput
    · exact get?_foldl_put_iff h.producers hmem
        (fun v hv o ho hvo => hnew v hv (List.mem_append_right _ (mem_results.2 ⟨o, ho, hvo⟩))) value o
    · exact mem_addUsers_iff h.users hmem value o
    · exact nodup_addUsers h.usersOnce
  · have hundef := h.isDefined.not.2 (hnew id hid)
    rw [Bool.not_eq_true] at hundef
    exact hundef

/-- An index on its way through the operations of a block, of which it covers those before. -/
structure Underway (b : Block) (inputs : List ValueId) (before after : List Operation) (x : UseIndex) : Prop where
  covers : x.Covers inputs before
  opsOnce : ((before ++ after).map (·.id)).Nodup
  definedOnce : (inputs ++ results (before ++ after)).Nodup
  recorded : ∀ id ∈ results after, id ∈ b.values.map (·.id)

theorem Underway.start {b : Block} (h : b.Registered) {names : Table String ValueId} :
    Underway b b.inputs [] b.operations { names := names, inputs := b.inputs } :=
  ⟨⟨by simp [position?, Table.get?], by simp [producer?, Table.get?], by simp [usersOf, Table.get?],
    by simp [usersOf, Table.get?], rfl⟩, h.opsOnce, h.definedOnce,
    fun id hid => (h.recorded id).1 (List.mem_append_right _ hid)⟩

/-- One operation further, if what it reads is defined before. -/
theorem Underway.step {b : Block} {inputs : List ValueId} {before after : List Operation} {op : Operation} {x : UseIndex}
    (h : Underway b inputs before (op :: after) x) (hscope : ∀ id ∈ op.inputs, id ∈ inputs ++ results before) :
    ∃ x', addOp b before.length op x = .ok x' ∧ Underway b inputs (before ++ [op]) after x' ∧ x'.names = x.names := by
  obtain ⟨hcovers, hids, hnd, hrec⟩ := h
  have heq : before ++ op :: after = (before ++ [op]) ++ after := by simp
  have hid : op.id ∉ before.map (·.id) := fun hmem => by
    obtain ⟨o, ho, he⟩ := List.mem_map.1 hmem
    exact (nodup_ids_middle.1 hids).1 o (List.mem_append_left _ ho) he
  have hres : inputs ++ results (before ++ op :: after) = (inputs ++ results before) ++ (op.outputs ++ results after) := by
    simp
  have hsplit := hnd
  rw [hres, List.nodup_append] at hsplit
  obtain ⟨x', hrun, hx', hnames⟩ := addOp_ok (b := b) hcovers hid hscope (List.nodup_append.1 hsplit.2.1).1
    (fun id hmem hin => hsplit.2.2 id hin id (by simp [hmem]) rfl) (fun id hmem => hrec id (by simp [hmem]))
  exact ⟨x', hrun, ⟨hx', heq ▸ hids, heq ▸ hnd, fun id hmem => hrec id (by simp [hmem])⟩, hnames⟩

theorem Underway.addOps {b : Block} {inputs : List ValueId} {before after : List Operation} {x : UseIndex}
    (h : Underway b inputs before after x) (hscope : Scoped (inputs ++ results before) after) :
    ∃ x', UseIndex.addOps b before.length after x = .ok x' ∧ x'.Covers inputs (before ++ after) ∧ x'.names = x.names := by
  induction after generalizing before x with
  | nil => exact ⟨x, rfl, by simpa using h.covers, rfl⟩
  | cons op after ih =>
    obtain ⟨x', hrun, hx', hnames⟩ := h.step hscope.1
    obtain ⟨x'', hrun', hx'', hnames'⟩ := ih hx' (by simpa using hscope.2)
    refine ⟨x'', ?_, by simpa using hx'', hnames'.trans hnames⟩
    rw [UseIndex.addOps, hrun, ← hrun', List.length_append, List.length_singleton]
    rfl

theorem lt_nextFree {ids : List Nat} {id : Nat} (h : id ∈ ids) : id < nextFree ids := by
  have hle : ∀ (ids : List Nat) (start : Nat), start ≤ ids.foldl (fun next id => max next (id + 1)) start := by
    intro ids
    induction ids with
    | nil => simp
    | cons i ids ih => exact fun start => le_trans (le_max_left _ _) (ih _)
  have hlt : ∀ (ids : List Nat) (start : Nat), id ∈ ids → id < ids.foldl (fun next id => max next (id + 1)) start := by
    intro ids
    induction ids with
    | nil => simp
    | cons i ids ih =>
      intro start hmem
      rcases List.mem_cons.1 hmem with rfl | hmem
      · exact lt_of_lt_of_le (lt_of_lt_of_le (Nat.lt_succ_self _) (le_max_right _ _)) (hle ids _)
      · exact ih _ hmem
  exact hlt ids 0 h

theorem nextFree_le {ids : List Nat} {n : Nat} : nextFree ids ≤ n ↔ ∀ id ∈ ids, id + 1 ≤ n := by
  have hle : ∀ (ids : List Nat) (start : Nat), ids.foldl (fun next id => max next (id + 1)) start ≤ n ↔
      start ≤ n ∧ ∀ id ∈ ids, id + 1 ≤ n := by
    intro ids
    induction ids with
    | nil => simp
    | cons i ids ih => simp [ih, and_assoc]
  rw [nextFree, hle]
  exact and_iff_right (Nat.zero_le n)

theorem admits_nextFree [IdSpace] {ids : List Nat} :
    IdSpace.admits (nextFree ids) ↔ ∀ id ∈ ids, IdSpace.admits (id + 1) := by
  simp only [IdSpace.admits_iff, nextFree_le]
  exact ⟨fun h id hid last hlast => h last hlast id hid, fun h last hlast id hid => h id hid last hlast⟩

/-- The index of a sound block says what is the case, and is handed out if ids are free. -/
theorem build_eq [IdSpace] {b : Block} (hs : b.Sound) : ∃ x : UseIndex, x.Covers b.inputs b.operations ∧
    (∀ name value, x.named? name = some value ↔ ∃ r ∈ b.values, r.name = name ∧ r.id = value) ∧
    (∀ r ∈ b.values, r.id.index < x.nextValue) ∧ (∀ o ∈ b.operations, o.id.index < x.nextOp) ∧
    (IdSpace.admits x.nextValue ∧ IdSpace.admits x.nextOp ↔ b.HasFreeIds) ∧
    build b = if IdSpace.admits x.nextValue && IdSpace.admits x.nextOp then .ok x else .error (.crash .overflow) := by
  have hv : ∀ id ∈ b.defined, id ∈ b.values.map (·.id) := fun id => (hs.recorded id).1
  obtain ⟨names, hnames, hget⟩ := @addNames_ok b.values [] hs.names fun r _ => rfl
  have hinputs := @addInputs_ok b b.inputs { names := names } rfl
    (by simpa using (List.nodup_append.1 hs.definedOnce).1)
    fun id hid => hv id (List.mem_append_left _ hid)
  obtain ⟨x, hops, hx, hxnames⟩ := (Underway.start hs.registered).addOps (by simpa using hs.scopes)
  have hfind : b.outputs.find? (!x.isDefined ·) = none := by
    rw [List.find?_eq_none]
    intro id hmem
    simp [hx.isDefined.2 (hs.outputsDefined id hmem)]
  refine ⟨{ x with
    nextValue := nextFree (b.values.map (·.id.index))
    nextOp := nextFree (b.operations.map (·.id.index)) },
    ⟨hx.positions, hx.producers, hx.users, hx.usersOnce, hx.inputs⟩, fun name value => ?_, fun r hr => ?_, fun o ho => ?_,
    ?_, ?_⟩
  · show x.names.get? name = some value ↔ _
    rw [hxnames, hget]
    simp [Table.get?]
  · exact lt_nextFree (List.mem_map_of_mem (f := (·.id.index)) hr)
  · exact lt_nextFree (List.mem_map_of_mem (f := (·.id.index)) ho)
  · rw [admits_nextFree, admits_nextFree, List.forall_mem_map, List.forall_mem_map]
    exact ⟨fun h => ⟨h.1, h.2⟩, fun h => ⟨h.values, h.operations⟩⟩
  · rw [build, hnames]
    show addInputs b b.inputs { names := names } >>= _ = _
    rw [hinputs]
    show addOps b 0 b.operations { names := names, inputs := b.inputs } >>= _ = _
    rw [show addOps b 0 b.operations { names := names, inputs := b.inputs } = .ok x from hops]
    simp only [bind, Except.bind, hfind]
    rfl

/-- A sound block has an index that agrees with it, if ids are free. -/
theorem exists_build [IdSpace] {b : Block} (hs : b.Sound) (hids : b.HasFreeIds) : ∃ x, build b = .ok x ∧ x.Agrees b := by
  obtain ⟨x, hcovers, hnames, hvalue, hop, hfree, hbuild⟩ := build_eq hs
  have hadmits := hfree.2 hids
  refine ⟨x, ?_, hcovers, hnames, hvalue, hop, hadmits⟩
  rw [hbuild, if_pos (by rw [hadmits.1, hadmits.2]; rfl)]

theorem build_overflow [IdSpace] {b : Block} (hs : b.Sound) (hids : ¬b.HasFreeIds) :
    build b = .error (.crash .overflow) := by
  obtain ⟨x, _, _, _, _, hfree, hbuild⟩ := build_eq hs
  rw [hbuild, if_neg]
  rw [Bool.and_eq_true, hfree]
  exact hids

/-- Ids are free in a block that an index agrees with. -/
theorem Agrees.hasFreeIds [IdSpace] {x : UseIndex} {b : Block} (h : x.Agrees b) : b.HasFreeIds :=
  ⟨fun r hr => IdSpace.admits_of_le (h.nextValue r hr) h.free.1, fun o ho => IdSpace.admits_of_le (h.nextOp o ho) h.free.2⟩

end UseIndex

end Relayout
