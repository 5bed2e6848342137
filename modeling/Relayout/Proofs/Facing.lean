import Relayout.Proofs.Edits

/-!
# What a block shows

To the outside a block shows its inputs and outputs: which output slots hold the same value, which of them hold an input,
and what inputs and outputs are called. `Facing` says that a block under edits still shows what it showed before. Slots
that wait for a restored value are left out until it is there.

A slot is settled by one of two moves. All slots that hold a value get another one, which takes over its name
(`Facing.move`), or all slots that held a value before get a new one that takes back the name (`Facing.restore`). The
name of a value that is waited for is either still its own or free, since the names that edits make up are of a form of
their own (`Derived`). So an output with such a name is the only one that may come out with another.
-/

namespace Relayout

/-! ## Names -/

/-- Names that are made up for new values, and for values that hand on their names. -/
inductive Derived : String → Prop
  | suffixed (base : String) {suffix : String}
    (h : suffix ∈ ["_permuted", "_old", "_transposed", "_before_transpose"]) : Derived (base ++ suffix)
  | numbered {name : String} (k : Nat) (h : Derived name) : Derived (numbered name k)

theorem Derived.four_le_length {name : String} (h : Derived name) : 4 ≤ name.length := by
  induction h with
  | suffixed base h =>
    rw [String.length_append]
    simp only [List.mem_cons, List.not_mem_nil, or_false] at h
    rcases h with rfl | rfl | rfl | rfl
    · exact Nat.le_trans (by decide : 4 ≤ "_permuted".length) (Nat.le_add_left _ _)
    · exact Nat.le_trans (by decide : 4 ≤ "_old".length) (Nat.le_add_left _ _)
    · exact Nat.le_trans (by decide : 4 ≤ "_transposed".length) (Nat.le_add_left _ _)
    · exact Nat.le_trans (by decide : 4 ≤ "_before_transpose".length) (Nat.le_add_left _ _)
  | numbered k h ih =>
    rw [Relayout.numbered, String.length_append, String.length_append]
    omega

theorem Derived.freshName {name : String} (h : Derived name) (s : Editor) : Derived (s.freshName name) := by
  rcases freshName_eq (s.index.names.map (·.1)) name with he | ⟨k, he⟩
  · rw [Editor.freshName, he]
    exact h
  · rw [Editor.freshName, he]
    exact .numbered k h

namespace Block

variable {b : Block} {l r : List Operation} {new : Operation} {u v w : ValueId} {n name : String} {type : TensorType}

theorem mem_of_name? (h : b.name? v = some n) : n ∈ b.values.map (·.name) := by
  obtain ⟨r, hr, rfl⟩ := Option.map_eq_some_iff.1 h
  exact List.mem_map_of_mem (f := (·.name)) (mem_of_value? hr).1

/-- Names tell values apart. -/
theorem Sound.name?_inj (hs : b.Sound) (hu : b.name? u = some n) (hv : b.name? v = some n) : u = v := by
  obtain ⟨r, hr, rfl⟩ := Option.map_eq_some_iff.1 hu
  obtain ⟨t, ht, he⟩ := Option.map_eq_some_iff.1 hv
  obtain ⟨hr', rfl⟩ := mem_of_value? hr
  obtain ⟨ht', rfl⟩ := mem_of_value? ht
  rw [List.inj_on_of_nodup_map hs.names ht' hr' he]

theorem Sound.exists_name (hs : b.Sound) (hv : v ∈ b.defined) : ∃ n, b.name? v = some n := by
  obtain ⟨r, hr⟩ := hs.exists_value hv
  exact ⟨r.name, by rw [name?, hr]; rfl⟩

theorem name?_setName (b : Block) (id v : ValueId) (name : String) :
    (b.setName id name).name? v = (b.name? v).map fun n => if v = id then name else n := by
  rw [name?, value?_setName, name?, Option.map_map, Option.map_map]
  congr 1
  funext r
  simp only [Function.comp]
  split <;> rfl

theorem name?_rewired (b : Block) (ops : List Operation) (outputs : List ValueId) (v : ValueId) :
    (b.rewired ops outputs).name? v = b.name? v := rfl

theorem defined_substitute (b : Block) (y v : ValueId) : (b.substitute y v).defined = b.defined := by
  rw [defined_eq, defined_eq, substitute, rewired_operations]
  congr 1
  exact results_of_defines (by simp [Operation.defines, Operation.substitute, Function.comp_def])

/-- A new value has its name, and all others theirs. -/
theorem name?_withOp (hs : b.Sound) (hnew : new.outputs = [w]) (hw : w ∉ b.defined) (v : ValueId) :
    (b.withOp l r new [(name, type)]).name? v = if v = w then some name else b.name? v := by
  have hnone : b.values.find? (·.id == w) = none := by
    rw [List.find?_eq_none]
    intro t ht he
    exact hw ((hs.recorded w).2 (List.mem_map.2 ⟨t, ht, by simpa using he⟩))
  simp only [name?, value?, Records.find?, withOp, List.find?_append, hnew]
  split
  · rename_i he
    rw [he, hnone]
    simp [newRecords]
  · rename_i hne
    simp [newRecords, Ne.symm hne]

end Block

/-! ## Facing -/

/-- Outputs stay, and so do names, but for new ones that are made up. -/
structure Steady (c c' : Block) : Prop where
  outputs : c'.outputs = c.outputs
  names : ∀ v n, c.name? v = some n → c'.name? v = some n
  derived : ∀ v n, c'.name? v = some n → Derived n ∨ c.name? v = some n

namespace Steady

variable {c c' c'' : Block} {l r ops : List Operation} {new : Operation} {v w y : ValueId} {name : String}
  {type : TensorType}

theorem refl (c : Block) : Steady c c :=
  ⟨rfl, fun _ _ h => h, fun _ _ h => .inr h⟩

theorem trans (h : Steady c c') (h' : Steady c' c'') : Steady c c'' where
  outputs := h'.outputs.trans h.outputs
  names v n hn := h'.names v n (h.names v n hn)
  derived v n hn := by
    rcases h'.derived v n hn with hd | hn
    · exact .inl hd
    · exact h.derived v n hn

theorem rewired (c : Block) (ops : List Operation) : Steady c (c.rewired ops c.outputs) :=
  ⟨rfl, fun _ _ h => h, fun _ _ h => .inr h⟩

theorem withOp (hs : c.Sound) (hnew : new.outputs = [w]) (hw : w ∉ c.defined) (hd : Derived name) :
    Steady c (c.withOp l r new [(name, type)]) where
  outputs := rfl
  names v n hn := by
    have hne : v ≠ w := fun he => by
      obtain ⟨t, ht, _⟩ := Option.map_eq_some_iff.1 hn
      obtain ⟨hmem, hid⟩ := Block.mem_of_value? ht
      exact hw (he ▸ (hs.recorded v).2 (List.mem_map.2 ⟨t, hmem, hid⟩))
    rw [Block.name?_withOp hs hnew hw, if_neg hne, hn]
  derived v n hn := by
    rw [Block.name?_withOp hs hnew hw] at hn
    split at hn
    · rw [← Option.some.inj hn]
      exact .inl hd
    · exact .inr hn

theorem substitute (hy : y ∉ c.outputs) : Steady c (c.substitute y v) :=
  ⟨substitute_of_not_mem hy, fun _ _ h => h, fun _ _ h => .inr h⟩

end Steady

/-- A block under edits shows what the block before showed, but for the slots of values that are waited for. -/
structure Facing (b : Block) (waiting : List ValueId) (c : Block) : Prop where
  inputNames : ∀ x ∈ b.inputs, ∀ n, b.name? x = some n → c.name? x = some n
  distinct : ∀ (i j : Nat) v w, b.outputs[i]? = some v → b.outputs[j]? = some w → v ∉ waiting → w ∉ waiting →
    (c.outputs[i]? = c.outputs[j]? ↔ v = w)
  input : ∀ (i : Nat) v, b.outputs[i]? = some v → v ∉ waiting → ∀ x ∈ b.inputs, (c.outputs[i]? = some x ↔ v = x)
  names : ∀ (i : Nat) v n, b.outputs[i]? = some v → v ∉ waiting → b.name? v = some n → ¬Derived n →
    ∃ u, c.outputs[i]? = some u ∧ c.name? u = some n
  free : ∀ v ∈ waiting, ∀ n, b.name? v = some n → ¬Derived n → c.name? v = some n ∨ ∀ u, c.name? u ≠ some n

namespace Facing

variable {b c c' : Block} {waiting : List ValueId} {v w y z : ValueId}

theorem refl (b : Block) (waiting : List ValueId) : Facing b waiting b where
  inputNames _ _ _ h := h
  distinct i j v w hv hw _ _ := by rw [hv, hw, Option.some.injEq]
  input i v hv _ x _ := by rw [hv, Option.some.injEq]
  names i v n hv _ hn _ := ⟨v, hv, hn⟩
  free v _ n hn _ := .inl hn

/-- What is shown stays as it is along steady edits. -/
theorem steady (h : Facing b waiting c) (hc : Steady c c') : Facing b waiting c' where
  inputNames x hx n hn := hc.names x n (h.inputNames x hx n hn)
  distinct := by rw [hc.outputs]; exact h.distinct
  input := by rw [hc.outputs]; exact h.input
  names i v n hv hwait hn hd := by
    obtain ⟨u, hu, hun⟩ := h.names i v n hv hwait hn hd
    exact ⟨u, by rw [hc.outputs]; exact hu, hc.names u n hun⟩
  free v hv n hn hd := by
    rcases h.free v hv n hn hd with hfree | hfree
    · exact .inl (hc.names v n hfree)
    · refine .inr fun u hu => ?_
      rcases hc.derived u n hu with hd' | hu
      · exact hd hd'
      · exact hfree u hu

/-- All slots that hold a value get one that no settled slot holds, and that takes over the name. -/
theorem move (h : Facing b waiting c) (hs : c.Sound) (hy : y ∉ b.inputs) (hywait : y ∉ waiting) (hz : z ∉ b.inputs)
    (hne : y ≠ z)
    (hfresh : ∀ (i : Nat) v, b.outputs[i]? = some v → c.outputs[i]? = some z → v ∈ waiting)
    (houts : ∀ i : Nat, c'.outputs[i]? = (c.outputs[i]?).map fun v => if v = y then z else v)
    (hname : ∀ n, c.name? y = some n → c'.name? z = some n)
    (hold : ∀ v n, v ≠ y → v ≠ z → c.name? v = some n → c'.name? v = some n)
    (hnew : ∀ v n, c'.name? v = some n →
      Derived n ∨ v = z ∧ c.name? y = some n ∨ v ≠ z ∧ c.name? v = some n) : Facing b waiting c' := by
  -- a settled slot holds the other value afterwards if and only if it held the value before
  have hslot : ∀ (i : Nat) v, b.outputs[i]? = some v → v ∉ waiting → c.outputs[i]? ≠ some z := fun i v hv hwait hi =>
    hwait (hfresh i v hv hi)
  refine ⟨fun x hx n hn => ?_, fun i j v w hv hw hv' hw' => ?_, fun i v hv hwait x hx => ?_,
    fun i v n hv hwait hn hd => ?_, fun v hv n hn hd => ?_⟩
  · exact hold x n (fun he => hy (he ▸ hx)) (fun he => hz (he ▸ hx)) (h.inputNames x hx n hn)
  · rw [← h.distinct i j v w hv hw hv' hw', houts, houts]
    have hi := hslot i v hv hv'
    have hj := hslot j w hw hw'
    cases hci : c.outputs[i]? with
    | none => cases hcj : c.outputs[j]? <;> simp
    | some p =>
      cases hcj : c.outputs[j]? with
      | none => simp
      | some q =>
        rw [hci, ne_eq, Option.some.injEq] at hi
        rw [hcj, ne_eq, Option.some.injEq] at hj
        simp only [Option.map_some, Option.some.injEq]
        split <;> split <;> grind
  · rw [← h.input i v hv hwait x hx, houts]
    cases hci : c.outputs[i]? with
    | none => simp
    | some p =>
      simp only [Option.map_some, Option.some.injEq]
      split
      · rename_i he
        exact ⟨fun he' => absurd (he' ▸ hx) hz, fun he' => absurd (he ▸ he' ▸ hx) hy⟩
      · rfl
  · obtain ⟨u, hu, hun⟩ := h.names i v n hv hwait hn hd
    refine ⟨if u = y then z else u, by rw [houts, hu]; rfl, ?_⟩
    split
    · rename_i he
      exact hname n (he ▸ hun)
    · rename_i hne'
      exact hold u n hne' (fun he => hslot i v hv hwait (he ▸ hu)) hun
  · rcases h.free v hv n hn hd with hc | hc
    · by_cases hvz : v = z
      · -- the value has another name now, and its own is free
        refine .inr fun u hu => ?_
        rcases hnew u n hu with hd' | ⟨_, hyn⟩ | ⟨huz, hun⟩
        · exact hd hd'
        · exact hne (hs.name?_inj hyn (hvz ▸ hc))
        · exact huz (hs.name?_inj hun (hvz ▸ hc))
      · exact .inl (hold v n (fun he => hywait (he ▸ hv)) hvz hc)
    · refine .inr fun u hu => ?_
      rcases hnew u n hu with hd' | ⟨_, hyn⟩ | ⟨_, hun⟩
      · exact hd hd'
      · exact hc y hyn
      · exact hc u hun

/-- All slots that held a value before get a new one, which takes back the name unless that was made up. -/
theorem restore (h : Facing b (v :: waiting) c) (hs : b.Sound) (hv : v ∉ b.inputs) (hnot : v ∉ waiting) {n m : String}
    (hn : b.name? v = some n) (hw : w ∉ c.outputs) (hwin : w ∉ b.inputs)
    (houts : ∀ (i : Nat) u, b.outputs[i]? = some u → c'.outputs[i]? = if u = v then some w else c.outputs[i]?)
    (hname : c'.name? w = some m) (hm : (¬Derived n → m = n) ∧ (Derived n → Derived m))
    (hold : ∀ u k, (u = v → k ≠ n) → c.name? u = some k → c'.name? u = some k)
    (hnew : ∀ u k, c'.name? u = some k → Derived k ∨ k = m ∨ c.name? u = some k) : Facing b waiting c' := by
  have hkeep : ∀ {u}, u ∉ waiting → u ≠ v → u ∉ v :: waiting := fun hu hne => by
    rw [List.mem_cons, not_or]
    exact ⟨hne, hu⟩
  -- the new value is in no other slot
  have hslot : ∀ i : Nat, c.outputs[i]? ≠ some w := fun i hi => hw (List.mem_of_getElem? hi)
  refine ⟨fun x hx k hk => ?_, fun i j u p hu hp hu' hp' => ?_, fun i u hu hwait x hx => ?_,
    fun i u k hu hwait hk hd => ?_, fun u hu k hk hd => ?_⟩
  · exact hold x k (fun he => absurd (he ▸ hx) hv) (h.inputNames x hx k hk)
  · rw [houts i u hu, houts j p hp]
    by_cases huv : u = v
    · by_cases hpv : p = v
      · rw [if_pos huv, if_pos hpv]
        exact iff_of_true rfl (huv.trans hpv.symm)
      · rw [if_pos huv, if_neg hpv]
        exact ⟨fun he => absurd he.symm (hslot j), fun he => absurd (he.symm.trans huv) hpv⟩
    · by_cases hpv : p = v
      · rw [if_neg huv, if_pos hpv]
        exact ⟨fun he => absurd he (hslot i), fun he => absurd (he.trans hpv) huv⟩
      · rw [if_neg huv, if_neg hpv]
        exact h.distinct i j u p hu hp (hkeep hu' huv) (hkeep hp' hpv)
  · rw [houts i u hu]
    by_cases huv : u = v
    · rw [if_pos huv, Option.some.injEq]
      exact ⟨fun he => absurd (he ▸ hx) hwin, fun he => absurd (huv ▸ he ▸ hx) hv⟩
    · rw [if_neg huv]
      exact h.input i u hu (hkeep hwait huv) x hx
  · by_cases huv : u = v
    · have hkn : k = n := by
        rw [huv, hn] at hk
        exact (Option.some.inj hk).symm
      refine ⟨w, by rw [houts i u hu, if_pos huv], ?_⟩
      rw [hname, hm.1 (hkn ▸ hd), hkn]
    · obtain ⟨p, hp, hpk⟩ := h.names i u k hu (hkeep hwait huv) hk hd
      refine ⟨p, by rw [houts i u hu, if_neg huv, hp], hold p k (fun _ hkn => ?_) hpk⟩
      exact huv (hs.name?_inj hk (hkn ▸ hn))
  · have huv : u ≠ v := fun he => hnot (he ▸ hu)
    rcases h.free u (List.mem_cons_of_mem _ hu) k hk hd with hc | hc
    · exact .inl (hold u k (fun he => absurd he huv) hc)
    · refine .inr fun p hp => ?_
      rcases hnew p k hp with hd' | hkm | hp
      · exact hd hd'
      · by_cases hdn : Derived n
        · exact hd (hkm ▸ hm.2 hdn)
        · exact huv (hs.name?_inj hk ((hkm.trans (hm.1 hdn)) ▸ hn))
      · exact hc p hp

/-! ## Moves of edits -/

/-- A value takes over the name and the slots of another. -/
theorem take (h : Facing b waiting c) (hs : c.Sound) (hy : y ∉ b.inputs) (hywait : y ∉ waiting) (hz : z ∉ b.inputs)
    (hne : y ≠ z) (hfresh : ∀ (i : Nat) v, b.outputs[i]? = some v → c.outputs[i]? = some z → v ∈ waiting)
    {n m : String} (hn : c.name? y = some n) (hzdef : z ∈ c.defined) (hm : Derived m) :
    Facing b waiting (((c.setName y m).setName z n).substitute y z) := by
  obtain ⟨k, hk⟩ := hs.exists_name hzdef
  have hname : ∀ v, (((c.setName y m).setName z n).substitute y z).name? v =
      if v = z then some n else if v = y then some m else c.name? v := fun v => by
    show ((c.setName y m).setName z n).name? v = _
    rw [Block.name?_setName, Block.name?_setName]
    by_cases hvz : v = z
    · subst hvz
      simp [hk]
    · by_cases hvy : v = y
      · subst hvy
        simp [hn, hvz]
      · simp [hvz, hvy]
  refine h.move hs hy hywait hz hne hfresh (fun i => getElem?_substitute) (fun n' hn' => ?_) (fun v n' hvy hvz hv => ?_)
    fun v n' hv => ?_
  · rw [hname, if_pos rfl, ← hn, hn']
  · rw [hname, if_neg hvz, if_neg hvy, hv]
  · rw [hname] at hv
    split at hv
    · rename_i he
      exact .inr (.inl ⟨he, hn.trans hv⟩)
    · rename_i hvz
      split at hv
      · rw [← Option.some.inj hv]
        exact .inl hm
      · exact .inr (.inr ⟨hvz, hv⟩)

/-- A new value takes over the name and the slots of another. -/
theorem pass (h : Facing b waiting c) (hs : c.Sound) (hy : y ∉ b.inputs) (hywait : y ∉ waiting) (hwin : w ∉ b.inputs)
    (hydef : y ∈ c.defined) (hw : w ∉ c.defined) {n m : String} (hn : c.name? y = some n) (hm : Derived m)
    {slots : List Nat} (hslots : ∀ i, i ∈ slots ↔ c.outputs[i]? = some y) {ops l r : List Operation} {new : Operation}
    {type : TensorType} (hnew : new.outputs = [w]) (hs' : ((c.substitute y z).setName y m).Sound) :
    Facing b waiting ((((c.substitute y z).setName y m).withOp l r new [(n, type)]).rewired ops
      (setAll w slots (c.substitute y z).outputs)) := by
  have hname : ∀ v, ((((c.substitute y z).setName y m).withOp l r new [(n, type)]).rewired ops
      (setAll w slots (c.substitute y z).outputs)).name? v =
        if v = w then some n else if v = y then some m else c.name? v := fun v => by
    rw [Block.name?_rewired, Block.name?_withOp hs' hnew (c.defined_substitute y z ▸ hw), Block.name?_setName]
    show (if v = w then some n else (c.name? v).map _) = _
    by_cases hvy : v = y
    · subst hvy
      simp [hn]
    · simp [hvy]
  have hne : y ≠ w := fun he => hw (he ▸ hydef)
  have hout : ∀ i : Nat, c.outputs[i]? ≠ some w := fun i hi => hw (hs.outputsDefined w (List.mem_of_getElem? hi))
  refine h.move hs hy hywait hwin hne (fun i v _ hi => absurd hi (hout i)) (fun i => ?_) (fun n' hn' => ?_)
    (fun v n' hvy hvw hv => ?_) fun v n' hv => ?_
  · rw [Block.rewired_outputs]
    by_cases hlt : i < (c.substitute y z).outputs.length
    · rw [getElem?_setAll hlt]
      split
      · rename_i hi
        rw [(hslots i).1 hi]
        simp
      · rename_i hi
        rw [Block.substitute, Block.rewired_outputs, getElem?_substitute]
        cases hci : c.outputs[i]? with
        | none => rfl
        | some v =>
          have hvy : v ≠ y := fun he => hi ((hslots i).2 (he ▸ hci))
          simp [hvy]
    · have hlt' : ¬i < c.outputs.length := by
        simpa [Block.substitute, Editor.substitute] using hlt
      rw [List.getElem?_eq_none (by simpa using hlt), List.getElem?_eq_none (Nat.le_of_not_lt hlt')]
      rfl
  · rw [hname, if_pos rfl, ← hn, hn']
  · rw [hname, if_neg hvw, if_neg hvy, hv]
  · rw [hname] at hv
    split at hv
    · rename_i he
      exact .inr (.inl ⟨he, hn.trans hv⟩)
    · rename_i hvw
      split at hv
      · rw [← Option.some.inj hv]
        exact .inl hm
      · exact .inr (.inr ⟨hvw, hv⟩)

end Facing

/-- A value has given up a name, and nothing else has changed. -/
structure Released (c : Block) (v : ValueId) (n : String) (c' : Block) : Prop where
  outputs : c'.outputs = c.outputs
  names : ∀ u k, (u = v → k ≠ n) → c.name? u = some k → c'.name? u = some k
  derived : ∀ u k, c'.name? u = some k → Derived k ∨ c.name? u = some k
  own : c'.name? v ≠ some n

section Released

variable {b c c' : Block} {waiting : List ValueId} {v w : ValueId} {n m : String}

theorem Released.of_ne (h : c.name? v ≠ some n) : Released c v n c :=
  ⟨rfl, fun _ _ _ h => h, fun _ _ h => .inr h, h⟩

theorem Released.rename (hn : c.name? v = some n) (hm : Derived m) (hfree : m ∉ c.values.map (·.name)) :
    Released c v n (c.setName v m) where
  outputs := rfl
  names u k huk hu := by
    have hne : u ≠ v := fun he => huk he (Option.some.inj (hu.symm.trans (he ▸ hn)))
    rw [Block.name?_setName, hu, Option.map_some, if_neg hne]
  derived u k hu := by
    rw [Block.name?_setName] at hu
    obtain ⟨k', hk', rfl⟩ := Option.map_eq_some_iff.1 hu
    split
    · exact .inl hm
    · exact .inr hk'
  own h := by
    rw [Block.name?_setName, hn, Option.map_some, if_pos rfl, Option.some.injEq] at h
    exact hfree (h ▸ Block.mem_of_name? hn)

/-- The name of a value that is waited for is free once it has given it up. -/
theorem Facing.freed (h : Facing b (v :: waiting) c) (hn : b.name? v = some n) (hr : Released c v n c') (hs : c.Sound)
    (hs' : c'.Sound) (hd : ¬Derived n) : n ∉ c'.values.map (·.name) := by
  intro hmem
  obtain ⟨t, ht, rfl⟩ := List.mem_map.1 hmem
  have hname : c'.name? t.id = some t.name := by
    rw [Block.name?, (Block.value?_eq_some hs'.sorted).2 ⟨ht, rfl⟩]
    rfl
  rcases hr.derived _ _ hname with hd' | hc
  · exact hd hd'
  · rcases h.free v List.mem_cons_self _ hn hd with hfree | hfree
    · exact hr.own (hs.name?_inj hfree hc ▸ hname)
    · exact hfree _ hc

/-- A new value comes into all slots that held a value before. -/
theorem Facing.restoreOutputs (h : Facing b (v :: waiting) c) (hn : b.name? v = some n) (hr : Released c v n c')
    (hb : b.Sound) (hs' : c'.Sound) (hvin : v ∉ b.inputs) (hnot : v ∉ waiting)
    (hlen : c'.outputs.length = b.outputs.length) (hm : (¬Derived n → m = n) ∧ (Derived n → Derived m))
    (hw : w ∉ c'.defined) (hwin : w ∉ b.inputs) {slots : List Nat} (hslots : ∀ i, i ∈ slots ↔ b.outputs[i]? = some v)
    {ops l r : List Operation} {new : Operation} {type : TensorType} (hnew : new.outputs = [w]) :
    Facing b waiting ((c'.withOp l r new [(m, type)]).rewired ops (setAll w slots c'.outputs)) := by
  have hname : ∀ u, ((c'.withOp l r new [(m, type)]).rewired ops (setAll w slots c'.outputs)).name? u =
      if u = w then some m else c'.name? u := fun u => by
    rw [Block.name?_rewired, Block.name?_withOp hs' hnew hw]
  have hnone : c'.name? w = none := by
    rw [Block.name?, Option.map_eq_none_iff, ← Option.not_isSome_iff_eq_none, Block.value?_isSome]
    exact fun hmem => hw ((hs'.recorded w).2 hmem)
  refine h.restore hb hvin hnot hn ?_ hwin (fun i u hu => ?_) (by rw [hname, if_pos rfl]) hm (fun u k huk hu => ?_)
    fun u k hu => ?_
  · rw [← hr.outputs]
    exact fun hmem => hw (hs'.outputsDefined w hmem)
  · have hlt : i < c'.outputs.length := by
      rw [hlen]
      exact (List.getElem?_eq_some_iff.1 hu).1
    rw [Block.rewired_outputs, getElem?_setAll hlt, hr.outputs]
    simp only [hslots, hu, Option.some.injEq]
  · have hu' := hr.names u k huk hu
    have hne : u ≠ w := fun he => by
      rw [he, hnone] at hu'
      cases hu'
    rw [hname, if_neg hne, hu']
  · rw [hname] at hu
    split at hu
    · exact .inr (.inl (Option.some.inj hu).symm)
    · rcases hr.derived u k hu with hd | hu
      · exact .inl hd
      · exact .inr (.inr hu)

end Released

end Relayout
