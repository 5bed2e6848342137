import Relayout.DeadCode
import Relayout.Proofs.Evaluation
import Relayout.Proofs.Index

/-!
# Live operations

An operation is needed if it is custom, or if it leads to a value that is returned or read by a custom operation, where each
operation leads to those that read its results. The search from such values marks what can be reached from them
(`mem_markLive`), so an operation is needed if and only if it is custom or has a result that is marked
(`Sound.needed_iff_live`).

What is needed reads only results of what is needed. So a sound block is sound without its dead operations
(`Sound.withoutDead`), and an assignment of tensors under which all operations hold is one for those that are left
(`eraseDead_evaluate`).
-/

namespace Relayout.Block

/-! ## The search -/

section Search

variable {defs : Table ValueId Operation} {stack live : List ValueId}

/-- The operation that defines the first value reads the second. -/
def Needs (defs : Table ValueId Operation) (v w : ValueId) : Prop :=
  ∃ op, defs.get? v = some op ∧ w ∈ op.inputs

theorem subset_markLive (defs : Table ValueId Operation) (stack live : List ValueId) :
    live ⊆ markLive defs stack live ∧ stack ⊆ markLive defs stack live := by
  fun_induction markLive defs stack live with
  | case1 live => exact ⟨fun v hv => hv, List.nil_subset _⟩
  | case2 v stack live hlive ih =>
    exact ⟨ih.1, List.cons_subset.2 ⟨ih.1 (List.contains_iff_mem.1 hlive), ih.2⟩⟩
  | case3 v stack live _ _ _ ih =>
    obtain ⟨hv, hlive⟩ := List.cons_subset.1 ih.1
    exact ⟨hlive, List.cons_subset.2 ⟨hv, ih.2⟩⟩
  | case4 v stack live _ op _ _ ih =>
    obtain ⟨hv, hlive⟩ := List.cons_subset.1 ih.1
    exact ⟨hlive, List.cons_subset.2 ⟨hv, fun w hw => ih.2 (List.mem_append_right _ hw)⟩⟩

/-- Only what the stack leads to gets marked. -/
theorem reached_of_mem_markLive {w : ValueId} (h : w ∈ markLive defs stack live) :
    w ∈ live ∨ ∃ v ∈ stack, Relation.ReflTransGen (Needs defs) v w := by
  fun_induction markLive defs stack live with
  | case1 live => exact .inl h
  | case2 v stack live _ ih =>
    obtain hw | ⟨u, hu, hpath⟩ := ih h
    · exact .inl hw
    · exact .inr ⟨u, List.mem_cons_of_mem _ hu, hpath⟩
  | case3 v stack live _ _ _ ih =>
    obtain hw | ⟨u, hu, hpath⟩ := ih h
    · obtain rfl | hw := List.mem_cons.1 hw
      · exact .inr ⟨w, List.mem_cons_self, .refl⟩
      · exact .inl hw
    · exact .inr ⟨u, List.mem_cons_of_mem _ hu, hpath⟩
  | case4 v stack live _ op hop _ ih =>
    obtain hw | ⟨u, hu, hpath⟩ := ih h
    · obtain rfl | hw := List.mem_cons.1 hw
      · exact .inr ⟨w, List.mem_cons_self, .refl⟩
      · exact .inl hw
    · obtain hu | hu := List.mem_append.1 hu
      · exact .inr ⟨v, List.mem_cons_self, .head ⟨op, hop, List.mem_reverse.1 hu⟩ hpath⟩
      · exact .inr ⟨u, List.mem_cons_of_mem _ hu, hpath⟩

/-- What a marked value needs is marked in the end, if it is marked or on the stack at the start. -/
theorem markLive_closed (h : ∀ v ∈ live, ∀ w, Needs defs v w → w ∈ live ∨ w ∈ stack) {v w : ValueId}
    (hv : v ∈ markLive defs stack live) (hneeds : Needs defs v w) : w ∈ markLive defs stack live := by
  fun_induction markLive defs stack live with
  | case1 live => exact (h v hv w hneeds).resolve_right List.not_mem_nil
  | case2 u stack live hlive ih =>
    refine ih (fun x hx y hxy => ?_) hv
    obtain hy | hy := h x hx y hxy
    · exact .inl hy
    · obtain rfl | hy := List.mem_cons.1 hy
      · exact .inl (List.contains_iff_mem.1 hlive)
      · exact .inr hy
  | case3 u stack live _ hnone _ ih =>
    refine ih (fun x hx y hxy => ?_) hv
    obtain rfl | hx := List.mem_cons.1 hx
    · obtain ⟨op, hop, _⟩ := hxy
      rw [hnone] at hop
      cases hop
    · obtain hy | hy := h x hx y hxy
      · exact .inl (List.mem_cons_of_mem _ hy)
      · obtain rfl | hy := List.mem_cons.1 hy
        · exact .inl List.mem_cons_self
        · exact .inr hy
  | case4 u stack live _ op hop _ ih =>
    refine ih (fun x hx y hxy => ?_) hv
    obtain rfl | hx := List.mem_cons.1 hx
    · obtain ⟨op', hop', hy⟩ := hxy
      rw [hop] at hop'
      cases hop'
      exact .inr (List.mem_append_left _ (List.mem_reverse.2 hy))
    · obtain hy | hy := h x hx y hxy
      · exact .inl (List.mem_cons_of_mem _ hy)
      · obtain rfl | hy := List.mem_cons.1 hy
        · exact .inl List.mem_cons_self
        · exact .inr (List.mem_append_right _ hy)

/-- The search marks what the stack leads to. -/
theorem mem_markLive {w : ValueId} : w ∈ markLive defs stack [] ↔ ∃ v ∈ stack, Relation.ReflTransGen (Needs defs) v w := by
  constructor
  · exact fun h => (reached_of_mem_markLive h).resolve_left List.not_mem_nil
  · rintro ⟨v, hv, hpath⟩
    induction hpath with
    | refl => exact (subset_markLive defs stack []).2 hv
    | tail _ hneeds ih => exact markLive_closed (fun _ hx => by cases hx) ih hneeds

end Search

/-! ## What is needed -/

variable {b : Block} {o p : Operation} {v : ValueId}

/-- One operation of the block reads a result of another. -/
def Feeds (b : Block) (o p : Operation) : Prop :=
  o ∈ b.operations ∧ p ∈ b.operations ∧ ∃ v ∈ o.outputs, v ∈ p.inputs

/-- The block returns the value, or a custom operation reads it. -/
def Demands (b : Block) (v : ValueId) : Prop :=
  v ∈ b.outputs ∨ ∃ o ∈ b.operations, o.kind.isCustom ∧ v ∈ o.inputs

/-- The operation is custom, or a path from it leads to one that defines a demanded value. -/
def Needed (b : Block) (o : Operation) : Prop :=
  o.kind.isCustom ∨ ∃ p, Relation.ReflTransGen b.Feeds o p ∧ ∃ v ∈ p.outputs, b.Demands v

theorem needed_of_demands (hv : v ∈ o.outputs) (h : b.Demands v) : b.Needed o :=
  .inr ⟨o, .refl, v, hv, h⟩

/-- What defines an operand of something needed is needed. -/
theorem Needed.of_feeds (h : b.Needed p) (hfeeds : b.Feeds o p) : b.Needed o := by
  obtain ⟨_, hp, v, hv, hin⟩ := id hfeeds
  obtain hcustom | ⟨q, hpath, hdemand⟩ := h
  · exact needed_of_demands hv (.inr ⟨p, hp, hcustom, hin⟩)
  · exact .inr ⟨q, .head hfeeds hpath, hdemand⟩

theorem Sound.definitions_eq_some (hs : b.Sound) :
    b.definitions.get? v = some o ↔ o ∈ b.operations ∧ v ∈ o.outputs := by
  have heq : b.definitions =
      (b.operations.flatMap fun op => op.outputs.map (·, op)).foldl (fun t e => Table.put t e.1 e.2) [] := by
    simp only [definitions, List.foldl_flatMap, List.foldl_map]
  have hkeys : (b.operations.flatMap fun op => op.outputs.map (·, op)).map (·.1) = results b.operations := by
    simp [results, List.map_flatMap, Function.comp_def]
  have hnd : ((b.operations.flatMap fun op => op.outputs.map (·, op)).map (·.1)).Nodup := by
    rw [hkeys]
    exact (List.nodup_append.1 hs.definedOnce).2.1
  rw [heq, Table.get?_foldl_put hnd]
  simp [Table.get?]

theorem Sound.needs_iff (hs : b.Sound) {w : ValueId} :
    Needs b.definitions v w ↔ ∃ o ∈ b.operations, v ∈ o.outputs ∧ w ∈ o.inputs := by
  simp only [Needs, hs.definitions_eq_some, and_assoc]

theorem mem_liveValues : v ∈ b.liveValues ↔ ∃ u, b.Demands u ∧ Relation.ReflTransGen (Needs b.definitions) u v := by
  rw [liveValues, mem_markLive]
  simp [Demands, and_assoc, or_comm]

/-- What the search marks is what decides whether an operation is needed. -/
theorem Sound.needed_iff_live (hs : b.Sound) (ho : o ∈ b.operations) :
    b.Needed o ↔ o.kind.isCustom ∨ ∃ v ∈ o.outputs, v ∈ b.liveValues := by
  refine or_congr_right ⟨?_, ?_⟩
  · rintro ⟨q, hpath, v, hv, hdemand⟩
    induction hpath using Relation.ReflTransGen.head_induction_on with
    | refl => exact ⟨v, hv, mem_liveValues.2 ⟨v, hdemand, .refl⟩⟩
    | head hfeeds _ ih =>
      obtain ⟨_, hp, w, hw, hin⟩ := hfeeds
      obtain ⟨u, hu, hlive⟩ := ih hp
      obtain ⟨x, hx, hreach⟩ := mem_liveValues.1 hlive
      exact ⟨w, hw, mem_liveValues.2 ⟨x, hx, hreach.tail (hs.needs_iff.2 ⟨_, hp, hu, hin⟩)⟩⟩
  · rintro ⟨v, hv, hlive⟩
    obtain ⟨u, hu, hreach⟩ := mem_liveValues.1 hlive
    induction hreach generalizing o with
    | refl => exact ⟨o, .refl, u, hv, hu⟩
    | tail _ hneeds ih =>
      obtain ⟨p, hp, hout, hin⟩ := hs.needs_iff.1 hneeds
      obtain ⟨q, hpath, hdemand⟩ := ih hp hout (mem_liveValues.2 ⟨u, hu, ‹_›⟩)
      exact ⟨q, .head ⟨ho, hp, _, hv, hin⟩ hpath, hdemand⟩

/-! ## Without dead operations -/

theorem withoutDead_inputs : b.withoutDead.inputs = b.inputs := by
  unfold withoutDead
  dsimp only
  split <;> rfl

theorem withoutDead_outputs : b.withoutDead.outputs = b.outputs := by
  unfold withoutDead
  dsimp only
  split <;> rfl

open Classical in
/-- The operations that are needed are left. -/
theorem Sound.withoutDead_operations (hs : b.Sound) : b.withoutDead.operations = b.operations.filter (b.Needed ·) := by
  have hops : b.withoutDead.operations =
      b.operations.filter fun op => op.kind.isCustom || op.outputs.any b.liveValues.contains := by
    unfold withoutDead
    dsimp only
    split <;> rfl
  rw [hops]
  refine List.filter_congr fun op hop => ?_
  rw [Bool.eq_iff_iff, decide_eq_true_iff, hs.needed_iff_live hop]
  simp

theorem Sound.mem_withoutDead (hs : b.Sound) : o ∈ b.withoutDead.operations ↔ o ∈ b.operations ∧ b.Needed o := by
  classical
  rw [hs.withoutDead_operations]
  simp

theorem Sound.withoutDead_sublist (hs : b.Sound) : b.withoutDead.operations.Sublist b.operations := by
  classical
  rw [hs.withoutDead_operations]
  exact List.filter_sublist

/-- The records of what is still defined are left. -/
theorem Sound.withoutDead_values (hs : b.Sound) :
    b.withoutDead.values = b.values.filter (b.withoutDead.defined.contains ·.id) := by
  by_cases hlt : b.withoutDead.operations.length < b.operations.length
  · unfold withoutDead at hlt ⊢
    dsimp only at hlt ⊢
    split at hlt
    · rename_i h
      rw [if_pos h]
      rfl
    · rename_i h
      exact absurd hlt h
  · have hops : b.withoutDead.operations = b.operations :=
      hs.withoutDead_sublist.eq_of_length_le (Nat.le_of_not_lt hlt)
    have hall : b.values.filter (b.withoutDead.defined.contains ·.id) = b.values := by
      refine List.filter_eq_self.2 fun r hr => ?_
      rw [List.contains_iff_mem, defined_eq, withoutDead_inputs, hops]
      exact (hs.recorded r.id).2 (List.mem_map_of_mem hr)
    rw [hall]
    unfold withoutDead at hlt ⊢
    dsimp only at hlt ⊢
    split at hlt
    · rename_i h
      exact absurd h hlt
    · rename_i h
      rw [if_neg h]

theorem Sound.defined_withoutDead (hs : b.Sound) : b.withoutDead.defined.Sublist b.defined := by
  rw [defined_eq, defined_eq, withoutDead_inputs]
  exact (hs.withoutDead_sublist.flatMap _).append_left _

theorem Sound.type?_withoutDead (hs : b.Sound) {v : ValueId} (hv : v ∈ b.withoutDead.defined) :
    b.withoutDead.type? v = b.type? v := by
  have hvalue : b.withoutDead.value? v = b.value? v := by
    rw [value?, value?, hs.withoutDead_values, Records.find?, Records.find?, List.find?_filter]
    refine List.find?_congr fun r _ => ?_
    by_cases hr : r.id = v
    · simp [hr, hv]
    · simp [hr]
  rw [type?, type?, hvalue]

/-- Operations that stay have their operands in scope if what defines an operand of one that stays does, too. Of the two
scopes, the second may lack what none of them reads. -/
theorem scoped_filter {P : Operation → Bool} {ops : List Operation} {scope scope' : List ValueId}
    (hclosed : ∀ p ∈ ops, P p → ∀ v ∈ p.inputs, ∀ o ∈ ops, v ∈ o.outputs → P o)
    (hread : ∀ p ∈ ops, P p → ∀ v ∈ p.inputs, v ∈ scope → v ∈ scope') (h : Scoped scope ops) :
    Scoped scope' (ops.filter P) := by
  induction ops generalizing scope scope' with
  | nil => trivial
  | cons o ops ih =>
    obtain ⟨hinputs, hrest⟩ := h
    have hclosed' : ∀ p ∈ ops, P p → ∀ v ∈ p.inputs, ∀ o ∈ ops, v ∈ o.outputs → P o := fun p hp hP v hv q hq =>
      hclosed p (List.mem_cons_of_mem _ hp) hP v hv q (List.mem_cons_of_mem _ hq)
    have hread' : ∀ p ∈ ops, P p → ∀ v ∈ p.inputs, v ∈ scope → v ∈ scope' := fun p hp =>
      hread p (List.mem_cons_of_mem _ hp)
    by_cases hP : P o
    · rw [List.filter_cons_of_pos hP]
      refine ⟨fun v hv => hread o List.mem_cons_self hP v hv (hinputs v hv), ih hclosed' (fun p hp hPp v hv hin => ?_) hrest⟩
      exact (List.mem_append.1 hin).elim (fun hin => List.mem_append_left _ (hread' p hp hPp v hv hin))
        (List.mem_append_right _)
    · -- No result of an operation that goes is read, so it never has to come into scope.
      rw [List.filter_cons_of_neg hP]
      refine ih hclosed' (fun p hp hPp v hv hin => ?_) hrest
      obtain hin | hin := List.mem_append.1 hin
      · exact hread' p hp hPp v hv hin
      · exact absurd (hclosed p (List.mem_cons_of_mem _ hp) hPp v hv o List.mem_cons_self hin) hP

theorem Sound.withoutDead (h : b.Sound) : b.withoutDead.Sound := by
  classical
  have hvalues : b.withoutDead.values.Sublist b.values := by
    rw [h.withoutDead_values]
    exact List.filter_sublist
  exact
    { sorted := h.sorted.sublist hvalues
      names := h.names.sublist (hvalues.map _)
      definedOnce := h.definedOnce.sublist h.defined_withoutDead
      recorded := fun v => by
        rw [h.withoutDead_values, List.mem_map]
        constructor
        · intro hv
          obtain ⟨r, hr, rfl⟩ := List.mem_map.1 ((h.recorded v).1 (h.defined_withoutDead.subset hv))
          exact ⟨r, List.mem_filter.2 ⟨hr, by simpa using hv⟩, rfl⟩
        · rintro ⟨r, hr, rfl⟩
          simpa using (List.mem_filter.1 hr).2
      opsOnce := h.opsOnce.sublist (h.withoutDead_sublist.map _)
      scopes := by
        rw [h.withoutDead_operations, withoutDead_inputs]
        refine scoped_filter (fun p hp hneeded v hv o ho hout => ?_) (fun _ _ _ _ _ hin => hin) h.scopes
        exact decide_eq_true ((of_decide_eq_true hneeded).of_feeds ⟨ho, hp, v, hout, hv⟩)
      outputsDefined := fun v hv => by
        rw [withoutDead_outputs] at hv
        rw [mem_defined, withoutDead_inputs]
        refine (mem_defined.1 (h.outputsDefined v hv)).imp_right ?_
        rintro ⟨o, ho, hout⟩
        exact ⟨o, h.mem_withoutDead.2 ⟨ho, needed_of_demands hout (.inl hv)⟩, hout⟩ }

section Tensors

variable {α : Type} [Kernels α] {inputs outs : List (Tensor α)}

theorem Evaluates.withoutDead (hs : b.Sound) {tensor : ValueId → Tensor α} (h : b.Evaluates inputs tensor) :
    b.withoutDead.Evaluates inputs tensor where
  inputs_eq := by rw [withoutDead_inputs, h.inputs_eq]
  fits v hv := by
    rw [hs.type?_withoutDead (mem_defined.2 (.inl hv))]
    exact h.fits v (withoutDead_inputs ▸ hv)
  ops o ho := h.ops o (hs.withoutDead_sublist.subset ho)

/-- **Evaluation does not see that dead operations are gone.** -/
theorem eraseDead_evaluate (hc : b.check = .ok ()) (heval : b.evaluate inputs = .ok outs) :
    ∃ r b', b.eraseDead = .ok (r, b') ∧ b'.evaluate inputs = .ok outs := by
  have hs : b.Sound := (check_eq_ok.1 hc).1
  obtain ⟨tensor, hall, houts⟩ := (evaluate_eq_ok hs).1 heval
  refine ⟨_, b.withoutDead, by rw [eraseDead, hc], ?_⟩
  exact (evaluate_eq_ok hs.withoutDead).2 ⟨tensor, hall.withoutDead hs, by rw [withoutDead_outputs, houts]⟩

end Tensors

/-- Two of four operations are dead: the second reads an operand of a live one, the third reads only the second. -/
def idle : Block where
  name := "idle"
  inputs := [⟨0⟩]
  outputs := [⟨4⟩, ⟨0⟩]
  operations := [
    ⟨⟨0⟩, .unary .relu, [⟨0⟩], [⟨1⟩]⟩,
    ⟨⟨1⟩, .transpose [1, 0], [⟨1⟩], [⟨2⟩]⟩,
    ⟨⟨2⟩, .binary .add, [⟨2⟩, ⟨2⟩], [⟨3⟩]⟩,
    ⟨⟨3⟩, .binary .sub, [⟨1⟩, ⟨0⟩], [⟨4⟩]⟩]
  values := [
    ⟨⟨0⟩, "x", ⟨.f32, [.dynamic "n", .fixed 2]⟩⟩,
    ⟨⟨1⟩, "y", ⟨.f32, [.dynamic "n", .fixed 2]⟩⟩,
    ⟨⟨2⟩, "t", ⟨.f32, [.fixed 2, .dynamic "n"]⟩⟩,
    ⟨⟨3⟩, "u", ⟨.f32, [.fixed 2, .dynamic "n"]⟩⟩,
    ⟨⟨4⟩, "z", ⟨.f32, [.dynamic "n", .fixed 2]⟩⟩]

/-- An input of `idle`. -/
def idleInput : Tensor Float32 :=
  ⟨[1, 2], #[1, -1], rfl⟩

theorem idle_evaluate : let _ := Scalar.kernels id
    idle.check = .ok () ∧ idle.withoutDead.operations.map (·.id) = [⟨0⟩, ⟨3⟩] ∧
    ∃ outs, idle.evaluate [idleInput] = .ok outs ∧
      ∃ r b', idle.eraseDead = .ok (r, b') ∧ b'.evaluate [idleInput] = .ok outs := by
  let _ : Kernels Float32 := Scalar.kernels id
  have hc : idle.check = .ok () := by decide
  have hok : (idle.evaluate [idleInput]).isOk := by decide +kernel
  obtain ⟨outs, heval⟩ := exists_of_isOk hok
  exact ⟨hc, by cbv, outs, heval, eraseDead_evaluate hc heval⟩

end Relayout.Block
