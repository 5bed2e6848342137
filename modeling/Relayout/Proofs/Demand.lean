import Relayout.Proofs.Liveness

/-!
# What is needed

Removal of dead code keeps what is needed and nothing else, with the records of inputs and of what needed operations define.
All operations on a path from something needed are needed, so what is left of a block is needed in what is left
(`Sound.needed_withoutDead`), and a second removal finds nothing to do (`eraseDead_exact`).
-/

namespace Relayout.Block

variable {b : Block} {o : Operation}

open Classical in
theorem Sound.withoutDead_eq (hs : b.Sound) : b.withoutDead = { b with
    operations := b.operations.filter (b.Needed ·)
    values := b.values.filter fun t => t.id ∈ b.inputs ∨ ∃ o ∈ b.operations, b.Needed o ∧ t.id ∈ o.outputs } := by
  have hvalues : b.withoutDead.values =
      b.values.filter fun t => t.id ∈ b.inputs ∨ ∃ o ∈ b.operations, b.Needed o ∧ t.id ∈ o.outputs := by
    rw [hs.withoutDead_values]
    refine List.filter_congr fun t _ => ?_
    rw [Bool.eq_iff_iff, List.contains_iff_mem, mem_defined, withoutDead_inputs, decide_eq_true_iff]
    simp only [hs.mem_withoutDead, and_assoc]
  rw [← hs.withoutDead_operations, ← hvalues]
  unfold Block.withoutDead
  dsimp only
  split <;> rfl

theorem check_withoutDead (hc : b.check = .ok ()) : b.withoutDead.check = .ok () := by
  obtain ⟨hs, harity, hperm⟩ := check_eq_ok.1 hc
  have hsub : ∀ o ∈ b.withoutDead.operations, o ∈ b.operations := fun o ho => hs.withoutDead_sublist.subset ho
  refine check_eq_ok.2 ⟨hs.withoutDead, fun o ho => harity o (hsub o ho), fun o ho perm hkind v hv type htype => ?_⟩
  rw [hs.type?_withoutDead (hs.withoutDead.input_defined ho hv)] at htype
  exact hperm o (hsub o ho) perm hkind v hv type htype

/-- What is needed in a block is needed in what is left of it. -/
theorem Sound.needed_withoutDead (hs : b.Sound) (ho : o ∈ b.operations) (h : b.Needed o) : b.withoutDead.Needed o := by
  have hdemands : ∀ {v}, b.Demands v → b.withoutDead.Demands v := fun {v} hv => by
    rcases hv with hout | ⟨p, hp, hcustom, hin⟩
    · exact .inl (withoutDead_outputs.symm ▸ hout)
    · exact .inr ⟨p, hs.mem_withoutDead.2 ⟨hp, .inl hcustom⟩, hcustom, hin⟩
  obtain hcustom | ⟨q, hpath, v, hv, hdemand⟩ := h
  · exact .inl hcustom
  induction hpath using Relation.ReflTransGen.head_induction_on with
  | refl => exact needed_of_demands hv (hdemands hdemand)
  | head hfeeds hrest ih =>
    have hp : b.Needed _ := .inr ⟨q, hrest, v, hv, hdemand⟩
    obtain ⟨hmem, hmem', hshared⟩ := id hfeeds
    exact (ih hmem').of_feeds
      ⟨hs.mem_withoutDead.2 ⟨hmem, hp.of_feeds hfeeds⟩, hs.mem_withoutDead.2 ⟨hmem', hp⟩, hshared⟩

/-- What is left of a sound block has nothing dead in it. -/
theorem Sound.withoutDead_withoutDead (hs : b.Sound) : b.withoutDead.withoutDead = b.withoutDead := by
  classical
  have hops : b.withoutDead.withoutDead.operations = b.withoutDead.operations := by
    rw [hs.withoutDead.withoutDead_operations, List.filter_eq_self]
    intro o ho
    obtain ⟨hmem, hneeded⟩ := hs.mem_withoutDead.1 ho
    exact decide_eq_true (hs.needed_withoutDead hmem hneeded)
  generalize b.withoutDead = b' at hops
  unfold Block.withoutDead at hops ⊢
  dsimp only at hops ⊢
  split at hops
  · rename_i hlt
    exact absurd (congrArg List.length hops) hlt.ne
  · rename_i hlt
    rw [if_neg hlt]
    exact congrArg (fun ops => { b' with operations := ops }) hops

open Classical in
/-- **Removal of dead code is exact.** It keeps what is needed, in order and as it is, with the records of inputs and of what
needed operations define, and nothing else. What is left passes the check, and a second removal leaves it as it is. -/
theorem eraseDead_exact (hc : b.check = .ok ()) : ∃ result b', b.eraseDead = .ok (result, b') ∧
    b' = { b with
      operations := b.operations.filter (b.Needed ·)
      values := b.values.filter fun t => t.id ∈ b.inputs ∨ ∃ o ∈ b.operations, b.Needed o ∧ t.id ∈ o.outputs } ∧
    result.erased = b.operations.countP (¬b.Needed ·) ∧ b'.check = .ok () ∧ b'.eraseDead = .ok ({}, b') := by
  have hs : b.Sound := (check_eq_ok.1 hc).1
  refine ⟨_, b.withoutDead, by rw [eraseDead, hc], hs.withoutDead_eq, ?_, check_withoutDead hc, ?_⟩
  · show b.operations.length - b.withoutDead.operations.length = _
    rw [hs.withoutDead_eq, List.length_eq_countP_add_countP (b.Needed ·), List.countP_eq_length_filter,
      Nat.add_sub_cancel_left]
    simp
  · rw [eraseDead, check_withoutDead hc]
    simp [hs.withoutDead_withoutDead]

/-- A custom operation with two results, one of which is read, and one without results. Of the rest, two operations lead only
to each other. -/
def effects : Block where
  name := "effects"
  inputs := [⟨0⟩]
  outputs := [⟨6⟩, ⟨0⟩]
  operations := [
    ⟨⟨0⟩, .unary .relu, [⟨0⟩], [⟨1⟩]⟩,
    ⟨⟨1⟩, .custom "split", [⟨1⟩, ⟨0⟩], [⟨2⟩, ⟨3⟩]⟩,
    ⟨⟨2⟩, .unary .abs, [⟨3⟩], [⟨4⟩]⟩,
    ⟨⟨3⟩, .binary .mul, [⟨4⟩, ⟨2⟩], [⟨5⟩]⟩,
    ⟨⟨4⟩, .unary .sqrt, [⟨3⟩], [⟨6⟩]⟩,
    ⟨⟨5⟩, .unary .abs, [⟨6⟩], [⟨7⟩]⟩,
    ⟨⟨6⟩, .custom "print", [⟨7⟩], []⟩]
  values := [
    ⟨⟨0⟩, "x", ⟨.f32, [.dynamic "n"]⟩⟩, ⟨⟨1⟩, "a", ⟨.f32, [.dynamic "n"]⟩⟩, ⟨⟨2⟩, "b", ⟨.f32, [.dynamic "n"]⟩⟩,
    ⟨⟨3⟩, "c", ⟨.f32, [.dynamic "n"]⟩⟩, ⟨⟨4⟩, "d", ⟨.f32, [.dynamic "n"]⟩⟩, ⟨⟨5⟩, "e", ⟨.f32, [.dynamic "n"]⟩⟩,
    ⟨⟨6⟩, "f", ⟨.f32, [.dynamic "n"]⟩⟩, ⟨⟨7⟩, "g", ⟨.f32, [.dynamic "n"]⟩⟩]

open Classical in
theorem eraseDead_effects : effects.check = .ok () ∧ ∃ result b', effects.eraseDead = .ok (result, b') ∧
    b'.operations.map (·.id) = [⟨0⟩, ⟨1⟩, ⟨4⟩, ⟨5⟩, ⟨6⟩] ∧ b'.operations = effects.operations.filter (effects.Needed ·) ∧
    result.erased = 2 ∧ effects.operations.countP (¬effects.Needed ·) = 2 ∧ b'.check = .ok () ∧
    b'.eraseDead = .ok ({}, b') := by
  have hc : effects.check = .ok () := by decide +kernel
  obtain ⟨result, b', hrun, rfl, herased, hcheck, hagain⟩ := eraseDead_exact hc
  have hleft : (effects.eraseDead.toOption.map fun e => (e.1.erased, e.2.operations.map (·.id))) =
      some (2, [⟨0⟩, ⟨1⟩, ⟨4⟩, ⟨5⟩, ⟨6⟩]) := by cbv
  rw [hrun] at hleft
  obtain ⟨htwo, hids⟩ := Prod.mk.inj (Option.some.inj hleft)
  exact ⟨hc, result, _, hrun, hids, rfl, htwo, herased ▸ htwo, hcheck, hagain⟩

end Relayout.Block
