import Relayout.Proofs.Recovery

/-!
# Replacing uses

To replace the uses of a value, an editor goes through the list of its users and changes that list on the way. Since the list
is exact, the block ends up as if every operand and every output had been looked at (`replaceUses_substitutes`).

In a single operation, uses are replaced without looking at whether there are any. The index then takes the operation for a
user of the new value in any case, and is right only if the operation does read that value (`replaceUsesIn_users`).
-/

namespace Relayout

open Editor

/-! ## All uses -/

theorem not_mem_substitute {old new : ValueId} (hne : old ≠ new) (ids : List ValueId) :
    old ∉ Editor.substitute old new ids := by
  intro hmem
  rcases mem_substitute.1 hmem with ⟨he, _⟩ | ⟨he, _⟩
  · exact hne he
  · exact he rfl

/-- To replace the uses of a value is to put another in its place everywhere, and can be done wherever the other fits and is
in scope. -/
theorem replaceUses_substitutes [IdSpace] {b : Block} {s t : Editor} (hc : b.check = .ok ()) (hs : Editor.ofBlock b = .ok s)
    (ht : Visits s t) (hin : t.InStep) (old new : ValueId) :
    ((∃ u, (replaceUses old new).run t = .ok () u) ↔ old = new ∨ t.block.Fits old new ∧
      ∀ before o after, t.block.operations = before ++ o :: after → old ∈ o.inputs →
        new ∈ t.block.inputs ++ before.flatMap (·.outputs)) ∧
    ∀ u, (replaceUses old new).run t = .ok () u →
      u.block = { t.block with
        operations := t.block.operations.map fun o =>
          { o with inputs := o.inputs.map fun v => if v = old then new else v }
        outputs := t.block.outputs.map fun v => if v = old then new else v } ∧
      (old ≠ new → (∀ o ∈ u.block.operations, old ∉ o.inputs) ∧ old ∉ u.block.outputs) ∧ u.block.UsesDefined := by
  have h := Visits.coherent hc hs ht hin
  rw [← h.availableTo_iff]
  have hend : Ends
      (fun _ _ => ¬(old = new ∨ t.block.Fits old new ∧ ∀ id ∈ t.index.usersOf old, t.AvailableTo new id))
      (replaceUses old new) t fun _ u =>
        (old = new ∨ t.block.Fits old new ∧ ∀ id ∈ t.index.usersOf old, t.AvailableTo new id) ∧
          Coherent u ∧ u.block = t.block.substitute old new :=
    h.ends_replaceUses (fun hnot _ _ _ => hnot) fun hok x hx => ⟨hok, hx, rfl⟩
  refine ⟨⟨?_, fun hok => ?_⟩, fun u hu => ?_⟩
  · rintro ⟨u, hu⟩
    exact (hend.of_ok hu).1
  · cases hrun : (replaceUses old new).run t with
    | ok a u => exact ⟨u, rfl⟩
    | error e u => exact absurd hok (hend.of_error hrun)
  · obtain ⟨_, hu, hblock⟩ := hend.of_ok hu
    refine ⟨hblock, fun hne => ⟨fun o ho => ?_, ?_⟩, scoped_iff_usesDefined.1 hu.sound.scopes⟩
    · rw [hblock] at ho
      obtain ⟨p, _, rfl⟩ := List.mem_map.1 ho
      exact not_mem_substitute hne p.inputs
    · rw [hblock]
      exact not_mem_substitute hne t.block.outputs

/-- A value is read twice by one operation and along with its substitute by another, and it is returned. -/
def doubled : Block where
  name := "doubled"
  inputs := [⟨0⟩]
  outputs := [⟨4⟩, ⟨1⟩]
  operations := [
    ⟨⟨0⟩, .unary .abs, [⟨0⟩], [⟨1⟩]⟩,
    ⟨⟨1⟩, .unary .sqrt, [⟨0⟩], [⟨2⟩]⟩,
    ⟨⟨2⟩, .binary .add, [⟨1⟩, ⟨1⟩], [⟨3⟩]⟩,
    ⟨⟨3⟩, .binary .sub, [⟨2⟩, ⟨1⟩], [⟨4⟩]⟩]
  values := [
    ⟨⟨0⟩, "x", .ofExtents .f32 [3]⟩, ⟨⟨1⟩, "a", .ofExtents .f32 [3]⟩, ⟨⟨2⟩, "b", .ofExtents .f32 [3]⟩,
    ⟨⟨3⟩, "c", .ofExtents .f32 [3]⟩, ⟨⟨4⟩, "d", .ofExtents .f32 [3]⟩]

/-- Another reader comes in before the first two. -/
def earlyReader : EditCall :=
  .insertBefore ⟨2⟩ (.unary .identity) [⟨1⟩] [("e", .ofExtents .f32 [3])]

theorem EditCall.run_eq_ok [IdSpace] (call : EditCall) {s : Editor} (h : call.run.run' s = some ()) :
    call.run.run s = .ok () (call.after s) := by
  rw [EStateM.run'] at h
  rw [after]
  cases hx : call.run.run s with
  | ok a t => rfl
  | error e t =>
    rw [hx] at h
    cases h

theorem doubled_visits : ∃ s, Editor.ofBlock doubled = .ok s ∧ Visits s (earlyReader.after s) ∧
    (earlyReader.after s).InStep := by
  have hc : doubled.check = .ok () := by decide
  have hids : doubled.HasFreeIds := Block.hasFreeIds_iff.2 (by decide)
  obtain ⟨s, hs, _, hcoherent⟩ := (Block.check_eq_ok.1 hc).1.exists_editor hids
  have hlands : ∀ s ∈ (Editor.ofBlock doubled).toOption, earlyReader.lands s := by decide +kernel
  have hafter : Coherent (earlyReader.after s) := EditCall.coherent_after hcoherent (List.nodup_singleton _)
  exact ⟨s, hs, .step .start (hlands s (by rw [hs]; rfl)), hafter.inStep⟩

theorem replaceUses_doubled : doubled.check = .ok () ∧ ∃ s u, Editor.ofBlock doubled = .ok s ∧
    Visits s (earlyReader.after s) ∧ (earlyReader.after s).InStep ∧
    (replaceUses ⟨1⟩ ⟨2⟩).run (earlyReader.after s) = .ok () u ∧
    u.block.operations.map (·.inputs) = [[⟨0⟩], [⟨0⟩], [⟨2⟩], [⟨2⟩, ⟨2⟩], [⟨2⟩, ⟨2⟩]] ∧ u.block.outputs = [⟨4⟩, ⟨2⟩] ∧
    u.block.UsesDefined := by
  have hc : doubled.check = .ok () := by decide
  obtain ⟨s, hs, hvisits, hin⟩ := doubled_visits
  have heval : ∀ s ∈ (Editor.ofBlock doubled).toOption, (replaceUses ⟨1⟩ ⟨2⟩).run' (earlyReader.after s) = some () ∧
      (earlyReader.after s).block.operations.map (·.inputs) = [[⟨0⟩], [⟨0⟩], [⟨1⟩], [⟨1⟩, ⟨1⟩], [⟨2⟩, ⟨1⟩]] ∧
      (earlyReader.after s).block.outputs = [⟨4⟩, ⟨1⟩] := by decide +kernel
  obtain ⟨hrun, hops, houts⟩ := heval s (by rw [hs]; rfl)
  have hu := EditCall.run_eq_ok (.replaceUses ⟨1⟩ ⟨2⟩) hrun
  obtain ⟨hblock, _, huses⟩ := (replaceUses_substitutes hc hs hvisits hin ⟨1⟩ ⟨2⟩).2 _ hu
  have hinputs := congrArg (List.map (Editor.substitute ⟨1⟩ ⟨2⟩)) hops
  rw [List.map_map] at hinputs
  refine ⟨hc, s, _, hs, hvisits, hin, hu, ?_, ?_, huses⟩
  · rw [hblock, List.map_map]
    exact hinputs
  · rw [hblock, houts]
    rfl

/-! ## Uses in one operation -/

/-- The operation reads one of two values. -/
def Block.ReadsEither (b : Block) (op : OpId) (old new : ValueId) : Prop :=
  ∃ o ∈ b.operations, o.id = op ∧ (old ∈ o.inputs ∨ new ∈ o.inputs)

instance (b : Block) (op : OpId) (old new : ValueId) : Decidable (b.ReadsEither op old new) :=
  inferInstanceAs (Decidable (∃ o ∈ b.operations, o.id = op ∧ (old ∈ o.inputs ∨ new ∈ o.inputs)))

/-- The index lists the readers of every value, and each of them once. -/
def Editor.ListsReaders (s : Editor) : Prop :=
  ∀ v, (s.index.usersOf v).Nodup ∧ ∀ id, id ∈ s.index.usersOf v ↔ ∃ o ∈ s.block.operations, o.id = id ∧ v ∈ o.inputs

section Users

variable {s : Editor} {o : Operation} {v : ValueId}

theorem Coherent.listsReaders [IdSpace] (h : Coherent s) : s.ListsReaders :=
  fun v => ⟨h.agrees.usersOnce v, h.agrees.users v⟩

theorem Coherent.exists_removed [IdSpace] (h : Coherent s) (ho : o ∈ s.block.operations) (hdead : s.block.Dead o) :
    ∃ t, (removeOp o.id).run s = .ok () t := by
  obtain ⟨l, r, heq⟩ := List.append_of_mem ho
  have hrun : Ensures False (removeOp o.id) s fun _ _ => True := ensures_removeOp h heq hdead fun _ _ => trivial
  obtain ⟨_, t, ht, _⟩ := hrun.exists_ok
  exact ⟨t, ht⟩

theorem obstacle?_of_dead (hdead : s.block.Dead o) (hv : v ∈ o.outputs) (hused : s.index.usersOf v ≠ []) :
    s.obstacle? o = some (.liveUses o.id) := by
  have houts : ∀ w ∈ o.outputs, s.block.outputs.contains w = false := fun w hw => by simpa using (hdead w hw).1
  cases hobs : s.obstacle? o with
  | none =>
    have := List.findSome?_eq_none_iff.1 hobs v hv
    rw [houts v hv] at this
    simp [hused] at this
  | some e =>
    obtain ⟨w, hw, he⟩ := List.exists_of_findSome?_eq_some hobs
    rw [houts w hw] at he
    simp only [Bool.false_eq_true, if_false] at he
    split at he
    · exact congrArg some (Option.some.inj he).symm
    · cases he

/-- An operation stays, although it is dead, while the index takes one of its results for used. -/
theorem Anchored.removeOp_refused [IdSpace] (h : Anchored s) (ho : o ∈ s.block.operations) (hdead : s.block.Dead o)
    (hv : v ∈ o.outputs) (hused : s.index.usersOf v ≠ []) : (removeOp o.id).run s = .error (.liveUses o.id) s := by
  have hobs := obstacle?_of_dead hdead hv hused
  have hend : Ends (fun e t => e = .liveUses o.id ∧ t = s) (removeOp o.id) s fun _ _ => False := by
    refine h.ends_removeOp (fun hnot => absurd (List.mem_map_of_mem ho) hnot) (fun p hp hid e he => ?_) ?_
    · rw [h.registered.op_ext hp ho hid, hobs] at he
      exact ⟨(Option.some.inj he).symm, rfl⟩
    · intro l p r heq hid hnone
      rw [h.registered.op_ext (by simp [heq]) ho hid, hobs] at hnone
      cases hnone
  cases hrun : (removeOp o.id).run s with
  | ok a t => exact (hend.of_ok hrun).elim
  | error e t =>
    obtain ⟨rfl, rfl⟩ := hend.of_error hrun
    rfl

/-- Uses are replaced in an operation that reads one of the two values, or the block stays the same and the operation is taken
for a user of the new value. -/
theorem Coherent.replaceUsesIn_cases [IdSpace] (h : Coherent s) {op : OpId} {old new : ValueId} {t : Editor}
    (ht : (replaceUsesIn op old new).run s = .ok () t) :
    (old = new ∨ s.block.ReadsEither op old new) ∧ Coherent t ∨
      ¬(old = new ∨ s.block.ReadsEither op old new) ∧ t.block = s.block ∧
        op ∈ t.index.usersOf new ∧ ¬∃ o ∈ s.block.operations, o.id = op ∧ new ∈ o.inputs := by
  by_cases hne : old = new
  · rw [replaceUsesIn, if_pos hne] at ht
    cases ht
    exact .inl ⟨.inl hne, h⟩
  have hend : Ends (fun _ _ => True) (replaceUsesIn op old new) s fun _ u => ∃ l o r, s.block.operations = l ++ o :: r ∧
      o.id = op ∧ s.Available new l.length ∧ u = ⟨s.block.rewired (l ++ o.substitute old new :: r) s.block.outputs,
        { s.index with users := UseIndex.addUser (UseIndex.removeUser s.index.users old o.id) new o.id }⟩ :=
    h.anchored.ends_replaceUsesIn hne (fun _ _ => trivial) fun _ l o r heq hid havail => ⟨l, o, r, heq, hid, havail, rfl⟩
  obtain ⟨l, o, r, heq, rfl, havail, rfl⟩ := hend.of_ok ht
  have honly : ∀ p ∈ s.block.operations, p.id = o.id → p = o := fun p hp => h.sound.op_ext hp (by simp [heq])
  by_cases hreads : old ∈ o.inputs ∨ new ∈ o.inputs
  · refine .inl ⟨.inr ⟨o, by simp [heq], rfl, hreads⟩, h.substituteOp heq (mem_substitute.2 ?_)
      ((h.agrees.availableFrom h.sound heq).1 havail)⟩
    exact hreads.imp (fun hold => ⟨rfl, hold⟩) fun hin => ⟨Ne.symm hne, hin⟩
  · rw [not_or] at hreads
    refine .inr ⟨?_, ?_, UseIndex.mem_addUser.2 (.inr ⟨rfl, rfl⟩), ?_⟩
    · rintro (he | ⟨p, hp, hid, hin⟩)
      · exact hne he
      · rw [honly p hp hid] at hin
        exact hin.elim hreads.1 hreads.2
    · rw [Operation.substitute, substitute_of_not_mem hreads.1]
      show s.block.rewired (l ++ o :: r) s.block.outputs = s.block
      rw [← heq]
      rfl
    · rintro ⟨p, hp, hid, hin⟩
      rw [honly p hp hid] at hin
      exact hreads.2 hin

end Users

/-- Where uses are replaced in an operation that reads one of the two values, the index lists the readers of every value, and
all that is dead can be removed. In any other operation there is nothing to replace, but the index takes it for a user of the
new value, so that what defines this value cannot be removed even if it is dead. -/
theorem replaceUsesIn_users [IdSpace] {b : Block} {s t u : Editor} (hc : b.check = .ok ()) (hs : Editor.ofBlock b = .ok s)
    (ht : Visits s t) (hin : t.InStep) {op : OpId} {old new : ValueId}
    (hu : (replaceUsesIn op old new).run t = .ok () u) :
    (old = new ∨ t.block.ReadsEither op old new → u.ListsReaders ∧
      ∀ o ∈ u.block.operations, u.block.Dead o → ∃ w, (removeOp o.id).run u = .ok () w) ∧
    (¬(old = new ∨ t.block.ReadsEither op old new) → u.block = t.block ∧ ¬u.ListsReaders ∧
      ∀ o ∈ u.block.operations, new ∈ o.outputs → u.block.Dead o →
        (removeOp o.id).run u = .error (.liveUses o.id) u) := by
  have h := Visits.coherent hc hs ht hin
  obtain ⟨hreads, hcoherent⟩ | ⟨hnot, hblock, huser, hnone⟩ := h.replaceUsesIn_cases hu
  · refine ⟨fun _ => ⟨hcoherent.listsReaders, fun o ho => hcoherent.exists_removed ho⟩, fun hnot => absurd hreads hnot⟩
  · have hanchored : Anchored u := (maintains_replaceUsesIn op old new t h.anchored).of_ok hu
    refine ⟨fun hreads => absurd hreads hnot, fun _ => ⟨hblock, fun hlists => hnone ?_, fun o ho hv hdead => ?_⟩⟩
    · rw [← hblock]
      exact ((hlists new).2 op).1 huser
    · exact hanchored.removeOp_refused ho hdead hv (List.ne_nil_of_mem huser)

theorem replaceUsesIn_doubled : doubled.check = .ok () ∧ ∃ s u, Editor.ofBlock doubled = .ok s ∧
    Visits s (earlyReader.after s) ∧ (earlyReader.after s).InStep ∧
    (replaceUsesIn ⟨3⟩ ⟨1⟩ ⟨2⟩).run (earlyReader.after s) = .ok () u ∧ u.ListsReaders ∧
    ∃ w, (removeOp ⟨4⟩).run u = .ok () w := by
  have hc : doubled.check = .ok () := by decide
  obtain ⟨s, hs, hvisits, hin⟩ := doubled_visits
  have heval : ∀ s ∈ (Editor.ofBlock doubled).toOption,
      (replaceUsesIn ⟨3⟩ ⟨1⟩ ⟨2⟩).run' (earlyReader.after s) = some () ∧
      (earlyReader.after s).block.ReadsEither ⟨3⟩ ⟨1⟩ ⟨2⟩ ∧
      ∃ o ∈ ((EditCall.replaceUsesIn ⟨3⟩ ⟨1⟩ ⟨2⟩).after (earlyReader.after s)).block.operations, o.id = ⟨4⟩ ∧
        ((EditCall.replaceUsesIn ⟨3⟩ ⟨1⟩ ⟨2⟩).after (earlyReader.after s)).block.Dead o := by decide +kernel
  obtain ⟨hrun, hreads, o, ho, hid, hdead⟩ := heval s (by rw [hs]; rfl)
  have hu := EditCall.run_eq_ok (.replaceUsesIn ⟨3⟩ ⟨1⟩ ⟨2⟩) hrun
  obtain ⟨hlists, hall⟩ := (replaceUsesIn_users hc hs hvisits hin hu).1 (.inr hreads)
  exact ⟨hc, s, _, hs, hvisits, hin, hu, hlists, hid ▸ hall o ho hdead⟩

/-- The last operation reads neither of the two that come before it, which are both dead. -/
def aloof : Block where
  name := "aloof"
  inputs := [⟨0⟩]
  outputs := [⟨3⟩]
  operations := [
    ⟨⟨0⟩, .unary .relu, [⟨0⟩], [⟨1⟩]⟩, ⟨⟨1⟩, .unary .relu, [⟨0⟩], [⟨2⟩]⟩, ⟨⟨2⟩, .unary .abs, [⟨0⟩], [⟨3⟩]⟩]
  values := [
    ⟨⟨0⟩, "x", .ofExtents .f32 [2, 3]⟩, ⟨⟨1⟩, "a", .ofExtents .f32 [2, 3]⟩, ⟨⟨2⟩, "b", .ofExtents .f32 [2, 3]⟩,
    ⟨⟨3⟩, "c", .ofExtents .f32 [2, 3]⟩]

theorem aloof_refused : aloof.check = .ok () ∧ ∃ s u, Editor.ofBlock aloof = .ok s ∧
    (replaceUsesIn ⟨2⟩ ⟨1⟩ ⟨2⟩).run s = .ok () u ∧ u.index.usersOf ⟨2⟩ = [⟨2⟩] ∧
    (∀ o ∈ u.block.operations, ⟨2⟩ ∉ o.inputs) ∧ ⟨2⟩ ∉ u.block.outputs ∧
    (removeOp ⟨1⟩).run u = .error (.liveUses ⟨1⟩) u :=
  ⟨by decide, _, _, rfl, rfl, by decide, by decide, by decide, rfl⟩

end Relayout
