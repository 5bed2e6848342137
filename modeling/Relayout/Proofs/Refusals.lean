import Relayout.Proofs.Construction

/-!
# What calls that fail leave behind

A call of a builder that fails leaves the builder as it was, with one exception. The results of a custom operation are
defined one after the other, and those in front of a name that is taken stay (`BuildCall.Strands`). No operation defines
them later on, so a builder is finished with a well-formed block if and only if no call has left any
(`BuildCall.finish_afterAll`).
-/

namespace Relayout

/-! ## Builders that grow -/

namespace Builder

variable {s t : Builder} {outputs : List (String × TensorType)}

/-- The ids in use are below the next one. -/
structure Bounded (s : Builder) : Prop where
  values : ∀ r ∈ s.block.values, r.id.index < s.nextValue
  defined : ∀ v ∈ s.block.defined, v.index < s.nextValue

/-- Records are kept, and what is new has new ids. -/
structure Extends (s t : Builder) : Prop where
  next : s.nextValue ≤ t.nextValue
  keeps : ∀ r ∈ s.block.values, r ∈ t.block.values
  values : ∀ r ∈ t.block.values, r ∈ s.block.values ∨ r.id.index < t.nextValue
  defined : ∀ v ∈ t.block.defined, v ∈ s.block.defined ∨ s.nextValue ≤ v.index ∧ v.index < t.nextValue

/-- A value is recorded that nothing defines. -/
def Stray (s : Builder) : Prop :=
  ∃ r ∈ s.block.values, r.id ∉ s.block.defined

theorem bounded_empty (name : String) : (empty name).Bounded := by
  refine ⟨?_, ?_⟩
  all_goals simp [empty, Block.empty, Block.defined]

theorem Extends.refl (s : Builder) : s.Extends s :=
  ⟨le_rfl, fun _ hr => hr, fun _ hr => .inl hr, fun _ hv => .inl hv⟩

theorem Extends.bounded (h : s.Extends t) (hs : s.Bounded) : t.Bounded where
  values r hr := (h.values r hr).elim (fun hold => (hs.values r hold).trans_le h.next) id
  defined v hv := (h.defined v hv).elim (fun hold => (hs.defined v hold).trans_le h.next) And.right

/-- Values that are defined later on have new ids, so none of them is the one that nothing defines. -/
theorem Extends.stray (h : s.Extends t) (hs : s.Bounded) (hstray : s.Stray) : t.Stray := by
  obtain ⟨r, hr, hundefined⟩ := hstray
  refine ⟨r, h.keeps r hr, fun hdef => ?_⟩
  obtain hold | ⟨hnew, _⟩ := h.defined _ hdef
  · exact hundefined hold
  · exact absurd (hs.values r hr) (Nat.not_lt.2 hnew)

theorem mem_newRecords {r : Value} (hr : r ∈ newRecords (s.nextIds outputs.length) outputs) :
    r.id.index < s.nextValue + outputs.length := by
  have hid := List.mem_map_of_mem (f := fun r : Value => r.id) hr
  rw [map_id_newRecords (length_nextIds s _)] at hid
  exact (mem_nextIds.1 hid).2

theorem extends_defining (s : Builder) (outputs : List (String × TensorType)) : s.Extends (s.defining outputs) where
  next := Nat.le_add_right _ _
  keeps _ hr := List.mem_append_left _ hr
  values _ hr := (List.mem_append.1 hr).imp_right mem_newRecords
  defined _ hv := .inl hv

theorem extends_withInput (s : Builder) (name : String) (type : TensorType) : s.Extends (s.withInput name type) where
  next := Nat.le_succ _
  keeps _ hr := List.mem_append_left _ hr
  values := List.forall_mem_append.2 ⟨fun _ hr => .inl hr, List.forall_mem_singleton.2 (.inr (Nat.lt_succ_self _))⟩
  defined v hv := by
    obtain hin | hop := Block.mem_defined.1 hv
    · refine (List.mem_append.1 hin).imp (fun hold => Block.mem_defined.2 (.inl hold)) fun hnew => ?_
      rw [List.mem_singleton.1 hnew]
      exact ⟨le_rfl, Nat.lt_succ_self _⟩
    · exact .inl (Block.mem_defined.2 (.inr hop))

theorem extends_withOp (s : Builder) (kind : OpKind) (inputs : List ValueId) (outputs : List (String × TensorType)) :
    s.Extends (s.withOp kind inputs outputs) where
  next := Nat.le_add_right _ _
  keeps _ hr := List.mem_append_left _ hr
  values _ hr := (List.mem_append.1 hr).imp_right mem_newRecords
  defined v hv := by
    obtain hin | ⟨op, hop, hout⟩ := Block.mem_defined.1 hv
    · exact .inl (Block.mem_defined.2 (.inl hin))
    · obtain hold | hnew := List.mem_append.1 hop
      · exact .inl (Block.mem_defined.2 (.inr ⟨op, hold, hout⟩))
      · rw [List.mem_singleton.1 hnew] at hout
        exact .inr (mem_nextIds.1 hout)

theorem stray_defining (hs : s.Bounded) (h : outputs ≠ []) : (s.defining outputs).Stray := by
  have hfirst : (⟨s.nextValue⟩ : ValueId) ∈ s.nextIds outputs.length :=
    mem_nextIds.2 ⟨le_rfl, Nat.lt_add_of_pos_right (List.length_pos_of_ne_nil h)⟩
  rw [← map_id_newRecords (length_nextIds s outputs.length)] at hfirst
  obtain ⟨r, hr, hid⟩ := List.mem_map.1 hfirst
  refine ⟨r, List.mem_append_right _ hr, fun hdef => ?_⟩
  have hlt := hs.defined r.id hdef
  rw [hid] at hlt
  exact lt_irrefl _ hlt

/-! ## Calls that do all or nothing -/

/-- The call fails and leaves the builder as it was, or succeeds and adds to it, unless ids run out. -/
def Atomic {α : Type} (s : Builder) (x : Build α) : Prop :=
  (∃ e, x.run s = .error e s) ∨ (∃ a t, x.run s = .ok a t ∧ s.Extends t) ∨ ∃ t, x.run s = .error (.crash .overflow) t

theorem Atomic.discard {α : Type} {x : Build α} (h : s.Atomic x) : s.Atomic (Functor.discard x) := by
  obtain ⟨e, hrun⟩ | ⟨a, t, hrun, hext⟩ | ⟨t, hrun⟩ := h
  · exact .inl ⟨e, run_bind_error hrun⟩
  · exact .inr (.inl ⟨(), t, BuildCall.run_discard_of_run hrun, hext⟩)
  · exact .inr (.inr ⟨t, run_bind_error hrun⟩)

theorem Atomic.of_run_eq {α : Type} {x y : Build α} (h : s.Atomic x) (heq : y.run s = x.run s) : s.Atomic y := by
  rwa [Atomic, heq]

theorem atomic_addInput [IdSpace] (hs : s.Bounded) (name : String) (type : TensorType) : s.Atomic (addInput name type) := by
  obtain hfail | ⟨_, _, id, hrun⟩ := addInput_cases hs.values name type
  · exact .inl hfail
  · exact .inr (.inl ⟨id, _, hrun, extends_withInput s name type⟩)

theorem atomic_emitChecked [IdSpace] (hs : s.Bounded) (name : String) (kind : OpKind) (inputs : List ValueId)
    (declared : Option TensorType) : s.Atomic (emitChecked name kind inputs declared) := by
  obtain hfail | ⟨_, type, _, _, _, id, hrun⟩ | hfull := emitChecked_cases hs.values name kind inputs declared
  · exact .inl hfail
  · exact .inr (.inl ⟨id, _, hrun, extends_withOp s kind inputs _⟩)
  · exact .inr (.inr hfull)

theorem not_free_of_taken {front back : List (String × TensorType)} {output : String × TensorType}
    (h : output.1 ∈ (s.defining front).names) : ¬s.Free (front ++ output :: back) := by
  rintro ⟨hnodup, hfree⟩
  rw [List.map_append, List.map_cons] at hnodup hfree
  obtain hfront | hold := List.mem_append.1 h
  · exact (List.nodup_append.1 hnodup).2.2 _ (List.mem_reverse.1 hfront) _ List.mem_cons_self rfl
  · exact hfree _ (List.mem_append_right _ List.mem_cons_self) hold

instance : Decidable (s.Free outputs) :=
  decidable_of_iff ((outputs.map (·.1)).Nodup ∧ ∀ name ∈ outputs.map (·.1), name ∉ s.names)
    ⟨fun h => ⟨h.1, h.2⟩, fun h => ⟨h.names, h.free⟩⟩

end Builder

namespace BuildCall

variable {s t : Builder} {call : BuildCall} {calls : List BuildCall}

/-- The call defines some of its results and then fails: the first name is free, and a later one is taken. -/
def Strands : BuildCall → Builder → Prop
  | emitCustom _ inputs outputs, s => (∀ id ∈ inputs, (s.block.value? id).isSome) ∧
      (∃ output ∈ outputs.head?, output.1 ∉ s.names) ∧ ¬s.Free outputs
  | _, _ => False

instance decidableStrands : (call : BuildCall) → (s : Builder) → Decidable (call.Strands s)
  | emitCustom _ _ _, _ => inferInstanceAs (Decidable (_ ∧ _ ∧ _))
  | addInput _ _, _ | emit _ _, _ | emitNamed _ _ _, _ | emitChecked _ _ _ _, _ | constant _ _, _ => .isFalse id

theorem atomic_run [IdSpace] (hs : s.Bounded) (hcall : ¬call.Strands s) : s.Atomic call.run := by
  cases call with
  | addInput name type =>
    rw [run]
    exact (Builder.atomic_addInput hs name type).discard
  | emit kind inputs =>
    rw [run]
    have hemit : (Builder.emit kind inputs).run s = (Builder.emitNamed _ kind inputs).run s :=
      Builder.run_bind (show (get : Build Builder).run s = .ok s s from rfl)
    exact ((Builder.atomic_emitChecked hs _ kind inputs none).of_run_eq hemit).discard
  | emitNamed name kind inputs =>
    rw [run, Builder.emitNamed]
    exact (Builder.atomic_emitChecked hs name kind inputs none).discard
  | emitChecked name kind inputs declared =>
    rw [run]
    exact (Builder.atomic_emitChecked hs name kind inputs declared).discard
  | constant name literal =>
    rw [run, Builder.constant, Builder.emitNamed]
    exact (Builder.atomic_emitChecked hs name (.const literal) [] none).discard
  | emitCustom op inputs outputs =>
    rw [run]
    refine Builder.Atomic.discard ?_
    obtain ⟨_, hfail⟩ | ⟨_, _, _, ids, hrun⟩ | ⟨hknown, front, output, back, rfl, hfree, htaken, hrun⟩ | hfull :=
      Builder.emitCustom_cases hs.values op inputs outputs
    · exact .inl hfail
    · exact .inr (.inl ⟨ids, _, hrun, Builder.extends_withOp s _ inputs outputs⟩)
    · cases front with
      | nil =>
        rw [Builder.defining_nil] at hrun
        exact .inl ⟨_, hrun⟩
      | cons first front =>
        exact absurd ⟨hknown, ⟨first, rfl, (Builder.free_cons.1 hfree).1⟩, Builder.not_free_of_taken htaken⟩ hcall
    · exact .inr (.inr hfull)

/-- A call that strands values ends at the name that is taken, if there are ids for those in front of it. -/
theorem run_of_strands [IdSpace] (hs : s.Bounded) (hcall : call.Strands s) :
    (∃ name front, front ≠ [] ∧ call.run.run s = .error (.duplicateName name) (s.defining front)) ∨
      ∃ t, call.run.run s = .error (.crash .overflow) t := by
  cases call with
  | emitCustom op inputs outputs =>
    obtain ⟨hknown, ⟨first, hfirst, hname⟩, hnot⟩ := hcall
    obtain ⟨hunknown, _⟩ | ⟨_, hfree, _⟩ | ⟨_, front, output, back, rfl, _, htaken, hrun⟩ | ⟨t, hrun⟩ :=
      Builder.emitCustom_cases hs.values op inputs outputs
    · exact absurd hknown hunknown
    · exact absurd hfree hnot
    · refine .inl ⟨output.1, front, ?_, Builder.run_bind_error hrun⟩
      rintro rfl
      rw [Builder.defining_nil] at htaken
      cases hfirst
      exact hname htaken
    · exact .inr ⟨t, Builder.run_bind_error hrun⟩
  | _ => exact hcall.elim

/-! ## Sessions -/

/-- The builder after a call, which may have failed. After a crash there is none. -/
def after? [IdSpace] (call : BuildCall) (s : Builder) : Option Builder :=
  match call.run.run s with
  | .ok _ t => some t
  | .error e t => if e.crash? = none then some t else none

def afterAll? [IdSpace] : List BuildCall → Builder → Option Builder
  | [], s => some s
  | call :: calls, s => (call.after? s).bind (afterAll? calls)

/-- No call leaves values behind. -/
def Tidy [IdSpace] : List BuildCall → Builder → Prop
  | [], _ => True
  | call :: calls, s => ¬call.Strands s ∧ ∀ t ∈ call.after? s, Tidy calls t

instance decidableTidy [IdSpace] : (calls : List BuildCall) → (s : Builder) → Decidable (Tidy calls s)
  | [], _ => .isTrue trivial
  | call :: calls, s =>
    have := decidableTidy calls
    inferInstanceAs (Decidable (¬call.Strands s ∧ ∀ t ∈ call.after? s, Tidy calls t))

/-- A call that does not crash adds to the builder, and leaves values behind if and only if it strands some. -/
theorem after?_cases [IdSpace] (hs : s.Bounded) (h : call.after? s = some t) :
    (∃ front, front ≠ [] ∧ t = s.defining front) ∧ call.Strands s ∨
      (t = s ∨ call.run.run s = .ok () t ∧ s.Extends t) ∧ ¬call.Strands s := by
  rw [after?] at h
  by_cases hcall : call.Strands s
  · obtain ⟨name, front, hfront, hrun⟩ | ⟨u, hrun⟩ := run_of_strands hs hcall
    · rw [hrun] at h
      exact .inl ⟨⟨front, hfront, (Option.some.inj h).symm⟩, hcall⟩
    · rw [hrun] at h
      cases h
  · obtain ⟨e, hrun⟩ | ⟨_, u, hrun, hext⟩ | ⟨u, hrun⟩ := atomic_run hs hcall
    · rw [hrun] at h
      dsimp only at h
      split at h
      · exact .inr ⟨.inl (Option.some.inj h).symm, hcall⟩
      · cases h
    · rw [hrun] at h
      obtain rfl := Option.some.inj h
      exact .inr ⟨.inr ⟨hrun, hext⟩, hcall⟩
    · rw [hrun] at h
      cases h

theorem extends_after? [IdSpace] (hs : s.Bounded) (h : call.after? s = some t) : s.Extends t := by
  obtain ⟨⟨front, _, rfl⟩, _⟩ | ⟨rfl | ⟨_, hext⟩, _⟩ := after?_cases hs h
  · exact Builder.extends_defining s front
  · exact .refl t
  · exact hext

theorem afterAll?_cons [IdSpace] : afterAll? (call :: calls) s = some t ↔
    ∃ u, call.after? s = some u ∧ afterAll? calls u = some t :=
  Option.bind_eq_some_iff

theorem bounded_afterAll? [IdSpace] (hs : s.Bounded) (h : afterAll? calls s = some t) : t.Bounded := by
  induction calls generalizing s with
  | nil =>
    obtain rfl := Option.some.inj h
    exact hs
  | cons call calls ih =>
    obtain ⟨u, hu, hrest⟩ := afterAll?_cons.1 h
    exact ih ((extends_after? hs hu).bounded hs) hrest

theorem stray_afterAll? [IdSpace] (hs : s.Bounded) (hstray : s.Stray) (h : afterAll? calls s = some t) : t.Stray := by
  induction calls generalizing s with
  | nil =>
    obtain rfl := Option.some.inj h
    exact hstray
  | cons call calls ih =>
    obtain ⟨u, hu, hrest⟩ := afterAll?_cons.1 h
    have hext := extends_after? hs hu
    exact ih (hext.bounded hs) (hext.stray hs hstray) hrest

theorem stray_of_not_tidy [IdSpace] (hs : s.Bounded) (h : afterAll? calls s = some t) (hnot : ¬Tidy calls s) :
    t.Stray := by
  induction calls generalizing s with
  | nil => exact (hnot trivial).elim
  | cons call calls ih =>
    obtain ⟨u, hu, hrest⟩ := afterAll?_cons.1 h
    have hbounded := (extends_after? hs hu).bounded hs
    obtain ⟨⟨front, hfront, rfl⟩, _⟩ | ⟨_, hcall⟩ := after?_cases hs hu
    · exact stray_afterAll? hbounded (Builder.stray_defining hs hfront) hrest
    · refine ih hbounded hrest fun htidy => hnot ⟨hcall, fun v hv => ?_⟩
      obtain rfl := Option.some.inj (hu.symm.trans hv)
      exact htidy

theorem valid_of_tidy [IdSpace] (hs : s.Bounded) (hvalid : s.Valid) (h : afterAll? calls s = some t)
    (htidy : Tidy calls s) : t.Valid := by
  induction calls generalizing s with
  | nil =>
    obtain rfl := Option.some.inj h
    exact hvalid
  | cons call calls ih =>
    obtain ⟨u, hu, hrest⟩ := afterAll?_cons.1 h
    refine ih ((extends_after? hs hu).bounded hs) ?_ hrest (htidy.2 u hu)
    obtain ⟨_, hcall⟩ | ⟨rfl | ⟨hrun, _⟩, _⟩ := after?_cases hs hu
    · exact absurd hcall htidy.1
    · exact hvalid
    · exact valid_run hvalid hrun

/-- A call that fails leaves a builder as it was unless it strands values. -/
theorem eq_self_iff_of_error [IdSpace] (hs : s.Bounded) {e : BuildError} (hrun : call.run.run s = .error e t)
    (he : e.crash? = none) : t = s ↔ ¬call.Strands s := by
  have hafter : call.after? s = some t := by rw [after?, hrun]; exact if_pos he
  obtain ⟨⟨front, hfront, rfl⟩, hcall⟩ | ⟨rfl | ⟨hok, _⟩, hcall⟩ := after?_cases hs hafter
  · refine iff_of_false (fun heq => hfront ?_) (not_not.2 hcall)
    exact List.length_eq_zero_iff.1 (Nat.add_eq_left.1 (congrArg Builder.nextValue heq))
  · exact iff_of_true rfl hcall
  · rw [hrun] at hok
    cases hok

/-- **Calls that fail.** After any calls, failed ones included, one more call that fails leaves the builder as it was if
and only if it strands no values, and the builder is finished with a block that passes the check if and only if no call
has stranded any. -/
theorem finish_afterAll [IdSpace] {name : String} (hs : afterAll? calls (.empty name) = some s) :
    (∀ (call : BuildCall) e t, call.run.run s = .error e t → e.crash? = none → (t = s ↔ ¬call.Strands s)) ∧
      ∀ outputs, (∀ id ∈ outputs, (s.block.value? id).isSome) →
        ∃ b, s.finish outputs = .ok b ∧ (b.check = .ok () ↔ Tidy calls (.empty name)) := by
  have hempty := Builder.bounded_empty name
  refine ⟨fun call e t => eq_self_iff_of_error (bounded_afterAll? hempty hs), fun outputs houtputs => ?_⟩
  have hfinish := Builder.finish_eq_ok.2 ⟨houtputs, rfl⟩
  refine ⟨_, hfinish, fun hcheck => ?_, fun htidy => ?_⟩
  · by_contra htidy
    obtain ⟨r, hr, hundefined⟩ := stray_of_not_tidy hempty hs htidy
    exact hundefined (((Block.check_eq_ok.1 hcheck).1.recorded r.id).2 (List.mem_map_of_mem hr))
  · exact ((valid_of_tidy hempty (Builder.valid_empty name) hs htidy).finish hfinish).1

/-- Calls of which three fail: a name is taken, a value is not known, and the first result of a custom operation has a
name that is taken. -/
def mishaps : List BuildCall :=
  [.addInput "x" (.ofExtents .f32 [3]),
    .addInput "x" (.ofExtents .f32 [4]),
    .emit (.unary .relu) [⟨5⟩],
    .emitCustom "split" [⟨0⟩] [("x", .ofExtents .f32 [1]), ("y", .ofExtents .f32 [2])],
    .emitNamed "y" (.unary .relu) [⟨0⟩]]

theorem finish_mishaps : Tidy mishaps (.empty "main") ∧ ∃ s b, afterAll? mishaps (.empty "main") = some s ∧
    (BuildCall.run (.addInput "y" (.ofExtents .f32 [3]))).run s = .error (.duplicateName "y") s ∧
      s.finish [⟨1⟩] = .ok b ∧ b.check = .ok () := by
  have htidy : Tidy mishaps (.empty "main") := by decide +kernel
  obtain ⟨s, hs⟩ : ∃ s, afterAll? mishaps (.empty "main") = some s := ⟨_, rfl⟩
  have heval : ∀ s ∈ afterAll? mishaps (.empty "main"), (s.block.value? ⟨1⟩).isSome ∧ "y" ∈ s.names := by decide +kernel
  obtain ⟨hknown, htaken⟩ := heval s hs
  have hfail : (BuildCall.run (.addInput "y" (.ofExtents .f32 [3]))).run s = .error (.duplicateName "y") s :=
    Builder.run_bind_error (Builder.run_bind_error (Builder.run_defineValue_error htaken _))
  obtain ⟨_, hfinish⟩ := finish_afterAll hs
  obtain ⟨b, hb, hcheck⟩ := hfinish [⟨1⟩] (List.forall_mem_singleton.2 hknown)
  exact ⟨htidy, s, b, hs, hfail, hb, hcheck.2 htidy⟩

/-- A second result whose name is taken leaves the first one behind, and a block with a value that nothing defines. -/
theorem stranded_split : ∃ s t b, afterAll? [.addInput "x" (.ofExtents .f32 [3])] (.empty "main") = some s ∧
    (BuildCall.run (.emitCustom "split" [⟨0⟩] [("y", .ofExtents .f32 [1]), ("x", .ofExtents .f32 [2])])).run s =
      .error (.duplicateName "x") t ∧ t ≠ s ∧ t.finish [⟨0⟩] = .ok b ∧ b.check = .error (.orphanValue ⟨1⟩) := by
  refine ⟨_, _, _, rfl, rfl, ?_, rfl, ?_⟩
  · decide +kernel
  · decide +kernel

end BuildCall

end Relayout
