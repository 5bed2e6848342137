import Relayout.Layout.Absorb
import Relayout.Proofs.Permutation
import Relayout.Proofs.Results
import Relayout.WellFormed

/-!
# Operations that absorb

`absorb_cases` says once which operations absorb and by which rule; the rules are opened one by one
(`absorbBroadcast_eq_ok`, `absorbReduce_eq_some`, `absorbConcat_eq_ok`, `absorbPad_eq_some`).

What `absorb` leaves alone, whatever the layouts are: an operation that absorbs is neither a transpose nor a constant and
keeps its name and its numbers of operands (`absorb_kind`), and payloads are only put into slots that hold constants,
into each of them once (`absorb_constants`).
-/

namespace Relayout

/-- Operations on single elements. -/
def OpKind.isPointwise : OpKind → Bool
  | .unary _ | .activation _ => true
  | _ => false

namespace Layout

variable {kind : OpKind} {views : List View} {p : List Nat} {a : Absorption}

theorem orRefuse_eq_ok {α : Type} {x : Option α} {y : α} : orRefuse x = .ok y ↔ x = some y := by
  cases x <;> simp [orRefuse]

theorem replacement_eq_ok {x : Except Literal.Error Literal} {new : Literal} : replacement x = .ok new ↔ x = .ok new := by
  rcases x with (_ | _ | _ | _ | _ | _) | _ <;> simp [replacement]

/-- An attempt that may be refused but does not break off. -/
def Attempt.Answers {α : Type} (x : Attempt α) : Prop :=
  ∀ c, x ≠ .error (.crash c)

section Answers

variable {α β : Type}

theorem answers_ok (a : α) : Attempt.Answers (.ok a) :=
  fun _ h => by cases h

theorem answers_refused : Attempt.Answers (.error .refused : Attempt α) :=
  fun _ h => by cases h

theorem answers_orRefuse (x : Option α) : (orRefuse x).Answers := by
  cases x with
  | none => exact answers_refused
  | some a => exact answers_ok a

theorem Attempt.Answers.bind {x : Attempt α} {f : α → Attempt β} (hx : x.Answers) (hf : ∀ a, x = .ok a → (f a).Answers) :
    Attempt.Answers (x >>= f) := by
  cases x with
  | ok a => exact hf a rfl
  | error e => exact fun c h => hx c (by cases h; rfl)

theorem answers_mapM {f : α → Attempt β} {xs : List α} (h : ∀ x ∈ xs, (f x).Answers) :
    Attempt.Answers (xs.mapM f) := by
  induction xs with
  | nil => exact answers_ok []
  | cons x xs ih =>
    rw [List.mapM_cons]
    exact (h x List.mem_cons_self).bind fun _ _ =>
      (ih fun x hx => h x (List.mem_cons_of_mem _ hx)).bind fun _ _ => answers_ok _

theorem answers_replacement {x : Except Literal.Error Literal} (h : ∀ c, x ≠ .error (.crash c)) :
    (replacement x).Answers := by
  intro c hc
  unfold replacement at hc
  split at hc
  · cases hc
  · rename_i crash
    exact h crash rfl
  · cases hc

end Answers

/-! ## Rules -/

/-- How an operation absorbs. -/
inductive Absorbing (kind : OpKind) (views : List View) (p : List Nat) (a : Absorption) : Prop
  | pointwise (hk : kind.isPointwise) (ha : a = { kind := kind, outputPerm := some p })
  | broadcast (f : Binary) (hk : kind = .binary f) (ha : absorbBroadcast kind views p = .ok a)
  | reduce (spec : Reduce) (hk : kind = .reduce spec) (ha : absorbReduce spec p = some a)
  | concat (axis : Nat) (hk : kind = .concat axis) (ha : absorbConcat axis views p = .ok a)
  | pad (spec : Pad) (hk : kind = .pad spec) (ha : absorbPad spec p = some a)

/-- An operation absorbs by the rule of its kind, and its operands agree on what is pending. -/
theorem absorb_cases (h : absorb kind views p = .ok a) :
    ((∃ q, View.pending q ∈ views) ∧ Perm.isPermutation p ∧ ∀ q, View.pending q ∈ views → q = p) ∧
      Absorbing kind views p a := by
  unfold absorb at h
  dsimp only at h
  split at h
  · cases h
  · rename_i hc
    simp only [Bool.or_eq_true, Bool.not_eq_true', not_or, Bool.not_eq_false] at hc
    obtain ⟨⟨hany, hperm⟩, hall⟩ := hc
    refine ⟨⟨?_, hperm, fun q hq => ?_⟩, ?_⟩
    · obtain ⟨v, hv, hp⟩ := List.any_eq_true.1 hany
      cases v with
      | pending q => exact ⟨q, hv⟩
      | constant _ => cases hp
      | concrete _ => cases hp
    · have := List.all_eq_true.1 hall _ hq
      simpa using this
    · cases kind with
      | unary f => exact .pointwise rfl (Except.ok.inj h).symm
      | activation f => exact .pointwise rfl (Except.ok.inj h).symm
      | binary f => exact .broadcast f rfl h
      | reduce spec => exact .reduce spec rfl (orRefuse_eq_ok.1 h)
      | concat axis => exact .concat axis rfl h
      | pad spec => exact .pad spec rfl (orRefuse_eq_ok.1 h)
      | pool _ => cases h
      | custom _ => cases h
      | transpose _ => cases h
      | const _ => cases h

theorem absorbBroadcast_eq_ok (h : absorbBroadcast kind views p = .ok a) :
    ∃ left right c d, views = [left, right] ∧ broadcastOperand p 0 left = .ok c ∧ broadcastOperand p 1 right = .ok d ∧
      a = ⟨kind, c ++ d, some p⟩ := by
  unfold absorbBroadcast at h
  split at h
  · rename_i left right
    obtain ⟨c, hc, h⟩ := bind_eq_ok.1 h
    obtain ⟨d, hd, h⟩ := bind_eq_ok.1 h
    exact ⟨left, right, c, d, rfl, hc, hd, (Except.ok.inj h).symm⟩
  · cases h

theorem absorbReduce_eq_some {spec : Reduce} (h : absorbReduce spec p = some a) :
    ∃ axes, Perm.select? p spec.axes = some axes ∧ a.kind = .reduce { spec with axes := axes } ∧ a.constants = [] ∧
      a.outputPerm = (let rest := Perm.restrict p (if spec.axes.isEmpty then Perm.identity p.length else spec.axes)
        if spec.keepDims then some p else if rest.isEmpty || Perm.isIdentity rest then none else some rest) := by
  obtain ⟨axes, haxes, h⟩ := Option.bind_eq_some_iff.1 h
  have ha := (Option.some.inj h).symm
  subst ha
  exact ⟨axes, haxes, rfl, rfl, rfl⟩

theorem absorbConcat_eq_ok {axis : Nat} (h : absorbConcat axis views p = .ok a) :
    ∃ source constants, p[axis]? = some source ∧
      List.Forall₂ (fun e c => concatOperand p e.2 e.1 = .ok c) views.zipIdx constants ∧
      a = ⟨.concat source, constants.flatten, some p⟩ := by
  obtain ⟨source, hsource, h⟩ := bind_eq_ok.1 h
  obtain ⟨constants, hconstants, h⟩ := bind_eq_ok.1 h
  exact ⟨source, constants, orRefuse_eq_ok.1 hsource, mapM_eq_ok.1 hconstants, (Except.ok.inj h).symm⟩

theorem absorbPad_eq_some {spec : Pad} (h : absorbPad spec p = some a) :
    let padded := spec.amounts.length / 2
    let moved := movedRows p (spec.rows p.length)
    2 ≤ p.length ∧ spec.amounts.length % 2 = 0 ∧ padded ≤ p.length ∧
      (∀ row ∈ moved.take (p.length - padded), row = (0, 0)) ∧
      (spec.mode ≠ .constant → ∀ row ∈ moved.take (p.length - 2), row = (0, 0)) ∧
      a = ⟨.pad { spec with amounts := (moved.drop (p.length - padded)).flatMap fun (before, after) => [before, after] },
        [], some p⟩ := by
  unfold absorbPad at h
  dsimp only at h ⊢
  have hnone : ∀ rows : List (Nat × Nat), ¬(rows.any fun row => row != (0, 0)) = true → ∀ row ∈ rows, row = (0, 0) :=
    fun rows hrows row hrow => by
      by_contra hne
      exact hrows (List.any_eq_true.2 ⟨row, hrow, by simpa using hne⟩)
  split at h
  · cases h
  · rename_i hc
    split at h
    · cases h
    · rename_i htake
      split at h
      · cases h
      · rename_i hmode
        simp only [not_or, not_not] at hc
        refine ⟨by omega, hc.2.1, by omega, hnone _ htake, fun hm => hnone _ fun hany => hmode ⟨hm, hany⟩,
          (Option.some.inj h).symm⟩

/-! ## What stays -/

/-- An operation that absorbs stays one of its kind, and is no transpose. -/
theorem absorb_kind (h : absorb kind views p = .ok a) :
    kind.isTranspose = false ∧ a.kind.isTranspose = false ∧ kind.isConst = false ∧ a.kind.arity? = kind.arity? ∧
      a.kind.name = kind.name ∧ a.kind.isCustom = false ∧ kind.isCustom = false := by
  cases (absorb_cases h).2 with
  | pointwise hk ha =>
    subst ha
    cases kind with
    | unary f => exact ⟨rfl, rfl, rfl, rfl, rfl, rfl, rfl⟩
    | activation f => exact ⟨rfl, rfl, rfl, rfl, rfl, rfl, rfl⟩
    | _ => cases hk
  | broadcast f hk ha =>
    obtain ⟨_, _, _, _, _, _, _, rfl⟩ := absorbBroadcast_eq_ok ha
    subst hk
    exact ⟨rfl, rfl, rfl, rfl, rfl, rfl, rfl⟩
  | reduce spec hk ha =>
    obtain ⟨axes, _, hkind, _⟩ := absorbReduce_eq_some ha
    subst hk
    rw [hkind]
    exact ⟨rfl, rfl, rfl, rfl, rfl, rfl, rfl⟩
  | concat axis hk ha =>
    obtain ⟨_, _, _, _, rfl⟩ := absorbConcat_eq_ok ha
    subst hk
    exact ⟨rfl, rfl, rfl, rfl, rfl, rfl, rfl⟩
  | pad spec hk ha =>
    obtain ⟨_, _, _, _, _, rfl⟩ := absorbPad_eq_some ha
    subst hk
    exact ⟨rfl, rfl, rfl, rfl, rfl, rfl, rfl⟩

theorem broadcastOperand_slot {slot : Nat} {view : View} {c : List (Nat × Literal)}
    (h : broadcastOperand p slot view = .ok c) :
    c = [] ∨ ∃ literal new, view = .constant literal ∧ c = [(slot, new)] ∧
      broadcastConstant literal p = .ok (some new) := by
  cases view with
  | pending q => exact .inl (Except.ok.inj h).symm
  | constant literal =>
    obtain ⟨payload, hp, h⟩ := bind_eq_ok.1 h
    obtain rfl := Except.ok.inj h
    cases payload with
    | none => exact .inl rfl
    | some new => exact .inr ⟨literal, new, rfl, rfl, hp⟩
  | concrete type =>
    rw [broadcastOperand] at h
    split at h
    · exact .inl (Except.ok.inj h).symm
    · cases h

theorem concatOperand_slot {slot : Nat} {view : View} {c : List (Nat × Literal)}
    (h : concatOperand p slot view = .ok c) :
    (∃ q, view = .pending q ∧ c = []) ∨ ∃ literal new, view = .constant literal ∧ c = [(slot, new)] ∧
      literal.type.rank = p.length ∧ literal.permuted (Perm.inverse p) = .ok new := by
  cases view with
  | pending q => exact .inl ⟨q, rfl, (Except.ok.inj h).symm⟩
  | constant literal =>
    rw [concatOperand] at h
    split at h
    · rename_i hrank
      obtain ⟨new, hnew, h⟩ := bind_eq_ok.1 h
      exact .inr ⟨literal, new, rfl, (Except.ok.inj h).symm, hrank, replacement_eq_ok.1 hnew⟩
    · cases h
  | concrete type => cases h

/-- A constant and what is put in its place. -/
inductive Payload (p : List Nat) (literal new : Literal) : Prop
  | broadcast (h : broadcastConstant literal p = .ok (some new))
  | concat (hrank : literal.type.rank = p.length) (h : literal.permuted (Perm.inverse p) = .ok new)

/-- Payloads go into slots that hold constants, into each of them once. -/
theorem absorb_constants (h : absorb kind views p = .ok a) :
    (a.constants.map (·.1)).Nodup ∧
      ∀ c ∈ a.constants, ∃ literal, views[c.1]? = some (.constant literal) ∧ Payload p literal c.2 := by
  cases (absorb_cases h).2 with
  | pointwise hk ha =>
    subst ha
    exact ⟨List.nodup_nil, fun c hc => (by cases hc)⟩
  | broadcast f hk ha =>
    obtain ⟨left, right, c, d, rfl, hc, hd, rfl⟩ := absorbBroadcast_eq_ok ha
    rcases broadcastOperand_slot hc with rfl | ⟨m, new, rfl, rfl, hm⟩ <;>
      rcases broadcastOperand_slot hd with rfl | ⟨m', new', rfl, rfl, hm'⟩ <;> simp [Payload.broadcast, *]
  | reduce spec hk ha =>
    obtain ⟨axes, _, _, hconstants, _⟩ := absorbReduce_eq_some ha
    rw [hconstants]
    exact ⟨List.nodup_nil, fun c hc => (by cases hc)⟩
  | concat axis hk ha =>
    obtain ⟨source, constants, _, hall, rfl⟩ := absorbConcat_eq_ok ha
    have key : ∀ (views : List View) (start : Nat) (constants : List (List (Nat × Literal))),
        List.Forall₂ (fun e c => concatOperand p e.2 e.1 = .ok c) (views.zipIdx start) constants →
        (constants.flatten.map (·.1)).Nodup ∧ ∀ c ∈ constants.flatten, start ≤ c.1 ∧
          ∃ literal, views[c.1 - start]? = some (.constant literal) ∧ Payload p literal c.2 := by
      intro views
      induction views with
      | nil =>
        intro start constants hall
        cases hall
        exact ⟨List.nodup_nil, fun c hc => (by cases hc)⟩
      | cons view views ih =>
        intro start constants hall
        rw [List.zipIdx_cons, List.forall₂_cons_left_iff] at hall
        obtain ⟨c, rest, hc, hrest, rfl⟩ := hall
        obtain ⟨hnd, hmem⟩ := ih (start + 1) rest hrest
        have hmem' : ∀ e ∈ rest.flatten, start < e.1 ∧
            ∃ literal, (view :: views)[e.1 - start]? = some (.constant literal) ∧ Payload p literal e.2 := by
          intro e he
          obtain ⟨hle, literal, hl, hpay⟩ := hmem e he
          refine ⟨by omega, literal, ?_, hpay⟩
          rw [show e.1 - start = e.1 - (start + 1) + 1 by omega, List.getElem?_cons_succ]
          exact hl
        rcases concatOperand_slot hc with ⟨q, rfl, rfl⟩ | ⟨literal, new, rfl, rfl, hrank, hnew⟩
        · exact ⟨hnd, fun e he => ⟨(hmem' e he).1.le, (hmem' e he).2⟩⟩
        · refine ⟨?_, fun e he => ?_⟩
          · rw [List.flatten_cons, List.map_append, List.nodup_append]
            refine ⟨List.nodup_singleton start, hnd, ?_⟩
            rintro i hi j hj rfl
            obtain ⟨e, he, rfl⟩ := List.mem_map.1 hj
            have := (hmem' e he).1
            rw [List.mem_singleton.1 hi] at this
            exact lt_irrefl _ this
          · rw [List.flatten_cons, List.mem_append] at he
            rcases he with he | he
            · rw [List.mem_singleton.1 he]
              exact ⟨le_rfl, literal, by simp, .concat hrank hnew⟩
            · exact ⟨(hmem' e he).1.le, (hmem' e he).2⟩
    obtain ⟨hnd, hmem⟩ := key views 0 constants hall
    exact ⟨hnd, fun c hc => (hmem c hc).2⟩
  | pad spec hk ha =>
    obtain ⟨_, _, _, _, _, rfl⟩ := absorbPad_eq_some ha
    exact ⟨List.nodup_nil, fun c hc => (by cases hc)⟩

end Layout

end Relayout
