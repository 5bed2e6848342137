import Relayout.Proofs.Tensors

/-!
# Evaluation under transpose reduction

Evaluation goes through a block in order, but its outcome is one tensor for each value under which all operations hold
(`Block.Evaluates`), and every such assignment is found (`evaluate_eq_ok`). If types are recorded and extents are positive,
the assignment is a reading of the block (`Evaluates.reads`), and a reading is an assignment (`Evaluates.of_reads`).

Readings follow a block through transpose reduction, so evaluation of the outcome gives the same tensors
(`reduceTransposes_evaluate`).
-/

namespace Relayout

open Layout
open List (range)

variable {α : Type}

/-- One tensor for each value: the inputs have the given ones, of the declared extents, and all operations hold. -/
structure Block.Evaluates [Kernels α] (b : Block) (inputs : List (Tensor α)) (tensor : ValueId → Tensor α) : Prop where
  inputs_eq : b.inputs.map tensor = inputs
  fits : ∀ v ∈ b.inputs, ∀ dims, (b.type? v).bind (·.extents?) = some dims → dims = (tensor v).dims
  ops : ∀ o ∈ b.operations, ∃ y, o.outputs = [y] ∧ o.kind.evaluate (o.inputs.map tensor) = .ok (tensor y)

/-! ## Runs -/

variable [Kernels α]

namespace Block

theorem output?_eq_some {o : Operation} {y : ValueId} : o.output? = some y ↔ o.outputs = [y] := by
  unfold Operation.output?
  split
  · rename_i h
    rw [h]
    simp
  · rename_i h
    simp only [reduceCtorEq, false_iff]
    exact h y

omit [Kernels α] in
theorem fetch_eq_ok {env : Env α} {missing : ValueId → EvalError} {ids : List ValueId} {xs : List (Tensor α)} :
    fetch env missing ids = .ok xs ↔ List.Forall₂ (fun v x => env.lookup v = some x) ids xs := by
  rw [fetch, mapM_eq_ok]
  constructor
  · refine fun h => h.imp fun v x hx => ?_
    split at hx
    · rename_i hv
      rw [hv, Except.ok.inj hx]
    · cases hx
  · exact fun h => h.imp fun v x hx => by rw [hx]

omit [Kernels α] in
theorem mem_of_lookup {env : Env α} {v : ValueId} {x : Tensor α} (h : env.lookup v = some x) : (v, x) ∈ env := by
  obtain ⟨l₁, l₂, rfl, _⟩ := List.lookup_eq_some_iff.1 h
  exact List.mem_append_right _ List.mem_cons_self

theorem evaluateOp_eq_ok {o : Operation} {env env' : Env α} : evaluateOp o env = .ok env' ↔
    ∃ y args x, o.outputs = [y] ∧ List.Forall₂ (fun v x => env.lookup v = some x) o.inputs args ∧
      o.kind.evaluate args = .ok x ∧ env' = (y, x) :: env := by
  rw [evaluateOp, bind_eq_ok]
  constructor
  · rintro ⟨args, hargs, h⟩
    obtain ⟨x, hx, h⟩ := bind_eq_ok.1 h
    split at h
    · rename_i y hy
      exact ⟨y, args, x, output?_eq_some.1 hy, fetch_eq_ok.1 hargs, hx, (Except.ok.inj h).symm⟩
    · cases h
  · rintro ⟨y, args, x, hy, hargs, hx, rfl⟩
    refine ⟨args, fetch_eq_ok.2 hargs, bind_eq_ok.2 ⟨x, hx, ?_⟩⟩
    rw [output?_eq_some.2 hy]

/-- What a run leaves: results are added, and every operation has read and written what is in the end there. -/
theorem evaluateOps_eq_ok {ops : List Operation} {env env' : Env α} (h : evaluateOps ops env = .ok env') :
    env <:+ env' ∧ (env'.map (·.1)).Perm (env.map (·.1) ++ results ops) ∧ ∀ o ∈ ops, ∃ y args x, o.outputs = [y] ∧
      List.Forall₂ (fun v x => (v, x) ∈ env') o.inputs args ∧ o.kind.evaluate args = .ok x ∧ (y, x) ∈ env' := by
  induction ops generalizing env with
  | nil =>
    obtain rfl := Except.ok.inj h
    exact ⟨List.suffix_refl _, by simp, fun o ho => (by cases ho)⟩
  | cons o ops ih =>
    rw [evaluateOps, bind_eq_ok] at h
    obtain ⟨env₁, hop, h⟩ := h
    obtain ⟨y, args, x, hout, hargs, hx, rfl⟩ := evaluateOp_eq_ok.1 hop
    obtain ⟨hsuffix, hkeys, hops⟩ := ih h
    have hsub : ∀ e ∈ env, e ∈ env' := fun e he => hsuffix.subset (List.mem_cons_of_mem _ he)
    refine ⟨(List.suffix_cons _ _).trans hsuffix, ?_, List.forall_mem_cons.2 ⟨?_, hops⟩⟩
    · rw [results_cons, hout]
      exact hkeys.trans (by simpa using List.perm_middle.symm)
    · exact ⟨y, args, x, hout, hargs.imp fun v x hv => hsub _ (mem_of_lookup hv), hx, hsuffix.subset List.mem_cons_self⟩

/-- A run finds every assignment under which the operations hold. -/
theorem exists_evaluateOps {tensor : ValueId → Tensor α} {scope : List ValueId} {ops : List Operation} {env : Env α}
    (hscoped : Scoped scope ops)
    (hops : ∀ o ∈ ops, ∃ y, o.outputs = [y] ∧ o.kind.evaluate (o.inputs.map tensor) = .ok (tensor y))
    (henv : ∀ v ∈ scope, env.lookup v = some (tensor v)) :
    ∃ env', evaluateOps ops env = .ok env' ∧ ∀ v ∈ scope ++ results ops, env'.lookup v = some (tensor v) := by
  induction ops generalizing scope env with
  | nil => exact ⟨env, rfl, by simpa using henv⟩
  | cons o ops ih =>
    obtain ⟨y, hout, hy⟩ := hops o List.mem_cons_self
    have hargs : List.Forall₂ (fun v x => env.lookup v = some x) o.inputs (o.inputs.map tensor) := by
      rw [List.forall₂_map_right_iff, List.forall₂_same]
      exact fun v hv => henv v (hscoped.1 v hv)
    have henv' : ∀ v ∈ scope ++ o.outputs, List.lookup v ((y, tensor y) :: env) = some (tensor v) := fun v hv => by
      rw [List.lookup_cons]
      by_cases he : v = y
      · subst he
        simp
      · rw [beq_false_of_ne he]
        rw [hout, List.mem_append, List.mem_singleton] at hv
        exact henv v (hv.resolve_right he)
    obtain ⟨env', hrun, hfound⟩ := ih hscoped.2 (fun o ho => hops o (List.mem_cons_of_mem _ ho)) henv'
    refine ⟨env', ?_, fun v hv => hfound v (by simpa using hv)⟩
    rw [evaluateOps, evaluateOp_eq_ok.2 ⟨y, _, _, hout, hargs, hy, rfl⟩]
    exact hrun

omit [Kernels α] in
/-- Inputs are bound if their extents are the declared ones. -/
theorem bindInputs_eq_ok {b : Block} {pairs env env' : Env α} : b.bindInputs pairs env = .ok env' ↔
    (∀ v x, (v, x) ∈ pairs → ∀ dims, (b.type? v).bind (·.extents?) = some dims → dims = x.dims) ∧
      env' = pairs.reverse ++ env := by
  induction pairs generalizing env with
  | nil => simp [bindInputs, eq_comm]
  | cons e pairs ih =>
    obtain ⟨v, x⟩ := e
    have hfit : b.bindInputs ((v, x) :: pairs) env = .ok env' ↔
        (∀ dims, (b.type? v).bind (·.extents?) = some dims → dims = x.dims) ∧
          b.bindInputs pairs ((v, x) :: env) = .ok env' := by
      rw [bindInputs]
      split
      · rename_i hnone
        simp [hnone]
      · rename_i dims hsome
        simp only [hsome, Option.some.injEq, forall_eq']
        split
        · rename_i he
          simp [he]
        · rename_i he
          simp [he]
    rw [hfit, ih, ← and_assoc]
    refine and_congr ?_ (by simp)
    simp only [List.mem_cons, Prod.mk.injEq]
    constructor
    · rintro ⟨h, h'⟩ w z (⟨rfl, rfl⟩ | hmem)
      · exact h
      · exact h' w z hmem
    · exact fun h => ⟨h v x (.inl ⟨rfl, rfl⟩), fun w z hmem => h w z (.inr hmem)⟩

theorem zip_map_self {β γ : Type} (f : β → γ) (xs : List β) : xs.zip (xs.map f) = xs.map fun x => (x, f x) := by
  have := List.zip_map' (l := xs) (f := id) (g := f)
  rwa [List.map_id] at this

omit [Kernels α] in
theorem lookup_map_self {tensor : ValueId → Tensor α} {ids : List ValueId} {v : ValueId} (h : v ∈ ids) :
    (ids.map fun v => (v, tensor v)).lookup v = some (tensor v) := by
  induction ids with
  | nil => cases h
  | cons w ids ih =>
    rw [List.map_cons, List.lookup_cons]
    by_cases he : v = w
    · subst he
      simp
    · rw [beq_false_of_ne he]
      exact ih ((List.mem_cons.1 h).resolve_left he)

/-- Evaluation finds the assignments under which all operations hold. -/
theorem evaluate_eq_ok {b : Block} (hs : b.Sound) {inputs outs : List (Tensor α)} :
    b.evaluate inputs = .ok outs ↔ ∃ tensor, b.Evaluates inputs tensor ∧ b.outputs.map tensor = outs := by
  constructor
  · intro h
    unfold evaluate at h
    split at h
    · cases h
    · rename_i hlen
      rw [not_not] at hlen
      obtain ⟨env₀, hbind, h⟩ := bind_eq_ok.1 h
      obtain ⟨env, hrun, hfetch⟩ := bind_eq_ok.1 h
      obtain ⟨hfits, rfl⟩ := bindInputs_eq_ok.1 hbind
      obtain ⟨hsuffix, hkeys, hops⟩ := evaluateOps_eq_ok hrun
      rw [List.append_nil] at hsuffix hkeys
      have hnodup : (env.map (·.1)).Nodup := by
        refine (hkeys.trans ?_).nodup_iff.2 hs.definedOnce
        rw [List.map_reverse, List.map_fst_zip hlen.ge]
        exact (List.reverse_perm _).append_right _
      let tensor (v : ValueId) : Tensor α := (env.lookup v).getD ⟨[0], #[], rfl⟩
      have htensor : ∀ {v x}, (v, x) ∈ env → tensor v = x := fun {v x} hmem => by
        simp only [tensor, (lookup_eq_some_of_nodup hnodup).2 hmem, Option.getD_some]
      have hmap : ∀ {ids xs}, List.Forall₂ (fun v x => (v, x) ∈ env) ids xs → ids.map tensor = xs := fun {ids xs} hall => by
        rw [← List.forall₂_eq_eq_eq, List.forall₂_map_left_iff]
        exact hall.imp fun v x hmem => htensor hmem
      have hin : ∀ e ∈ b.inputs.zip inputs, e ∈ env := fun e he => hsuffix.subset (List.mem_reverse.2 he)
      have hinputs : b.inputs.map tensor = inputs := hmap (List.forall₂_iff_zip.2 ⟨hlen.symm, fun he => hin _ he⟩)
      refine ⟨tensor, ⟨hinputs, fun v hv => hfits v _ ?_, fun o ho => ?_⟩,
        hmap ((fetch_eq_ok.1 hfetch).imp fun v x hx => mem_of_lookup hx)⟩
      · rw [← hinputs, zip_map_self]
        exact List.mem_map_of_mem hv
      · obtain ⟨y, args, x, hout, hargs, hx, hy⟩ := hops o ho
        exact ⟨y, hout, by rw [hmap hargs, hx, htensor hy]⟩
  · rintro ⟨tensor, ⟨rfl, hfits, hops⟩, rfl⟩
    have hbind : b.bindInputs (b.inputs.zip (b.inputs.map tensor)) [] = .ok (b.inputs.reverse.map fun v => (v, tensor v)) := by
      rw [zip_map_self, bindInputs_eq_ok]
      refine ⟨fun v x hmem => ?_, by rw [List.map_reverse, List.append_nil]⟩
      obtain ⟨w, hw, he⟩ := List.mem_map.1 hmem
      obtain ⟨rfl, rfl⟩ := Prod.mk.inj he
      exact hfits w hw
    have hbound : ∀ v ∈ b.inputs, (b.inputs.reverse.map fun v => (v, tensor v)).lookup v = some (tensor v) :=
      fun v hv => lookup_map_self (List.mem_reverse.2 hv)
    obtain ⟨env, hrun, hfound⟩ := exists_evaluateOps hs.scopes hops hbound
    rw [evaluate, if_neg (by simp), hbind]
    refine bind_eq_ok.2 ⟨_, rfl, bind_eq_ok.2 ⟨env, hrun, fetch_eq_ok.2 ?_⟩⟩
    rw [List.forall₂_map_right_iff, List.forall₂_same]
    exact fun v hv => hfound v (hs.outputsDefined v hv)

end Block

/-! ## Assignments are readings -/

/-- An extent that is fixed and positive. -/
def Dim.isPositive : Dim → Bool
  | .fixed extent => decide (0 < extent)
  | .dynamic _ => false

/-- All recorded extents are fixed and positive. -/
def Block.PositiveExtents (b : Block) : Prop :=
  ∀ r ∈ b.values, ∀ d ∈ r.type.dims, d.isPositive

instance (b : Block) : Decidable b.PositiveExtents :=
  inferInstanceAs (Decidable (∀ r ∈ b.values, ∀ d ∈ r.type.dims, d.isPositive))

theorem Dim.exists_extents {dims : List Dim} (h : ∀ d ∈ dims, d.isPositive) :
    ∃ extents : List Nat, dims = extents.map .fixed ∧ ∀ d ∈ extents, 0 < d := by
  induction dims with
  | nil => exact ⟨[], rfl, fun d hd => (by cases hd)⟩
  | cons d dims ih =>
    obtain ⟨hd, hdims⟩ := List.forall_mem_cons.1 h
    obtain ⟨extents, rfl, hpos⟩ := ih hdims
    cases d with
    | fixed extent => exact ⟨extent :: extents, rfl, List.forall_mem_cons.2 ⟨of_decide_eq_true hd, hpos⟩⟩
    | dynamic symbol => cases hd

namespace Block

variable {b : Block} {inputs : List (Tensor α)} {tensor : ValueId → Tensor α}

/-- The tensor of a value, with its recorded element type. -/
def meaning (b : Block) (tensor : ValueId → Tensor α) (v : ValueId) : TypedTensor α :=
  if h : ∀ d ∈ (tensor v).dims, 0 < d then ⟨((b.type? v).getD ⟨.f32, []⟩).elem, tensor v, h⟩
  else ⟨.f32, .scalar (Kernels.ofBinary ⟨0⟩), fun d hd => (by cases hd)⟩

/-- The recorded type of a value has the extents of its tensor, and they are positive. -/
def Describes (b : Block) (tensor : ValueId → Tensor α) (v : ValueId) : Prop :=
  (∃ t, b.type? v = some t ∧ t.dims = (tensor v).dims.map .fixed) ∧ ∀ d ∈ (tensor v).dims, 0 < d

theorem Describes.meaning_eq {v : ValueId} (h : b.Describes tensor v) :
    (b.meaning tensor v).tensor = tensor v ∧ b.type? v = some (b.meaning tensor v).type := by
  obtain ⟨⟨t, ht, hdims⟩, hpos⟩ := h
  rw [meaning, dif_pos hpos, ht]
  exact ⟨rfl, congrArg (fun ds => some (TensorType.mk t.elem ds)) hdims⟩

omit [Kernels α] in
theorem PositiveExtents.describes (h : b.PositiveExtents) {v : ValueId} {t : TensorType} (ht : b.type? v = some t)
    (hdims : ∀ dims, t.dims = dims.map .fixed → dims = (tensor v).dims) : b.Describes tensor v := by
  obtain ⟨r, hr, rfl⟩ := Option.map_eq_some_iff.1 ht
  obtain ⟨extents, he, hpos⟩ := Dim.exists_extents (h r (mem_of_value? hr).1)
  obtain rfl := hdims extents he
  exact ⟨⟨_, ht, he⟩, hpos⟩

section Typed

variable (hc : b.check = .ok ()) (ht : b.WellTyped) (hpos : b.PositiveExtents)
  (haxes : ∀ o ∈ b.operations, o.kind.reducesOneAxis) (h : b.Evaluates inputs tensor)

include hc ht hpos haxes h

/-- If the recorded types of its operands have the extents of their tensors, an operation gives its meaning to its
result, and the recorded type of that has the extents of its tensor. -/
theorem Evaluates.step {o : Operation} (ho : o ∈ b.operations) (hin : ∀ v ∈ o.inputs, b.Describes tensor v) :
    ∃ y, o.outputs = [y] ∧ b.Describes tensor y ∧
      (TypedTensor.reading α).apply o.kind (o.inputs.map (b.meaning tensor)) = some (b.meaning tensor y) := by
  obtain ⟨y, hout, hy⟩ := h.ops o ho
  have htypes := reads_types hc ht
  have hresult := Typing.reading_apply.1 (htypes.solution.apply_eq ho (OpKind.isCustom_of_evaluate hy) hout)
  have hargs : o.inputs.map (fun v => (b.type? v).getD ⟨.f32, []⟩) =
      (o.inputs.map (b.meaning tensor)).map TypedTensor.type := by
    rw [List.map_map]
    exact List.map_congr_left fun v hv => by rw [(hin v hv).meaning_eq.2]; rfl
  have htensors : o.inputs.map tensor = (o.inputs.map (b.meaning tensor)).map TypedTensor.tensor := by
    rw [List.map_map]
    exact List.map_congr_left fun v hv => (hin v hv).meaning_eq.1.symm
  rw [hargs] at hresult
  rw [htensors] at hy
  have hdesc : b.Describes tensor y := by
    refine hpos.describes (htypes.types y (Sound.output_defined ho (by simp [hout]))) fun dims hdims => ?_
    have he := evaluate_extents (TypedTensor.extents_type _) hresult hy
    exact List.map_injective_iff.2 (fun _ _ h => Dim.fixed.inj h) (hdims.symm.trans he)
  refine ⟨y, hout, hdesc, TypedTensor.reading_apply.2 ⟨haxes o ho, ?_, ?_⟩⟩
  · rw [hdesc.meaning_eq.2] at hresult
    exact hresult
  · rw [hdesc.meaning_eq.1]
    exact hy

/-- Recorded types have the extents of all tensors. -/
theorem Evaluates.describes : ∀ v ∈ b.defined, b.Describes tensor v := by
  have hs := (check_eq_ok.1 hc).1
  refine hs.scopes.forall (fun v hv => ?_) fun o ho hin y hy => ?_
  · obtain ⟨t, htype⟩ := hs.exists_type (mem_defined.2 (.inl hv))
    refine hpos.describes htype fun dims hdims => h.fits v hv dims ?_
    rw [htype]
    exact TensorType.extents?_eq_some.2 hdims
  · obtain ⟨y', hout, hdesc, _⟩ := h.step hc ht hpos haxes ho hin
    rw [hout, List.mem_singleton] at hy
    exact hy ▸ hdesc

/-- An assignment is a reading. -/
theorem Evaluates.reads : (TypedTensor.reading α).Reads b (b.meaning tensor) := by
  have hs := (check_eq_ok.1 hc).1
  have hdesc := h.describes hc ht hpos haxes
  refine ⟨hs, fun o ho => ?_, fun v hv => (hdesc v hv).meaning_eq.2⟩
  obtain ⟨y, hout, _, happ⟩ := h.step hc ht hpos haxes ho fun v hv => hdesc v (hs.input_defined ho hv)
  exact (Interpretation.holds_iff (OpKind.isCustom_of_evaluate (TypedTensor.reading_apply.1 happ).2.2)).2 ⟨y, hout, happ⟩

end Typed

/-- A reading is an assignment. -/
theorem Evaluates.of_reads {meaning : ValueId → TypedTensor α} (h : (TypedTensor.reading α).Reads b meaning) :
    b.Evaluates (b.inputs.map fun v => (meaning v).tensor) fun v => (meaning v).tensor := by
  refine ⟨rfl, fun v hv dims hdims => ?_, fun o ho => ?_⟩
  · rw [h.types v (mem_defined.2 (.inl hv)), Option.bind_some, TensorType.extents?_eq_some] at hdims
    exact (List.map_injective_iff.2 (fun _ _ h => Dim.fixed.inj h) hdims).symm
  · cases hk : o.kind.isCustom with
    | true =>
      have hholds := h.solution o ho
      rw [Interpretation.Holds, if_pos hk] at hholds
      exact hholds.elim
    | false =>
      obtain ⟨y, hout, happ⟩ := (Interpretation.holds_iff hk).1 (h.solution o ho)
      have hy := (TypedTensor.reading_apply.1 happ).2.2
      rw [List.map_map] at hy
      exact ⟨y, hout, hy⟩

end Block

namespace Layout

/-- The constants of a block that evaluates have all their elements, so those with positive extents can be moved. -/
theorem movable_of_evaluates {b : Block} (hc : b.check = .ok ()) (ht : b.WellTyped) (hpos : b.PositiveExtents)
    (haxes : ∀ o ∈ b.operations, o.kind.reducesOneAxis) {inputs : List (Tensor α)} {tensor : ValueId → Tensor α}
    (h : b.Evaluates inputs tensor) : ∀ l ∈ b.literals, l.Movable := by
  intro l hl dims hext
  obtain ⟨o, ho, hk⟩ := Block.mem_literals.1 hl
  obtain ⟨y, hout, hy⟩ := h.ops o ho
  rw [hk] at hy
  have hdef := Block.Sound.output_defined ho (by rw [hout]; exact List.mem_singleton_self y)
  obtain ⟨hdims, hall⟩ := Tensor.ofLiteral_eq_ok.1 hy
  obtain rfl := Option.some.inj (hext.symm.trans (TensorType.extents?_eq_some.2 hdims))
  have hword := (b.meaning tensor y).wordSized
  rw [(h.describes hc ht hpos haxes y hdef).meaning_eq.1] at hword
  refine ⟨hword, ?_⟩
  have hlen := hall.length_eq
  rw [Literal.elements, Literal.length_pieces, Array.length_toList, Tensor.size_eq] at hlen
  rw [← Nat.le_div_iff_mul_le (ElemType.width_pos _), hlen]

/-- **Transpose reduction does not change what a block computes.** On every block that passes the check and is well typed,
whose recorded extents are fixed and positive and whose reductions list one axis each, and on all inputs on which it
evaluates, the outcome evaluates to the same tensors, whatever the kernels. With ids without end there always is an
outcome. -/
theorem reduceTransposes_evaluate [IdSpace] (config : Config) {b : Block} (hc : b.check = .ok ()) (ht : b.WellTyped)
    (hpos : b.PositiveExtents) (haxes : ∀ o ∈ b.operations, o.kind.reducesOneAxis) {inputs outs : List (Tensor α)}
    (heval : b.evaluate inputs = .ok outs) :
    (∀ r b', reduceTransposes config Typing.static b = .ok (r, b') → b'.evaluate inputs = .ok outs) ∧
      (IdSpace.Unbounded → ∃ r b', reduceTransposes config Typing.static b = .ok (r, b')) := by
  have hs := (Block.check_eq_ok.1 hc).1
  obtain ⟨tensor, h, rfl⟩ := (Block.evaluate_eq_ok hs).1 heval
  have hdesc := h.describes hc ht hpos haxes
  have hreads := h.reads hc ht hpos haxes
  refine ⟨fun r b' hrun => ?_, fun hids => ?_⟩
  · obtain ⟨meaning', hreads', hagree⟩ := hreads.of_reduceTransposes TypedTensor.reading_lawful hrun
    refine (Block.evaluate_eq_ok hreads'.sound).2 ⟨fun v => (meaning' v).tensor, ?_, ?_⟩
    · have heval' := Block.Evaluates.of_reads hreads'
      have hinputs : (b'.inputs.map fun v => (meaning' v).tensor) = inputs := by
        rw [← h.inputs_eq, hagree.inputs]
        refine List.map_congr_left fun v hv => ?_
        rw [hagree.inputs_eq v hv, (hdesc v (Block.mem_defined.2 (.inl hv))).meaning_eq.1]
      rwa [hinputs] at heval'
    · have houts := congrArg (List.map TypedTensor.tensor) hagree.outputs
      rw [List.map_map, List.map_map] at houts
      refine houts.trans (List.map_congr_left fun v hv => ?_)
      exact (hdesc v (hs.outputsDefined v hv)).meaning_eq.1
  · exact hreads.exists_reduction hids TypedTensor.reading_lawful (movable_of_evaluates hc ht hpos haxes h) config

/-- Sums along an axis of a transposed tensor, transposed back. -/
def sums : Block where
  name := "sums"
  inputs := [⟨0⟩]
  outputs := [⟨3⟩]
  operations := [
    ⟨⟨0⟩, .transpose [1, 0], [⟨0⟩], [⟨1⟩]⟩,
    ⟨⟨1⟩, .reduce ⟨.sum, [1], true⟩, [⟨1⟩], [⟨2⟩]⟩,
    ⟨⟨2⟩, .transpose [1, 0], [⟨2⟩], [⟨3⟩]⟩]
  values := [
    ⟨⟨0⟩, "x", .ofExtents .f32 [2, 3]⟩,
    ⟨⟨1⟩, "t", .ofExtents .f32 [3, 2]⟩,
    ⟨⟨2⟩, "s", .ofExtents .f32 [3, 1]⟩,
    ⟨⟨3⟩, "y", .ofExtents .f32 [1, 3]⟩]

/-- An input of `sums`. -/
def sumsInput : Tensor Float32 :=
  ⟨[2, 3], #[0, 1, 2, 3, 4, 5], rfl⟩

theorem exists_evaluate_sums : let _ := Scalar.kernels id
    ∃ outs, sums.evaluate [sumsInput] = .ok outs :=
  exists_of_isOk (by decide +kernel)

theorem sums_evaluate : let _ := Scalar.kernels id
    sums.check = .ok () ∧ sums.WellTyped ∧ sums.PositiveExtents ∧
    (∀ o ∈ sums.operations, o.kind.reducesOneAxis) ∧ ∃ outs, sums.evaluate [sumsInput] = .ok outs ∧
      ∃ r b', reduceTransposes ⟨64, .fail⟩ Typing.static sums = .ok (r, b') ∧ b'.evaluate [sumsInput] = .ok outs := by
  let _ : Kernels Float32 := Scalar.kernels id
  have hc : sums.check = .ok () := by decide
  have ht : sums.WellTyped := by decide
  have hpos : sums.PositiveExtents := by decide
  have haxes : ∀ o ∈ sums.operations, o.kind.reducesOneAxis := by decide
  obtain ⟨outs, heval⟩ := exists_evaluate_sums
  obtain ⟨⟨r, b'⟩, hrun⟩ : ∃ out, reduceTransposes ⟨64, .fail⟩ Typing.static sums = .ok out :=
    exists_of_isOk (by cbv)
  exact ⟨hc, ht, hpos, haxes, outs, heval, r, b', hrun,
    (reduceTransposes_evaluate ⟨64, .fail⟩ hc ht hpos haxes heval).1 r b' hrun⟩

end Layout

end Relayout
