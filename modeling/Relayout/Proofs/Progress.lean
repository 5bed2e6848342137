import Relayout.Proofs.Evaluation

/-!
# Typed blocks evaluate

An operation whose operands have the extents of their types, and which has a type itself, computes a tensor of the
extents of that type (`OpKind.exists_evaluate`). So every block that passes the check and is well typed evaluates on all
inputs of the recorded extents, and to outputs of the recorded extents (`Block.evaluate_of_wellTyped`).

What types do not see are custom operations, which have no kernel, constants without a numeric view, and reflections
wider than the axis (`Block.HasKernels`), payloads that are not of the size of their type, and results for which there are
no addresses (`Block.HasBuffers`).
-/

namespace Relayout

open Perm
open List (range)

/-! ## Tensors -/

namespace Tensor

open RowMajor

variable {α β γ : Type}

theorem exists_get {x : Tensor α} {i : Nat} (h : i < size x.dims) : ∃ a, x.get i = .ok a := by
  rw [← x.size_eq] at h
  exact ⟨_, get_eq_ok.2 (Array.getElem?_eq_getElem h)⟩

/-! ### Broadcasts -/

theorem size_aligned (n : Nat) (dims : List Nat) : size (aligned n 1 dims) = size dims := by
  rw [aligned, size_append, size_eq_prod, List.prod_replicate, one_pow, one_mul]

/-- Coordinates below the extents that are not repeated show an element. -/
theorem broadcastSource_lt {dims cs : List Nat} (hlen : cs.length = dims.length)
    (h : ∀ i < dims.length, dims.getD i 1 = 1 ∨ cs.getD i 0 < dims.getD i 1) : broadcastSource dims cs < size dims := by
  refine offset_lt (inBounds_iff.2 ⟨by rw [List.length_zipWith, hlen, Nat.min_self], fun i hi => ?_⟩)
  rw [getD_zipWith rfl hlen hi 1 0, getD_congr hi 0 1]
  have := h i hi
  split <;> omega

theorem exists_zipBroadcast (f : α → β → γ) {x : Tensor α} {y : Tensor β} {n : Nat} {dims : List Nat}
    (hn : max x.rank y.rank = n) (hlen : dims.length = n)
    (hjoin : ∀ i < n, joinExtent? ((aligned n 1 x.dims).getD i 1) ((aligned n 1 y.dims).getD i 1) =
      some (dims.getD i 0)) (hword : WordSized dims) (hroom : size dims * 4 < 2 ^ 63) :
    ∃ w, zipBroadcast f x y = .ok w := by
  have hx : (aligned n 1 x.dims).length = n := length_aligned (hn ▸ Nat.le_max_left ..)
  have hy : (aligned n 1 y.dims).length = n := length_aligned (hn ▸ Nat.le_max_right ..)
  have halign : ∀ dims, align n dims = aligned n 1 dims := fun _ => rfl
  rw [zipBroadcast]
  simp only [hn, halign, (joinExtents_eq_some hx hy).2 ⟨hlen, hjoin⟩]
  have hcases := fun i hi => joinExtent?_cases (hjoin i hi)
  have hxword := wordSized_aligned hword (hn ▸ Nat.le_max_left ..) hlen fun i hi => (hcases i hi).1
  have hyword := wordSized_aligned hword (hn ▸ Nat.le_max_right ..) hlen fun i hi => (hcases i hi).2
  simp only [check_bind_eq_ok, checkStrides_eq_ok, hxword.stridesFit, hyword.stridesFit, true_and]
  rw [reserve_eq_ok.2 ⟨hword.size?, hroom⟩]
  refine exists_tabulate hword.size? fun cs hcs => ?_
  have hcslen : cs.length = n := hcs.length_eq.trans hlen
  have hlt : ∀ i < n, cs.getD i 0 < dims.getD i 0 := fun i hi => hcs.getD_lt (hlen.symm ▸ hi)
  rw [coords_offset hcs]
  obtain ⟨a, ha⟩ := exists_get (x := x) (i := broadcastSource (aligned n 1 x.dims) cs) <| by
    rw [← size_aligned n]
    refine broadcastSource_lt (hcslen.trans hx.symm) fun i hi => ?_
    rw [hx] at hi
    refine (hcases i hi).1.imp_right fun he => ?_
    rw [he]
    exact hlt i hi
  obtain ⟨b, hb⟩ := exists_get (x := y) (i := broadcastSource (aligned n 1 y.dims) cs) <| by
    rw [← size_aligned n]
    refine broadcastSource_lt (hcslen.trans hy.symm) fun i hi => ?_
    rw [hy] at hi
    refine (hcases i hi).2.imp_right fun he => ?_
    rw [he]
    exact hlt i hi
  exact ⟨f a b, bind_eq_ok.2 ⟨a, ha, bind_eq_ok.2 ⟨b, hb, rfl⟩⟩⟩

/-- Operands whose types meet are broadcast to a result of the extents of the type, if there is room for it. -/
theorem exists_broadcast (f : α → β → γ) {g : Binary} {x : Tensor α} {y : Tensor β} {t u v : TensorType}
    (ht : t.dims = x.dims.map .fixed) (hu : u.dims = y.dims.map .fixed)
    (hv : Typing.resultType (.binary g) [t, u] = .ok v)
    (hroom : ∀ dims : List Nat, v.dims = dims.map .fixed → WordSized dims ∧ size dims * 4 < 2 ^ 63) :
    ∃ w, zipBroadcast f x y = .ok w := by
  have hrt : t.rank = x.rank := by rw [TensorType.rank, ht, List.length_map, rank]
  have hru : u.rank = y.rank := by rw [TensorType.rank, hu, List.length_map, rank]
  obtain ⟨_, _, hlen, hjoin⟩ := (Typing.broadcast_eq_ok (n := max x.rank y.rank) (by rw [hrt, hru])).1 hv
  rw [ht, hu, aligned_map, aligned_map] at hjoin
  simp only [List.getD_map, Typing.joinDim?_fixed, Option.map_eq_some_iff] at hjoin
  choose! extent hextent hdim using hjoin
  have hdims : v.dims = ((range (max x.rank y.rank)).map extent).map .fixed := by
    refine ext_getD (n := max x.rank y.rank) hlen (by simp) (.fixed 1) fun i hi => ?_
    rw [← hdim i hi, getD_map (by simpa using hi) 0, getD_map_range hi]
  obtain ⟨hword, hfits⟩ := hroom _ hdims
  exact exists_zipBroadcast f rfl (by simp) (fun i hi => by rw [getD_map_range hi, hextent i hi]) hword hfits

/-! ### Paddings -/

/-- A padding that can be computed shows elements of its operand. -/
theorem exists_pad_of_pos {x : Tensor α} {spec : Pad} (fill : α) (hpos : ∀ d ∈ x.dims, 0 < d) (h : x.CanPad spec) :
    ∃ y, x.pad spec fill = .ok y := by
  have hrows := Pad.length_rows h.le_rank
  refine exists_pad h fun cs hcs => ?_
  rw [padded]
  cases hus : padSources spec.mode x.dims (spec.rows x.rank) cs with
  | none => exact ⟨fill, rfl⟩
  | some us =>
    have hlen := length_paddedDims h.le_rank
    have hcslen : cs.length = x.rank := hcs.length_eq.trans hlen
    obtain ⟨huslen, hsource⟩ := (padSources_eq_some rfl hrows hcslen).1 hus
    refine exists_get (offset_lt (inBounds_iff.2 ⟨huslen, fun i hi => ?_⟩))
    have hc := hcs.getD_lt (i := i) (hlen.symm ▸ hi)
    rw [getD_paddedDims h.le_rank hi] at hc
    have hextent : 0 < x.dims.getD i 0 := by
      rw [List.getD_eq_getElem _ _ hi]
      exact hpos _ (List.getElem_mem hi)
    exact padSource_lt hextent (fun hm => (h.reflects hm).lt hi hextent) hc (hsource i hi)

/-! ### Poolings -/

/-- The type of a pooling: its windows move along the last axes, and fit there. -/
theorem exists_pooled {spec : Pool} {x : Tensor α} {u t : TensorType} (hu : u.dims = x.dims.map .fixed)
    (ht : Typing.resultType (.pool spec) [u] = .ok t) : ∃ front back, x.dims = front ++ back ∧ spec.kernel ≠ [] ∧
      back.length = spec.kernel.length ∧ spec.strides.length = spec.kernel.length ∧
      ∀ e ∈ back.zip (spec.kernel.zip spec.strides), e.2.1 ≠ 0 ∧ e.2.2 ≠ 0 ∧ e.2.1 ≤ e.1 := by
  have hrank : u.rank = x.dims.length := by rw [TensorType.rank, hu, List.length_map]
  rw [Typing.resultType, Typing.single_eq_ok] at ht
  obtain ⟨_, ⟨⟩, hrule⟩ := ht
  unfold Typing.poolType at hrule
  dsimp only at hrule
  split at hrule
  · cases hrule
  rename_i hfit
  simp only [not_or, not_not, hrank, List.length_eq_zero_iff] at hfit
  obtain ⟨hne, hstrides, hle⟩ := hfit
  obtain ⟨front, back, hdims, hfront⟩ : ∃ front back, x.dims = front ++ back ∧
      front.length = x.dims.length - spec.kernel.length :=
    ⟨_, _, (List.take_append_drop (x.dims.length - spec.kernel.length) x.dims).symm, by simp⟩
  have hback : back.length = spec.kernel.length := by
    rw [hdims, List.length_append] at hfront hle
    omega
  refine ⟨front, back, hdims, hne, hback, hstrides, fun e he => ?_⟩
  -- the entry of the rule for this axis
  have hmem : (Dim.fixed e.1, some e.2) ∈ u.dims.zip (spec.windows u.rank) := by
    rw [hu, hrank, Pool.windows, ← hfront, hdims, List.map_append, List.zip_append (by simp), List.zip_map]
    exact List.mem_append_right _ (List.mem_map_of_mem he)
  obtain ⟨i, hi⟩ := List.mem_iff_getElem?.1 hmem
  obtain ⟨_, hmap, _⟩ := bind_eq_ok.1 hrule
  obtain ⟨_, _, hentry⟩ := exists_getElem?_of_forall₂ (mapM_eq_ok.1 hmap) (List.getElem?_zipIdx.trans (congrArg _ hi))
  dsimp only at hentry
  split at hentry
  · cases hentry
  · rename_i hfit
    rwa [not_or, not_or, not_lt] at hfit

/-- Coordinates of a window, one axis after another, are coordinates of the operand. -/
theorem inBounds_window {back kernel steps cs ws : List Nat} (hback : back.length = kernel.length)
    (hsteps : steps.length = kernel.length)
    (hfit : ∀ e ∈ back.zip (kernel.zip steps), e.2.1 ≠ 0 ∧ e.2.2 ≠ 0 ∧ e.2.1 ≤ e.1)
    (hcs : InBounds ((back.zip (kernel.zip steps)).map fun e => (e.1 - e.2.1) / e.2.2 + 1) cs)
    (hws : InBounds kernel ws) : InBounds back (List.zipWith (· + ·) (List.zipWith (· * ·) cs steps) ws) := by
  induction hws generalizing back steps cs with
  | nil =>
    obtain rfl := List.length_eq_zero_iff.1 hback
    rw [List.zipWith_nil_right]
    exact .nil
  | @cons w k ws kernel hw _ ih =>
    obtain ⟨d, back, rfl⟩ := List.exists_cons_of_length_eq_add_one hback
    obtain ⟨m, steps, rfl⟩ := List.exists_cons_of_length_eq_add_one hsteps
    simp only [List.zip_cons_cons, List.forall_mem_cons] at hfit
    obtain ⟨⟨_, _, hle⟩, hfit⟩ := hfit
    obtain _ | ⟨hc, hcs⟩ := hcs
    rename_i c cs
    refine .cons ?_ (ih (by simpa using hback) (by simpa using hsteps) hfit hcs)
    have hstep : c * m ≤ d - k := (Nat.le_div_iff_mul_le (by omega)).1 (Nat.le_of_lt_succ hc)
    change c * m + w < d
    omega

theorem offset_zipWith_add {as bs : List Nat} (h : as.length = bs.length) (lengths : List Nat) :
    offset (List.zipWith (· + ·) as bs) lengths = offset as lengths + offset bs lengths := by
  induction as generalizing bs lengths with
  | nil =>
    obtain rfl := List.length_eq_zero_iff.1 h.symm
    simp
  | cons a as ih =>
    obtain ⟨b, bs, rfl⟩ := List.exists_cons_of_length_eq_add_one h.symm
    cases lengths with
    | nil => simp [offset]
    | cons l lengths =>
      rw [List.zipWith_cons_cons, offset_cons, offset_cons, offset_cons, ih (by simpa using h) lengths]
      ring

theorem zipWith_replicate (cs : List Nat) : List.zipWith (· + ·)
    (List.zipWith (· * ·) cs (List.replicate cs.length 1)) (List.replicate cs.length 0) = cs := by
  induction cs with
  | nil => rfl
  | cons c cs ih => simp [List.replicate_succ, ih]

theorem pooledDims_append {front back : List Nat} {spec : Pool} (h : back.length = spec.kernel.length) :
    pooledDims (front ++ back) spec =
      front ++ (back.zip (spec.kernel.zip spec.strides)).map fun e => (e.1 - e.2.1) / e.2.2 + 1 := by
  have hlead : (front ++ back).length - spec.kernel.length = front.length := by
    rw [List.length_append]
    omega
  rw [pooledDims, Pool.windows, hlead, List.zip_append (by simp), List.map_append, List.zip_map_right, List.map_map]
  congr 1
  clear hlead
  induction front with
  | nil => rfl
  | cons d front ih => exact congrArg (d :: ·) ih

theorem misfit_eq_false {back kernel steps : List Nat}
    (hfit : ∀ e ∈ back.zip (kernel.zip steps), e.2.1 ≠ 0 ∧ e.2.2 ≠ 0 ∧ e.2.1 ≤ e.1) : (back.zip (kernel.zip steps)).any
      (fun (extent, kernel, stride) => kernel == 0 || stride == 0 || decide (extent < kernel)) = false := by
  rw [List.any_eq_false]
  intro e he
  obtain ⟨hkernel, hstride, hle⟩ := hfit e he
  simp [hkernel, hstride, hle]

/-- Windows fit into the operand, and so does the number of their elements. -/
theorem wordSized_kernel {back kernel steps : List Nat} (hback : back.length = kernel.length)
    (hsteps : steps.length = kernel.length)
    (hfit : ∀ e ∈ back.zip (kernel.zip steps), e.2.1 ≠ 0 ∧ e.2.2 ≠ 0 ∧ e.2.1 ≤ e.1) (hword : WordSized back) :
    WordSized kernel := by
  refine hword.mono (List.forall₂_iff_zip.2 ⟨hback.symm, fun {k d} hmem => ?_⟩)
  obtain ⟨i, hi⟩ := List.mem_iff_getElem?.1 hmem
  obtain ⟨hk, hd⟩ := List.getElem?_zip_eq_some.1 hi
  obtain ⟨s, hs⟩ : ∃ s, steps[i]? = some s := by
    have := (List.getElem?_eq_some_iff.1 hk).1
    exact ⟨_, List.getElem?_eq_getElem (by omega)⟩
  have he : (d, k, s) ∈ back.zip (kernel.zip steps) :=
    List.mem_of_getElem? (List.getElem?_zip_eq_some.2 ⟨hd, List.getElem?_zip_eq_some.2 ⟨hk, hs⟩⟩)
  exact (hfit _ he).2.2.trans (le_max_right ..)

theorem exists_pool (f : List α → β) {x : Tensor α} {spec : Pool} {u t : TensorType} (hu : u.dims = x.dims.map .fixed)
    (ht : Typing.resultType (.pool spec) [u] = .ok t) (hx : WordSized x.dims) (hword : WordSized (pooledDims x.dims spec))
    (hroom : size (pooledDims x.dims spec) * 4 < 2 ^ 63) : ∃ y, x.pool f spec = .ok y := by
  obtain ⟨front, back, hdims, hne, hback, hstrides, hfit⟩ := exists_pooled hu ht
  have hlead : x.rank - spec.kernel.length = front.length := by
    rw [rank, hdims, List.length_append]
    omega
  have hdrop : x.dims.drop (x.rank - spec.kernel.length) = back := by rw [hlead, hdims, List.drop_left]
  have hrank : ¬(spec.kernel.length = 0 ∨ x.rank < spec.kernel.length ∨ spec.strides.length ≠ spec.kernel.length) := by
    rw [rank, hdims, List.length_append, List.length_eq_zero_iff, not_or, not_or, not_lt, not_not]
    exact ⟨hne, by omega, hstrides⟩
  have hkernel := wordSized_kernel hback hstrides hfit (hx.sublist (hdims ▸ List.sublist_append_right ..))
  rw [pool]
  dsimp only
  rw [if_neg hrank, hdrop, misfit_eq_false hfit, if_neg Bool.false_ne_true]
  simp only [check_bind_eq_ok, checkStrides_eq_ok, hx.stridesFit, true_and]
  rw [Eval.size_eq_ok.2 hkernel.size?, reserve_eq_ok.2 ⟨hword.size?, hroom⟩]
  refine exists_tabulate hword.size? fun cs hcs => ?_
  suffices ∃ w, x.window spec (offset cs (strides (pooledDims x.dims spec))) = .ok w by
    obtain ⟨w, hw⟩ := this
    exact ⟨f w, bind_eq_ok.2 ⟨w, hw, rfl⟩⟩
  rw [window, coords_offset hcs, hlead]
  refine exists_mapM fun i hi => exists_get ?_
  rw [hdims, pooledDims_append hback] at hcs
  obtain ⟨cs₁, cs₂, rfl, hcs₁, hcs₂⟩ : ∃ cs₁ cs₂, cs = cs₁ ++ cs₂ ∧ InBounds front cs₁ ∧ InBounds _ cs₂ :=
    ⟨_, _, (List.take_append_drop front.length cs).symm, List.forall₂_take_append _ _ _ hcs,
      List.forall₂_drop_append _ _ _ hcs⟩
  have hlen₁ := hcs₁.length_eq
  have hlen₂ := hcs₂.length_eq
  simp only [List.length_map, List.length_zip, hback, hstrides, Nat.min_self] at hlen₂
  rw [← offset_zipWith_add (by simp [hlen₁, hlen₂, hstrides]), hdims, List.zipWith_append (by simpa using hlen₁),
    List.zipWith_append (by simp [hlen₁])]
  have hws := coords_inBounds (List.mem_range.1 hi)
  refine offset_lt (List.rel_append ?_ (inBounds_window hback hstrides hfit hcs₂ hws))
  rw [← hlen₁, zipWith_replicate]
  exact hcs₁

/-! ### Constants -/

theorem exists_ofLiteral [Kernels α] {l : Literal} (hs : l.Sized) (he : l.type.elem ≠ .f16) :
    ∃ x : Tensor α, ofLiteral l = .ok x := by
  refine exists_ofLiteral_of_elements hs fun bytes _ => ?_
  unfold ofElement? Literal.decode?
  split
  case h_7 => contradiction
  all_goals exact ⟨_, rfl⟩

end Tensor

/-! ## Operations -/

namespace OpKind

/-- What the kernel of an operation asks for beyond types, by the extents of its operands: there is one, a constant has
a numeric view, and a reflection is narrower than the axis. -/
def HasKernel (args : List (List Nat)) : OpKind → Prop
  | .const literal => literal.type.elem ≠ .f16
  | .pad spec => spec.mode = .reflect → ∀ dims ∈ args, ∀ row ∈ dims.zip (spec.rows dims.length),
      row.2.1 < row.1 ∧ row.2.2 < row.1
  | .custom _ => False
  | _ => True

instance (args : List (List Nat)) : (kind : OpKind) → Decidable (kind.HasKernel args)
  | .const _ => inferInstanceAs (Decidable (_ ≠ _))
  | .pad spec => inferInstanceAs (Decidable (spec.mode = .reflect → ∀ dims ∈ args, _))
  | .custom _ => inferInstanceAs (Decidable False)
  | .transpose _ | .unary _ | .activation _ | .binary _ | .reduce _ | .concat _ | .pool _ =>
    inferInstanceAs (Decidable True)

/-- How many bytes a kernel takes for each element of its result. One whose result is as large as its operand or its
payload is not asked. -/
def bufferWidth : OpKind → Nat
  | .reduce _ => 8
  | .binary _ | .concat _ | .pad _ | .pool _ => 4
  | _ => 0

variable {α : Type} [Kernels α] {xs : List (Tensor α)} {types : List TensorType} {t : TensorType}

/-- On operands that have the extents of their types, an operation that has a type itself computes a tensor, if there is
room for a tensor of that type. -/
theorem exists_evaluate {kind : OpKind} (hxs : List.Forall₂ (fun x u => u.dims = x.dims.map .fixed) xs types)
    (hpos : ∀ x ∈ xs, ∀ d ∈ x.dims, 0 < d) (ht : Typing.resultType kind types = .ok t)
    (hk : kind.HasKernel (xs.map (·.dims))) (hsized : ∀ l, kind = .const l → l.Sized)
    (hroom : ∀ dims : List Nat, t.dims = dims.map .fixed →
      (∀ d ∈ dims, 0 < d) ∧ RowMajor.size dims * kind.bufferWidth < 2 ^ 63) : ∃ y, kind.evaluate xs = .ok y := by
  have hwords : ∀ x ∈ xs, RowMajor.WordSized x.dims := fun x hx => x.wordSized_of_pos (hpos x hx)
  -- a result that takes bytes has a size
  have hfits : 0 < kind.bufferWidth → ∀ dims : List Nat, t.dims = dims.map .fixed →
      RowMajor.WordSized dims ∧ RowMajor.size dims * kind.bufferWidth < 2 ^ 63 := fun hwidth dims hdims => by
    obtain ⟨hdpos, hlt⟩ := hroom dims hdims
    refine ⟨RowMajor.wordSized_of_pos hdpos ?_, hlt⟩
    calc RowMajor.size dims ≤ RowMajor.size dims * kind.bufferWidth := Nat.le_mul_of_pos_right _ hwidth
      _ < 2 ^ 64 := hlt.trans (by norm_num)
  cases kind with
  | const literal => exact Tensor.exists_ofLiteral (hsized literal rfl) hk
  | transpose p =>
    obtain ⟨x, u, rfl, rfl, hx⟩ := Typing.exists_single hxs ht
    have hword := hwords x List.mem_cons_self
    obtain ⟨_, ⟨⟩, hperm, _⟩ := Typing.transpose_eq_ok.1 ht
    have hp : p.Perm (range x.rank) := by rwa [TensorType.rank, hx, List.length_map] at hperm
    obtain ⟨y, hy⟩ := Tensor.exists_transpose hp hword
    exact ⟨y, (Tensor.transpose_eq_ok_of_wordSized hp hword).2 hy⟩
  | unary op =>
    obtain ⟨x, _, rfl, _⟩ := Typing.exists_single hxs ht
    exact ⟨_, rfl⟩
  | activation spec =>
    obtain ⟨x, _, rfl, _⟩ := Typing.exists_single hxs ht
    exact ⟨_, rfl⟩
  | binary op =>
    obtain ⟨x₁, x₂, u₁, u₂, rfl, rfl, hx₁, hx₂⟩ := Typing.exists_pair hxs ht
    exact Tensor.exists_broadcast _ hx₁ hx₂ ht (hfits (Nat.succ_pos 3))
  | reduce spec =>
    obtain ⟨x, u, rfl, rfl, hx⟩ := Typing.exists_single hxs ht
    have hword := hwords x List.mem_cons_self
    obtain ⟨_, ⟨⟩, haxes, _, rfl⟩ := Typing.reduce_eq_ok.1 ht
    rw [TensorType.rank, hx, List.length_map] at haxes
    have hlt := (hroom (spec.shape 1 x.dims) (by rw [hx]; exact spec.shape_map Dim.fixed 1 x.dims)).2
    rw [Reduce.size_shape] at hlt
    obtain ⟨ys, hys, _⟩ := Tensor.exists_accumulated haxes hword hlt
    exact ⟨_, by rw [evaluate_reduce, hys]; rfl⟩
  | concat axis =>
    obtain ⟨dims, ha, hne, hjoin, hsum, hdims⟩ := Tensor.exists_joins hxs ht
    obtain ⟨hword, hlt⟩ := hfits (Nat.succ_pos 3) _ hdims
    exact Tensor.exists_concat ha hne hjoin hsum hword.size? hlt
  | pad spec =>
    obtain ⟨x, u, rfl, rfl, hx⟩ := Typing.exists_single hxs ht
    obtain ⟨_, ⟨⟩, heven, hle, _⟩ := Typing.pad_eq_ok.1 ht
    rw [TensorType.rank, hx, List.length_map] at hle
    obtain ⟨hword, hlt⟩ := hfits (Nat.succ_pos 3) _ (Tensor.paddedDims_of_type hx ht)
    refine Tensor.exists_pad_of_pos _ (hpos x List.mem_cons_self) (.of_wordSized heven hle (fun hm => ?_) hword hlt)
    exact (Tensor.forall_row_iff_reflects hle).1 fun row hrow => hk hm x.dims (by simp) row (List.mem_of_mem_drop hrow)
  | pool spec =>
    obtain ⟨x, u, rfl, rfl, hx⟩ := Typing.exists_single hxs ht
    have hword := hwords x List.mem_cons_self
    obtain ⟨hword', hlt⟩ := hfits (Nat.succ_pos 3) _ (Tensor.pooledDims_of_type hx ht)
    exact Tensor.exists_pool _ hx ht hword hword' hlt
  | custom name => exact hk.elim

end OpKind

/-! ## Blocks -/

namespace Block

variable {b : Block} {α : Type}

/-- The extents that a value is recorded with, if all are fixed. -/
def extents? (b : Block) (v : ValueId) : Option (List Nat) :=
  (b.type? v).bind (·.extents?)

/-- A tensor of the extents that a value is recorded with. -/
def Shows (b : Block) (v : ValueId) (x : Tensor α) : Prop :=
  b.extents? v = some x.dims

instance (v : ValueId) (x : Tensor α) : Decidable (b.Shows v x) :=
  inferInstanceAs (Decidable (_ = _))

/-- All operations have kernels for operands of the recorded extents. -/
def HasKernels (b : Block) : Prop :=
  ∀ o ∈ b.operations, o.kind.HasKernel (o.inputs.filterMap b.extents?)

instance : Decidable b.HasKernels :=
  inferInstanceAs (Decidable (∀ o ∈ b.operations, _))

/-- There are addresses for what the kernels compute, by the recorded extents. -/
def HasBuffers (b : Block) : Prop :=
  ∀ o ∈ b.operations, ∀ v ∈ o.outputs, ∀ dims ∈ b.extents? v,
    Word.isAddressable (RowMajor.size dims * o.kind.bufferWidth)

instance : Decidable b.HasBuffers :=
  inferInstanceAs (Decidable (∀ o ∈ b.operations, _))

theorem extents?_eq_some {v : ValueId} {dims : List Nat} :
    b.extents? v = some dims ↔ ∃ t, b.type? v = some t ∧ t.dims = dims.map .fixed := by
  rw [extents?, Option.bind_eq_some_iff]
  exact exists_congr fun t => and_congr_right fun _ => TensorType.extents?_eq_some

theorem PositiveExtents.pos (h : b.PositiveExtents) {v : ValueId} {dims : List Nat} (hdims : b.extents? v = some dims) :
    ∀ d ∈ dims, 0 < d := by
  obtain ⟨t, ht, hfixed⟩ := extents?_eq_some.1 hdims
  obtain ⟨r, hr, rfl⟩ := Option.map_eq_some_iff.1 ht
  intro d hd
  have := h r (mem_of_value? hr).1 (.fixed d) (hfixed ▸ List.mem_map_of_mem hd)
  exact of_decide_eq_true this

theorem filterMap_extents? {ids : List ValueId} {args : List (Tensor α)} (h : List.Forall₂ b.Shows ids args) :
    ids.filterMap b.extents? = args.map (·.dims) := by
  induction h with
  | nil => rfl
  | cons hx _ ih => rw [List.filterMap_cons_some hx, ih, List.map_cons]

variable [Kernels α]

/-- One operation of a typed block: it has one result, computed from all operands of the recorded extents. -/
theorem exists_evaluate_op (hc : b.check = .ok ()) (ht : b.WellTyped) (hpos : b.PositiveExtents) (hk : b.HasKernels)
    (hsized : ∀ l ∈ b.literals, l.Sized) (hbuffers : b.HasBuffers) {o : Operation} (ho : o ∈ b.operations) :
    ∃ v, o.outputs = [v] ∧ ∀ args : List (Tensor α), List.Forall₂ b.Shows o.inputs args →
      ∃ x, o.kind.evaluate args = .ok x ∧ b.Shows v x := by
  have hkernel := hk o ho
  have hcustom : o.kind.isCustom = false := by
    cases hkind : o.kind with
    | custom name =>
      rw [hkind] at hkernel
      exact hkernel.elim
    | _ => rfl
  have hreads := reads_types hc ht
  obtain ⟨v, hout, happ⟩ := (Interpretation.holds_iff hcustom).1 (hreads.solution o ho)
  have htype := hreads.types v (Sound.output_defined ho (by simp [hout]))
  have hresult := Typing.reading_apply.1 happ
  refine ⟨v, hout, fun args hargs => ?_⟩
  have hextents : List.Forall₂ (fun x u => u.dims = x.dims.map .fixed) args
      (o.inputs.map fun v => (b.type? v).getD ⟨.f32, []⟩) := by
    rw [List.forall₂_map_right_iff]
    refine hargs.flip.imp fun x v hx => ?_
    obtain ⟨t, ht, hdims⟩ := extents?_eq_some.1 hx
    rw [ht]
    exact hdims
  rw [filterMap_extents? hargs] at hkernel
  have hargsPos : ∀ x ∈ args, ∀ d ∈ x.dims, 0 < d := fun x hx => by
    obtain ⟨i, hi⟩ := List.mem_iff_getElem?.1 hx
    obtain ⟨v, _, hv⟩ := exists_getElem?_of_forall₂ hargs.flip hi
    exact hpos.pos hv
  obtain ⟨x, hx⟩ := OpKind.exists_evaluate hextents hargsPos hresult hkernel
    (fun l hl => hsized l (mem_literals.2 ⟨o, ho, hl⟩)) fun dims hdims => by
      have hv : b.extents? v = some dims := extents?_eq_some.2 ⟨_, htype, hdims⟩
      exact ⟨hpos.pos hv, of_decide_eq_true (hbuffers o ho v (by simp [hout]) dims hv)⟩
  exact ⟨x, hx, extents?_eq_some.2 ⟨_, htype, evaluate_extents hextents hresult hx⟩⟩

/-- A run of operations, each of which computes a tensor of the recorded extents from such tensors. -/
theorem exists_evaluateOps_shows {ops : List Operation} {scope : List ValueId} {env : Env α} (hscoped : Scoped scope ops)
    (hops : ∀ o ∈ ops, ∃ v, o.outputs = [v] ∧ ∀ args : List (Tensor α), List.Forall₂ b.Shows o.inputs args →
      ∃ x, o.kind.evaluate args = .ok x ∧ b.Shows v x)
    (henv : ∀ v ∈ scope, ∃ x, env.lookup v = some x ∧ b.Shows v x) :
    ∃ env', evaluateOps ops env = .ok env' ∧
      ∀ v ∈ scope ++ results ops, ∃ x, env'.lookup v = some x ∧ b.Shows v x := by
  induction ops generalizing scope env with
  | nil => exact ⟨env, rfl, by simpa using henv⟩
  | cons o ops ih =>
    obtain ⟨v, hout, heval⟩ := hops o List.mem_cons_self
    obtain ⟨args, hargs⟩ := exists_forall₂ fun w hw => henv w (hscoped.1 w hw)
    obtain ⟨x, hx, hshows⟩ := heval args (hargs.imp fun _ _ h => h.2)
    have henv' : ∀ w ∈ scope ++ o.outputs, ∃ y, List.lookup w ((v, x) :: env) = some y ∧ b.Shows w y := fun w hw => by
      rw [List.lookup_cons]
      by_cases he : w = v
      · subst he
        exact ⟨x, by simp, hshows⟩
      · rw [beq_false_of_ne he]
        rw [hout, List.mem_append, List.mem_singleton] at hw
        exact henv w (hw.resolve_right he)
    obtain ⟨env', hrun, hfound⟩ := ih hscoped.2 (fun o ho => hops o (List.mem_cons_of_mem _ ho)) henv'
    refine ⟨env', ?_, fun w hw => hfound w (by simpa using hw)⟩
    rw [evaluateOps, evaluateOp_eq_ok.2 ⟨v, _, _, hout, hargs.imp fun _ _ h => h.1, hx, rfl⟩]
    exact hrun

/-- Typed blocks evaluate. On every block that passes the check and is well typed, whose recorded extents are fixed and
positive, whose operations have kernels, whose constants have payloads of their size and whose results have addresses,
evaluation succeeds for all inputs of the recorded extents, and the outputs have the recorded extents. -/
theorem evaluate_of_wellTyped (hc : b.check = .ok ()) (ht : b.WellTyped) (hpos : b.PositiveExtents) (hk : b.HasKernels)
    (hsized : ∀ l ∈ b.literals, l.Sized) (hbuffers : b.HasBuffers) {inputs : List (Tensor α)}
    (hin : List.Forall₂ b.Shows b.inputs inputs) :
    ∃ outs, b.evaluate inputs = .ok outs ∧ List.Forall₂ b.Shows b.outputs outs := by
  have hs := (check_eq_ok.1 hc).1
  obtain ⟨hlen, hshows⟩ := List.forall₂_iff_zip.1 hin
  have hbind : b.bindInputs (b.inputs.zip inputs) [] = .ok (b.inputs.zip inputs).reverse := by
    refine bindInputs_eq_ok.2 ⟨fun v x hmem dims hdims => ?_, (List.append_nil _).symm⟩
    exact Option.some.inj (hdims.symm.trans (hshows hmem))
  have hnodup : ((b.inputs.zip inputs).reverse.map (·.1)).Nodup := by
    rw [List.map_reverse, List.map_fst_zip hlen.le, List.nodup_reverse]
    exact hs.definedOnce.of_append_left
  have hbound : ∀ v ∈ b.inputs, ∃ x, (b.inputs.zip inputs).reverse.lookup v = some x ∧ b.Shows v x := fun v hv => by
    rw [← List.map_fst_zip hlen.le] at hv
    obtain ⟨⟨_, x⟩, hmem, rfl⟩ := List.mem_map.1 hv
    exact ⟨x, (lookup_eq_some_of_nodup hnodup).2 (List.mem_reverse.2 hmem), hshows hmem⟩
  obtain ⟨env, hrun, hfound⟩ := exists_evaluateOps_shows hs.scopes
    (fun o ho => exists_evaluate_op hc ht hpos hk hsized hbuffers ho) hbound
  obtain ⟨outs, houts⟩ := exists_forall₂ fun v hv => hfound v (hs.outputsDefined v hv)
  refine ⟨outs, ?_, houts.imp fun _ _ h => h.2⟩
  rw [evaluate, if_neg (by rw [hlen, ne_eq, not_not]), hbind]
  exact bind_eq_ok.2 ⟨_, rfl, bind_eq_ok.2 ⟨env, hrun, fetch_eq_ok.2 (houts.imp fun _ _ h => h.1)⟩⟩

/-- Averages of neighbours along a reflected axis, with an offset for each. -/
def smoothed : Block where
  name := "smoothed"
  inputs := [⟨0⟩]
  outputs := [⟨4⟩, ⟨1⟩]
  operations := [
    ⟨⟨0⟩, .pad ⟨[1, 1], .reflect, ⟨0⟩⟩, [⟨0⟩], [⟨1⟩]⟩,
    ⟨⟨1⟩, .pool ⟨.avg, [2], [2]⟩, [⟨1⟩], [⟨2⟩]⟩,
    ⟨⟨2⟩, .const ⟨.ofExtents .si8 [3], [1, 2, 3]⟩, [], [⟨3⟩]⟩,
    ⟨⟨3⟩, .binary .add, [⟨2⟩, ⟨3⟩], [⟨4⟩]⟩]
  values := [
    ⟨⟨0⟩, "x", .ofExtents .si8 [2, 4]⟩,
    ⟨⟨1⟩, "padded", .ofExtents .si8 [2, 6]⟩,
    ⟨⟨2⟩, "means", .ofExtents .si8 [2, 3]⟩,
    ⟨⟨3⟩, "offsets", .ofExtents .si8 [3]⟩,
    ⟨⟨4⟩, "y", .ofExtents .si8 [2, 3]⟩]

/-- An input of `smoothed`. -/
def smoothedInput : Tensor Float32 :=
  ⟨[2, 4], #[0, 1, 2, 3, 4, 5, 6, 7], rfl⟩

theorem evaluate_smoothed : let _ := Scalar.kernels id
    smoothed.check = .ok () ∧ smoothed.WellTyped ∧ smoothed.PositiveExtents ∧ smoothed.HasKernels ∧
      (∀ l ∈ smoothed.literals, l.Sized) ∧ smoothed.HasBuffers ∧
      List.Forall₂ smoothed.Shows smoothed.inputs [smoothedInput] ∧
        ∃ outs, smoothed.evaluate [smoothedInput] = .ok outs ∧ List.Forall₂ smoothed.Shows smoothed.outputs outs := by
  intro _
  have hc : smoothed.check = .ok () := by decide
  have ht : smoothed.WellTyped := by decide
  have hpos : smoothed.PositiveExtents := by decide
  have hk : smoothed.HasKernels := by decide
  have hsized : ∀ l ∈ smoothed.literals, l.Sized := by decide
  have hbuffers : smoothed.HasBuffers := by decide
  have hin : List.Forall₂ smoothed.Shows smoothed.inputs [smoothedInput] := .cons (by decide) .nil
  exact ⟨hc, ht, hpos, hk, hsized, hbuffers, hin, evaluate_of_wellTyped hc ht hpos hk hsized hbuffers hin⟩

/-- A padding of more elements than there are addresses. It is not returned. -/
def stretched : Block where
  name := "stretched"
  inputs := [⟨0⟩]
  outputs := [⟨2⟩]
  operations := [
    ⟨⟨0⟩, .pad ⟨[4611686018427387904, 0], .constant, ⟨0⟩⟩, [⟨0⟩], [⟨1⟩]⟩,
    ⟨⟨1⟩, .unary .relu, [⟨0⟩], [⟨2⟩]⟩]
  values := [
    ⟨⟨0⟩, "x", .ofExtents .f32 [1]⟩,
    ⟨⟨1⟩, "y", .ofExtents .f32 [4611686018427387905]⟩,
    ⟨⟨2⟩, "z", .ofExtents .f32 [1]⟩]

/-- A constant of two elements without any bytes. -/
def bare : Block where
  name := "bare"
  inputs := []
  outputs := [⟨0⟩]
  operations := [⟨⟨0⟩, .const ⟨.ofExtents .f32 [2], []⟩, [], [⟨0⟩]⟩]
  values := [⟨⟨0⟩, "c", .ofExtents .f32 [2]⟩]

/-- An input of `stretched`. -/
def stretchedInput : Tensor Float32 :=
  ⟨[1], #[5], rfl⟩

/-- Neither addresses nor sizes of payloads are seen by types. -/
theorem evaluate_stretched_bare : let _ := Scalar.kernels id
    (stretched.check = .ok () ∧ stretched.WellTyped ∧ stretched.PositiveExtents ∧ stretched.HasKernels ∧
      List.Forall₂ stretched.Shows stretched.inputs [stretchedInput] ∧
        stretched.evaluate [stretchedInput] = .error (.crash .capacity)) ∧
    bare.check = .ok () ∧ bare.WellTyped ∧ bare.PositiveExtents ∧ bare.HasKernels ∧ bare.HasBuffers ∧
      bare.evaluate ([] : List (Tensor Float32)) = .error (.elementCount [2] 0) := by
  intro _
  refine ⟨⟨by decide +kernel, by decide +kernel, by decide +kernel, by decide +kernel, .cons (by decide) .nil, ?_⟩, ?_⟩
  · rfl
  · exact ⟨by decide, by decide, by decide, by decide, by decide, rfl⟩

end Block

end Relayout
