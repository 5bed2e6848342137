import Relayout.Proofs.Recovery

/-!
# Names of new results

An insertion looks up the names for its results among those in use, and only then puts them there. So it refuses a name that a
value of the block has, but gives two results the same name if no value has it. Names stay unique if and only if those of the
new results differ (`insertOp_names`).
-/

namespace Relayout

open Editor

/-! ## Names and consistency -/

section Names

variable {s : Editor}

theorem Coherent.isConsistent [IdSpace] (h : Coherent s) : s.isConsistent = .ok true := by
  obtain ⟨x, hx, _⟩ := UseIndex.exists_build h.sound h.agrees.hasFreeIds
  rw [Editor.isConsistent, hx]

theorem Coherent.named [IdSpace] (h : Coherent s) : ∀ r ∈ s.block.values, s.index.named? r.name = some r.id :=
  fun r hr => (h.agrees.names r.name r.id).2 ⟨r, hr, rfl, rfl⟩

theorem UseIndex.addNames_error {records : List Value} {names : Table String ValueId} {e : IndexError}
    (h : addNames records names = .error e) : ∃ name, e = .duplicateName name := by
  induction records generalizing names with
  | nil => cases h
  | cons r records ih =>
    rw [addNames] at h
    split at h
    · exact ⟨r.name, (Except.error.inj h).symm⟩
    · exact ih h

theorem isConsistent_of_names [IdSpace] (h : ¬(s.block.values.map (·.name)).Nodup) : s.isConsistent = .ok false := by
  rw [Editor.isConsistent, UseIndex.build]
  cases hnames : UseIndex.addNames s.block.values [] with
  | error e =>
    obtain ⟨name, rfl⟩ := UseIndex.addNames_error hnames
    rfl
  | ok names => exact absurd (UseIndex.nodup_of_addNames hnames).1 h

/-- A table that finds every record by its name tells the names apart. -/
theorem names_of_named (hsorted : s.block.values.Pairwise fun r t => r.id.index < t.id.index)
    (h : ∀ r ∈ s.block.values, s.index.named? r.name = some r.id) : (s.block.values.map (·.name)).Nodup := by
  refine List.Nodup.map_on (fun r hr t ht he => ?_) (List.Nodup.of_map _ (Block.idsNodup hsorted))
  refine List.inj_on_of_nodup_map (Block.idsNodup hsorted) hr ht (Option.some.inj ?_)
  rw [← h r hr, ← h t ht, he]

end Names

/-! ## Insertion -/

section Insertion

variable {s : Editor} {pos : Nat} (kind : OpKind) {inputs : List ValueId} {outputs : List (String × TensorType)}

/-- Operands are in scope at a position, and names are new. -/
def Block.Accepts (b : Block) (pos : Nat) (inputs : List ValueId) (names : List String) : Prop :=
  (∀ v ∈ inputs, v ∈ b.inputs ++ (b.operations.take pos).flatMap (·.outputs)) ∧
    ∀ name ∈ names, name ∉ b.values.map (·.name)

instance (b : Block) (pos : Nat) (inputs : List ValueId) (names : List String) : Decidable (b.Accepts pos inputs names) :=
  inferInstanceAs (Decidable ((∀ v ∈ inputs, v ∈ b.inputs ++ (b.operations.take pos).flatMap (·.outputs)) ∧
    ∀ name ∈ names, name ∉ b.values.map (·.name)))

theorem Coherent.available_iff [IdSpace] (h : Coherent s) (hpos : pos ≤ s.block.operations.length) {v : ValueId} :
    s.Available v pos ↔ v ∈ s.block.inputs ++ (s.block.operations.take pos).flatMap (·.outputs) := by
  obtain ⟨l, r, heq, rfl⟩ : ∃ l r, s.block.operations = l ++ r ∧ l.length = pos :=
    ⟨_, _, (List.take_append_drop pos _).symm, by rw [List.length_take, Nat.min_eq_left hpos]⟩
  rw [heq, List.take_left]
  exact h.agrees.availableFrom h.sound heq

/-- The editor after the insertion of an operation between `l` and `r`. -/
def Editor.inserted (s : Editor) (l r : List Operation) (kind : OpKind) (inputs : List ValueId)
    (outputs : List (String × TensorType)) : Editor :=
  ⟨s.block.withOp l r (s.newOp kind inputs outputs.length) outputs,
    s.index.withOp l.length (s.newOp kind inputs outputs.length) (outputs.map (·.1))⟩

theorem Coherent.ends_insertOp [IdSpace] (h : Coherent s) (hpos : pos ≤ s.block.operations.length) (inputs : List ValueId)
    (outputs : List (String × TensorType)) :
    Ends (fun _ t => t.block = s.block ∧ ¬(s.block.Accepts pos inputs (outputs.map (·.1)) ∧ s.HasRoom outputs.length))
      (insertOp pos kind inputs outputs) s fun a t =>
        s.block.Accepts pos inputs (outputs.map (·.1)) ∧ s.HasRoom outputs.length ∧
        a = ((s.newOp kind inputs outputs.length).id, (s.newOp kind inputs outputs.length).outputs) ∧
        ∃ l r, s.block.operations = l ++ r ∧ l.length = pos ∧ t = s.inserted l r kind inputs outputs := by
  refine h.anchored.ends_insertOp (fun hnot _ => ⟨rfl, fun hacc => hnot fun v hv => ?_⟩)
    (fun hfull => ⟨rfl, fun hacc => hfull hacc.2⟩) (fun htaken _ _ => ⟨rfl, fun hacc => ?_⟩)
    (fun hlt => absurd hpos (not_le.2 hlt)) fun l r heq hlen hins hroom hfree => ?_
  · exact (h.available_iff hpos).2 (hacc.1.1 v hv)
  · obtain ⟨name, hname, hcontains⟩ := htaken
    exact hacc.1.2 name hname (h.agrees.contains_names.1 hcontains)
  · refine ⟨⟨fun v hv => (h.available_iff hpos).1 (hins v hv), fun name hname hmem => ?_⟩, hroom, rfl, l, r, heq, hlen, rfl⟩
    have := hfree name hname
    rw [h.agrees.contains_names.2 hmem] at this
    cases this

theorem Coherent.inserted [IdSpace] (h : Coherent s) {l r : List Operation} (heq : s.block.operations = l ++ r)
    (hacc : s.block.Accepts l.length inputs (outputs.map (·.1))) (hroom : s.HasRoom outputs.length)
    (hnames : (outputs.map (·.1)).Nodup) : Coherent (s.inserted l r kind inputs outputs) := by
  refine h.insert heq (fun v hv => ?_) hnames hacc.2 hroom
  have := hacc.1 v hv
  rwa [heq, List.take_left] at this

theorem map_name_inserted (l r : List Operation) : (s.inserted l r kind inputs outputs).block.values.map (·.name) =
    s.block.values.map (·.name) ++ outputs.map (·.1) := by
  show (s.block.values ++ newRecords _ outputs).map (·.name) = _
  rw [List.map_append, map_name_newRecords length_newOp_outputs]

end Insertion

/-- An insertion into the block succeeds if the operands are in scope, no value has one of the names and there are ids for the
new operation and its results, and otherwise leaves the block as it was. If the new names differ, names are unique
afterwards, the index finds all of them, and the block is consistent. If they do not differ, none of this holds. -/
theorem insertOp_names [IdSpace] {b : Block} {s t : Editor} (hc : b.check = .ok ()) (hs : Editor.ofBlock b = .ok s)
    (ht : Visits s t) (hin : t.InStep) {pos : Nat} (hpos : pos ≤ t.block.operations.length) (kind : OpKind)
    (inputs : List ValueId) (outputs : List (String × TensorType)) :
    ((∃ a u, (insertOp pos kind inputs outputs).run t = .ok a u) ↔
      t.block.Accepts pos inputs (outputs.map (·.1)) ∧ t.HasRoom outputs.length) ∧
    (∀ e u, (insertOp pos kind inputs outputs).run t = .error e u → u.block = t.block) ∧
    ∀ a u, (insertOp pos kind inputs outputs).run t = .ok a u →
      u.block.operations = t.block.operations.insertIdx pos ⟨a.1, kind, inputs, a.2⟩ ∧
      u.block.values.map (·.name) = t.block.values.map (·.name) ++ outputs.map (·.1) ∧
      (u.block.values.Pairwise fun r r' => r.id.index < r'.id.index) ∧
      ((outputs.map (·.1)).Nodup → (u.block.values.map (·.name)).Nodup ∧
        (∀ r ∈ u.block.values, u.index.named? r.name = some r.id) ∧ u.isConsistent = .ok true) ∧
      (¬(outputs.map (·.1)).Nodup → ¬(u.block.values.map (·.name)).Nodup ∧
        (¬∀ r ∈ u.block.values, u.index.named? r.name = some r.id) ∧ u.isConsistent = .ok false) := by
  have h := Visits.coherent hc hs ht hin
  have hend := h.ends_insertOp kind hpos inputs outputs
  refine ⟨⟨?_, fun hacc => ?_⟩, fun e u hu => (hend.of_error hu).1, fun a u hu => ?_⟩
  · rintro ⟨a, u, hu⟩
    exact ⟨(hend.of_ok hu).1, (hend.of_ok hu).2.1⟩
  · cases hrun : (insertOp pos kind inputs outputs).run t with
    | ok a u => exact ⟨a, u, rfl⟩
    | error e u => exact absurd hacc (hend.of_error hrun).2
  · obtain ⟨hacc, hroom, rfl, l, r, heq, rfl, rfl⟩ := hend.of_ok hu
    have hsorted := (h.anchored.insert heq kind inputs outputs hroom).registered.sorted
    have hnames := @map_name_inserted t kind inputs outputs l r
    refine ⟨?_, hnames, hsorted, fun hnd => ?_, fun hnd => ?_⟩
    · rw [heq, insertIdx_append]
      rfl
    · have hcoherent := h.inserted kind heq hacc hroom hnd
      exact ⟨hcoherent.sound.names, hcoherent.named, hcoherent.isConsistent⟩
    · have htwice : ¬((t.inserted l r kind inputs outputs).block.values.map (·.name)).Nodup := fun hall => by
        rw [hnames] at hall
        exact hnd (List.nodup_append.1 hall).2.1
      exact ⟨htwice, fun hnamed => htwice (names_of_named hsorted hnamed), isConsistent_of_names htwice⟩

/-- One function of the input. -/
def single : Block where
  name := "single"
  inputs := [⟨0⟩]
  outputs := [⟨1⟩]
  operations := [⟨⟨0⟩, .unary .relu, [⟨0⟩], [⟨1⟩]⟩]
  values := [⟨⟨0⟩, "x", .ofExtents .f32 [2, 3]⟩, ⟨⟨1⟩, "a", .ofExtents .f32 [2, 3]⟩]

/-- It fails, as the name is taken, but uses up an id. -/
def takenName : EditCall :=
  .append (.unary .abs) [⟨1⟩] [("a", .ofExtents .f32 [2, 3])]

/-- A cut into two parts of these names. -/
def cut (upper lower : String) : Edit (OpId × List ValueId) :=
  insertOp 1 (.custom "cut") [⟨1⟩] [(upper, .ofExtents .f32 [1, 3]), (lower, .ofExtents .f32 [1, 3])]

theorem cut_single : single.check = .ok () ∧ ∃ s a u, Editor.ofBlock single = .ok s ∧ Visits s (takenName.after s) ∧
    (takenName.after s).InStep ∧ (cut "v" "w").run (takenName.after s) = .ok a u ∧
    u.block.values.map (·.name) = ["x", "a", "v", "w"] ∧
    (∀ r ∈ u.block.values, u.index.named? r.name = some r.id) ∧ u.isConsistent = .ok true := by
  have hc : single.check = .ok () := by decide
  have hids : single.HasFreeIds := Block.hasFreeIds_iff.2 (by decide)
  obtain ⟨s, hs, _, hcoherent⟩ := (Block.check_eq_ok.1 hc).1.exists_editor hids
  have heval : ∀ s ∈ (Editor.ofBlock single).toOption, takenName.lands s ∧
      (takenName.after s).block.values.map (·.name) = ["x", "a"] ∧ 1 ≤ (takenName.after s).block.operations.length ∧
      (takenName.after s).block.Accepts 1 [⟨1⟩] ["v", "w"] ∧ (takenName.after s).HasRoom 2 := by decide +kernel
  obtain ⟨hlands, hold, hpos, hacc⟩ := heval s (by rw [hs]; rfl)
  have hafter : Coherent (takenName.after s) := EditCall.coherent_after hcoherent (List.nodup_singleton _)
  have hin := hafter.inStep
  obtain ⟨hiff, _, hall⟩ := insertOp_names hc hs (.step .start hlands) hin hpos (.custom "cut") [⟨1⟩]
    [("v", .ofExtents .f32 [1, 3]), ("w", .ofExtents .f32 [1, 3])]
  obtain ⟨a, u, hu⟩ := hiff.2 hacc
  obtain ⟨_, hnames, _, hdistinct, _⟩ := hall a u hu
  rw [hold] at hnames
  exact ⟨hc, s, a, u, hs, .step .start hlands, hin, hu, hnames, (hdistinct (by decide)).2⟩

theorem cut_single_twice : single.check = .ok () ∧ ∃ s a u, Editor.ofBlock single = .ok s ∧
    (cut "w" "w").run s = .ok a u ∧ u.block.values.map (·.name) = ["x", "a", "w", "w"] ∧ u.isConsistent = .ok false :=
  ⟨by decide, _, _, _, rfl, rfl, rfl, rfl⟩

end Relayout
