import Relayout.Pass
import Relayout.Table

/-!
# Dead code

An operation is live if it is custom, or if a live operation or the block's outputs read one of its results. `markLive`
finds the values that are read this way: it takes them off a stack, and puts the operands of the operation that defines
a new one on top.
-/

namespace Relayout.Block

/-- The operation that defines each value. -/
def definitions (b : Block) : Table ValueId Operation :=
  b.operations.foldl (fun t op => op.outputs.foldl (fun t id => t.put id op) t) []

/-- The definitions of values that are not marked yet. -/
def unmarked (defs : Table ValueId Operation) (live : List ValueId) : Table ValueId Operation :=
  defs.filter fun entry => !live.contains entry.1

theorem unmarked_cons (defs : Table ValueId Operation) (live : List ValueId) (id : ValueId) :
    unmarked defs (id :: live) = (unmarked defs live).filter (·.1 != id) := by
  simp only [unmarked, List.filter_filter, List.contains_cons, Bool.not_or, bne]

theorem unmarked_cons_of_undefined {defs : Table ValueId Operation} {id : ValueId} (h : defs.get? id = none)
    (live : List ValueId) : unmarked defs (id :: live) = unmarked defs live := by
  rw [unmarked_cons, List.filter_eq_self]
  intro entry hentry
  have hne := List.lookup_eq_none_iff.1 h entry (List.mem_filter.1 hentry).1
  grind

/-- A value that is marked for the first time and has a definition makes `unmarked` shorter. -/
theorem length_unmarked_cons_lt {defs : Table ValueId Operation} {id : ValueId} {op : Operation}
    (h : defs.get? id = some op) {live : List ValueId} (hlive : ¬live.contains id = true) :
    (unmarked defs (id :: live)).length < (unmarked defs live).length := by
  obtain ⟨before, after, rfl, -⟩ := List.lookup_eq_some_iff.1 h
  have hmem : (id, op) ∈ unmarked (before ++ (id, op) :: after) live :=
    List.mem_filter.2 ⟨by simp, by simpa using hlive⟩
  rw [unmarked_cons]
  exact List.length_filter_lt_length_iff_exists.2 ⟨(id, op), hmem, by simp⟩

/-- The values on a stack and all that they are computed from, added to those that are marked already. -/
def markLive (defs : Table ValueId Operation) : List ValueId → List ValueId → List ValueId
  | [], live => live
  | id :: stack, live =>
    if hlive : live.contains id then markLive defs stack live
    else
      match hop : defs.get? id with
      | none =>
        have := unmarked_cons_of_undefined hop live
        markLive defs stack (id :: live)
      | some op =>
        have := length_unmarked_cons_lt hop hlive
        markLive defs (op.inputs.reverse ++ stack) (id :: live)
  termination_by stack live => ((unmarked defs live).length, stack.length)
  decreasing_by
    · exact Prod.Lex.right _ (Nat.lt_succ_self _)
    · exact this ▸ Prod.Lex.right _ (Nat.lt_succ_self _)
    · exact Prod.Lex.left _ _ this

/-- The values that are read by live operations or returned. -/
def liveValues (b : Block) : List ValueId :=
  let customInputs := (b.operations.filter (·.kind.isCustom)).flatMap (·.inputs)
  markLive b.definitions (b.outputs ++ customInputs).reverse []

/-- The block without its dead operations and the records of their results. -/
def withoutDead (b : Block) : Block :=
  let live := b.liveValues
  let kept := { b with operations := b.operations.filter fun op => op.kind.isCustom || op.outputs.any live.contains }
  if kept.operations.length < b.operations.length then
    { kept with values := kept.values.filter (kept.defined.contains ·.id) }
  else kept

/-- Removes the dead operations of a well-formed block. -/
def eraseDead (b : Block) : Except PassError (PassResult × Block) :=
  match b.check with
  | .error e => .error (.malformed e)
  | .ok () =>
    let erased := b.operations.length - b.withoutDead.operations.length
    .ok ({ changed := erased ≠ 0, erased := erased }, b.withoutDead)

end Relayout.Block
