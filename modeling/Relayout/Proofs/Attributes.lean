import Mathlib
import Relayout.Block.Basic

/-!
# What operations carry

A choice is found again by its name and by its tag (`Named.Lawful`). The other attributes of an operation are sizes,
numbers and literals.
-/

namespace Relayout

open Number

/-! ## Choices -/

/-- Every choice is listed, and no two share a name or a tag. -/
class Named.Lawful (α : Type) [Named α] : Prop where
  ofName?_name : ∀ a : α, Named.ofName? (Named.name a) = some a
  ofTag?_tag : ∀ a : α, Named.ofTag? (Named.tag a) = some a

instance : Named.Lawful ElemType where
  ofName?_name a := by cases a <;> decide
  ofTag?_tag a := by cases a <;> decide

instance : Named.Lawful Unary where
  ofName?_name a := by cases a <;> decide
  ofTag?_tag a := by cases a <;> decide

instance : Named.Lawful Activation where
  ofName?_name a := by cases a <;> decide
  ofTag?_tag a := by cases a <;> decide

instance : Named.Lawful Binary where
  ofName?_name a := by cases a <;> decide
  ofTag?_tag a := by cases a <;> decide

instance : Named.Lawful Reduction where
  ofName?_name a := by cases a <;> decide
  ofTag?_tag a := by cases a <;> decide

instance : Named.Lawful PadMode where
  ofName?_name a := by cases a <;> decide
  ofTag?_tag a := by cases a <;> decide

instance : Named.Lawful Pooling where
  ofName?_name a := by cases a <;> decide
  ofTag?_tag a := by cases a <;> decide

/-! ## Sizes, numbers and literals -/

/-- The extents of a type that are fixed. -/
def TensorType.sizes (t : TensorType) : List Nat :=
  t.dims.filterMap Dim.extent?

/-- A literal that has the size of its type passes the check. -/
theorem Literal.make_of_sized {l : Literal} (h : l.Sized) : make l.type l.bytes = .ok l := by
  rw [make, h]
  exact if_pos rfl

theorem Literal.make_eq_ok {type : TensorType} {bytes : List UInt8} {l : Literal} :
    make type bytes = .ok l ↔ l = ⟨type, bytes⟩ ∧ l.Sized := by
  constructor
  · intro h
    rw [make] at h
    split at h
    · cases h
    · rename_i expected hexpected
      split at h
      · rename_i hlen
        cases h
        exact ⟨rfl, hexpected.trans (congrArg some hlen)⟩
      · cases h
  · rintro ⟨rfl, h⟩
    exact make_of_sized h

namespace OpKind

def sizes : OpKind → List Nat
  | const literal => literal.type.sizes
  | transpose perm => perm
  | reduce spec => spec.axes
  | concat axis => [axis]
  | pad spec => spec.amounts
  | pool spec => spec.kernel ++ spec.strides
  | unary _ | activation _ | binary _ | custom _ => []

/-- The attributes of a kind that are numbers. -/
def scalars : OpKind → List Binary64
  | activation spec => [spec.alpha, spec.beta]
  | pad spec => [spec.fill]
  | _ => []

end OpKind

namespace Block

/-- The attributes of a block that are numbers. -/
def scalars (b : Block) : List Binary64 :=
  b.operations.flatMap (·.kind.scalars)

def literals (b : Block) : List Literal :=
  b.operations.filterMap (·.kind.literal?)

theorem mem_literals {b : Block} {l : Literal} : l ∈ b.literals ↔ ∃ o ∈ b.operations, o.kind = .const l := by
  refine List.mem_filterMap.trans (exists_congr fun o => and_congr_right fun _ => ?_)
  cases o.kind <;> simp [OpKind.literal?]

end Block

end Relayout
