import Relayout.Json.Number
import Relayout.Named

/-!
# What a JSON document stands for

A record is an object that has each of its fields once, with any others ignored, or the array of its fields in order.
A variant is its tag alone or an object whose only field is the tag; a variant without content may have `null` there.
-/

namespace Relayout.Json

def text? : Json → Option String
  | .string s => s
  | _ => none

def bool? : Json → Option Bool
  | .bool b => some b
  | _ => none

/-- A whole number below a bound. -/
def size? (bound : Nat) : Json → Option Nat
  | .number n => n.size? bound
  | _ => none

def binary? : Json → Option Number.Binary64
  | .number n => n.toBinary?
  | _ => none

def list? {α : Type} (item? : Json → Option α) : Json → Option (List α)
  | .array items => items.mapM item?
  | _ => none

/-- The only value that a key has. -/
def only? (fields : List (Option String × Json)) (key : String) : Option Json :=
  match fields.filter (·.1 == some key) with
  | [(_, value)] => some value
  | _ => none

/-- The fields of a record, in the order of their names. -/
def record? (names : List String) : Json → Option (List Json)
  | .array items => if items.length = names.length then some items else none
  | .object fields => if fields.all (·.1.isSome) then names.mapM (only? fields) else none
  | _ => none

/-- The tag of a variant, with its content if it has one. -/
def variant? : Json → Option (String × Option Json)
  | .string (some tag) => some (tag, none)
  | .object [(some tag, content)] => some (tag, some content)
  | _ => none

/-- A choice, written as a variant without content. -/
def choice? {α : Type} [Named α] (j : Json) : Option α :=
  match j.variant? with
  | some (tag, none) | some (tag, some .null) => Named.ofTag? tag
  | _ => none

end Relayout.Json
