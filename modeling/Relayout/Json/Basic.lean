/-!
# JSON documents

A document keeps what its text says: the order and repetition of fields, and the parts of a numeral. Whether a field
may repeat, which fields are needed and how a numeral is read is for the reader of the document to decide.
-/

namespace Relayout

/-- A numeral as it is written. The exponent is a sign, if there is one, and digits. -/
structure Json.Numeral where
  negative : Bool
  whole : List Char
  fraction : List Char
  exponent : Option (Option Char × List Char)
  deriving DecidableEq

/-- A document. A string is `none` if it escapes half of a surrogate pair and so stands for no text. -/
inductive Json where
  | null
  | bool (value : Bool)
  | number (numeral : Json.Numeral)
  | string (text : Option String)
  | array (items : List Json)
  | object (fields : List (Option String × Json))

namespace Json

def text (s : String) : Json :=
  string (some s)

def ofNat (n : Nat) : Json :=
  number ⟨false, Nat.toDigits 10 n, [], none⟩

/-- An object whose fields have the given names. -/
def record (fields : List (String × Json)) : Json :=
  object (fields.map fun (key, value) => (some key, value))

end Json

end Relayout
