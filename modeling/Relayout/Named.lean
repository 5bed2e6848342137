/-!
# Closed choices

Element types, operation families and modes are closed lists of choices. Each has a name, used in block text and in
messages, and a tag, used in JSON.
-/

namespace Relayout

class Named (α : Type) where
  all : List α
  name : α → String
  tag : α → String

namespace Named

variable {α : Type} [Named α]

def ofName? (s : String) : Option α :=
  all.find? (name · == s)

def ofTag? (s : String) : Option α :=
  all.find? (tag · == s)

end Named

end Relayout
