-- JSON documents. A number is kept as it is written, and a string whose escapes
-- or bytes spell no text is kept as `none`: a reader that skips the value need
-- not mind it.

namespace JarDerivation

inductive Json where
  | null
  | bool (value : Bool)
  | number (written : String)
  | string (text : Option String)
  | array (items : List Json)
  | object (members : List (Option String × Json))
  deriving Repr, Inhabited

namespace Json

def text (s : String) : Json := .string (some s)

def nat (n : Nat) : Json := .number (Nat.repr n)

def optional {α : Type} (f : α → Json) : Option α → Json
  | none => .null
  | some a => f a

def list {α : Type} (f : α → Json) (items : List α) : Json := .array (items.map f)

/-- An object whose keys are texts. -/
def record (members : List (String × Json)) : Json :=
  .object (members.map fun (k, v) => (some k, v))

end Json

end JarDerivation
