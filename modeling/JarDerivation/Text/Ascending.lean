-- Values under names, in ascending order of the names. A name has one value:
-- a later one takes the place of an earlier one.

namespace JarDerivation

namespace Text

abbrev Ascending (α : Type) := List (String × α)

namespace Ascending

variable {α : Type}

def insert (name : String) (a : α) : Ascending α → Ascending α
  | [] => [(name, a)]
  | (n, b) :: rest =>
    if name < n then (name, a) :: (n, b) :: rest
    else if name = n then (name, a) :: rest
    else (n, b) :: insert name a rest

def ofList (xs : List (String × α)) : Ascending α :=
  xs.foldl (fun m x => insert x.1 x.2 m) []

def find? (m : Ascending α) (name : String) : Option α := List.lookup name m

def names (m : Ascending α) : List String := m.map Prod.fst

end Ascending

/-- The names of a list, each once and in ascending order. -/
def ascending (xs : List String) : List String :=
  (Ascending.ofList (xs.map fun n => (n, ()))).names

end Text

end JarDerivation
