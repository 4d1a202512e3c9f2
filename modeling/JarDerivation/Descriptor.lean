-- Descriptors of fields and methods. A class stands in a descriptor as `Lname;`,
-- and everything else is copied as it is. An `L` that no `;` follows begins no
-- class.
import JarDerivation.Text.Split

namespace JarDerivation

namespace Descriptor

inductive Piece where
  | char (c : Char)
  | reference (name : List Char)
  deriving DecidableEq, Repr

/-- The pieces of a descriptor. `name` holds the class name that is being read,
backwards. -/
def scan : Option (List Char) → List Char → List Piece
  | none, [] => []
  | some name, [] => .char 'L' :: name.reverse.map .char
  | none, c :: rest => if c = 'L' then scan (some []) rest else .char c :: scan none rest
  | some name, c :: rest =>
    if c = ';' then .reference name.reverse :: scan none rest else scan (some (c :: name)) rest

def pieces (desc : String) : List Piece := scan none desc.toList

def Piece.chars : Piece → List Char
  | .char c => [c]
  | .reference name => 'L' :: name ++ [';']

def Piece.rename (f : String → Option String) : Piece → Piece
  | .char c => .char c
  | .reference name => .reference (((f (String.ofList name)).map String.toList).getD name)

def Piece.name? : Piece → Option String
  | .char _ => none
  | .reference name => some (String.ofList name)

def ofPieces (ps : List Piece) : String := String.ofList (ps.flatMap Piece.chars)

/-- Renames every class; a class that `f` does not know keeps its name. -/
def rename (f : String → Option String) (desc : String) : String :=
  ofPieces ((pieces desc).map (Piece.rename f))

/-- The names of the classes in a descriptor, from left to right. -/
def classes (desc : String) : List String := (pieces desc).filterMap Piece.name?

/-! ## Asking for the new names

A function that has effects is asked for one name after the other, as one pass over the text
comes to the classes. -/

def renameFrom {m : Type → Type} [Monad m] (ask : String → m (Option String)) (text : List Char) :
    m (List Char) :=
  match hclass : Text.cutFirst 'L' text with
  | none => pure text
  | some (before, tail) =>
    match hname : Text.cutFirst ';' tail with
    | none => pure text
    | some (name, rest) =>
      have : rest.length < text.length :=
        Nat.lt_trans (Text.length_of_cutFirst hname) (Text.length_of_cutFirst hclass)
      do
        let new ← ask (String.ofList name)
        let others ← renameFrom ask rest
        return before ++ 'L' :: ((new.map String.toList).getD name ++ ';' :: others)
termination_by text.length

def renameM {m : Type → Type} [Monad m] (ask : String → m (Option String)) (desc : String) :
    m String :=
  String.ofList <$> renameFrom ask desc.toList

/-- Answers as `f` does, and notes the name that it was asked for. -/
def noting (f : String → Option String) (name : String) :
    StateM (List String) (Option String) := do
  modify (· ++ [name])
  return f name

end Descriptor

end JarDerivation
