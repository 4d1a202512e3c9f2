-- Cutting texts: at a character, at the first or the last one, and where a text
-- begins or ends with another. All of it runs on the list of characters.

namespace JarDerivation

namespace Text

/-! ## Lists of characters -/

/-- The parts around the first `c`, if there is one. -/
def cutFirst (c : Char) : List Char → Option (List Char × List Char)
  | [] => none
  | d :: rest =>
    if d = c then some ([], rest)
    else (cutFirst c rest).map fun (before, after) => (d :: before, after)

theorem length_of_cutFirst {c : Char} {l a b : List Char} (h : cutFirst c l = some (a, b)) :
    b.length < l.length := by
  induction l generalizing a with
  | nil => cases h
  | cons d rest ih =>
    unfold cutFirst at h
    split at h
    · cases h
      exact Nat.lt_succ_self _
    · obtain ⟨⟨a', b'⟩, hcut, heq⟩ := Option.map_eq_some_iff.mp h
      cases heq
      exact Nat.lt_succ_of_lt (ih hcut)

/-- The parts around the last `c`, if there is one. -/
def cutLast (c : Char) : List Char → Option (List Char × List Char)
  | [] => none
  | d :: rest =>
    match cutLast c rest with
    | some (before, after) => some (d :: before, after)
    | none => if d = c then some ([], rest) else none

/-- The parts between all `c`; there is always one more part than there are `c`. -/
def cutEach (c : Char) : List Char → List (List Char)
  | [] => [[]]
  | d :: rest =>
    if d = c then [] :: cutEach c rest
    else match cutEach c rest with
      | part :: parts => (d :: part) :: parts
      | [] => [[d]]

/-! ## Texts -/

def splitLast? (c : Char) (s : String) : Option (String × String) :=
  (cutLast c s.toList).map fun (a, b) => (String.ofList a, String.ofList b)

def splitEach (c : Char) (s : String) : List String :=
  (cutEach c s.toList).map String.ofList

/-- What follows `start`, if the text begins with it. -/
def dropStart? (start s : String) : Option String :=
  (start.toList.isPrefixOf? s.toList).map String.ofList

/-- What comes before `ending`, if the text ends with it. -/
def dropEnding? (ending s : String) : Option String :=
  (ending.toList.isSuffixOf? s.toList).map String.ofList

def startsWith (start s : String) : Bool := start.toList.isPrefixOf s.toList

def endsWith (ending s : String) : Bool := ending.toList.isSuffixOf s.toList

/-- The part after the last `c`, or the whole text without one. -/
def afterLast (c : Char) (s : String) : String := ((splitLast? c s).map (·.2)).getD s

end Text

end JarDerivation
