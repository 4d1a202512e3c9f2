-- Passes over the whole mapping tree, run after all inputs have been joined:
-- putting nested names together, filling in missing names, and dropping method
-- names that a class only inherits.
import JarDerivation.Class.Hierarchy
import JarDerivation.Mapping.Join
import JarDerivation.Text.Split

namespace JarDerivation

/-! ## Nested names -/

/-- The part of a class name after the package and after the last `$`. -/
def simpleName (name : String) : String := Text.afterLast '$' (Text.afterLast '/' name)

/-- The columns of a pass and its policy on duplicates. -/
structure PassColumns where
  src : Nat
  dst : Nat
  shared : Bool
  deriving DecidableEq, Repr

structure Nesting where
  tree : MappingTree
  /-- The rows that are done, with their names. -/
  done : List (Nat × Option String)
  deriving DecidableEq, Repr

namespace MappingTree

/-- The row of the class around a nested class, and the simple name of the
nested class, both by the names in a column. -/
def enclosing? (t : MappingTree) (col row : Nat) : Option (Nat × String) := do
  let name ← t.className row col
  let (outer, simple) ← Text.splitLast? '$' name
  return (← t.findClass outer col, simple)

/-- Puts the name of a row together from the name of the class around it, which
is put together first. Each step to an outer class makes the source name
shorter, so `fuel` above its length is enough. -/
def nestRow (p : PassColumns) : Nat → Nesting → Nat → Option String × Nesting
  | 0, s, row => (s.tree.className row p.dst, s)
  | fuel + 1, s, row =>
    match s.done.lookup row with
    | some name => (name, s)
    | none =>
      let current := s.tree.className row p.dst
      let (outer, simple, s) := match s.tree.enclosing? p.src row with
        | none => (none, "", s)
        | some (parent, simple) =>
          let (outer, s) := nestRow p fuel s parent
          (outer, simple, s)
      let tree := match outer with
        | none => s.tree
        | some outer =>
          let name := outer ++ "$" ++ (current.map simpleName).getD simple
          if current = some name then s.tree else s.tree.setOutputName row p.dst name p.shared
      let result := tree.className row p.dst
      (result, ⟨tree, (row, result) :: s.done⟩)

/-- Nests a row if its source name says that it is nested. -/
def nestNext (p : PassColumns) (s : Nesting) (row : Nat) : Nesting :=
  match s.tree.className row p.src with
  | some name => if name.toList.contains '$' then (nestRow p (name.length + 1) s row).2 else s
  | none => s

/-- Puts together the names of all nested classes in a column. -/
def renest (t : MappingTree) (p : PassColumns) : MappingTree :=
  ((List.range t.size).foldl (nestNext p) ⟨t, []⟩).tree

/-! ## Missing names -/

def fillMember (p : PassColumns) (m : MemberRow) : MemberRow :=
  if (m.name p.dst).isNone then m.setName p.dst (m.name p.src) else m

def fillClass (p : PassColumns) (t : MappingTree) (row : Nat) : MappingTree :=
  let t := match t.className row p.dst, t.className row p.src with
    | none, some name => t.setOutputName row p.dst name p.shared
    | _, _ => t
  match t.classes[row]? with
  | some c => t.setClass row
      { c with fields := c.fields.map (fillMember p), methods := c.methods.map (fillMember p) }
  | none => t

/-- Gives every class and member without a name in a column its source name there. -/
def copyUnnamed (t : MappingTree) (p : PassColumns) : MappingTree :=
  (List.range t.size).foldl (fillClass p) t

/-! ## Inherited methods -/

/-- Whether a method row is the class's own, as far as the hierarchy knows. -/
def isOwnMethod (h : Hierarchy) (className : String) (m : MemberRow) : Bool :=
  match m.name 0, m.srcDesc with
  | some name, some desc =>
    h.declares? className name desc != some false || !h.inherits className name desc
  | _, _ => true

def stripClass (h : Hierarchy) (c : ClassRow) : ClassRow :=
  match c.name 0 with
  | some name =>
    if h.contains name then { c with methods := c.methods.filter (isOwnMethod h name) } else c
  | none => c

/-- Drops the method rows that a class inherits and does not declare. -/
def childMethodStrip (t : MappingTree) (h : Hierarchy) : MappingTree :=
  { t with classes := t.classes.map (stripClass h) }

/-! ## The passes of an input -/

/-- The source column of a pass; it has to be declared. -/
def passSource (t : MappingTree) (i : MappingInput) (what : String) : Except Error Nat :=
  match i.sourceNs with
  | none => .error (.unknownNamespace "<unset>" s!"{what} of {i.label} requires a declared source namespace")
  | some ns => t.requireNamespace ns s!"{what} of {i.label}"

/-- Runs a pass for each column that the input brings out. -/
def overOutputs (t : MappingTree) (i : MappingInput) (what : String)
    (pass : MappingTree → PassColumns → MappingTree) : Except Error MappingTree := do
  let src ← t.passSource i what
  return (i.outputColumns t src).foldl (fun t dst => pass t ⟨src, dst, i.allowDuplicates⟩) t

def runPass (t : MappingTree) (h : Option Hierarchy) (i : MappingInput) (pass : MappingAction) :
    Except Error MappingTree :=
  match pass with
  | .renest => t.overOutputs i "renest" renest
  | .copyUnnamedFromSrc => t.overOutputs i "copy_unnamed_from_src" copyUnnamed
  | .childMethodStrip =>
    match h with
    | some h => .ok (t.childMethodStrip h)
    | none => .error (.configuration s!"child_method_strip of {i.label} needs a class hierarchy")
  | _ => .ok t

def runPasses (t : MappingTree) (h : Option Hierarchy) (i : MappingInput) : Except Error MappingTree :=
  i.postPasses.foldlM (fun t pass => t.runPass h i pass) t

end MappingTree

end JarDerivation
