-- The class hierarchy: super types and declared methods of the classes that are
-- known. It may lack classes, and it may have cycles. It is read from a jar: compiled
-- classes as outlines, and other class entries through the codec.
import JarDerivation.Class.Codec
import JarDerivation.Class.Outline
import JarDerivation.Jar.Basic

namespace JarDerivation

structure HierarchyEntry where
  superName : Option String
  interfaces : List String
  methods : List (String × String)
  deriving DecidableEq, Repr

namespace HierarchyEntry

/-- The direct super types, the super class first. -/
def parents (e : HierarchyEntry) : List String := e.superName.toList ++ e.interfaces

end HierarchyEntry

structure Hierarchy where
  classes : List (String × HierarchyEntry)
  deriving DecidableEq, Repr

namespace Hierarchy

def empty : Hierarchy := ⟨[]⟩

def entry? (h : Hierarchy) (name : String) : Option HierarchyEntry := List.lookup name h.classes

/-- Adds a class; it takes the place of an earlier class of its name. -/
def insert (h : Hierarchy) (c : ClassNode) : Hierarchy :=
  ⟨(c.name, ⟨c.superName, c.interfaces, c.methods.map MemberNode.key⟩) ::
    h.classes.filter (·.1 != c.name)⟩

def size (h : Hierarchy) : Nat := h.classes.length

def contains (h : Hierarchy) (name : String) : Bool := (h.entry? name).isSome

/-- Whether a class declares a method itself; there is no answer for an unknown class. -/
def declares? (h : Hierarchy) (className name desc : String) : Option Bool :=
  (h.entry? className).map fun e => e.methods.contains (name, desc)

/-- The direct super types of a class, as far as it is known. -/
def parentsOf (h : Hierarchy) (name : String) : List String :=
  ((h.entry? name).map HierarchyEntry.parents).getD []

/-- Every name that the hierarchy mentions as a super type. -/
def mentioned (h : Hierarchy) : List String := h.classes.flatMap fun e => e.2.parents

/-- Adds the names that are not yet in the list, each once. -/
def addNew (seen : List String) (names : List String) : List String :=
  names.foldl (fun acc n => if acc.contains n then acc else acc ++ [n]) seen

/-- Breadth-first search upwards. `seen` are the super types so far, nearest
first, and the parents of the first `fuel` names in `waiting` are still to be
seen. -/
def climb (h : Hierarchy) : Nat → List String → List String → List String
  | 0, seen, _ => seen
  | _, seen, [] => seen
  | fuel + 1, seen, name :: waiting =>
    let next := addNew seen (h.parentsOf name)
    climb h fuel next (waiting ++ next.drop seen.length)

/-- The super types of a class, nearest first and each once. -/
def ancestors (h : Hierarchy) (name : String) : List String :=
  climb h (h.mentioned.length + 1) [] [name]

/-- Whether a super type of the class declares the method. -/
def inherits (h : Hierarchy) (className name desc : String) : Bool :=
  (h.ancestors className).any fun a => h.declares? a name desc == some true

/-! ## The hierarchy of a jar -/

def readClass (codec : Codec) (e : Entry) : Traced ClassNode :=
  if Outline.isClassFile e.bytes then
    match Outline.read e.bytes with
    | .ok c => pure c
    | .error fault => Traced.fail (.classFormat e.name fault.message)
  else codec.decodeEntry e.name e.bytes

/-- The hierarchy of the classes of a jar, in the order of the archive. -/
def ofJar (codec : Codec) (j : Jar) : Traced Hierarchy :=
  j.files.foldlM (fun h e => do
    let bytes ← Traced.ofExcept (j.read e)
    if (ClassNode.nameOfEntry? e.name).isSome then
      return h.insert (← readClass codec ⟨e.name, bytes⟩)
    else return h) .empty

end Hierarchy

end JarDerivation
