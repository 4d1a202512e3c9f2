-- A view of the mapping tree: the renames of one hop. A class is looked up by
-- its name in the namespace that the hop starts from, and if it has none there,
-- by its name in a fallback namespace.
import JarDerivation.Mapping.Tree

namespace JarDerivation

structure MappingView where
  tree : MappingTree
  source : Nat
  fallback : Nat
  target : Nat
  deriving DecidableEq, Repr

/-- The view between three namespaces of the tree. -/
def MappingTree.view (t : MappingTree) (source fallback target : String) :
    Except Error MappingView := do
  let s ← t.requireNamespace source "remap view source"
  let f ← t.requireNamespace fallback "remap view fallback"
  let d ← t.requireNamespace target "remap view target"
  return ⟨t, s, f, d⟩

namespace MappingView

def sourceName (v : MappingView) : String := (v.tree.namespaces[v.source]?).getD ""

def targetName (v : MappingView) : String := (v.tree.namespaces[v.target]?).getD ""

def classRow (v : MappingView) (name : String) : Option Nat :=
  (v.tree.findClass name v.source).or (v.tree.findClass name v.fallback)

/-- The new name of a class, if it has one. -/
def mapClass (v : MappingView) (name : String) : Option String :=
  (v.classRow name).bind (v.tree.className · v.target)

def mapClassOrKeep (v : MappingView) (name : String) : String := (v.mapClass name).getD name

def mapDescriptor (v : MappingView) (desc : String) : String := Descriptor.rename v.mapClass desc

/-- A source descriptor as a caller of the view writes it. -/
def callerDescriptor (v : MappingView) (srcDesc : String) : String :=
  Descriptor.rename (fun name =>
    (v.tree.findClass name 0).bind fun row =>
      (v.tree.className row v.source).or (v.tree.className row v.fallback)) srcDesc

/-- Whether a member row has this name in a column, and this descriptor as far
as both are known. -/
def matchesMember (v : MappingView) (name : String) (desc : Option String) (col : Nat)
    (m : MemberRow) : Bool :=
  m.name col == some name && MappingTree.descAgrees desc (m.srcDesc.map v.callerDescriptor)

def mapMember (v : MappingView) (kind : MemberKind) (owner name : String) (desc : Option String) :
    Option String := do
  let row ← v.classRow owner
  let c ← v.tree.classes[row]?
  let members := c.members kind
  let m ← (members.find? (v.matchesMember name desc v.source)).or
    (members.find? (v.matchesMember name desc v.fallback))
  m.name v.target

def mapField (v : MappingView) (owner name : String) (desc : Option String) : Option String :=
  v.mapMember .field owner name desc

def mapMethod (v : MappingView) (owner name : String) (desc : Option String) : Option String :=
  v.mapMember .method owner name desc

end MappingView

end JarDerivation
