-- Access wideners: lists of the classes and members that are opened up.
import JarDerivation.Class.Node

namespace JarDerivation

inductive AccessKind where
  | accessible
  | extendable
  | mutable
  deriving DecidableEq, Repr

def AccessKind.name : AccessKind → String
  | .accessible => "accessible"
  | .extendable => "extendable"
  | .mutable => "mutable"

inductive WidenTarget where
  | class (name : String)
  | method (owner name desc : String)
  | field (owner name desc : String)
  deriving DecidableEq, Repr

/-- The class that is changed. -/
def WidenTarget.owner : WidenTarget → String
  | .class name => name
  | .method owner .. => owner
  | .field owner .. => owner

structure WidenEntry where
  access : AccessKind
  /-- Whether the entry also holds for what builds on the jar. -/
  transitive : Bool
  target : WidenTarget
  deriving DecidableEq, Repr

structure Widener where
  version : Nat
  namespaceName : String
  entries : List WidenEntry
  deriving DecidableEq, Repr

end JarDerivation
