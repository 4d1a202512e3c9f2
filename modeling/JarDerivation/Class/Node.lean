-- Class nodes: the declarations of a class with their access flags, without the bodies
-- of its methods.
import JarDerivation.Text.Split

namespace JarDerivation

/-! ## Access flags -/

abbrev Access := UInt16

namespace Access

def «public» : Access := 0x0001
def «private» : Access := 0x0002
def «protected» : Access := 0x0004
def static : Access := 0x0008
def final : Access := 0x0010

/-- The three bits that say who may see a class or member. -/
def visibility : Access := 0x0007

def has (flags bit : Access) : Bool := flags &&& bit != 0

def clear (flags bits : Access) : Access := flags &&& ~~~bits

/-- Everyone may see it. -/
def makePublic (flags : Access) : Access := clear flags visibility ||| «public»

end Access

/-! ## Classes and members -/

/-- The distribution of the game that a class or member comes from. -/
inductive Side where
  | client
  | server
  deriving DecidableEq, Repr

structure MemberNode where
  access : Access
  name : String
  desc : String
  signature : Option String
  /-- Set on a member that only one side of a merge has. -/
  side : Option Side
  deriving DecidableEq, Repr

namespace MemberNode

/-- What tells a member apart within its class. -/
def key (m : MemberNode) : String × String := (m.name, m.desc)

end MemberNode

/-- A record about a nested class. Without `innerName` the class is anonymous. -/
structure InnerClass where
  name : String
  outerName : Option String
  innerName : Option String
  access : Access
  deriving DecidableEq, Repr

structure ClassNode where
  access : Access
  name : String
  superName : Option String
  interfaces : List String
  fields : List MemberNode
  methods : List MemberNode
  innerClasses : List InnerClass
  /-- The class around a local or anonymous class. -/
  outerClass : Option String
  side : Option Side
  deriving DecidableEq, Repr

namespace ClassNode

def field? (c : ClassNode) (name desc : String) : Option MemberNode :=
  c.fields.find? fun m => m.key == (name, desc)

def method? (c : ClassNode) (name desc : String) : Option MemberNode :=
  c.methods.find? fun m => m.key == (name, desc)

/-- The record that a nested class has about itself. -/
def ownRecord? (c : ClassNode) : Option InnerClass :=
  c.innerClasses.find? fun ic => ic.name == c.name

def isAnonymous (c : ClassNode) : Bool := c.ownRecord?.any fun ic => ic.innerName.isNone

/-- The name of the jar entry that holds a class. -/
def entryName (name : String) : String := name ++ ".class"

/-- The class that a jar entry holds, by its name. -/
def nameOfEntry? (entry : String) : Option String := Text.dropEnding? ".class" entry

end ClassNode

end JarDerivation
