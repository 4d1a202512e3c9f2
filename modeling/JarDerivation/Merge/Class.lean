-- Merging the client's and the server's version of a class. What both have is
-- kept as the client has it; what one side has is kept and marked with the side.
import JarDerivation.Class.Node
import JarDerivation.Error
import JarDerivation.Text.Quoted

namespace JarDerivation

structure ClassMerger where
  /-- Whether members of one side are marked. -/
  annotateSides : Bool
  deriving DecidableEq, Repr

/-- Why two versions of a class cannot be merged. -/
inductive MergeConflict where
  | name (server : String)
  | superClass (client server : Option String)
  | anonymity
  deriving DecidableEq, Repr

def MergeConflict.reason : MergeConflict → String
  | name server => s!"server class is named {server}"
  | superClass client server =>
    s!"super class differs: client {Text.quotedOption client}, server {Text.quotedOption server}"
  | anonymity => "anonymous on one side only"

inductive MergeResult where
  | clientOnly (node : ClassNode)
  | serverOnly (node : ClassNode)
  | merged (node : ClassNode)
  | failed (client server : ClassNode) (error : Error)
  deriving DecidableEq, Repr

namespace MergeResult

/-- The class to write, if there is one. -/
def node? : MergeResult → Option ClassNode
  | clientOnly c | serverOnly c | merged c => some c
  | failed .. => none

def isFailed : MergeResult → Bool
  | failed .. => true
  | _ => false

end MergeResult

namespace ClassMerger

/-- Adds the items of the second list that the first does not have yet, each once. -/
def union {α β : Type} [BEq β] (key : α → β) (xs ys : List α) : List α :=
  ys.foldl (fun acc y => if acc.any (fun x => key x == key y) then acc else acc ++ [y]) xs

def mark (m : ClassMerger) (side : Side) (member : MemberNode) : MemberNode :=
  if m.annotateSides then { member with side := some side } else member

def hasKey (members : List MemberNode) (member : MemberNode) : Bool :=
  members.any (·.key == member.key)

/-- The client's members in their order, then those that only the server has. -/
def mergeMembers (m : ClassMerger) (client server : List MemberNode) : List MemberNode :=
  client.map (fun c => if hasKey server c then c else m.mark .client c) ++
    (server.filter (!hasKey client ·)).map (m.mark .server)

def conflict? (client server : ClassNode) : Option MergeConflict :=
  if client.name ≠ server.name then some (.name server.name)
  else if client.superName ≠ server.superName then some (.superClass client.superName server.superName)
  else if client.isAnonymous ≠ server.isAnonymous then some .anonymity
  else none

/-- The merge of two versions that do not conflict. -/
def combine (m : ClassMerger) (client server : ClassNode) : ClassNode :=
  { access := client.access
    name := client.name
    superName := client.superName
    interfaces := union id client.interfaces server.interfaces
    fields := m.mergeMembers client.fields server.fields
    methods := m.mergeMembers client.methods server.methods
    innerClasses := union InnerClass.name client.innerClasses server.innerClasses
    outerClass := client.outerClass.or server.outerClass
    side := none }

def mergeBoth (m : ClassMerger) (client server : ClassNode) : MergeResult :=
  match conflict? client server with
  | some c => .failed client server (.mergeConflict client.name c.reason)
  | none => .merged (m.combine client server)

/-- Merges the versions that there are. -/
def merge (m : ClassMerger) : Option ClassNode → Option ClassNode → Option MergeResult
  | none, none => none
  | some client, none => some (.clientOnly client)
  | none, some server => some (.serverOnly server)
  | some client, some server => some (m.mergeBoth client server)

end ClassMerger

end JarDerivation
