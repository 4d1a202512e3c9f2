-- Mapping files: for each symbol a name in each namespace of the file. Descriptors
-- are written in the first namespace.
import JarDerivation.Json.Reader
import JarDerivation.Json.Record
import JarDerivation.Mapping.Tree

namespace JarDerivation

structure MemberEntry where
  names : Names
  desc : Option String
  deriving DecidableEq, Repr

structure ClassEntry where
  names : Names
  fields : List MemberEntry
  methods : List MemberEntry
  deriving DecidableEq, Repr

def ClassEntry.members (c : ClassEntry) : MemberKind → List MemberEntry
  | .field => c.fields
  | .method => c.methods

structure MappingFile where
  namespaces : List String
  classes : List ClassEntry
  deriving DecidableEq, Repr

namespace MappingFile

/-- Renames the first namespace of this name. Tells whether there was one. -/
def renameNamespace (f : MappingFile) (source target : String) : Bool × MappingFile :=
  match f.namespaces.idxOf? source with
  | some i => (true, { f with namespaces := f.namespaces.set i target })
  | none => (false, f)

/-- The column of a namespace. -/
def column? (f : MappingFile) (name : String) : Option Nat := f.namespaces.idxOf? name

end MappingFile

/-! ## Reading -/

def MemberEntry.ofJson? (v : Json) : Option MemberEntry :=
  match Json.fields? ["names", "desc"] 1 v with
  | some [names, desc] => do
    let names ← Json.required (Json.list? (Json.optional? Json.text?)) names
    let desc ← Json.withDefault none (Json.optional? Json.text?) desc
    return ⟨names, desc⟩
  | _ => none

def ClassEntry.ofJson? (v : Json) : Option ClassEntry :=
  match Json.fields? ["names", "fields", "methods"] 1 v with
  | some [names, fields, methods] => do
    let names ← Json.required (Json.list? (Json.optional? Json.text?)) names
    let fields ← Json.withDefault [] (Json.list? MemberEntry.ofJson?) fields
    let methods ← Json.withDefault [] (Json.list? MemberEntry.ofJson?) methods
    return ⟨names, fields, methods⟩
  | _ => none

namespace MappingFile

def ofJson? (v : Json) : Option MappingFile :=
  match Json.fields? ["namespaces", "classes"] 1 v with
  | some [namespaces, classes] => do
    let namespaces ← Json.required (Json.list? Json.text?) namespaces
    let classes ← Json.withDefault [] (Json.list? ClassEntry.ofJson?) classes
    return ⟨namespaces, classes⟩
  | _ => none

def ofBytes? (bytes : Bytes) : Option MappingFile := (Json.ofBytes? bytes).bind ofJson?

end MappingFile

/-! ## Writing -/

def MemberEntry.toJson (m : MemberEntry) : Json :=
  .record [("names", Json.list (Json.optional Json.text) m.names),
    ("desc", Json.optional Json.text m.desc)]

def ClassEntry.toJson (c : ClassEntry) : Json :=
  .record [("names", Json.list (Json.optional Json.text) c.names),
    ("fields", Json.list MemberEntry.toJson c.fields),
    ("methods", Json.list MemberEntry.toJson c.methods)]

def MappingFile.toJson (f : MappingFile) : Json :=
  .record [("namespaces", Json.list Json.text f.namespaces),
    ("classes", Json.list ClassEntry.toJson f.classes)]

end JarDerivation
