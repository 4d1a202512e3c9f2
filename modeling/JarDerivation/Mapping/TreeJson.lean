-- The mapping tree as a JSON document, which is written to a file and read back. The
-- index is not part of it: a tree that is read back gets a new one.
import JarDerivation.Files.Change
import JarDerivation.Json.Printer
import JarDerivation.Json.Reader
import JarDerivation.Json.Record
import JarDerivation.Mapping.Tree

namespace JarDerivation

/-! ## Writing -/

def Names.toJson (names : Names) : Json := Json.list (Json.optional Json.text) names

def MemberRow.toJson (m : MemberRow) : Json :=
  .record [("names", m.names.toJson), ("src_desc", Json.optional Json.text m.srcDesc)]

def ClassRow.toJson (c : ClassRow) : Json :=
  .record [("names", c.names.toJson), ("fields", Json.list MemberRow.toJson c.fields),
    ("methods", Json.list MemberRow.toJson c.methods)]

namespace MappingTree

def toJson (t : MappingTree) : Json :=
  .record [("namespaces", Json.list Json.text t.namespaces),
    ("classes", Json.list ClassRow.toJson t.classes)]

/-- The tree as an indented document. -/
def exported (t : MappingTree) : Bytes := t.toJson.toPrettyBytes

end MappingTree

/-! ## Reading -/

def Names.ofJson? (v : Json) : Option Names := Json.list? (Json.optional? Json.text?) v

def MemberRow.ofJson? (v : Json) : Option MemberRow :=
  match Json.fields? ["names", "src_desc"] 2 v with
  | some [names, desc] => do
    let names ← Json.required Names.ofJson? names
    let desc ← Json.withDefault none (Json.optional? Json.text?) desc
    return ⟨names, desc⟩
  | _ => none

def ClassRow.ofJson? (v : Json) : Option ClassRow :=
  match Json.fields? ["names", "fields", "methods"] 3 v with
  | some [names, fields, methods] => do
    let names ← Json.required Names.ofJson? names
    let fields ← Json.required (Json.list? MemberRow.ofJson?) fields
    let methods ← Json.required (Json.list? MemberRow.ofJson?) methods
    return ⟨names, fields, methods⟩
  | _ => none

namespace MappingTree

/-- A tree whose index has not been built. -/
def ofJson? (v : Json) : Option MappingTree :=
  match Json.fields? ["namespaces", "classes"] 2 v with
  | some [namespaces, classes] => do
    let namespaces ← Json.required (Json.list? Json.text?) namespaces
    let classes ← Json.required (Json.list? ClassRow.ofJson?) classes
    return ⟨namespaces, classes, []⟩
  | _ => none

/-- Reads an exported tree. -/
def imported (bytes : Bytes) : Except Error MappingTree :=
  match (Json.ofBytes? bytes).bind ofJson? with
  | some t => .ok t.rebuildIndex
  | none => .error .serialization

/-! ## On disk -/

/-- Writes the tree to a path, with the folders around it. -/
def exportTo (t : MappingTree) (path : String) : FileWork Unit := do
  FileWork.ensureAround path
  FileWork.change (·.write path (.raw t.exported))

/-- Reads the tree at a path. A folder or an archive is no document. -/
def importFrom (f : Files) (path : String) : Except Error MappingTree :=
  match f.look path with
  | .ok (.file (.raw bytes)) => imported bytes
  | .ok _ => .error .serialization
  | .error fault => .error (.io fault)

end MappingTree

end JarDerivation
