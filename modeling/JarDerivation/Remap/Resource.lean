-- Rewriting jar entries that are no classes but name classes or members. An
-- access widener is rewritten if it is in the namespace that the view starts from.
import JarDerivation.Jar.Basic
import JarDerivation.Widener.Apply

namespace JarDerivation

structure ResourceRemapper where
  /-- Whether an entry of this name is rewritten. -/
  accepts : String → Bool
  transform : MappingView → String → Bytes → Except Error Bytes

namespace ResourceRemapper

def isWidenerEntry (entry : String) : Bool := Text.endsWith ".accesswidener" entry

def transformWidener (v : MappingView) (entry : String) (bytes : Bytes) : Except Error Bytes :=
  match Utf8.decode bytes with
  | .error fault => .error (.accessWidener s!"{entry} is not UTF-8: {fault.message}")
  | .ok text => do
    let w ← Widener.ofText text
    if w.namespaceName = v.sourceName then return Utf8.encode (w.remap v).toText
    else return Utf8.encode text

def accessWidener : ResourceRemapper := ⟨isWidenerEntry, transformWidener⟩

/-- Rewrites an entry with the first remapper that accepts it. -/
def applyFirst (rs : List ResourceRemapper) (v : MappingView) (e : Entry) : Except Error Bytes :=
  match rs.find? (·.accepts e.name) with
  | some r => r.transform v e.name e.bytes
  | none => .ok e.bytes

end ResourceRemapper

namespace Jar

/-- The first access widener of a jar. -/
def findWidener? (j : Jar) : Option String := j.fileNames.find? ResourceRemapper.isWidenerEntry

end Jar

end JarDerivation
