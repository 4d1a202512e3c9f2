-- Manifests: the main attributes of a jar, one on each line. A line that begins
-- with a blank goes on with the value before it.
import JarDerivation.Jar.Basic
import JarDerivation.Text.Blank
import JarDerivation.Text.Lines
import JarDerivation.Workspace

namespace JarDerivation

namespace Manifest

/-- The entry that holds the manifest. -/
def entryName : String := "META-INF/MANIFEST.MF"

abbrev Attributes := List (String × String)

/-! ## Reading -/

/-- Reads one line of the main section, after lines whose attributes are given from the last
one to the first. A line without a colon says nothing. -/
def addLine (earlier : Attributes) : List Char → Attributes
  | ' ' :: text =>
    match earlier with
    | (key, value) :: rest => (key, value ++ String.ofList text) :: rest
    | [] => []
  | line =>
    match Text.cutFirst ':' line with
    | some (key, value) =>
      (String.ofList (Text.trim key), String.ofList (Text.trimStart value)) :: earlier
    | none => earlier

/-- The characters of a manifest with plain line ends. -/
def characters (bytes : Bytes) : List Char := Text.toLf (Utf8.decodeLossy bytes).toList

/-- The attributes before the first empty line, in their order. -/
def attributes (bytes : Bytes) : Attributes :=
  (((Text.lines (characters bytes)).takeWhile (!·.isEmpty)).foldl addLine []).reverse

/-! ## Writing -/

/-- Keys are the same whatever the case of their ASCII letters. -/
def foldCase (key : String) : String := String.ofList (key.toList.map Text.lowerAscii)

/-- An attribute beside what its key is found by. -/
abbrev Slot := String × (String × String)

def slot (a : String × String) : Slot := (foldCase a.1, a)

/-- Sets an attribute. A key that is there keeps its place and its spelling. -/
def set (new : Slot) : List Slot → List Slot
  | [] => [new]
  | s :: rest => if s.1 == new.1 then (s.1, s.2.1, new.2.2) :: rest else s :: set new rest

/-- Sets attributes one after the other. -/
def overlay (base changes : Attributes) : Attributes :=
  ((changes.map slot).foldl (fun m s => set s m) (base.map slot)).map (·.2)

def defaults : Attributes := [("Manifest-Version", "1.0")]

def lineText (a : String × String) : String := a.1 ++ ": " ++ a.2 ++ "\r\n"

def render (attributes : Attributes) : String := String.join (attributes.map lineText) ++ "\r\n"

/-- A manifest of the default attributes and those of another manifest. -/
def merged (bytes : Option Bytes) : Bytes :=
  Utf8.encode (render (overlay defaults ((bytes.map attributes).getD [])))

end Manifest

namespace Jar

/-- The jar with this manifest put first. -/
def withManifest (j : Jar) (manifest : Bytes) : Except Error Jar := do
  let out ← Jar.empty.store Manifest.entryName manifest
  j.files.foldlM (fun out e => do
    let bytes ← j.read e
    if e.name = Manifest.entryName then return out else out.store e.name bytes) out

end Jar

/-- Copies a jar on disk. The manifest of the copy is merged with the defaults. -/
def Work.copyWithMergedManifest (input output : String) : Work Unit := do
  let j ← openJar input
  let manifest := Manifest.merged (← ofExcept (j.readOptional Manifest.entryName))
  writeJar output (Traced.ofExcept (j.withManifest manifest))

end JarDerivation
