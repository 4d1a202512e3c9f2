-- Mapping sources: where the mapping files of a dependency come from.
import JarDerivation.Files.Basic
import JarDerivation.Mapping.File

namespace JarDerivation

structure SourceFile where
  /-- The path of the file within its source. -/
  name : String
  /-- The format of the file. -/
  kind : String
  content : MappingFile
  deriving DecidableEq, Repr

inductive MappingSource where
  | memory (name : String) (files : List SourceFile)
  /-- The archive at a path; its entries ending in `.json` are the mapping files. -/
  | archive (path : String)
  deriving DecidableEq, Repr

namespace MappingSource

/-- A file held in memory is of the kind that its extension says. -/
def memoryFile (name : String) (content : MappingFile) : SourceFile :=
  ⟨name, (Path.extension? name).getD "", content⟩

/-- What messages call the source. -/
def describe : MappingSource → String
  | .memory name _ => name
  | .archive path => path

/-- The mapping file in an entry of the archive at `path`. -/
def archiveFile (path : String) (j : Jar) (name : String) : Except Error SourceFile := do
  match (← j.readOptional name).bind MappingFile.ofBytes? with
  | some content => return ⟨name, "json", content⟩
  | none => throw (.archive path s!"invalid mapping file {name}: {Error.malformedJson}")

def files (disk : Files) : MappingSource → Except Error (List SourceFile)
  | .memory _ files => .ok files
  | .archive path => do
    let j ← disk.openJar path
    (j.fileNames.filter (Text.endsWith ".json")).mapM (archiveFile path j)

end MappingSource

end JarDerivation
