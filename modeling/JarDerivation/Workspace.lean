-- The workspace of a derivation: its files, the trace of what was done, and what
-- the stages remember. A failure keeps the workspace as it was left.
import JarDerivation.Artifact
import JarDerivation.Files.Change
import JarDerivation.Trace

namespace JarDerivation

/-- A wish for the jar of an environment in a namespace and a fallback. -/
structure ArtifactRequest where
  env : Environment
  namespaceName : String
  fallback : String
  deriving DecidableEq, Repr

structure Workspace where
  files : Files
  trace : List Event
  /-- The outputs that were built anew while a reload is forced, by the parts of their paths. -/
  rebuilt : List (List String)
  /-- Number of outputs that were built. -/
  builds : Nat
  /-- The artifacts that have been provided, each for its request. -/
  provided : List (ArtifactRequest × Artifact)

abbrev Work := ExceptT Error (StateM Workspace)

namespace Workspace

def ofFiles (files : Files) : Workspace := ⟨files, [], [], 0, []⟩

end Workspace

namespace Work

def files : Work Files := return (← get).files

def setFiles (files : Files) : Work Unit := modify fun w => { w with files }

def ofExcept {α : Type} : Except Error α → Work α
  | .ok a => pure a
  | .error e => throw e

/-- Does a piece of traced work. -/
def ofTraced {α : Type} (x : Traced α) : Work α := do
  modify fun w => { w with trace := w.trace ++ x.events }
  ofExcept x.outcome

/-- Does a piece of work on the files. -/
def onFiles {α : Type} (x : FileWork α) : Work α := do
  let (r, f) := x.run.run (← files)
  setFiles f
  ofExcept (r.mapError .io)

/-! ## Jars on disk -/

def openJar (path : String) : Work Jar := do ofExcept ((← files).openJar path)

/-- Deletes a file that has to be there. -/
def delete (path : String) : Work Unit := onFiles (FileWork.change (·.remove path))

/-- Deletes what may be left of an output. -/
def discard (path : String) : Work Unit := do
  if let .ok f := (← files).remove path then setFiles f

/-- The place of a new jar. -/
def jarPlace (path : String) : Work Location := do
  ofExcept (((← files).target path).mapError fun fault =>
    .archive path s!"Failed to create jar: {fault.message}")

/-- Writes a jar. Any file at its path is gone before the work on its entries
begins, and stays away if that work fails. The value that comes with the
entries is handed on. -/
def writeJarWith {α : Type} (path : String) (body : Traced (Jar × α)) : Work α := do
  onFiles (FileWork.clear path)
  let place ← jarPlace path
  let (jar, a) ← ofTraced body
  setFiles ((← files).putAt place (.file (.jar jar)))
  return a

def writeJar (path : String) (body : Traced Jar) : Work Unit :=
  writeJarWith path ((·, ()) <$> body)

/-- Does a piece of work and deletes a file after it, also if it fails. -/
def thenDiscard (path : String) (body : Work Unit) : Work Unit := do
  tryCatch body fun e => do
    discard path
    throw e
  discard path

/-- Writes a jar that is made from another one. The input is read first, so the
output may take its place. -/
def rewriteJar (input output : String) (edit : Jar → Traced Jar) : Work Unit := do
  let jar ← openJar input
  writeJar output (edit jar)

end Work

end JarDerivation
