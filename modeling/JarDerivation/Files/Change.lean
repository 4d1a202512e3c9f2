-- Changing files: deleting, writing, making folders. A change finds the folder
-- around what a path names, and then the name itself in that folder.
import JarDerivation.Files.Basic

namespace JarDerivation

namespace Files

/-- The folder around what a path names. -/
def folderAround (f : Files) (path : String) : Except IoFault Location := do
  f.step (← f.follow path (Path.around path)) "."

def remove (f : Files) (path : String) : Except IoFault Files := do
  let folder ← f.folderAround path
  if Path.isDotted path then throw .isDirectory
  let place ← f.step folder (Path.lastName path)
  match f.node? place with
  | none => throw .notFound
  | some .folder => throw .isDirectory
  | some (.file _) =>
    if Path.wantsFolder path then throw .notDirectory
    return f.eraseAt place

/-- The place that a file written to a path takes. -/
def target (f : Files) (path : String) : Except IoFault Location := do
  let folder ← f.folderAround path
  if Path.isDotted path || Path.wantsFolder path then throw .isDirectory
  let place ← f.step folder (Path.lastName path)
  if f.node? place = some .folder then throw .isDirectory
  return place

def write (f : Files) (path : String) (c : Content) : Except IoFault Files :=
  (f.target path).map fun place => f.putAt place (.file c)

end Files

/-- Work on files. What was done before a fault stays done. -/
abbrev FileWork := ExceptT IoFault (StateM Files)

namespace FileWork

/-- Makes a change, which is made as a whole or not at all. -/
def change (op : Files → Except IoFault Files) : FileWork Unit := do
  match op (← get) with
  | .ok f => set f
  | .error fault => throw fault

/-- Follows one segment from a folder to a folder, which is made if nothing is there. -/
def enter (place : Location) (segment : String) : FileWork Location := do
  let f ← get
  let next ← ExceptT.mk (pure (f.step place segment))
  match f.node? next with
  | some .folder => return next
  | some (.file _) => throw .alreadyExists
  | none =>
    set (f.putAt next .folder)
    return next

/-- Makes sure that something is at a path: if nothing is, a folder, and the
folders that are missing on the way to it. -/
def ensureFolder (path : String) : FileWork Unit := do
  if path = "" then return
  match (← get).look path with
  | .ok _ => return
  | .error .notFound => discard ((Path.segments path).foldlM enter (Files.start path))
  | .error fault => throw fault

/-- Makes sure of the folder around what a path names. -/
def ensureAround (path : String) : FileWork Unit := (Path.parent? path).forM ensureFolder

/-- Makes way for a new file. -/
def clear (path : String) : FileWork Unit := do
  ensureAround path
  if (← get).exists? path then change (·.remove path)

end FileWork

/-- Puts a file at a path, with the folders around it. -/
def Files.put (f : Files) (path : String) (c : Content) : Files :=
  ((do FileWork.ensureAround path; FileWork.change (·.write path c) : FileWork Unit).run.run f).2

end JarDerivation
