-- Binary patches: an archive with a patch for each entry of the game jar that
-- changes. A patch for an entry that the game does not have adds it.
import JarDerivation.Library
import JarDerivation.Patcher.Base

namespace JarDerivation

/-- Applies one patch: the name of the entry, its bytes before and the patch. -/
abbrev PatchApplier := String → Bytes → Bytes → Except String Bytes

structure BinaryPatches where
  base : BasePatcher
  name : String
  /-- The archive of the patches. -/
  archive : String
  applier : PatchApplier
  /-- The namespace of the patched jar, if it is another one. -/
  outputNamespace : Option String
  /-- Modules of libraries that the loader brings along itself. -/
  excludedLibraries : List String

namespace BinaryPatches

def patchSuffix : String := ".binpatch"

/-- An archive of patches that some loaders leave in the patched jar. -/
def bundledPatches : String := "binpatches.pack.lzma"

/-- The patches of an archive under the names of the entries that they change. -/
def readPatches (j : Jar) : Except Error (Text.Ascending Bytes) :=
  j.files.foldlM (fun m e => do
    let bytes ← j.read e
    match Text.dropEnding? patchSuffix e.name with
    | some entry => return m.insert entry bytes
    | none => return m) []

def applyOne (p : BinaryPatches) (entry : String) (bytes patch : Bytes) : Except Error Bytes :=
  match p.applier entry bytes patch with
  | .ok out => .ok out
  | .error reason => .error (.patchFailed p.name s!"{entry}: {reason}")

/-- An entry of the game with its patch applied. -/
def patchEntry (p : BinaryPatches) (patches : Text.Ascending Bytes) (entry : String)
    (bytes : Bytes) : Except Error Bytes :=
  match patches.find? entry with
  | some patch => p.applyOne entry bytes patch
  | none => .ok bytes

/-- Writes an entry that a patch makes of nothing. -/
def addEntry (p : BinaryPatches) (out : Jar) (patch : String × Bytes) : Except Error Jar := do
  out.store patch.1 (← p.applyOne patch.1 [] patch.2)

/-- The patched game jar: its own entries, then the added ones in ascending order. -/
def apply (p : BinaryPatches) (patches : Text.Ascending Bytes) (game : Jar) : Traced Jar := do
  let out ← game.editEntries fun entry bytes =>
    Traced.ofExcept (some <$> p.patchEntry patches entry bytes)
  Traced.ofExcept ((patches.filter fun e => !game.contains e.1).foldlM p.addEntry out)

/-- The artifact of the patched jar. -/
def target (p : BinaryPatches) (ctx : StageContext) (input : Artifact) : Except Error Artifact :=
  match p.outputNamespace with
  | some name => do return input.deriveInto p.name (← ctx.registry.lookup name) input.namespaceOf
  | none => .ok (input.derive p.name)

def transform (p : BinaryPatches) (ctx : StageContext) (input : Artifact) : Work Artifact := do
  let target ← Work.ofExcept (p.target ctx input)
  ctx.produce target do
    let _ ← Work.openJar input.path
    let patches ← Work.ofExcept (readPatches (← Work.openJar p.archive))
    Work.rewriteJar input.path target.path (p.apply patches)

def fixedTag (p : BinaryPatches) : String := s!"{p.name}-fixed"

/-- Whether an entry is left over from the patches. -/
def isLeftover (entry : String) : Bool := entry == bundledPatches || Text.endsWith patchSuffix entry

/-- The jar without what is left over from the patches. -/
def withoutLeftovers (j : Jar) : Traced Jar :=
  j.editEntries fun entry bytes => pure (if isLeftover entry then none else some bytes)

/-- Drops what is left over from the patches, once the jar has been remapped. -/
def afterRemap (p : BinaryPatches) (ctx : StageContext) (input : Artifact) : Work Artifact :=
  if input.tags.contains p.fixedTag || input.namespaceOf.name == p.base.prodNamespace then
    return input
  else
    let target := input.derive p.fixedTag
    ctx.produce target (Work.rewriteJar input.path target.path withoutLeftovers)

def keepsLibrary (p : BinaryPatches) (l : Library) : Bool :=
  !p.excludedLibraries.contains l.moduleName

end BinaryPatches

end JarDerivation
