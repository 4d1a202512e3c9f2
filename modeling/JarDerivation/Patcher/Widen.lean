-- Widening the access of the classes of an artifact. Only classes that the widener
-- names are decoded, and only those that change are written anew.
import JarDerivation.Patcher.Base
import JarDerivation.Widener.Apply

namespace JarDerivation

namespace Widener

/-- The new bytes of an entry. -/
def widenEntry (w : Widener) (codec : Codec) (entry : String) (bytes : Bytes) :
    Traced (Option Bytes) :=
  match ClassNode.nameOfEntry? entry with
  | none => pure (some bytes)
  | some className =>
    if w.targets.contains className then do
      let c ← codec.decodeEntry entry bytes
      if w.changes c then return some (← Traced.ofExcept (codec.encodeClass (w.widen c)))
      else return some bytes
    else pure (some bytes)

/-- Reads a widener from disk. -/
def read (path : String) : Work Widener := do
  let text ← Work.ofExcept ((← Work.files).readText path)
  Work.ofExcept (Widener.ofText text)

/-- Applies the widener at a path to an artifact. Both have to be in one namespace. -/
def widenArtifact (ctx : StageContext) (path : String) (input : Artifact) : Work Artifact := do
  let w ← Widener.read path
  if w.namespaceName ≠ input.namespaceOf.name then
    throw (.accessWidener (s!"{path} is in namespace {w.namespaceName}, artifact " ++
      s!"{input.describe} is in {input.namespaceOf.name}"))
  let target := input.derive w.tag
  ctx.produce target (Work.rewriteJar input.path target.path
    (Jar.editEntries (w.widenEntry ctx.codec)))

end Widener

end JarDerivation
