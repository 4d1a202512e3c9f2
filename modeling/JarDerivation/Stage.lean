-- Stages: steps of a derivation whose outputs are kept. An output that is there
-- is used as it is, unless a reload is forced and it was not yet built anew. A
-- stage that fails leaves no output.
import JarDerivation.Class.Codec
import JarDerivation.Config
import JarDerivation.Regex
import JarDerivation.Registry
import JarDerivation.Workspace

namespace JarDerivation

/-- What a stage needs besides its input. -/
structure StageContext where
  config : PipelineConfig
  registry : Registry
  codec : Codec
  /-- The library that globs are compiled with. -/
  regex : RegexLibrary

namespace StageContext

def isCached (ctx : StageContext) (target : Artifact) : Work Bool := do
  let w ← get
  return w.files.isFile target.path &&
    (!ctx.config.forceReload || w.rebuilt.contains (Path.components target.path))

/-- Notes that an output was built. -/
def noteBuild (ctx : StageContext) (target : Artifact) : Work Unit :=
  modify fun w => { w with
    builds := w.builds + 1
    rebuilt :=
      if ctx.config.forceReload then Path.components target.path :: w.rebuilt else w.rebuilt }

/-- Makes sure of an artifact: builds it unless it is there already. -/
def produce (ctx : StageContext) (target : Artifact) (build : Work Unit) : Work Artifact := do
  if ← ctx.isCached target then return target
  Work.onFiles (FileWork.ensureAround target.path)
  tryCatch build fun e => do
    Work.discard target.path
    throw e
  ctx.noteBuild target
  return target

/-- Makes sure of an artifact that is a fresh jar. -/
def produceJar (ctx : StageContext) (target : Artifact) (body : Traced Jar) : Work Artifact :=
  ctx.produce target (Work.writeJar target.path body)

end StageContext

end JarDerivation
