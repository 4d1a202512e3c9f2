-- What all mod loaders share: merging client and server, the fixes, and the run
-- configuration.
import JarDerivation.Jar.Fix
import JarDerivation.Merge.Jar
import JarDerivation.Stage

namespace JarDerivation

structure RunConfig where
  name : String
  env : Environment
  mainClass : String
  jvmArgs : List String
  programArgs : List String
  envVars : Text.Ascending String
  deriving DecidableEq, Repr

structure BasePatcher where
  /-- The namespace that jars are in when the game runs. -/
  prodNamespace : String
  /-- Whether client and server can be merged. -/
  canCombine : Bool
  merger : ClassMerger
  /-- Globs to merge with, if they differ from those of the configuration. -/
  includeGlobs : Option (List String)
  onFailure : FailurePolicy
  fixes : List JarFix
  /-- The jar of the unprotect agent. -/
  unprotectAgent : Option String

namespace BasePatcher

def default : BasePatcher :=
  ⟨officialNamespace, true, ⟨true⟩, none, .fatal, [.stripSignatures], none⟩

/-- The artifact that a client and a server artifact are merged into. -/
def mergeTarget (loader : String) (client server : Artifact) : Artifact :=
  .cached client.root client.version .combined client.namespaceOf client.fallback
    (s!"{loader}-merged" :: (client.tags ++ server.tags))

/-- Why two artifacts cannot be merged. Nothing is read to find out. -/
def mergeFault? (b : BasePatcher) (loader : String) (config : PipelineConfig)
    (client server : Artifact) : Option Error :=
  if !b.canCombine then some (.mergeUnsupported s!"{loader} cannot combine {client.version}")
  else if client.namespaceOf.name ≠ server.namespaceOf.name ∨
      (!config.ignoreMergeFallback ∧ client.fallback.name ≠ server.fallback.name) then
    some (.incompatibleMergeInputs client.namespaceOf.name client.fallback.name
      server.namespaceOf.name server.fallback.name)
  else none

def jarMerger (b : BasePatcher) (ctx : StageContext) : Except Error JarMerger := do
  let filter ← IncludeFilter.ofGlobs ctx.regex (b.includeGlobs.getD ctx.config.includeGlobs)
  return ⟨ctx.codec, b.merger, filter, b.onFailure⟩

/-- Merges a client and a server artifact. -/
def merge (b : BasePatcher) (loader : String) (ctx : StageContext) (client server : Artifact) :
    Work Artifact := do
  match b.mergeFault? loader ctx.config client server with
  | some e => throw e
  | none =>
    let target := mergeTarget loader client server
    let merger ← Work.ofExcept (b.jarMerger ctx)
    ctx.produce target do
      let _ ← merger.mergeFiles client.path server.path target.path

/-- Applies the fixes to each entry of an artifact. -/
def fix (b : BasePatcher) (ctx : StageContext) (input : Artifact) : Work Artifact :=
  let target := input.derive "fixed"
  ctx.produce target (Work.rewriteJar input.path target.path
    (Jar.editEntries fun entry bytes => JarFix.applyAll entry b.fixes bytes))

/-- Adds the unprotect agent if the configuration asks for it. -/
def runTransform (b : BasePatcher) (config : PipelineConfig) (run : RunConfig) : RunConfig :=
  if config.unprotectRuntime then
    { run with jvmArgs := run.jvmArgs ++ (b.unprotectAgent.map fun a => s!"-javaagent:{a}").toList }
  else run

end BasePatcher

end JarDerivation
