-- The pipeline: from the raw jars to the jar of an environment in a namespace. A
-- raw jar is merged (for the combined environment only), fixed, patched by the
-- loader and remapped, and the loader finishes what it gets.
import JarDerivation.Jar.Manifest
import JarDerivation.Patcher
import JarDerivation.Remap.Jar

namespace JarDerivation

/-- A jar of the game as it is distributed. -/
structure RawJar where
  path : String
  namespaceName : String
  deriving DecidableEq, Repr

structure Pipeline where
  ctx : StageContext
  version : String
  rawJars : List (Environment × RawJar)
  patcher : Patcher
  tree : MappingTree
  remapper : Remapper

namespace Pipeline

/-- The raw jar of an environment. -/
def raw (p : Pipeline) (env : Environment) : Work Artifact := do
  let source := env.rawSource
  match p.rawJars.lookup source with
  | none => throw (.configuration s!"no {source.name} jar configured for {p.version}")
  | some jar =>
    let ns ← Work.ofExcept (p.ctx.registry.lookup jar.namespaceName)
    if (← Work.files).isFile jar.path then
      return .raw p.ctx.config.cacheRoot p.version env ns ns jar.path
    else throw (.configuration s!"{source.name} jar {jar.path} does not exist")

/-- The jar that the loader has patched, in the namespace of the loader. -/
def patched (p : Pipeline) (env : Environment) : Work Artifact := do
  let input ← match env with
    | .combined => do
      let client ← p.raw .client
      let server ← p.raw .server
      p.patcher.merge p.ctx client server
    | env => p.raw env
  let fixed ← p.patcher.fix p.ctx input
  p.patcher.transform p.ctx fixed

/-- The chain of namespaces between two pairs of namespace and fallback. -/
def pathBetween (p : Pipeline) (source sourceFallback target targetFallback : Namespace) :
    Work (List Namespace) :=
  Work.ofExcept (p.ctx.registry.ask
    (Registry.resolvePath source.name sourceFallback.name target.name targetFallback.name))

/-- Derives the jar of an environment in a namespace. -/
def derive (p : Pipeline) (env : Environment) (ns fallback : Namespace) : Work Artifact := do
  let a ← p.patched env
  let path ← p.pathBetween a.namespaceOf a.fallback ns fallback
  let remapped ← p.remapper.remapAlong p.ctx p.tree fallback path a
  p.patcher.afterRemap p.ctx remapped

/-- The jar of an environment in a namespace. A request is derived once. -/
def provide (p : Pipeline) (env : Environment) (ns fallback : Namespace) : Work Artifact := do
  let request : ArtifactRequest := ⟨env, ns.name, fallback.name⟩
  match (← get).provided.lookup request with
  | some a => return a
  | none =>
    let a ← p.derive env ns fallback
    modify fun w => { w with provided := (request, a) :: w.provided }
    return a

/-! ## Standalone jars -/

/-- The place of the jar between two hops. -/
def hopPath (output next : String) : String :=
  let stem := (Path.fileStem? output).getD "remapped"
  Path.withFileName output s!"{stem}-temp-{next}.jar"

/-- Remaps a jar hop by hop, each against the game jar in the namespaces that
the hop starts from. The jar of a hop is gone when the work is done. -/
def remapHops (p : Pipeline) (env : Environment) (output : String) :
    List Namespace → Namespace → Namespace → String → Work Unit
  | [], _, _, current => Work.copyWithMergedManifest current output
  | next :: rest, ns, fallback, current => do
    let game ← p.provide env ns fallback
    let target := hopPath output next.name
    Work.thenDiscard target do
      let v ← Work.ofExcept (p.tree.view ns.name fallback.name next.name)
      p.remapper.remapFile v current target [game.path]
      p.remapHops env output rest next ns target

/-- Remaps a jar that was built in one namespace into another one. -/
def remapJar (p : Pipeline) (env : Environment) (input output : String)
    (dev devFallback prod : Namespace) : Work Unit := do
  let path ← p.pathBetween dev devFallback prod prod
  p.remapHops env output path dev devFallback input

/-! ## Runs -/

def runConfig (p : Pipeline) (name : String) (env : Environment) (mainClass : String) : RunConfig :=
  p.patcher.runTransform p.ctx.config ⟨name, env, mainClass, [], [], []⟩

/-- The libraries that the loader keeps on the classpath. -/
def filterLibraries (p : Pipeline) (ls : List Library) : List Library :=
  ls.filter fun l => p.patcher.keepsLibrary l

end Pipeline

end JarDerivation
