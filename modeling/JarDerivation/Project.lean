-- Projects: a build script first declares what it needs, and then everything is
-- put together at once. Mistakes of the script show up then, before any jar is
-- derived. After that the script can declare nothing more.
import JarDerivation.Class.Hierarchy
import JarDerivation.Mapping.Build
import JarDerivation.Pipeline

namespace JarDerivation

inductive Declaration where
  | namespaceOf (name : String) (named : Bool) (targets : List String)
  | mapping (dependency : MappingDependency)
  | patcher (patcher : Patcher)
  /-- The namespace and the fallback to develop in. -/
  | dev (namespaceName fallback : String)
  | rawJar (env : Environment) (jar : RawJar)
  /-- The jar whose class hierarchy the mappings use. -/
  | hierarchy (path : String)
  | codec (codec : Codec)
  | engine (engine : RemapEngine)
  | resource (remapper : ResourceRemapper)

structure Project where
  registry : Registry
  tree : MappingTree
  pipeline : Pipeline
  dev : Option (Namespace × Namespace)

structure ProjectBuilder where
  version : String
  config : PipelineConfig
  regex : RegexLibrary
  pending : List Declaration
  finalized : Bool

/-! ## What the declarations come to -/

/-- The declarations so far. Of what can be there once, the last one counts. -/
structure Settings where
  registry : Registry
  mappings : List MappingDependency
  patcher : Patcher
  dev : Option (String × String)
  rawJars : List (Environment × RawJar)
  hierarchy : Option String
  codec : Codec
  engine : RemapEngine
  resources : List ResourceRemapper

namespace Settings

def start : Settings :=
  ⟨.empty, [], .plain .default, none, [], none, .json, .structural, [.accessWidener]⟩

def declare (s : Settings) : Declaration → Except Error Settings
  | .namespaceOf name named targets => do
    let (_, registry) ← s.registry.register name named targets
    return { s with registry }
  | .mapping d => .ok { s with mappings := s.mappings ++ [d] }
  | .patcher patcher => .ok { s with patcher }
  | .dev ns fallback => .ok { s with dev := some (ns, fallback) }
  | .rawJar env jar => .ok { s with rawJars := (env, jar) :: s.rawJars.filter (·.1 != env) }
  | .hierarchy path => .ok { s with hierarchy := some path }
  | .codec codec => .ok { s with codec }
  | .engine engine => .ok { s with engine }
  | .resource r => .ok { s with resources := s.resources ++ [r] }

/-- The order in which raw jars are looked at. -/
def environments : List Environment := [.client, .datagen, .server, .combined]

/-- Makes sure that the namespaces of the raw jars are registered. -/
def checkRawJars (s : Settings) (r : Registry) : Except Error Unit :=
  environments.forM fun env =>
    match s.rawJars.lookup env with
    | some jar => (r.lookup jar.namespaceName).map fun _ => ()
    | none => .ok ()

/-- The namespaces to develop in. They have to be reached from `prod`. -/
def devNamespaces (s : Settings) (r : Registry) (prod : Namespace) :
    Except Error (Option (Namespace × Namespace)) :=
  match s.dev with
  | none => .ok none
  | some (name, fallbackName) => do
    let ns ← r.lookup name
    let fallback ← r.lookup fallbackName
    let _ ← r.ask (Registry.resolvePath prod.name prod.name ns.name fallback.name)
    return some (ns, fallback)

/-- The hierarchy of the jar that was declared for it. -/
def readHierarchy (s : Settings) : Work (Option Hierarchy) :=
  match s.hierarchy with
  | none => return none
  | some path => do
    let j ← Work.openJar path
    return some (← Work.ofTraced (Hierarchy.ofJar s.codec j))

/-- Puts the project together. -/
def assemble (s : Settings) (version : String) (config : PipelineConfig) (regex : RegexLibrary) :
    Work Project := do
  let h ← s.readHierarchy
  let (tree, _, registry) := MappingBuilder.build ⟨s.mappings⟩ (← Work.files) h s.registry
  let tree ← Work.ofExcept tree
  let prod ← Work.ofExcept (registry.lookup s.patcher.prodNamespace)
  Work.ofExcept (s.checkRawJars registry)
  let dev ← Work.ofExcept (s.devNamespaces registry prod)
  let ctx : StageContext := ⟨config, registry, s.codec, regex⟩
  let remapper : Remapper := ⟨s.codec, s.engine, s.resources⟩
  return ⟨registry, tree, ⟨ctx, version, s.rawJars, s.patcher, tree, remapper⟩, dev⟩

end Settings

/-! ## The builder -/

namespace ProjectBuilder

def new (version : String) (config : PipelineConfig) (regex : RegexLibrary) : ProjectBuilder :=
  ⟨version, config, regex, [], false⟩

def closed (b : ProjectBuilder) : Error := .alreadyFinalized s!"project {b.version}"

def record (b : ProjectBuilder) (d : Declaration) : Except Error ProjectBuilder :=
  if b.finalized then .error b.closed else .ok { b with pending := b.pending ++ [d] }

/-- The work that puts the project together, and the builder after it. A builder
is closed even if that work fails. -/
def finalize (b : ProjectBuilder) : ProjectBuilder × Work Project :=
  if b.finalized then (b, throw b.closed)
  else
    ({ b with pending := [], finalized := true }, do
      Work.ofExcept b.config.validate
      let s ← Work.ofExcept (b.pending.foldlM Settings.declare .start)
      s.assemble b.version b.config b.regex)

end ProjectBuilder

/-! ## Projects -/

namespace Project

def noDev : Error := .configuration "no dev namespace configured"

/-- The jar of an environment in the namespace to develop in. -/
def devArtifact (p : Project) (env : Environment) : Work Artifact :=
  match p.dev with
  | some (ns, fallback) => p.pipeline.provide env ns fallback
  | none => throw noDev

/-- Remaps a jar from the namespace to develop in to the one that the game runs in. -/
def remapJar (p : Project) (env : Environment) (input output : String) : Work Unit :=
  match p.dev with
  | some (ns, fallback) => do
    let prod ← Work.ofExcept (p.registry.lookup p.pipeline.patcher.prodNamespace)
    p.pipeline.remapJar env input output ns fallback prod
  | none => throw noDev

end Project

end JarDerivation
