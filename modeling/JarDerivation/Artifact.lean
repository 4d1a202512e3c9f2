-- Artifacts: the jars of a derivation. An artifact is known by its version, its
-- environment and the tags of what was done to it, and these decide its place in
-- the cache. So a stage whose output is there has been run before.
import JarDerivation.Path
import JarDerivation.Registry

namespace JarDerivation

/-- The distribution of the game that an artifact comes from. -/
inductive Environment where
  | client
  | server
  /-- Client and server merged into one jar. -/
  | combined
  /-- The server jar, for the generation of data. -/
  | datagen
  deriving DecidableEq, Repr

namespace Environment

def name : Environment → String
  | client => "client"
  | server => "server"
  | combined => "combined"
  | datagen => "datagen"

/-- The environment whose raw jar is read. -/
def rawSource : Environment → Environment
  | datagen => server
  | e => e

end Environment

/-! ## Places in the cache -/

namespace Cache

/-- Characters that a file name should not have. -/
def isUnsafe (c : Char) : Bool :=
  ['/', '\\', ':', '*', '?', '"', '<', '>', '|', '\x00'].contains c

/-- A text as one segment of a path. -/
def sanitize (s : String) : String :=
  String.ofList (s.toList.map fun c => if isUnsafe c then '_' else c)

/-- The directory of all artifacts of a version. -/
def versionDir (root version : String) : String := Path.join root (sanitize version)

/-- The end of a file name that lists the tags. -/
def suffix (tags : List String) : String :=
  if tags.isEmpty then "" else "-" ++ "+".intercalate (tags.map sanitize)

def fileName (version : String) (env : Environment) (tags : List String) : String :=
  s!"minecraft-{sanitize version}-{env.name}{suffix tags}.jar"

/-- The place of an artifact. -/
def artifactPath (root version : String) (env : Environment) (tags : List String) : String :=
  Path.join (Path.join (versionDir root version) env.name) (fileName version env tags)

end Cache

/-! ## Artifacts -/

structure Artifact where
  /-- The directory of the cache. -/
  root : String
  version : String
  env : Environment
  namespaceOf : Namespace
  fallback : Namespace
  /-- What was done to the raw jar, in order. -/
  tags : List String
  path : String
  deriving DecidableEq, Repr

namespace Artifact

/-- A raw jar, which has a place of its own. -/
def raw (root version : String) (env : Environment) (ns fallback : Namespace) (path : String) :
    Artifact :=
  ⟨root, version, env, ns, fallback, [], path⟩

/-- A jar at its place in the cache. -/
def cached (root version : String) (env : Environment) (ns fallback : Namespace)
    (tags : List String) : Artifact :=
  ⟨root, version, env, ns, fallback, tags, Cache.artifactPath root version env tags⟩

/-- The artifact that a stage makes of another one, in other namespaces. -/
def deriveInto (a : Artifact) (tag : String) (ns fallback : Namespace) : Artifact :=
  cached a.root a.version a.env ns fallback (a.tags ++ [tag])

def derive (a : Artifact) (tag : String) : Artifact := a.deriveInto tag a.namespaceOf a.fallback

def forEnv (a : Artifact) (env : Environment) (tag : String) : Artifact :=
  cached a.root a.version env a.namespaceOf a.fallback (a.tags ++ [tag])

/-- What messages call the artifact. -/
def describe (a : Artifact) : String :=
  s!"{a.version}-{a.env.name}[{a.namespaceOf.name}/{a.fallback.name}]{Cache.suffix a.tags}"

end Artifact

end JarDerivation
