-- The configuration of a derivation, and what of it the environment can set.
import JarDerivation.Error
import JarDerivation.Path
import JarDerivation.Text.Blank

namespace JarDerivation

/-- The namespace that the game's own jars are in. -/
def officialNamespace : String := "official"

structure PipelineConfig where
  /-- The directory below which derived jars are kept. -/
  cacheRoot : String
  /-- Whether each output is built anew once, even if it is there. -/
  forceReload : Bool
  /-- Threads for the remap engine; `none` is as many as the machine has. -/
  remapThreads : Option Nat
  /-- Globs of the classes that a merge keeps. -/
  includeGlobs : List String
  /-- Whether the fallbacks of the two sides of a merge may differ. -/
  ignoreMergeFallback : Bool
  /-- Whether run configurations get the unprotect agent. -/
  unprotectRuntime : Bool
  deriving DecidableEq, Repr

namespace PipelineConfig

def defaultGlobs : List String :=
  ["*", "META-INF/**", "net/minecraft/**", "com/mojang/blaze3d/**", "paulscode/sound/**",
    "com/jcraft/**"]

def withCacheRoot (root : String) : PipelineConfig := ⟨root, false, none, defaultGlobs, false, false⟩

def validate (c : PipelineConfig) : Except Error Unit :=
  if c.cacheRoot = "" then .error (.configuration "cache_root must not be empty")
  else if c.remapThreads = some 0 then
    .error (.configuration "remap_threads must be greater than 0")
  else .ok ()

/-! ## The environment -/

/-- The variables of the environment, by their names. -/
abbrev Variables := List (String × String)

/-- The directory of the system for caches, and in it the one for derived jars. -/
def cacheDir (vars : Variables) : Except Error String :=
  match (vars.lookup "XDG_CACHE_HOME").filter Path.isAbsolute with
  | some dir => .ok (Path.join dir "jarforge")
  | none =>
    match vars.lookup "HOME" with
    | some home => .ok (Path.join (Path.join home ".cache") "jarforge")
    | none => .error (.configuration "Failed to get system cache directory")

/-- The directory that is used if the system has none for caches. -/
def temporaryDir : String := "/tmp/jarforge"

/-- Whether a text says yes. -/
def isYes (s : String) : Bool :=
  ["1", "true", "yes"].contains (String.ofList ((Text.trim s.toList).map Text.lowerAscii))

def digits? (cs : List Char) : Option Nat :=
  if !cs.isEmpty && cs.all (fun c => '0' ≤ c && c ≤ '9') then
    some (cs.foldl (fun n c => n * 10 + (c.toNat - '0'.toNat)) 0)
  else none

/-- A number below 2^64 in decimal digits, with or without a plus sign. -/
def count? (s : String) : Option Nat :=
  let n := match Text.trim s.toList with
    | '+' :: rest => digits? rest
    | cs => digits? cs
  n.filter (· < UInt64.size)

/-- The number of threads that a variable sets. -/
def threadsOf (raw : String) : Except Error Nat :=
  match count? raw with
  | some n => .ok n
  | none => .error (.configuration s!"JARFORGE_THREADS is not a number: {raw}")

/-- The default configuration with what the environment sets. -/
def ofEnvironment (vars : Variables) : Except Error PipelineConfig := do
  let root := match vars.lookup "JARFORGE_CACHE_DIR" with
    | some dir => dir
    | none => (cacheDir vars).toOption.getD temporaryDir
  let config := withCacheRoot root
  let threads ← (vars.lookup "JARFORGE_THREADS").mapM threadsOf
  let config := { config with
    forceReload := (vars.lookup "JARFORGE_FORCE_RELOAD").any isYes
    remapThreads := threads }
  config.validate
  return config

end PipelineConfig

end JarDerivation
