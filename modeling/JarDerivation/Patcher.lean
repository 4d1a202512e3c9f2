-- Patchers: what a mod loader does to the game jar.
import JarDerivation.Patcher.BinaryPatch
import JarDerivation.Patcher.JarMod
import JarDerivation.Patcher.Widen

namespace JarDerivation

inductive Patcher where
  /-- The game as it is. -/
  | plain (base : BasePatcher)
  | jarMod (base : BasePatcher) (mods : List String)
  | binary (patches : BinaryPatches)
  /-- Another patcher, and then an access widener. -/
  | widened (inner : Patcher) (widener : String)

namespace Patcher

def name : Patcher → String
  | plain _ => "none"
  | jarMod .. => "jarmod"
  | binary p => p.name
  | widened inner _ => inner.name

def base : Patcher → BasePatcher
  | plain b => b
  | jarMod b _ => b
  | binary p => p.base
  | widened inner _ => inner.base

def prodNamespace (p : Patcher) : String := p.base.prodNamespace

def canCombine (p : Patcher) : Bool := p.base.canCombine

def merge (p : Patcher) (ctx : StageContext) (client server : Artifact) : Work Artifact :=
  p.base.merge p.name ctx client server

def fix (p : Patcher) (ctx : StageContext) (input : Artifact) : Work Artifact :=
  p.base.fix ctx input

/-- Applies the patches of the loader. -/
def transform (ctx : StageContext) (input : Artifact) : Patcher → Work Artifact
  | plain _ => return input
  | jarMod _ mods => JarMod.transform ctx mods input
  | binary p => p.transform ctx input
  | widened inner _ => transform ctx input inner

/-- What is done to an artifact once it is in the namespace asked for. -/
def afterRemap (ctx : StageContext) (input : Artifact) : Patcher → Work Artifact
  | plain _ | jarMod .. => return input
  | binary p => p.afterRemap ctx input
  | widened inner widener => do
    let a ← afterRemap ctx input inner
    Widener.widenArtifact ctx widener a

def runTransform (p : Patcher) (config : PipelineConfig) (run : RunConfig) : RunConfig :=
  p.base.runTransform config run

/-- Whether a library of the game stays on the classpath. -/
def keepsLibrary (l : Library) : Patcher → Bool
  | plain _ | jarMod .. => true
  | binary p => p.keepsLibrary l
  | widened inner _ => keepsLibrary l inner

end Patcher

end JarDerivation
