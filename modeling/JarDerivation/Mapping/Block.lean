-- Blocks: the transforms that a mapping dependency declares for some of its
-- files, and the namespaces that these files bring out. A block is frozen when
-- its dependency is, and its namespaces are registered then.
import JarDerivation.Registry

namespace JarDerivation

inductive MappingAction where
  /-- Renames a column of the file. -/
  | mapNamespace (source target : String)
  /-- The column that the file is joined on. -/
  | sourceNamespace (name : String)
  /-- Drops method names that a class inherits and does not declare. -/
  | childMethodStrip
  /-- Fills in missing names with the name in the source namespace. -/
  | copyUnnamedFromSrc
  /-- Puts the names of nested classes together from their outer classes. -/
  | renest
  /-- Only symbols that already have a name in this namespace are touched. -/
  | skipIfNotIn (name : String)
  /-- Only symbols that are already in the tree are touched. -/
  | onlyExistingSrc
  | allowDuplicateOutputs (allow : Bool)
  /-- Merged after the files that provide this namespace. -/
  | dependsOn (name : String)
  deriving DecidableEq, Repr

namespace MappingAction

/-- Passes over the whole tree, which run after all files have been merged. -/
def isPostPass : MappingAction → Bool
  | childMethodStrip | copyUnnamedFromSrc | renest => true
  | _ => false

end MappingAction

structure OutputNamespace where
  name : String
  named : Bool
  targets : List String
  deriving DecidableEq, Repr

structure MappingBlock where
  actions : List MappingAction
  outputs : List OutputNamespace
  finalized : Bool
  deriving DecidableEq, Repr

namespace MappingBlock

def empty : MappingBlock := ⟨[], [], false⟩

/-- Changes a block that is not frozen. -/
def change (b : MappingBlock) (f : MappingBlock → MappingBlock) : Except Error MappingBlock :=
  if b.finalized then .error (.alreadyFinalized "mapping dependency") else .ok (f b)

def push (b : MappingBlock) (a : MappingAction) : Except Error MappingBlock :=
  b.change fun b => { b with actions := b.actions ++ [a] }

/-- Skipping symbols that lack a name needs the file that gives these names. -/
def skipIfNotIn (b : MappingBlock) (name : String) : Except Error MappingBlock := do
  (← b.push (.dependsOn name)).push (.skipIfNotIn name)

def outputsNamespace (b : MappingBlock) (out : OutputNamespace) : Except Error MappingBlock :=
  b.change fun b => { b with outputs := b.outputs ++ [out] }

def clearOutputs (b : MappingBlock) : Except Error MappingBlock :=
  b.change fun b => { b with outputs := [] }

/-- Registers namespaces up to the first one that is refused. -/
def registerAll (r : Registry) : List OutputNamespace → Except Error Unit × Registry
  | [] => (.ok (), r)
  | out :: rest =>
    match r.register out.name out.named out.targets with
    | .ok (_, r) => registerAll r rest
    | .error e => (.error e, r)

/-- Freezes a block and registers its namespaces. The block is frozen even if a
namespace is refused. -/
def finalize (b : MappingBlock) (r : Registry) : Except Error Unit × MappingBlock × Registry :=
  if b.finalized then (.ok (), b, r)
  else
    let (result, r) := registerAll r b.outputs
    (result, { b with finalized := true }, r)

end MappingBlock

end JarDerivation
