-- Mapping dependencies: a source with a block for each kind of file in it. The
-- first block that accepts a file has it, and the default block has the others.
import JarDerivation.Mapping.Block
import JarDerivation.Mapping.Source

namespace JarDerivation

structure ContainsBlock where
  /-- Whether a file of this name and kind belongs to the block. -/
  accepts : String → String → Bool
  block : MappingBlock

structure MappingDependency where
  source : MappingSource
  defaultBlock : MappingBlock
  contained : List ContainsBlock
  finalized : Bool

namespace MappingDependency

def ofSource (source : MappingSource) : MappingDependency := ⟨source, .empty, [], false⟩

def describe (d : MappingDependency) : String := d.source.describe

/-- Refuses a dependency that is frozen. -/
def checkOpen (d : MappingDependency) : Except Error Unit :=
  if d.finalized then .error (.alreadyFinalized s!"mapping dependency {d.describe}") else .ok ()

/-- Changes the default block. What was changed before a failure stays. -/
def configureDefault (d : MappingDependency)
    (configure : MappingBlock → Except Error Unit × MappingBlock) :
    Except Error Unit × MappingDependency :=
  match d.checkOpen with
  | .error e => (.error e, d)
  | .ok _ =>
    let (result, block) := configure d.defaultBlock
    (result, { d with defaultBlock := block })

/-- Adds a block for some of the files, unless it cannot be configured. -/
def contains (d : MappingDependency) (accepts : String → String → Bool)
    (configure : MappingBlock → Except Error Unit × MappingBlock) :
    Except Error Unit × MappingDependency :=
  match d.checkOpen with
  | .error e => (.error e, d)
  | .ok _ =>
    match configure .empty with
    | (.ok _, block) => (.ok (), { d with contained := d.contained ++ [⟨accepts, block⟩] })
    | (.error e, _) => (.error e, d)

/-- Drops every block but the default one. -/
def clearContains (d : MappingDependency) : Except Error Unit × MappingDependency :=
  match d.checkOpen with
  | .error e => (.error e, d)
  | .ok _ => (.ok (), { d with contained := [] })

/-- Freezes the blocks one after the other, up to the first that fails. -/
def finalizeBlocks (r : Registry) :
    List ContainsBlock → Except Error Unit × List ContainsBlock × Registry
  | [] => (.ok (), [], r)
  | c :: rest =>
    match c.block.finalize r with
    | (.error e, block, r) => (.error e, { c with block } :: rest, r)
    | (.ok _, block, r) =>
      let (result, rest, r) := finalizeBlocks r rest
      (result, { c with block } :: rest, r)

/-- Freezes a dependency and registers the namespaces that it brings out. -/
def finalize (d : MappingDependency) (r : Registry) :
    Except Error Unit × MappingDependency × Registry :=
  if d.finalized then (.ok (), d, r)
  else
    match d.defaultBlock.finalize r with
    | (.error e, block, r) => (.error e, { d with defaultBlock := block }, r)
    | (.ok _, block, r) =>
      let (result, contained, r) := finalizeBlocks r d.contained
      (result, { d with defaultBlock := block, contained, finalized := result.isOk }, r)

/-- The block that has a file. -/
def blockFor (d : MappingDependency) (f : SourceFile) : MappingBlock :=
  ((d.contained.find? fun c => c.accepts f.name f.kind).map (·.block)).getD d.defaultBlock

end MappingDependency

end JarDerivation
