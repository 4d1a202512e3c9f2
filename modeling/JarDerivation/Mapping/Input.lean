-- Mapping inputs: a mapping file whose transforms have been looked up, ready to
-- be joined to the tree.
import JarDerivation.Mapping.Dependency

namespace JarDerivation

structure MappingInput where
  /-- What messages call the input. -/
  label : String
  file : MappingFile
  /-- The namespace that the file is joined on. -/
  keyNs : String
  /-- The source namespace, if the block declares one. -/
  sourceNs : Option String
  /-- The columns of the file that go into the tree. -/
  written : List Nat
  outputs : List String
  depends : List String
  skipIfNotIn : List String
  onlyExistingSrc : Bool
  allowDuplicates : Bool
  postPasses : List MappingAction
  deriving DecidableEq, Repr

namespace MappingInput

/-- An input of which nothing is known but its file. -/
def plain (label : String) (file : MappingFile) : MappingInput :=
  ⟨label, file, "", none, [], [], [], [], false, false, []⟩

/-- Applies one action of the block. -/
def act (i : MappingInput) : MappingAction → MappingInput
  | .mapNamespace source target => { i with file := (i.file.renameNamespace source target).2 }
  | .sourceNamespace name => { i with sourceNs := some name }
  | .skipIfNotIn name => { i with skipIfNotIn := i.skipIfNotIn ++ [name] }
  | .onlyExistingSrc => { i with onlyExistingSrc := true }
  | .allowDuplicateOutputs allow => { i with allowDuplicates := allow }
  | .dependsOn name => { i with depends := i.depends ++ [name] }
  | pass => { i with postPasses := i.postPasses ++ [pass] }

/-- The columns of the key and of the outputs, or all columns without outputs. -/
def writtenColumns (namespaces : List String) (keyNs : String) (outputs : List String) : List Nat :=
  (List.range namespaces.length).filter fun j =>
    namespaces[j]? == some keyNs || outputs.isEmpty ||
      ((namespaces[j]?).any fun ns => outputs.contains ns)

/-- The input of a file under a block. A file without namespaces is none. -/
def ofFile (label : String) (file : MappingFile) (block : MappingBlock) :
    Except Error (Option MappingInput) :=
  let i := block.actions.foldl act (plain label file)
  match i.file.namespaces with
  | [] => .ok none
  | first :: _ =>
    let keyNs := i.sourceNs.getD first
    if i.file.namespaces.contains keyNs then
      let outputs := block.outputs.map (·.name)
      .ok (some { i with
        keyNs, outputs, written := writtenColumns i.file.namespaces keyNs outputs })
    else .error (.unknownNamespace keyNs s!"source namespace of {label}")

/-- The namespaces that the input brings into the tree. -/
def provides (i : MappingInput) : List String :=
  (i.written.filterMap (i.file.namespaces[·]?)).filter (· != i.keyNs)

/-- The tree columns of the namespaces that the input brings out. -/
def outputColumns (i : MappingInput) (t : MappingTree) (exclude : Nat) : List Nat :=
  ((if i.outputs.isEmpty then i.provides else i.outputs).filterMap t.namespaceId?).filter
    (· != exclude)

end MappingInput

end JarDerivation
