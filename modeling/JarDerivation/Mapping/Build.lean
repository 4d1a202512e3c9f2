-- Building the mapping tree from its dependencies. The inputs are joined one by
-- one: always the first that is ready, which is when each namespace that it
-- depends on is in the tree or is provided by no other input that still waits.
-- After that the passes run, in the order in which their inputs were joined.
import JarDerivation.Mapping.Passes

namespace JarDerivation

structure MappingBuilder where
  dependencies : List MappingDependency

namespace MappingBuilder

/-! ## Inputs -/

/-- Freezes dependencies one after the other, up to the first that fails. -/
def finalizeAll (r : Registry) :
    List MappingDependency → Except Error Unit × List MappingDependency × Registry
  | [] => (.ok (), [], r)
  | d :: rest =>
    match d.finalize r with
    | (.error e, d, r) => (.error e, d :: rest, r)
    | (.ok _, d, r) =>
      let (result, rest, r) := finalizeAll r rest
      (result, d :: rest, r)

/-- The inputs of a dependency, in the order of its files. -/
def inputsOf (disk : Files) (d : MappingDependency) : Except Error (List MappingInput) := do
  let files ← d.source.files disk
  let inputs ← files.mapM fun f =>
    MappingInput.ofFile s!"{d.describe}:{f.name}" f.content (d.blockFor f)
  return inputs.filterMap id

def inputs (disk : Files) (ds : List MappingDependency) : Except Error (List MappingInput) := do
  return (← ds.mapM (inputsOf disk)).flatten

/-! ## The order of the joins -/

/-- Whether a namespace may be relied on: it is in the tree, or none of the
other waiting inputs provides it. -/
def isSettled (namespaces : List String) (others : List MappingInput) (ns : String) : Bool :=
  namespaces.contains ns || !others.any fun o => o.provides.contains ns

/-- Whether the input at a place among those that wait can be joined next. -/
def isReady (namespaces : List String) (waiting : List MappingInput) (place : Nat) : Bool :=
  match waiting[place]? with
  | some i => i.depends.all (isSettled namespaces (waiting.eraseIdx place))
  | none => false

/-- The first place whose input can be joined next. -/
def nextReady? (namespaces : List String) (waiting : List MappingInput) : Option Nat :=
  (List.range waiting.length).find? (isReady namespaces waiting)

def circular (waiting : List MappingInput) : Error :=
  .configuration
    ("circular mapping dependencies between " ++ ", ".intercalate (waiting.map (·.label)))

/-- Joins all waiting inputs and tells their order. Each turn takes one away. -/
def joinAll : Nat → List MappingInput → MappingTree → Except Error (MappingTree × List MappingInput)
  | 0, _, t => .ok (t, [])
  | turns + 1, waiting, t =>
    if waiting.isEmpty then .ok (t, [])
    else match nextReady? t.namespaces waiting with
      | none => .error (circular waiting)
      | some place =>
        match waiting[place]? with
        | none => .error (circular waiting)
        | some i => do
          let t ← t.join i
          let (t, order) ← joinAll turns (waiting.eraseIdx place) t
          return (t, i :: order)

/-! ## The build -/

/-- The tree of inputs, in the order of their declaration. -/
def treeOf (h : Option Hierarchy) (is : List MappingInput) : Except Error MappingTree := do
  let (t, order) ← joinAll is.length is .empty
  order.foldlM (fun t i => t.runPasses h i) t

/-- Freezes all dependencies, which registers their namespaces, and builds the
tree. What was frozen and registered before a failure stays. -/
def build (b : MappingBuilder) (disk : Files) (h : Option Hierarchy) (r : Registry) :
    Except Error MappingTree × MappingBuilder × Registry :=
  match finalizeAll r b.dependencies with
  | (.error e, ds, r) => (.error e, ⟨ds⟩, r)
  | (.ok _, ds, r) => (inputs disk ds >>= treeOf h, ⟨ds⟩, r)

end MappingBuilder

end JarDerivation
