-- Namespaces, their registry and the graph of remaps between them. A namespace
-- declares its targets by name, so it may name one that is registered later: the
-- names are looked up when an edge is asked for, and the list of targets is put
-- together on the first question and kept until the next registration.
import JarDerivation.Error

namespace JarDerivation

/-! ## Namespaces -/

/-- A scheme that the symbols of a jar can be named in. Two of them are the same when their names
are. -/
structure Namespace where
  name : String
  /-- Whether people can read the names of this scheme. -/
  named : Bool
  deriving DecidableEq, Repr

namespace Namespace

def same (a b : Namespace) : Bool := a.name == b.name

/-- The text that shows a namespace together with its flag. -/
def describe (ns : Namespace) : String :=
  if ns.named then s!"Namespace({ns.name}, named)" else s!"Namespace({ns.name})"

end Namespace

/-! ## Entries -/

/-- A registered namespace with one list of targets for each registration. -/
structure RegistryEntry where
  namespaceOf : Namespace
  declared : List (List String)
  /-- The targets once they have been put together. -/
  known : Option (List String)
  deriving DecidableEq, Repr

namespace RegistryEntry

/-- Adds `names` to `seen`, each name once. -/
def union (seen names : List String) : List String :=
  names.foldl (fun acc n => if acc.contains n then acc else acc ++ [n]) seen

/-- The targets of all registrations, in order of their first mention. -/
def targets (e : RegistryEntry) : List String :=
  e.declared.foldl union []

/-- The lists of an entry, each with the name of the namespace and its place. -/
def lists (e : RegistryEntry) : List (String × Nat) :=
  (List.range e.declared.length).map fun k => (e.namespaceOf.name, k)

def extend (e : RegistryEntry) (targets : List String) : RegistryEntry :=
  { e with declared := e.declared ++ [targets], known := none }

end RegistryEntry

/-! ## The registry -/

structure Registry where
  entries : List RegistryEntry
  /-- The lists of targets that have been asked for so far, in order. -/
  evaluated : List (String × Nat)
  deriving DecidableEq, Repr

namespace Registry

def empty : Registry := ⟨[], []⟩

/-- How many lists of targets have been asked for so far. -/
def evaluations (r : Registry) : Nat := r.evaluated.length

def namespaces (r : Registry) : List Namespace := r.entries.map (·.namespaceOf)

/-- The place of a namespace in the order of registration. -/
def indexOf? (r : Registry) (name : String) : Option Nat :=
  r.entries.findIdx? (·.namespaceOf.name == name)

def contains (r : Registry) (name : String) : Bool := (r.indexOf? name).isSome

def size (r : Registry) : Nat := r.entries.length

def lookup (r : Registry) (name : String) : Except Error Namespace :=
  match r.entries.find? (·.namespaceOf.name == name) with
  | some e => .ok e.namespaceOf
  | none => .error (.unknownNamespace name "namespace lookup")

/-- Registers a namespace. A second registration adds its targets to those of
the first, but must agree on the flag. The targets are what their provider answers; it is taken to
answer the same each time. -/
def register (r : Registry) (name : String) (named : Bool) (targets : List String) :
    Except Error (Namespace × Registry) :=
  match r.entries.find? (·.namespaceOf.name == name) with
  | some e =>
    if e.namespaceOf.named == named then
      let entries := r.entries.map fun f =>
        if f.namespaceOf.name == name then f.extend targets else f
      .ok (e.namespaceOf, { r with entries })
    else .error (.duplicateNamespace name e.namespaceOf.named)
  | none =>
    let ns : Namespace := ⟨name, named⟩
    .ok (ns, { r with entries := r.entries ++ [⟨ns, [targets], none⟩] })

/-- The text that shows the whole registry. -/
def describe (r : Registry) : String :=
  "NamespaceRegistry \x7b namespaces: [" ++
    ", ".intercalate (r.namespaces.map Namespace.describe) ++ "] \x7d"

/-! ## Questions to the graph

A question may put lists of targets together, so it hands back the registry. -/

abbrev Query := ExceptT Error (StateM Registry)

/-- The answer of a question alone. -/
def ask {α : Type} (r : Registry) (q : Query α) : Except Error α := (q.run.run r).1

/-- The targets of the entry at `idx`, put together on the first question. -/
def targetsAt (idx : Nat) : Query (List String) := do
  let r ← get
  match r.entries[idx]? with
  | none => return []
  | some e =>
    match e.known with
    | some names => return names
    | none =>
      let names := e.targets
      set { r with
        entries := r.entries.set idx { e with known := some names }
        evaluated := r.evaluated ++ e.lists : Registry }
      return names

/-- Puts `n` into a sorted list that holds each number once. -/
def insertSorted (n : Nat) : List Nat → List Nat
  | [] => [n]
  | m :: rest => if n < m then n :: m :: rest else if n = m then m :: rest else m :: insertSorted n rest

/-- The places of `targets`, sorted; the first unregistered name is the error. -/
def places (r : Registry) (name : String) : List String → Except Error (List Nat)
  | [] => .ok []
  | t :: rest =>
    match r.indexOf? t with
    | none => .error (.unknownNamespace t s!"declared as remap target of {name}")
    | some idx => (places r name rest).map (insertSorted idx)

/-- The places of the direct targets of a namespace, in order of registration. -/
def neighbours (name : String) : Query (List Nat) := do
  let r ← get
  match r.indexOf? name with
  | none => throw (.unknownNamespace name "remap graph")
  | some idx =>
    let targets ← targetsAt idx
    liftExcept (places r name targets)
where
  liftExcept {α : Type} : Except Error α → Query α
    | .ok a => pure a
    | .error e => throw e

def namespaceAt (r : Registry) (idx : Nat) : Option Namespace :=
  r.entries[idx]?.map (·.namespaceOf)

/-- The direct targets of a namespace, in order of registration. -/
def remapsTo (name : String) : Query (List Namespace) := do
  let found ← neighbours name
  let r ← get
  return found.filterMap r.namespaceAt

def canRemap (source target : String) : Query Bool := do
  return (← remapsTo source).any (·.name == target)

/-! ## Paths -/

/-- Breadth-first search. A waiting place is held with its path back to the
start, so the path of the first place that is the goal is a shortest one.
No place waits twice, so `fuel` turns for `fuel` places are enough. -/
def search (goal : Nat) : Nat → List Nat → List (List Nat) → Query (Option (List Nat))
  | _, _, [] => return none
  | 0, _, _ => return none
  | fuel + 1, seen, path :: waiting => do
    match path with
    | [] => search goal fuel seen waiting
    | current :: _ =>
      if current = goal then return some path
      let r ← get
      let name := ((r.namespaceAt current).map (·.name)).getD ""
      let fresh := (← neighbours name).filter fun n => !seen.contains n
      search goal fuel (seen ++ fresh) (waiting ++ fresh.map (· :: path))

/-- The shortest chain of namespaces from `source` to `target`, without
`source`. The fallbacks have to be registered and do not change the chain. -/
def resolvePath (source sourceFallback target targetFallback : String) :
    Query (List Namespace) := do
  let r ← get
  match [source, sourceFallback, target, targetFallback].find? (!r.contains ·) with
  | some name => throw (.unknownNamespace name "remap path resolution")
  | none =>
    if source = target then return []
    match r.indexOf? source, r.indexOf? target with
    | some start, some goal =>
      match ← search goal (r.size + 1) [start] [[start]] with
      | some path => return path.reverse.tail.filterMap r.namespaceAt
      | none => throw (.noRemapPath source target)
    | _, _ => throw (.noRemapPath source target)

end Registry

end JarDerivation
