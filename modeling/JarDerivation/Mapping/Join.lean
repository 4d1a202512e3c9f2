-- Joining an input to the mapping tree. A class or member of the file belongs to
-- the row that has its name in the key column; without one, a row is added under
-- its source name. Then the other columns of the file are written to the row.
import JarDerivation.Mapping.Input

namespace JarDerivation

/-- Where the columns of a file lie in the tree. -/
structure JoinPlan where
  /-- The column of the tree that the file is joined on. -/
  keyCol : Nat
  keyFileCol : Nat
  /-- A symbol without a name in one of these columns of the tree is skipped. -/
  skipCols : List Nat
  /-- Columns of the file with the columns of the tree that they are written to. -/
  columns : List (Nat × Nat)
  /-- The column of the file that holds source names. -/
  srcFileCol : Option Nat
  /-- Whether only rows that are there already are touched. -/
  filtered : Bool
  allowDuplicates : Bool
  deriving DecidableEq, Repr

namespace MappingTree

/-- Writes a class name that an input brings, under its policy on duplicates. -/
def setOutputName (t : MappingTree) (row col : Nat) (name : String) (shared : Bool) : MappingTree :=
  (t.renameClass row col (some name) shared).2

/-- Adds the columns of an input. The key column and the source column are not
written to. -/
def addColumns (t : MappingTree) (namespaces : List String) (keyCol : Nat) :
    List Nat → MappingTree × List (Nat × Nat)
  | [] => (t, [])
  | j :: rest =>
    match namespaces[j]? with
    | none => addColumns t namespaces keyCol rest
    | some ns =>
      let (col, t) := t.addNamespace ns
      let (t, columns) := addColumns t namespaces keyCol rest
      (t, if col != keyCol && col != 0 then (j, col) :: columns else columns)

/-- The plan of a join, with the tree that has all its columns. -/
def planJoin (t : MappingTree) (i : MappingInput) : Except Error (JoinPlan × MappingTree) := do
  let t := if t.namespaces.isEmpty then (t.addNamespace i.keyNs).2 else t
  let keyCol ← t.requireNamespace i.keyNs s!"source namespace of {i.label}"
  let skipCols ← i.skipIfNotIn.mapM fun ns => t.requireNamespace ns s!"skip_if_not_in of {i.label}"
  let (t, columns) := t.addColumns i.file.namespaces keyCol i.written
  return ({
    keyCol
    keyFileCol := (i.file.column? i.keyNs).getD 0
    skipCols
    columns
    srcFileCol := t.source?.bind i.file.column?
    filtered := i.onlyExistingSrc || !skipCols.isEmpty
    allowDuplicates := i.allowDuplicates }, t)

/-! ## Classes -/

/-- The row of a class entry, added if need be. -/
def placeClass (t : MappingTree) (p : JoinPlan) (e : ClassEntry) : Option (Nat × MappingTree) := do
  let key ← e.names.at? p.keyFileCol
  match t.findClass key p.keyCol with
  | some row => return (row, t)
  | none =>
    if p.filtered then none
    else if p.keyCol = 0 then return t.addClass key
    else
      let src ← p.srcFileCol.bind e.names.at?
      let (row, t) := t.addClass src
      return (row, (t.setClassName row p.keyCol (some key)).2)

/-- Writes the names of a class entry to its row. -/
def nameClass (t : MappingTree) (p : JoinPlan) (row : Nat) (e : ClassEntry) : MappingTree :=
  p.columns.foldl (fun t (j, col) =>
    match e.names.at? j with
    | some name => t.setOutputName row col name p.allowDuplicates
    | none => t) t

/-- Joins a class entry, and tells its row unless it is skipped. -/
def joinClass (t : MappingTree) (p : JoinPlan) (e : ClassEntry) : Option Nat × MappingTree :=
  match t.placeClass p e with
  | none => (none, t)
  | some (row, t) =>
    if p.skipCols.any fun col => (t.className row col).isNone then (none, t)
    else (some row, t.nameClass p row e)

/-- Class names in the first column of the file, with the source names of their rows. -/
abbrev DescNames := List (String × String)

structure ClassJoin where
  tree : MappingTree
  /-- The rows of the entries so far. -/
  rows : List (Option Nat)
  /-- The latest entry of a name comes first. -/
  descNames : DescNames

def joinNextClass (p : JoinPlan) (s : ClassJoin) (e : ClassEntry) : ClassJoin :=
  let (row, tree) := s.tree.joinClass p e
  let named := do
    let row ← row
    return (← e.names.at? 0, ← tree.className row 0)
  ⟨tree, s.rows ++ [row], named.toList ++ s.descNames⟩

def joinClasses (t : MappingTree) (p : JoinPlan) (es : List ClassEntry) : ClassJoin :=
  es.foldl (joinNextClass p) ⟨t, [], []⟩

/-! ## Members -/

/-- The row of a member entry, added if need be. -/
def placeMember (t : MappingTree) (p : JoinPlan) (row : Nat) (kind : MemberKind) (m : MemberEntry)
    (srcDesc : Option String) : Option (Nat × MappingTree) := do
  let key ← m.names.at? p.keyFileCol
  match t.findMember row kind key p.keyCol srcDesc with
  | some idx => return (idx, t)
  | none =>
    if p.filtered then none
    else if p.keyCol = 0 then t.addMember row kind key srcDesc
    else
      let src ← p.srcFileCol.bind m.names.at?
      let (idx, t) ← t.addMember row kind src srcDesc
      return (idx, t.modifyMember row kind idx fun r => r.setName p.keyCol (some key))

/-- Writes the names of a member entry to its row. -/
def nameMember (p : JoinPlan) (m : MemberEntry) (r : MemberRow) : MemberRow :=
  p.columns.foldl (fun r (j, col) =>
    match m.names.at? j with
    | some name => r.setName col (some name)
    | none => r) r

def joinMember (t : MappingTree) (p : JoinPlan) (row : Nat) (kind : MemberKind) (m : MemberEntry)
    (srcDesc : Option String) : MappingTree :=
  match t.placeMember p row kind m srcDesc with
  | none => t
  | some (idx, t) =>
    match t.member? row kind idx with
    | none => t
    | some r =>
      if p.skipCols.any fun col => (r.name col).isNone then t
      else t.modifyMember row kind idx (nameMember p m)

/-- A descriptor of the file in the source namespace. `names` is there if the
file writes its descriptors in another one. -/
def sourceDescriptor (names : Option DescNames) (desc : String) : String :=
  match names with
  | some names => Descriptor.rename (List.lookup · names) desc
  | none => desc

def joinMembers (t : MappingTree) (p : JoinPlan) (names : Option DescNames) (row : Nat)
    (kind : MemberKind) (ms : List MemberEntry) : MappingTree :=
  ms.foldl (fun t m => t.joinMember p row kind m (m.desc.map (sourceDescriptor names))) t

/-- Joins the members of the class entries that have a row. -/
def joinAllMembers (t : MappingTree) (p : JoinPlan) (names : Option DescNames) :
    List (ClassEntry × Option Nat) → MappingTree
  | [] => t
  | (_, none) :: rest => joinAllMembers t p names rest
  | (e, some row) :: rest =>
    let t := t.joinMembers p names row .field e.fields
    let t := t.joinMembers p names row .method e.methods
    joinAllMembers t p names rest

/-! ## The join -/

/-- Joins an input: all of its classes first, then their members. -/
def join (t : MappingTree) (i : MappingInput) : Except Error MappingTree := do
  let (p, t) ← t.planJoin i
  let s := t.joinClasses p i.file.classes
  let names := if i.file.namespaces.head? == s.tree.source? then none else some s.descNames
  return s.tree.joinAllMembers p names (i.file.classes.zip s.rows)

end MappingTree

end JarDerivation
