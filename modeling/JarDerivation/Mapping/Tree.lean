-- The mapping tree: a row for each class with rows for its fields and methods,
-- and a column of names for each namespace. Column 0 is the source namespace;
-- descriptors are written in it. A name may be missing in any other column.
-- An index tells for each column and class name the row that answers to it.
import JarDerivation.Descriptor
import JarDerivation.Error

namespace JarDerivation

/-! ## Rows -/

abbrev Names := List (Option String)

namespace Names

def at? (names : Names) (col : Nat) : Option String := (names[col]?).join

/-- Writes a cell. A row that is too short grows up to the cell. -/
def put (names : Names) (col : Nat) (name : Option String) : Names :=
  (names ++ List.replicate (col + 1 - names.length) none).set col name

end Names

structure MemberRow where
  names : Names
  /-- The descriptor in the source namespace. -/
  srcDesc : Option String
  deriving DecidableEq, Repr

namespace MemberRow

def name (m : MemberRow) (col : Nat) : Option String := m.names.at? col

def setName (m : MemberRow) (col : Nat) (name : Option String) : MemberRow :=
  { m with names := m.names.put col name }

end MemberRow

inductive MemberKind where
  | field
  | method
  deriving DecidableEq, Repr

structure ClassRow where
  names : Names
  fields : List MemberRow
  methods : List MemberRow
  deriving DecidableEq, Repr

namespace ClassRow

def name (c : ClassRow) (col : Nat) : Option String := c.names.at? col

def members (c : ClassRow) : MemberKind → List MemberRow
  | .field => c.fields
  | .method => c.methods

def setMembers (c : ClassRow) : MemberKind → List MemberRow → ClassRow
  | .field, ms => { c with fields := ms }
  | .method, ms => { c with methods := ms }

def setName (c : ClassRow) (col : Nat) (name : Option String) : ClassRow :=
  { c with names := c.names.put col name }

end ClassRow

/-! ## The index of one column -/

/-- Class names with the row that answers to each. -/
abbrev NameIndex := List (String × Nat)

namespace NameIndex

def find? (ix : NameIndex) (name : String) : Option Nat := List.lookup name ix

def erase (ix : NameIndex) (name : String) : NameIndex := ix.filter (·.1 != name)

def insert (ix : NameIndex) (name : String) (row : Nat) : NameIndex :=
  (name, row) :: erase ix name

/-- Adds a holder of a name; the earliest row keeps it. -/
def addHolder (ix : NameIndex) (name : String) (row : Nat) : NameIndex :=
  match ix.find? name with
  | some owner => if row < owner then ix.insert name row else ix
  | none => ix.insert name row

end NameIndex

/-! ## The tree -/

structure MappingTree where
  namespaces : List String
  classes : List ClassRow
  /-- One index for each column that has been written. -/
  index : List NameIndex
  deriving DecidableEq, Repr

namespace MappingTree

def empty : MappingTree := ⟨[], [], []⟩

def size (t : MappingTree) : Nat := t.classes.length

/-- The source namespace. -/
def source? (t : MappingTree) : Option String := t.namespaces.head?

def namespaceId? (t : MappingTree) (name : String) : Option Nat := t.namespaces.idxOf? name

/-- The column of a namespace that has to be there. -/
def requireNamespace (t : MappingTree) (name context : String) : Except Error Nat :=
  match t.namespaceId? name with
  | some col => .ok col
  | none => .error (.unknownNamespace name context)

/-- Makes the index at least `n` columns wide. -/
def widenIndex (ix : List NameIndex) (n : Nat) : List NameIndex :=
  ix ++ List.replicate (n - ix.length) []

/-- Adds a column unless it is there, and tells its number. -/
def addNamespace (t : MappingTree) (name : String) : Nat × MappingTree :=
  match t.namespaceId? name with
  | some col => (col, t)
  | none =>
    let namespaces := t.namespaces ++ [name]
    (t.namespaces.length, { t with namespaces, index := widenIndex t.index namespaces.length })

/-! ## Classes -/

/-- The row that answers to a class name in a column. -/
def findClass (t : MappingTree) (name : String) (col : Nat) : Option Nat :=
  (t.index[col]?).bind (·.find? name)

def className (t : MappingTree) (row col : Nat) : Option String :=
  (t.classes[row]?).bind (·.name col)

/-- The first row with this name in a column. -/
def firstHolder (classes : List ClassRow) (col : Nat) (name : String) : Option Nat :=
  classes.findIdx? (·.name col == some name)

/-- The index of a column after `row` has dropped the name `old`: the name goes
to the next row that holds it. `classes` are the rows after the change. -/
def handOver (ix : NameIndex) (classes : List ClassRow) (row col : Nat) (old : String) : NameIndex :=
  if ix.find? old = some row then
    match firstHolder classes col old with
    | some next => ix.insert old next
    | none => ix.erase old
  else ix

/-- Sets the name of a class in a column. Unless names may be shared, a name
that another row answers to is refused. Tells whether the name was set. -/
def renameClass (t : MappingTree) (row col : Nat) (name : Option String) (shared : Bool) :
    Bool × MappingTree :=
  match t.classes[row]? with
  | none => (false, t)
  | some c =>
    let index := widenIndex t.index (col + 1)
    let ix := (index[col]?).getD []
    let owner := name.bind ix.find?
    if !shared && owner.any (· != row) then (false, { t with index })
    else
      let classes := t.classes.set row (c.setName col name)
      let ix := match c.name col with
        | some old => handOver ix classes row col old
        | none => ix
      let ix := match name with
        | some new => ix.addHolder new row
        | none => ix
      (true, { t with classes, index := index.set col ix })

/-- A name that another row answers to is refused. -/
def setClassName (t : MappingTree) (row col : Nat) (name : Option String) : Bool × MappingTree :=
  t.renameClass row col name false

/-- The name may be shared; the earliest row answers to it. -/
def setClassNameShared (t : MappingTree) (row col : Nat) (name : Option String) :
    Bool × MappingTree :=
  t.renameClass row col name true

/-- The row of a source name, added at the end unless it is there. -/
def addClass (t : MappingTree) (srcName : String) : Nat × MappingTree :=
  match t.findClass srcName 0 with
  | some row => (row, t)
  | none =>
    let row : ClassRow := ⟨List.replicate (max t.namespaces.length 1) none, [], []⟩
    let t' := { t with classes := t.classes ++ [row] }
    (t.classes.length, (t'.setClassName t.classes.length 0 (some srcName)).2)

/-! ## Members -/

/-- Descriptors agree unless both are known and differ. -/
def descAgrees (want known : Option String) : Bool :=
  match want, known with
  | some a, some b => a == b
  | _, _ => true

/-- The first member of a class with this name in a column and this source descriptor. -/
def findMember (t : MappingTree) (row : Nat) (kind : MemberKind) (name : String) (col : Nat)
    (srcDesc : Option String) : Option Nat :=
  (t.classes[row]?).bind fun c =>
    (c.members kind).findIdx? fun m => m.name col == some name && descAgrees srcDesc m.srcDesc

/-- Replaces a class row. -/
def setClass (t : MappingTree) (row : Nat) (c : ClassRow) : MappingTree :=
  { t with classes := t.classes.set row c }

/-- The member row of a source name, added at the end unless it is there.
There is none for a class row that does not exist. -/
def addMember (t : MappingTree) (row : Nat) (kind : MemberKind) (srcName : String)
    (srcDesc : Option String) : Option (Nat × MappingTree) :=
  match t.findMember row kind srcName 0 srcDesc with
  | some idx => some (idx, t)
  | none =>
    (t.classes[row]?).map fun c =>
      let names := (List.replicate (max t.namespaces.length 1) none).set 0 (some srcName)
      let members := c.members kind
      (members.length, t.setClass row (c.setMembers kind (members ++ [⟨names, srcDesc⟩])))

/-- Changes one member row, if it is there. -/
def modifyMember (t : MappingTree) (row : Nat) (kind : MemberKind) (idx : Nat)
    (f : MemberRow → MemberRow) : MappingTree :=
  match t.classes[row]? with
  | none => t
  | some c => t.setClass row (c.setMembers kind ((c.members kind).modify idx f))

def member? (t : MappingTree) (row : Nat) (kind : MemberKind) (idx : Nat) : Option MemberRow :=
  (t.classes[row]?).bind fun c => (c.members kind)[idx]?

/-! ## Descriptors -/

/-- Rewrites a descriptor from one column into another. A class without a name
in the second one keeps its name. -/
def mapDescriptor (t : MappingTree) (desc : String) (source target : Nat) : String :=
  if source = target then desc
  else Descriptor.rename (fun name => (t.findClass name source).bind (t.className · target)) desc

/-! ## The index from scratch -/

/-- The index of a column: each name with its first holder, counting rows from `row`. -/
def columnIndex (col row : Nat) : List ClassRow → NameIndex
  | [] => []
  | c :: rest =>
    match c.name col with
    | some name => (columnIndex col (row + 1) rest).insert name row
    | none => columnIndex col (row + 1) rest

/-- Indexes the columns that have a namespace. -/
def rebuildIndex (t : MappingTree) : MappingTree :=
  { t with index := (List.range t.namespaces.length).map (columnIndex · 0 t.classes) }

end MappingTree

end JarDerivation
