-- The files that a derivation reads and writes. A file is a jar or plain bytes. A
-- path is followed segment by segment, and each segment but the last has to name
-- a folder that is there; so `gone/../a.jar` leads nowhere without a folder `gone`.
import JarDerivation.Path
import JarDerivation.Jar.Basic
import JarDerivation.Error

namespace JarDerivation

inductive Content where
  | jar (jar : Jar)
  | raw (bytes : Bytes)
  deriving DecidableEq, Repr

namespace Content

/-- An archive without entries: its end record and nothing before it. -/
def emptyArchive : Bytes := [0x50, 0x4B, 0x05, 0x06] ++ List.replicate 18 0

/-- The bytes of a file. Only those of an archive without entries are read as an archive. -/
def ofBytes (bytes : Bytes) : Content := if bytes = emptyArchive then .jar .empty else .raw bytes

/-- The text of a file. An archive with entries is no text. -/
def text? : Content → Option String
  | .raw bytes => Utf8.decode? bytes
  | .jar j => if j.entries.isEmpty then Utf8.decode? emptyArchive else none

end Content

/-- The names from the root down to a place. -/
abbrev Location := Array String

inductive FileNode where
  | folder
  | file (content : Content)
  deriving DecidableEq, Repr

structure Files where
  /-- What is at a place, the first one counting. The root is a folder always. -/
  nodes : List (Location × FileNode)
  deriving DecidableEq, Repr

namespace Files

/-- The folder that relative paths start from. -/
def home : Location := #["tmp", "work"]

def empty : Files := ⟨[(home, .folder), (home.pop, .folder)]⟩

def node? (f : Files) (place : Location) : Option FileNode :=
  if place.isEmpty then some .folder else List.lookup place f.nodes

def eraseAt (f : Files) (place : Location) : Files := ⟨f.nodes.filter (·.1 != place)⟩

def putAt (f : Files) (place : Location) (n : FileNode) : Files := ⟨(place, n) :: (f.eraseAt place).nodes⟩

/-! ## Following a path -/

/-- Follows one segment from a place, which has to be a folder. -/
def step (f : Files) (place : Location) (segment : String) : Except IoFault Location :=
  match f.node? place with
  | none => .error .notFound
  | some (.file _) => .error .notDirectory
  | some .folder =>
    if segment == "" || segment == "." then .ok place
    else if segment == ".." then .ok place.pop
    else if segment.utf8ByteSize > Path.longestName then .error .nameTooLong
    else .ok (place.push segment)

def start (path : String) : Location := if Path.isAbsolute path then #[] else home

/-- Follows the segments of a path, some of them, from where the path starts. -/
def follow (f : Files) (path : String) (segments : List String) : Except IoFault Location :=
  if path.toList.contains '\x00' then .error .nulInPath
  else if path = "" then .error .notFound
  else if path.utf8ByteSize > Path.longestPath then .error .nameTooLong
  else segments.foldlM f.step (start path)

/-- The place that a path leads to. Nothing has to be there yet. -/
def locate (f : Files) (path : String) : Except IoFault Location := f.follow path (Path.segments path)

/-- What a path leads to. -/
def look (f : Files) (path : String) : Except IoFault FileNode := do
  match f.node? (← f.locate path) with
  | some n => return n
  | none => throw .notFound

/-- The file that a path leads to. -/
def find? (f : Files) (path : String) : Option Content :=
  match f.look path with
  | .ok (.file c) => some c
  | _ => none

def isFile (f : Files) (path : String) : Bool := (f.find? path).isSome

def isFolder (f : Files) (path : String) : Bool :=
  match f.look path with
  | .ok .folder => true
  | _ => false

def exists? (f : Files) (path : String) : Bool := f.isFile path || f.isFolder path

/-! ## Reading -/

def openJar (f : Files) (path : String) : Except Error Jar :=
  match f.look path with
  | .ok (.file (.jar j)) => .ok j
  | .ok (.file (.raw _)) =>
    .error (.archive path "Failed to read jar: invalid Zip archive: Could not find EOCD")
  | .ok .folder => .error (.archive path "Failed to read jar: i/o error")
  | .error fault => .error (.archive path s!"Failed to open jar: {fault.message}")

/-- The bytes of an entry that has to be there. -/
def entryOf (path : String) (j : Jar) (name : String) : Except Error Bytes := do
  match ← j.readOptional name with
  | some bytes => return bytes
  | none => throw (.archive path s!"Failed to access {name}: specified file not found in archive")

def readText (f : Files) (path : String) : Except Error String :=
  match f.look path with
  | .ok (.file c) =>
    match c.text? with
    | some s => .ok s
    | none => .error (.io .invalidText)
  | .ok .folder => .error (.io .isDirectory)
  | .error fault => .error (.io fault)

end Files

end JarDerivation
