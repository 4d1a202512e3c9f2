-- Jars: archives of named entries. No name occurs twice. An entry whose name
-- ends in a slash or a backslash is a folder. The entries are listed when a jar is
-- opened, and the bytes of each are read when they are asked for.
import JarDerivation.Error
import JarDerivation.Text.Ascending
import JarDerivation.Text.Split
import JarDerivation.Text.Utf8

namespace JarDerivation

@[ext] structure Entry where
  name : String
  bytes : Bytes
  deriving DecidableEq, Repr

structure Jar where
  entries : List Entry
  distinct : (entries.map Entry.name).Nodup := by decide
  /-- The names of the entries whose bytes cannot be read. -/
  damaged : List String := []
  deriving DecidableEq, Repr

namespace Jar

def empty : Jar := ⟨[], List.nodup_nil, []⟩

/-- All names, in the order of the archive. -/
def allNames (j : Jar) : List String := j.entries.map Entry.name

def contains (j : Jar) (name : String) : Bool := j.allNames.contains name

def size (j : Jar) : Nat := j.entries.length

/-- The bytes of an entry. -/
def get? (j : Jar) (name : String) : Option Bytes :=
  (j.entries.find? (·.name == name)).map Entry.bytes

/-- Adds an entry at the end. A name that is already there keeps its first copy. -/
def write (j : Jar) (name : String) (bytes : Bytes) : Jar :=
  if h : j.contains name then j
  else
    { entries := j.entries ++ [⟨name, bytes⟩]
      distinct := by
        have hn : name ∉ j.entries.map Entry.name := by
          simpa [contains, allNames] using h
        rw [List.map_append, List.nodup_append]
        refine ⟨j.distinct, by simp, ?_⟩
        intro a ha b hb
        simp only [List.map_cons, List.map_nil, List.mem_singleton] at hb
        subst hb
        intro hab
        exact hn (hab ▸ ha) }

/-- Adds entries one after the other. -/
def writeAll (j : Jar) (entries : List Entry) : Jar :=
  entries.foldl (fun j e => j.write e.name e.bytes) j

def ofEntries (entries : List Entry) : Jar := empty.writeAll entries

/-- The names that have been written, in ascending order. -/
def sortedNames (j : Jar) : List String := Text.ascending j.allNames

/-! ## Reading and writing with faults -/

/-- Reads an entry of the jar. -/
def read (j : Jar) (e : Entry) : Except Error Bytes :=
  if j.damaged.contains e.name then .error (.io .damagedEntry) else .ok e.bytes

/-- Reads the entry of a name, if there is one. -/
def readOptional (j : Jar) (name : String) : Except Error (Option Bytes) :=
  match j.entries.find? (·.name == name) with
  | some e => some <$> j.read e
  | none => .ok none

/-- The most bytes that an entry can have. -/
def entryLimit : Nat := 0xFFFFFFFF

/-- Writes an entry that is small enough. Of a name that is already there nothing is written. -/
def store (j : Jar) (name : String) (bytes : Bytes) : Except Error Jar :=
  if j.contains name || bytes.length ≤ entryLimit then .ok (j.write name bytes)
  else .error (.io .oversizedEntry)

/-- Writes entries one after the other, up to the first that is too large. -/
def storeAll (j : Jar) (entries : List Entry) : Except Error Jar :=
  entries.foldlM (fun j e => j.store e.name e.bytes) j

/-! ## Folders -/

def isFolder (name : String) : Bool := Text.endsWith "/" name || Text.endsWith "\\" name

/-- The entries that are no folders, in the order of the archive. -/
def files (j : Jar) : List Entry := j.entries.filter fun e => !isFolder e.name

/-- The names that do not end in a slash. -/
def fileNames (j : Jar) : List String := j.allNames.filter fun n => !Text.endsWith "/" n

end Jar

end JarDerivation
