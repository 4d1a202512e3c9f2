-- The text of an access widener. The first line that is not blank names the
-- version and the namespace; each further line is an entry. A `#` begins a
-- comment, and words stand apart by white space.
import JarDerivation.Error
import JarDerivation.Text.Blank
import JarDerivation.Text.Lines
import JarDerivation.Text.Split
import JarDerivation.Widener.Basic

namespace JarDerivation

/-! ## What can be wrong -/

inductive WidenEntryFault where
  | empty
  | transitiveNeedsV2
  | unknownAccess (word : String)
  | malformed (line : String)
  | mutableClass
  | mutableMethod
  | extendableField
  deriving DecidableEq, Repr

def WidenEntryFault.message : WidenEntryFault → String
  | empty => "empty entry"
  | transitiveNeedsV2 => "transitive entries need v2"
  | unknownAccess word => s!"unknown access {word}"
  | malformed line => s!"malformed entry: {line}"
  | mutableClass => "classes can't be mutable"
  | mutableMethod => "methods can't be mutable"
  | extendableField => "fields can't be extendable"

inductive WidenerFault where
  | empty
  | header (line : String)
  | entry (line : Nat) (fault : WidenEntryFault)
  deriving DecidableEq, Repr

def WidenerFault.message : WidenerFault → String
  | empty => "empty access widener"
  | header line => s!"invalid header: {line}"
  | entry line fault => s!"line {line}: {(Error.accessWidener fault.message).message}"

namespace Widener

/-! ## Reading -/

/-- The part of a line that counts. -/
def content (line : List Char) : List Char := Text.trim (line.takeWhile (· != '#'))

/-- The lines that count, with their numbers; the first line has number `n`. -/
def numbered (n : Nat) : List (List Char) → List (Nat × List Char)
  | [] => []
  | line :: rest =>
    if (content line).isEmpty then numbered (n + 1) rest
    else (n, content line) :: numbered (n + 1) rest

def accessKind? (word : String) : Option AccessKind :=
  if word = "accessible" then some .accessible
  else if word = "extendable" then some .extendable
  else if word = "mutable" then some .mutable
  else none

/-- What the words after the access name. -/
def target? : List String → Option WidenTarget
  | [kind, name] => if kind = "class" then some (.class name) else none
  | [kind, owner, name, desc] =>
    if kind = "method" then some (.method owner name desc)
    else if kind = "field" then some (.field owner name desc)
    else none
  | _ => none

/-- Which accesses make no sense for which targets. -/
def misfit? (access : AccessKind) : WidenTarget → Option WidenEntryFault
  | .class _ => if access = .mutable then some .mutableClass else none
  | .method .. => if access = .mutable then some .mutableMethod else none
  | .field .. => if access = .extendable then some .extendableField else none

/-- Whether an access word is transitive, and the word without that mark. -/
def splitTransitive (word : String) : Bool × String :=
  match Text.dropStart? "transitive-" word with
  | some rest => (true, rest)
  | none => (false, word)

def parseEntry (version : Nat) (line : List Char) : Except WidenEntryFault WidenEntry :=
  match (Text.words line).map String.ofList with
  | [] => .error .empty
  | first :: rest =>
    let (transitive, word) := splitTransitive first
    if transitive && version < 2 then .error .transitiveNeedsV2
    else match accessKind? word with
      | none => .error (.unknownAccess word)
      | some access =>
        match target? rest with
        | none => .error (.malformed (String.ofList line))
        | some target =>
          match misfit? access target with
          | some fault => .error fault
          | none => .ok ⟨access, transitive, target⟩

/-- The version and the namespace in the first line. -/
def parseHeader (line : List Char) : Except WidenerFault (Nat × String) :=
  match (Text.words line).map String.ofList with
  | [mark, version, name] =>
    if mark = "accessWidener" ∧ version = "v1" then .ok (1, name)
    else if mark = "accessWidener" ∧ version = "v2" then .ok (2, name)
    else .error (.header (String.ofList line))
  | _ => .error (.header (String.ofList line))

def parseEntries (version : Nat) : List (Nat × List Char) → Except WidenerFault (List WidenEntry)
  | [] => .ok []
  | (n, line) :: rest =>
    match parseEntry version line with
    | .error fault => .error (.entry n fault)
    | .ok e => (parseEntries version rest).map (e :: ·)

def parse (text : String) : Except WidenerFault Widener :=
  match numbered 1 (Text.lines text.toList) with
  | [] => .error .empty
  | (_, header) :: rest => do
    let (version, name) ← parseHeader header
    return ⟨version, name, ← parseEntries version rest⟩

/-- Reads a widener; what is wrong with it becomes an error of the derivation. -/
def ofText (text : String) : Except Error Widener :=
  match parse text with
  | .ok w => .ok w
  | .error fault => .error (.accessWidener fault.message)

/-! ## Writing -/

def targetText : WidenTarget → String
  | .class name => s!"class {name}"
  | .method owner name desc => s!"method {owner} {name} {desc}"
  | .field owner name desc => s!"field {owner} {name} {desc}"

def entryText (e : WidenEntry) : String :=
  (if e.transitive then "transitive-" else "") ++ e.access.name ++ " " ++ targetText e.target ++ "\n"

def toText (w : Widener) : String :=
  s!"accessWidener v{w.version} {w.namespaceName}\n" ++ String.join (w.entries.map entryText)

end Widener

end JarDerivation
