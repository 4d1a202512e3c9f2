-- Paths as the build script writes them. A path is cut into segments at `/`;
-- empty segments and `.` name nothing, apart from a `.` at the very front.
import JarDerivation.Text.Split

namespace JarDerivation

namespace Path

def segments (p : String) : List String := Text.splitEach '/' p

def ofSegments (segs : List String) : String := "/".intercalate segs

def isAbsolute (p : String) : Bool := Text.startsWith "/" p

/-- A path below another one. An absolute path stays as it is. -/
def join (p q : String) : String :=
  if isAbsolute q then q
  else if p = "" then q
  else if Text.endsWith "/" p then p ++ q
  else p ++ "/" ++ q

/-! ## The parts of a path -/

/-- Whether a segment names something. -/
def isNamed (segment : String) : Bool := segment != "" && segment != "."

/-- The parts of a path: `/` if it is absolute, a `.` at the very front, and all segments that
name something. Paths with the same parts are the same path, however they are spelled. -/
def components (path : String) : List String :=
  let named := (segments path).filter isNamed
  if isAbsolute path then "/" :: named
  else if (segments path).head? = some "." then "." :: named
  else named

/-! ## The last segment -/

/-- Drops segments that name nothing from the end, but not the first segment. -/
def trimEnd : List String → List String
  | [] => []
  | s :: rest => s :: (rest.reverse.dropWhile fun t => t == "" || t == ".").reverse

/-- The name of the file, unless the path ends in `..` or names no file. -/
def fileName? (p : String) : Option String :=
  match (trimEnd (segments p)).getLast? with
  | none => none
  | some s => if s == "" || s == "." || s == ".." then none else some s

/-- The path without its last segment. -/
def parent? (p : String) : Option String :=
  match trimEnd (segments p) with
  | [] | [""] => none
  | [_] => some ""
  | segs =>
    match trimEnd segs.dropLast with
    | [""] => some "/"
    | rest => some (ofSegments rest)

/-- The same path with another file name. -/
def withFileName (p name : String) : String :=
  match fileName? p with
  | some _ => join ((parent? p).getD "") name
  | none => join p name

/-- A file name around its last dot. A dot at the front begins no extension. -/
def splitName (name : String) : String × Option String :=
  match Text.splitLast? '.' name with
  | some (stem, ext) => if stem == "" then (name, none) else (stem, some ext)
  | none => (name, none)

def fileStem? (p : String) : Option String := (fileName? p).map fun n => (splitName n).1

def extension? (p : String) : Option String := (fileName? p).bind fun n => (splitName n).2

/-! ## Where a path leads -/

/-- The longest name of a file or folder, in bytes. -/
def longestName : Nat := 255

/-- The longest path, in bytes. -/
def longestPath : Nat := 4095

/-- Whether a path asks for a folder by a slash at its end. -/
def wantsFolder (p : String) : Bool := Text.endsWith "/" p

/-- The segments without the empty ones at the end, from the last one to the first. -/
def backwards (p : String) : List String := (segments p).reverse.dropWhile (· == "")

/-- The segments before the last one that is not empty. -/
def around (p : String) : List String := (backwards p).tail.reverse

/-- The last segment that is not empty. -/
def lastName (p : String) : String := (backwards p).headD ""

/-- Whether a path ends in no name of its own, but in dots or at the root. -/
def isDotted (p : String) : Bool := lastName p == "" || lastName p == "." || lastName p == ".."

end Path

end JarDerivation
