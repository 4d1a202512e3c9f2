-- Listing the jars below a folder. They come in the ascending order of the
-- segments of their paths, so `a/z.jar` stands before `a.jar`.
import JarDerivation.Files.Basic

namespace JarDerivation

namespace Files

/-- The names from a folder on down to a place below it. -/
abbrev Descent := List String

/-- Whether the last name is that of a jar. -/
def isJar (place : Descent) : Bool :=
  ((place.getLast?).bind fun name => (Path.splitName name).2) == some "jar"

/-- The way from a folder to a file, if the file lies below it. -/
def descent? (folder : Location) : Location × FileNode → Option Descent
  | (_, .folder) => none
  | (place, .file _) => (folder.toList.isPrefixOf? place.toList).filter (!·.isEmpty)

/-- Inserts a descent before the first one that is greater. -/
def insertDescent (d : Descent) : List Descent → List Descent
  | [] => [d]
  | other :: rest => if d < other then d :: other :: rest else other :: insertDescent d rest

/-- The path from the folder of a path on down. -/
def pathBelow (root : String) (d : Descent) : String := d.foldl Path.join root

/-- The paths of all jars in a folder and below it, as far as paths reach. -/
def jarsIn (f : Files) (root : String) (folder : Location) : List String :=
  let jars := (f.nodes.filterMap (descent? folder)).filter fun d =>
    isJar d && f.isFolder (pathBelow root d.dropLast)
  (jars.foldr insertDescent []).map (pathBelow root)

/-- The paths of all jars below a path. A path that leads to a jar lists that jar. -/
def jarsBelow (f : Files) (root : String) : List String :=
  match f.locate root with
  | .error _ => []
  | .ok place =>
    match f.node? place with
    | none => []
    | some .folder => f.jarsIn root place
    | some (.file _) => if Path.extension? root == some "jar" then [root] else []

end Files

end JarDerivation
