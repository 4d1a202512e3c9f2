-- Globs over class names. `*` stands for any text within a package and `?` for
-- one character within a package; `**` crosses packages. A glob is spelled as a regular
-- expression for the whole of a name.
import JarDerivation.Error
import JarDerivation.Regex

namespace JarDerivation

namespace Glob

/-- The pattern for the characters of a glob, without the anchors. -/
def body (lib : RegexLibrary) : List Char → String
  | [] => ""
  | '*' :: '*' :: rest => ".*" ++ body lib rest
  | '*' :: rest => "[^/]*" ++ body lib rest
  | '?' :: rest => "[^/]" ++ body lib rest
  | c :: rest => lib.escape (String.singleton c) ++ body lib rest

def pattern (lib : RegexLibrary) (glob : String) : String := "^" ++ body lib glob.toList ++ "$"

end Glob

/-- The classes that a list of globs includes; an empty list includes all. -/
structure IncludeFilter where
  /-- The compiled patterns, each as what it says of a text. -/
  patterns : List (String → Bool)

namespace IncludeFilter

def all : IncludeFilter := ⟨[]⟩

def compile (lib : RegexLibrary) (glob : String) : Except Error (String → Bool) :=
  (lib.compile (Glob.pattern lib glob)).mapError fun reason =>
    .configuration s!"invalid include glob {glob}: {reason}"

/-- The filter for some globs. The first one that cannot be compiled is an error. -/
def ofGlobs (lib : RegexLibrary) (globs : List String) : Except Error IncludeFilter := do
  return ⟨← globs.mapM (compile lib)⟩

def includes (f : IncludeFilter) (className : String) : Bool :=
  f.patterns.isEmpty || f.patterns.any (· className)

end IncludeFilter

end JarDerivation
