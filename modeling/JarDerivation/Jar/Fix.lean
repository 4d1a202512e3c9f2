-- Fixes: rewrites of single jar entries that do not depend on the mod loader.
import JarDerivation.Jar.Manifest
import JarDerivation.Trace

namespace JarDerivation

namespace Signature

/-- Whether an entry signs the jar. Signatures lie directly in `META-INF`, and
the case of ASCII letters in their names does not matter. -/
def isSignature (entry : String) : Bool :=
  match Text.dropStart? "META-INF/" entry with
  | none => false
  | some file =>
    let upper := String.ofList (file.toList.map Text.upperAscii)
    !file.toList.contains '/' &&
      ([".SF", ".RSA", ".DSA", ".EC"].any (Text.endsWith · upper) || Text.startsWith "SIG-" upper)

/-- Drops trailing line feeds. -/
def trimLf (cs : List Char) : List Char := (cs.reverse.dropWhile (· == '\n')).reverse

/-- The manifest without the sections about single entries. -/
def stripDigests (manifest : Bytes) : Bytes :=
  let main := trimLf (Text.firstSection (Manifest.characters manifest))
  Utf8.encode (String.ofList (Text.toCrLf main ++ ['\r', '\n', '\r', '\n']))

/-- Drops signatures, and what the manifest says about single entries. -/
def strip (entry : String) (bytes : Bytes) : Option Bytes :=
  if isSignature entry then none
  else if entry = Manifest.entryName then some (stripDigests bytes)
  else some bytes

end Signature

structure JarFix where
  name : String
  /-- The new bytes of an entry, or nothing to drop it. -/
  apply : String → Bytes → Except Error (Option Bytes)

namespace JarFix

def stripSignatures : JarFix := ⟨"strip-signatures", fun entry bytes => .ok (Signature.strip entry bytes)⟩

/-- Applies fixes one after the other, until one drops the entry. -/
def applyAll (entry : String) : List JarFix → Bytes → Traced (Option Bytes)
  | [], bytes => pure (some bytes)
  | fix :: rest, bytes => do
    Traced.note (.fixed fix.name entry)
    match ← Traced.ofExcept (fix.apply entry bytes) with
    | some bytes => applyAll entry rest bytes
    | none => pure none

end JarFix

namespace Jar

/-- Reads an entry, edits it and writes it to the new jar; an entry without bytes is dropped. -/
def editEntry (edit : String → Bytes → Traced (Option Bytes)) (j out : Jar) (e : Entry) :
    Traced Jar := do
  match ← edit e.name (← Traced.ofExcept (j.read e)) with
  | some bytes => Traced.ofExcept (out.store e.name bytes)
  | none => pure out

/-- Edits the entries of a jar in order. -/
def editEntries (edit : String → Bytes → Traced (Option Bytes)) (j : Jar) : Traced Jar :=
  j.files.foldlM (editEntry edit j) .empty

end Jar

end JarDerivation
