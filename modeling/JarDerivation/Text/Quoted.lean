-- Quoted texts, as messages show names that may be missing.
import JarDerivation.Text.Printable

namespace JarDerivation

namespace Text

def hexDigits (n : Nat) : List Char := Nat.toDigits 16 n

/-- How a character stands between quotes. -/
def quoteChar (c : Char) : List Char :=
  if c = '"' then ['\\', '"']
  else if c = '\\' then ['\\', '\\']
  else if c = '\n' then ['\\', 'n']
  else if c = '\r' then ['\\', 'r']
  else if c = '\t' then ['\\', 't']
  else if c = '\x00' then ['\\', '0']
  else if isPrintable c then [c]
  else ['\\', 'u', '\x7b'] ++ hexDigits c.toNat ++ ['\x7d']

def quoted (s : String) : String := String.ofList ('"' :: s.toList.flatMap quoteChar ++ ['"'])

def quotedOption : Option String → String
  | some s => s!"Some({quoted s})"
  | none => "None"

end Text

end JarDerivation
