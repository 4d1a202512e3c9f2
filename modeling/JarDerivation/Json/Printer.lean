-- Writing JSON. The compact form has no blanks. The indented form puts each item
-- on a line of its own, two blanks deeper than what surrounds it, and writes an
-- empty list or record without a line break.
import JarDerivation.Json.Basic
import JarDerivation.Text.Utf8

namespace JarDerivation

namespace Json

def hexChar (n : Nat) : Char := Nat.digitChar n

/-- Only the quote, the backslash and the control characters are escaped. -/
def escapeChar (c : Char) : List Char :=
  if c = '"' then ['\\', '"']
  else if c = '\\' then ['\\', '\\']
  else if c = '\n' then ['\\', 'n']
  else if c = '\r' then ['\\', 'r']
  else if c = '\t' then ['\\', 't']
  else if c = '\x08' then ['\\', 'b']
  else if c = '\x0c' then ['\\', 'f']
  else if c.toNat < 0x20 then ['\\', 'u', '0', '0', hexChar (c.toNat / 16), hexChar (c.toNat % 16)]
  else [c]

def quoted (s : String) : List Char := '"' :: s.toList.flatMap escapeChar ++ ['"']

/-- An unreadable text is written as an empty one. -/
def quotedText (t : Option String) : List Char := quoted (t.getD "")

def bool? (b : Bool) : List Char := if b then "true".toList else "false".toList

/-! ## The compact form -/

mutual

def compact : Json → List Char
  | .null => "null".toList
  | .bool b => bool? b
  | .number w => w.toList
  | .string t => quotedText t
  | .array [] => ['[', ']']
  | .array (v :: rest) => '[' :: compact v ++ compactItems rest ++ [']']
  | .object [] => ['\x7b', '\x7d']
  | .object (m :: rest) =>
    '\x7b' :: quotedText m.1 ++ ':' :: compact m.2 ++ compactMembers rest ++ ['\x7d']

/-- The items after the first one. -/
def compactItems : List Json → List Char
  | [] => []
  | v :: rest => ',' :: compact v ++ compactItems rest

/-- The members after the first one. -/
def compactMembers : List (Option String × Json) → List Char
  | [] => []
  | m :: rest => ',' :: quotedText m.1 ++ ':' :: compact m.2 ++ compactMembers rest

end

/-! ## The indented form -/

def newline (depth : Nat) : List Char := '\n' :: List.replicate (2 * depth) ' '

mutual

def indented (depth : Nat) : Json → List Char
  | .null => "null".toList
  | .bool b => bool? b
  | .number w => w.toList
  | .string t => quotedText t
  | .array [] => ['[', ']']
  | .array (v :: rest) =>
    '[' :: newline (depth + 1) ++ indented (depth + 1) v ++ indentedItems (depth + 1) rest ++
      newline depth ++ [']']
  | .object [] => ['\x7b', '\x7d']
  | .object (m :: rest) =>
    '\x7b' :: newline (depth + 1) ++ quotedText m.1 ++ ':' :: ' ' :: indented (depth + 1) m.2 ++
      indentedMembers (depth + 1) rest ++ newline depth ++ ['\x7d']

/-- The items after the first one. -/
def indentedItems (depth : Nat) : List Json → List Char
  | [] => []
  | v :: rest => ',' :: newline depth ++ indented depth v ++ indentedItems depth rest

/-- The members after the first one. -/
def indentedMembers (depth : Nat) : List (Option String × Json) → List Char
  | [] => []
  | m :: rest =>
    ',' :: newline depth ++ quotedText m.1 ++ ':' :: ' ' :: indented depth m.2 ++
      indentedMembers depth rest

end

/-! ## Bytes -/

def toBytes (v : Json) : Bytes := Utf8.encode (String.ofList (compact v))

def toPrettyBytes (v : Json) : Bytes := Utf8.encode (String.ofList (indented 0 v))

end Json

end JarDerivation
