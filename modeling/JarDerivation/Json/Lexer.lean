-- Tokens of JSON. The input is a list of characters in which `none` stands for
-- bytes that are no character. Such a place may lie inside a string only, and
-- makes its text unreadable.
import JarDerivation.Json.Basic

namespace JarDerivation

namespace Json

inductive Token where
  | listStart
  | listEnd
  | recordStart
  | recordEnd
  | comma
  | colon
  /-- A value of one token: a string, a number, or one of the three words. -/
  | atom (value : Json)
  deriving Repr

/-! ## Strings -/

/-- What one place of a string literal stands for. An escape gives a UTF-16 unit. -/
inductive Piece where
  | char (c : Char)
  | unit (n : Nat)
  | damaged
  deriving DecidableEq, Repr

def hexDigit? (c : Char) : Option Nat :=
  if '0' ≤ c ∧ c ≤ '9' then some (c.toNat - '0'.toNat)
  else if 'a' ≤ c ∧ c ≤ 'f' then some (c.toNat - 'a'.toNat + 10)
  else if 'A' ≤ c ∧ c ≤ 'F' then some (c.toNat - 'A'.toNat + 10)
  else none

/-- The number of four hexadecimal digits. -/
def hex4? (a b c d : Char) : Option Nat := do
  return (← hexDigit? a) * 4096 + (← hexDigit? b) * 256 + (← hexDigit? c) * 16 + (← hexDigit? d)

/-- What a backslash before a character other than `u` stands for. -/
def escape? (c : Char) : Option Char :=
  match c with
  | '"' => some '"'
  | '\\' => some '\\'
  | '/' => some '/'
  | 'b' => some '\x08'
  | 'f' => some '\x0c'
  | 'n' => some '\n'
  | 'r' => some '\r'
  | 't' => some '\t'
  | _ => none

/-- Reads up to the closing quote. Control characters have to be escaped. -/
def pieces : List (Option Char) → Option (List Piece × List (Option Char))
  | [] => none
  | some '"' :: rest => some ([], rest)
  | some '\\' :: some 'u' :: some a :: some b :: some c :: some d :: rest =>
    match hex4? a b c d with
    | some n => (pieces rest).map fun (ps, left) => (.unit n :: ps, left)
    | none => none
  | some '\\' :: some e :: rest =>
    match escape? e with
    | some c => (pieces rest).map fun (ps, left) => (.char c :: ps, left)
    | none => none
  | some '\\' :: _ => none
  | some c :: rest =>
    if c.toNat < 0x20 then none
    else (pieces rest).map fun (ps, left) => (.char c :: ps, left)
  | none :: rest => (pieces rest).map fun (ps, left) => (.damaged :: ps, left)

def isHigh (n : Nat) : Bool := 0xD800 ≤ n && n ≤ 0xDBFF

def isLow (n : Nat) : Bool := 0xDC00 ≤ n && n ≤ 0xDFFF

/-- The characters of a string. Two units of a pair have to stand together, and
one that stands alone spells no text. -/
def characters? : List Piece → Option (List Char)
  | [] => some []
  | .char c :: rest => (characters? rest).map (c :: ·)
  | .damaged :: _ => none
  | .unit hi :: .unit lo :: rest =>
    if isHigh hi then
      if isLow lo then
        (characters? rest).map (Char.ofNat (0x10000 + (hi - 0xD800) * 1024 + (lo - 0xDC00)) :: ·)
      else none
    else if isLow hi then none
    else (characters? (.unit lo :: rest)).map (Char.ofNat hi :: ·)
  | .unit n :: rest =>
    if isHigh n || isLow n then none else (characters? rest).map (Char.ofNat n :: ·)

/-! ## Numbers -/

def isDigit (c : Char) : Bool := '0' ≤ c && c ≤ '9'

def isNumberChar (c : Char) : Bool :=
  isDigit c || c == '-' || c == '+' || c == '.' || c == 'e' || c == 'E'

/-- One digit or more and nothing else. -/
def areDigits (cs : List Char) : Bool := !cs.isEmpty && cs.all isDigit

def isExponent : List Char → Bool
  | '+' :: cs => areDigits cs
  | '-' :: cs => areDigits cs
  | cs => areDigits cs

/-- What may follow the digits before the point. -/
def isNumberTail : List Char → Bool
  | [] => true
  | '.' :: cs =>
    !(cs.takeWhile isDigit).isEmpty &&
      match cs.dropWhile isDigit with
      | [] => true
      | e :: rest => (e == 'e' || e == 'E') && isExponent rest
  | c :: cs => (c == 'e' || c == 'E') && isExponent cs

def isUnsigned : List Char → Bool
  | '0' :: rest => isNumberTail rest
  | c :: rest => isDigit c && isNumberTail (rest.dropWhile isDigit)
  | [] => false

def isNumber : List Char → Bool
  | '-' :: cs => isUnsigned cs
  | cs => isUnsigned cs

/-! ## Tokens -/

def isSpace (c : Char) : Bool := c == ' ' || c == '\n' || c == '\t' || c == '\r'

def isLetter (c : Char) : Bool := 'a' ≤ c && c ≤ 'z'

def word? (cs : List Char) : Option Json :=
  if cs = ['n', 'u', 'l', 'l'] then some .null
  else if cs = ['t', 'r', 'u', 'e'] then some (.bool true)
  else if cs = ['f', 'a', 'l', 's', 'e'] then some (.bool false)
  else none

/-- The characters at the front of a kind, and what follows them. -/
def run (p : Char → Bool) : List (Option Char) → List Char × List (Option Char)
  | some c :: rest => if p c then let (cs, left) := run p rest; (c :: cs, left) else ([], some c :: rest)
  | rest => ([], rest)

def punctuation? (c : Char) : Option Token :=
  match c with
  | '[' => some .listStart
  | ']' => some .listEnd
  | '\x7b' => some .recordStart
  | '\x7d' => some .recordEnd
  | ',' => some .comma
  | ':' => some .colon
  | _ => none

/-- The token that begins with `c`, and what follows it. -/
def token? (c : Char) (rest : List (Option Char)) : Option (Token × List (Option Char)) :=
  match punctuation? c with
  | some t => some (t, rest)
  | none =>
    if c = '"' then
      (pieces rest).map fun (ps, left) =>
        (.atom (.string ((characters? ps).map String.ofList)), left)
    else if isNumberChar c then
      let (cs, left) := run isNumberChar rest
      if isNumber (c :: cs) then some (.atom (.number (String.ofList (c :: cs))), left) else none
    else
      let (cs, left) := run isLetter rest
      (word? (c :: cs)).map fun v => (.atom v, left)

/-- Every token takes a character, so `fuel` above the length is enough. -/
def lexFrom : Nat → List (Option Char) → Option (List Token)
  | _, [] => some []
  | 0, _ :: _ => none
  | _ + 1, none :: _ => none
  | fuel + 1, some c :: rest =>
    if isSpace c then lexFrom fuel rest
    else match token? c rest with
      | some (t, left) => (lexFrom fuel left).map (t :: ·)
      | none => none

def lex (cs : List (Option Char)) : Option (List Token) := lexFrom (cs.length + 1) cs

end Json

end JarDerivation
