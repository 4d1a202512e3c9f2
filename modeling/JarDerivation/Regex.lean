-- Regular expressions, as far as globs need them. The library that compiles patterns is a
-- parameter of the program. The small one here knows characters, `.`, `[^c]`, `*` and the two
-- anchors, and looks at each place of a text once for each end of a pattern.

namespace JarDerivation

/-- A library of regular expressions. -/
structure RegexLibrary where
  /-- Spells a text so that a pattern takes it literally. -/
  escape : String → String
  /-- Tells in which texts a pattern has a match, or why the text is no pattern. -/
  compile : String → Except String (String → Bool)

namespace Regex

/-- What one character of a text may be. -/
inductive CharSet where
  /-- Any character but a line feed. -/
  | dot
  | except (c : Char)
  | only (c : Char)
  deriving DecidableEq, Repr

def CharSet.admits : CharSet → Char → Bool
  | .dot, d => d != '\n'
  | .except c, d => d != c
  | .only c, d => d == c

/-- A pattern is a list of pieces, one after the other. -/
inductive Piece where
  /-- The beginning of the text. -/
  | start
  /-- The end of the text. -/
  | stop
  | one (set : CharSet)
  /-- Any number of characters, all of them in the set. -/
  | many (set : CharSet)
  deriving DecidableEq, Repr

/-! ## Reading a pattern -/

/-- The characters that mean something else than themselves, or may come to. -/
def isMeta (c : Char) : Bool :=
  ['\\', '.', '+', '*', '?', '(', ')', '|', '[', ']', '\x7b', '\x7d', '^', '$', '#', '&', '-',
    '~'].contains c

def escape (s : String) : String :=
  String.ofList (s.toList.flatMap fun c => if isMeta c then ['\\', c] else [c])

inductive Lexeme where
  | start
  | stop
  | star
  | set (set : CharSet)

def lexemes : List Char → Option (List Lexeme)
  | [] => some []
  | '^' :: rest => (Lexeme.start :: ·) <$> lexemes rest
  | '$' :: rest => (Lexeme.stop :: ·) <$> lexemes rest
  | '*' :: rest => (Lexeme.star :: ·) <$> lexemes rest
  | '.' :: rest => (Lexeme.set .dot :: ·) <$> lexemes rest
  | '[' :: '^' :: c :: ']' :: rest =>
    if isMeta c then none else (Lexeme.set (.except c) :: ·) <$> lexemes rest
  | '\\' :: c :: rest => if isMeta c then (Lexeme.set (.only c) :: ·) <$> lexemes rest else none
  | c :: rest => if isMeta c then none else (Lexeme.set (.only c) :: ·) <$> lexemes rest

/-- A star belongs to the set before it. -/
def pieces : List Lexeme → Option (List Piece)
  | [] => some []
  | .start :: rest => (Piece.start :: ·) <$> pieces rest
  | .stop :: rest => (Piece.stop :: ·) <$> pieces rest
  | .set s :: .star :: rest => (Piece.many s :: ·) <$> pieces rest
  | .set s :: rest => (Piece.one s :: ·) <$> pieces rest
  | .star :: _ => none

def parse (pattern : String) : Option (List Piece) := (lexemes pattern.toList).bind pieces

/-! ## Matching

A row belongs to a place of a text: it holds, for a pattern and for each end of it, whether that
matches from the place on. The row of a place is worked out from the one of the next place. -/

/-- The row for the end of a text. -/
def rowAtEnd (atStart : Bool) : List Piece → List Bool
  | [] => [true]
  | p :: ps =>
    let row := rowAtEnd atStart ps
    let here := match p with
      | .start => atStart && row.headD false
      | .stop | .many _ => row.headD false
      | .one _ => false
    here :: row

/-- The row for a place before a character. -/
def rowBefore (atStart : Bool) (c : Char) : List Piece → List Bool → List Bool
  | [], _ => [true]
  | p :: ps, next =>
    let row := rowBefore atStart c ps next.tail
    let here := match p with
      | .start => atStart && row.headD false
      | .stop => false
      | .one s => s.admits c && next.tail.headD false
      | .many s => row.headD false || (s.admits c && next.headD false)
    here :: row

/-- The rows for all places of a text. -/
def rows (ps : List Piece) : Bool → List Char → List (List Bool)
  | atStart, [] => [rowAtEnd atStart ps]
  | atStart, c :: rest =>
    let later := rows ps false rest
    rowBefore atStart c ps (later.headD []) :: later

/-- Whether a pattern has a match anywhere in a text. -/
def isMatch (ps : List Piece) (text : String) : Bool :=
  (rows ps true text.toList).any (·.headD false)

end Regex

/-- A library for the patterns that globs are made into. -/
def RegexLibrary.plain : RegexLibrary where
  escape := Regex.escape
  compile pattern :=
    match Regex.parse pattern with
    | some ps => .ok (Regex.isMatch ps)
    | none => .error "unsupported pattern"

end JarDerivation
