-- Lines of a text. A line ends with LF or with CR LF, and the end of the last
-- line is no line of its own.

namespace JarDerivation

namespace Text

/-- The line whose characters were collected backwards, ended by LF. -/
def closeLine : List Char → List Char
  | '\r' :: line => line.reverse
  | line => line.reverse

/-- The lines of a text; the characters of the first one so far are in `line`. -/
def linesFrom (line : List Char) : List Char → List (List Char)
  | [] => if line.isEmpty then [] else [line.reverse]
  | '\n' :: rest => closeLine line :: linesFrom [] rest
  | c :: rest => linesFrom (c :: line) rest

def lines (cs : List Char) : List (List Char) := linesFrom [] cs

/-- Writes LF for each CR LF. -/
def toLf : List Char → List Char
  | [] => []
  | '\r' :: '\n' :: rest => '\n' :: toLf rest
  | c :: rest => c :: toLf rest

/-- Writes CR LF for each LF. -/
def toCrLf (cs : List Char) : List Char :=
  cs.flatMap fun c => if c = '\n' then ['\r', '\n'] else [c]

/-- The text before the first empty line that follows another line. -/
def firstSection : List Char → List Char
  | [] => []
  | '\n' :: '\n' :: _ => []
  | c :: rest => c :: firstSection rest

end Text

end JarDerivation
