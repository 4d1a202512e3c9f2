-- Reading JSON from its tokens. The reader is a machine with a stack: a frame
-- for each list and record that is open. So a value may be nested to any depth.
import JarDerivation.Json.Lexer
import JarDerivation.Text.Utf8

namespace JarDerivation

namespace Json

/-- A list or a record that waits for a value. What it has so far is backwards. -/
inductive Frame where
  | items (done : List Json)
  | members (done : List (Option String × Json)) (key : Option String)
  deriving Repr

/-- What the next token has to be. -/
inductive Expect where
  | value
  /-- A value, or the end of a list that has just been opened. -/
  | firstItem
  /-- A key, or the end of a record that has just been opened. -/
  | firstKey
  | key (done : List (Option String × Json))
  | colon (done : List (Option String × Json)) (key : Option String)
  /-- The end of what surrounds a value, or a comma and another one. -/
  | after (value : Json)
  deriving Repr

structure State where
  expect : Expect
  stack : List Frame
  deriving Repr

namespace State

/-- Reads the first token of a value. -/
def startValue (stack : List Frame) : Token → Option State
  | .atom v => some ⟨.after v, stack⟩
  | .listStart => some ⟨.firstItem, stack⟩
  | .recordStart => some ⟨.firstKey, stack⟩
  | _ => none

def startKey (done : List (Option String × Json)) (stack : List Frame) : Token → Option State
  | .atom (.string k) => some ⟨.colon done k, stack⟩
  | _ => none

def step (s : State) (t : Token) : Option State :=
  match s.expect with
  | .value => startValue s.stack t
  | .firstItem =>
    match t with
    | .listEnd => some ⟨.after (.array []), s.stack⟩
    | t => startValue (.items [] :: s.stack) t
  | .firstKey =>
    match t with
    | .recordEnd => some ⟨.after (.object []), s.stack⟩
    | t => startKey [] s.stack t
  | .key done => startKey done s.stack t
  | .colon done k =>
    match t with
    | .colon => some ⟨.value, .members done k :: s.stack⟩
    | _ => none
  | .after v =>
    match s.stack, t with
    | .items done :: stack, .comma => some ⟨.value, .items (v :: done) :: stack⟩
    | .items done :: stack, .listEnd => some ⟨.after (.array (v :: done).reverse), stack⟩
    | .members done k :: stack, .comma => some ⟨.key ((k, v) :: done), stack⟩
    | .members done k :: stack, .recordEnd =>
      some ⟨.after (.object ((k, v) :: done).reverse), stack⟩
    | _, _ => none

def run (s : State) : List Token → Option State
  | [] => some s
  | t :: rest => (s.step t).bind fun next => next.run rest

/-- The value, once it is complete and nothing around it is open. -/
def result? (s : State) : Option Json :=
  match s.expect, s.stack with
  | .after v, [] => some v
  | _, _ => none

end State

def ofTokens? (tokens : List Token) : Option Json :=
  (State.run ⟨.value, []⟩ tokens).bind State.result?

def parse? (cs : List (Option Char)) : Option Json := (lex cs).bind ofTokens?

def ofBytes? (bytes : Bytes) : Option Json := parse? (Utf8.scalars bytes)

end Json

end JarDerivation
