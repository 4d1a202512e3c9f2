-- UTF-8. Bytes are read as a list of parts: a part is one character, or the
-- longest run of bytes that begins a character and cannot be finished. A text
-- that must be valid has characters only; a lenient reader puts U+FFFD in the
-- place of each other part.

namespace JarDerivation

abbrev Bytes := List UInt8

namespace Utf8

def encode (s : String) : Bytes := s.toList.flatMap String.utf8EncodeChar

/-! ## Parts -/

inductive Part where
  | scalar (c : Char)
  /-- This many bytes, and the byte after them does not continue the character. -/
  | invalid (size : Nat)
  /-- This many bytes, and the input ends inside the character. -/
  | incomplete (size : Nat)
  deriving DecidableEq, Repr

/-- A character whose first `size` bytes have been read: `code` is their
payload, `more` bytes follow, and the next one lies from `low` to `high`. -/
structure Pending where
  size : Nat
  code : Nat
  more : Nat
  low : UInt8
  high : UInt8
  deriving DecidableEq, Repr

/-- What the first byte of a longer character says. The ranges leave out long
forms, surrogates and everything above U+10FFFF. -/
def lead? (b : UInt8) : Option Pending :=
  if 0xC2 ≤ b ∧ b ≤ 0xDF then some ⟨1, b.toNat % 32, 1, 0x80, 0xBF⟩
  else if b = 0xE0 then some ⟨1, b.toNat % 16, 2, 0xA0, 0xBF⟩
  else if b = 0xED then some ⟨1, b.toNat % 16, 2, 0x80, 0x9F⟩
  else if 0xE1 ≤ b ∧ b ≤ 0xEF then some ⟨1, b.toNat % 16, 2, 0x80, 0xBF⟩
  else if b = 0xF0 then some ⟨1, b.toNat % 8, 3, 0x90, 0xBF⟩
  else if 0xF1 ≤ b ∧ b ≤ 0xF3 then some ⟨1, b.toNat % 8, 3, 0x80, 0xBF⟩
  else if b = 0xF4 then some ⟨1, b.toNat % 8, 3, 0x80, 0x8F⟩
  else none

/-- Reads a byte with which a character begins. -/
def begin (b : UInt8) : List Part × Option Pending :=
  if b < 0x80 then ([.scalar (Char.ofNat b.toNat)], none)
  else match lead? b with
    | none => ([.invalid 1], none)
    | some p => ([], some p)

/-- Reads one byte: the parts that it completes, and the character it leaves open. -/
def step : Option Pending → UInt8 → List Part × Option Pending
  | none, b => begin b
  | some p, b =>
    if p.low ≤ b ∧ b ≤ p.high then
      let code := p.code * 64 + b.toNat % 64
      if p.more = 1 then ([.scalar (Char.ofNat code)], none)
      else ([], some ⟨p.size + 1, code, p.more - 1, 0x80, 0xBF⟩)
    else ((Part.invalid p.size) :: (begin b).1, (begin b).2)

def scan : Option Pending → Bytes → List Part
  | none, [] => []
  | some p, [] => [.incomplete p.size]
  | pending, b :: rest => (step pending b).1 ++ scan (step pending b).2 rest

def parts (bytes : Bytes) : List Part := scan none bytes

/-! ## Readers -/

/-- The character of a part, if it is one. -/
def Part.scalar? : Part → Option Char
  | .scalar c => some c
  | _ => none

/-- Characters, and `none` for each part that is none. -/
def scalars (bytes : Bytes) : List (Option Char) := (parts bytes).map Part.scalar?

/-- U+FFFD stands for each part that is no character. -/
def decodeLossy (bytes : Bytes) : String :=
  String.ofList ((scalars bytes).map (·.getD '\uFFFD'))

/-- Where a text stops being valid, and how many bytes are at fault. `none` is
for a text that ends inside a character. -/
structure Fault where
  index : Nat
  size : Option Nat
  deriving DecidableEq, Repr

def Fault.message (f : Fault) : String :=
  match f.size with
  | some n => s!"invalid utf-8 sequence of {n} bytes from index {f.index}"
  | none => s!"incomplete utf-8 byte sequence from index {f.index}"

/-- The characters of a text that starts at byte `index`. -/
def characters (index : Nat) : List Part → Except Fault (List Char)
  | [] => .ok []
  | .scalar c :: rest => (characters (index + (String.utf8EncodeChar c).length) rest).map (c :: ·)
  | .invalid n :: _ => .error ⟨index, some n⟩
  | .incomplete _ :: _ => .error ⟨index, none⟩

def decode (bytes : Bytes) : Except Fault String :=
  (characters 0 (parts bytes)).map String.ofList

def decode? (bytes : Bytes) : Option String := (decode bytes).toOption

end Utf8

end JarDerivation
