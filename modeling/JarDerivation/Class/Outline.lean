-- The outline of a compiled class file: its header and the names and descriptors
-- of its members. The constant pool is read as far as these need it; attributes
-- are skipped, and nothing after the last method is looked at.
import JarDerivation.Class.Node
import JarDerivation.Text.Utf8

namespace JarDerivation

namespace Outline

/-! ## What can be wrong -/

inductive Fault where
  | tooSmall
  | wrongMagic
  /-- The bytes end where `what` should be. -/
  | truncated (what : String) (offset : Nat)
  | truncatedAttribute (offset : Nat)
  | unknownTag (tag index : Nat)
  | notUtf8 (index : Nat)
  | notClass (index : Nat)
  deriving DecidableEq, Repr

def Fault.message : Fault → String
  | tooSmall => "File too small to be a valid class file"
  | wrongMagic => "Invalid class file magic number"
  | truncated what offset => s!"Truncated {what} at offset {offset}"
  | truncatedAttribute offset => s!"skipping attribute: Truncated attribute body at offset {offset}"
  | unknownTag tag index => s!"Unknown constant pool tag {tag} at index {index}"
  | notUtf8 index => s!"Constant {index} is not a UTF8 entry"
  | notClass index => s!"Constant {index} is not a class entry"

/-! ## The cursor -/

structure Cursor where
  offset : Nat
  rest : Bytes
  deriving DecidableEq, Repr

abbrev Reader := StateT Cursor (Except Fault)

/-- Reads `n` bytes, or fails with `fault` of the offset. -/
def takeOr (n : Nat) (fault : Nat → Fault) : Reader Bytes := fun c =>
  let taken := c.rest.take n
  if taken.length < n then .error (fault c.offset)
  else .ok (taken, ⟨c.offset + n, c.rest.drop n⟩)

def take (n : Nat) (what : String) : Reader Bytes := takeOr n (.truncated what)

/-- The number whose bytes these are, the highest first. -/
def number (bytes : Bytes) : Nat := bytes.foldl (fun n b => n * 256 + b.toNat) 0

def u8 (what : String) : Reader Nat := number <$> take 1 what

def u16 (what : String) : Reader Nat := number <$> take 2 what

def u32 (what : String) : Reader Nat := number <$> take 4 what

def fail {α : Type} (f : Fault) : Reader α := throw f

/-- Reads the same thing a number of times. -/
def times {α : Type} (read : Reader α) : Nat → Reader (List α)
  | 0 => return []
  | n + 1 => do
    let a ← read
    let rest ← times read n
    return a :: rest

/-! ## The constant pool -/

inductive Constant where
  | utf8 (text : String)
  | class (nameIndex : Nat)
  | other
  deriving DecidableEq, Repr

/-- Reads the constant at an index: what it is, and whether it takes two slots. -/
def constant (index : Nat) : Reader (Constant × Bool) := do
  let tag ← u8 "constant tag"
  match tag with
  | 1 =>
    let n ← u16 "UTF8 entry"
    let bytes ← take n "UTF8 string"
    return (.utf8 (Utf8.decodeLossy bytes), false)
  | 7 => return (.class (← u16 "class entry"), false)
  | 5 | 6 =>
    let _ ← take 8 "wide constant"
    return (.other, true)
  | 3 | 4 | 9 | 10 | 11 | 12 | 17 | 18 =>
    let _ ← take 4 "constant"
    return (.other, false)
  | 15 =>
    let _ ← take 3 "method handle"
    return (.other, false)
  | 8 | 16 | 19 | 20 =>
    let _ ← take 2 "constant"
    return (.other, false)
  | t => fail (.unknownTag t index)

/-- The constants in `slots` slots, from an index on. The second slot of a wide
constant may lie beyond the last one. -/
def constants : Nat → Nat → Reader (List Constant)
  | 0, _ => return []
  | slots + 1, index => do
    let (c, wide) ← constant index
    if wide then
      match slots with
      | 0 => return [c]
      | left + 1 =>
        let rest ← constants left (index + 2)
        return c :: .other :: rest
    else
      let rest ← constants slots (index + 1)
      return c :: rest

abbrev Pool := List Constant

/-- Slot 0 of the pool holds nothing. -/
def pool : Reader Pool := do
  let count ← u16 "constant pool count"
  let cs ← constants (count - 1) 1
  return .other :: cs

def utf8At (p : Pool) (index : Nat) : Reader String :=
  match p[index]? with
  | some (.utf8 s) => return s
  | _ => fail (.notUtf8 index)

def classAt (p : Pool) (index : Nat) : Reader String :=
  match p[index]? with
  | some (.class nameIndex) => utf8At p nameIndex
  | _ => fail (.notClass index)

/-! ## Header and members -/

def skipAttribute : Reader Unit := do
  let _ ← u16 "attribute name"
  let n ← u32 "attribute length"
  let _ ← takeOr n .truncatedAttribute

def skipAttributes : Reader Unit := do
  let count ← u16 "attribute count"
  let _ ← times skipAttribute count

def member (p : Pool) (what : String) : Reader MemberNode := do
  let access ← u16 what
  let name ← utf8At p (← u16 what)
  let desc ← utf8At p (← u16 what)
  skipAttributes
  return ⟨UInt16.ofNat access, name, desc, none, none⟩

def members (p : Pool) (what : String) : Reader (List MemberNode) := do
  let count ← u16 what
  times (member p what) count

/-- An index of 0 stands for no class. -/
def superAt (p : Pool) (index : Nat) : Reader (Option String) :=
  if index = 0 then return none else some <$> classAt p index

def body : Reader ClassNode := do
  let p ← pool
  let access ← u16 "access flags"
  let name ← classAt p (← u16 "this class")
  let superName ← superAt p (← u16 "super class")
  let count ← u16 "interface count"
  let interfaces ← times (do classAt p (← u16 "interface")) count
  let fields ← members p "field"
  let methods ← members p "method"
  return ⟨UInt16.ofNat access, name, superName, interfaces, fields, methods, [], none, none⟩

/-! ## Class files -/

def magic : Bytes := [0xCA, 0xFE, 0xBA, 0xBE]

def isClassFile (bytes : Bytes) : Bool := magic.isPrefixOf bytes

/-- Reads an outline. The four bytes after the magic number are the version. -/
def read (bytes : Bytes) : Except Fault ClassNode :=
  if (bytes.take 10).length < 10 then .error .tooSmall
  else if !isClassFile bytes then .error .wrongMagic
  else (body.run ⟨8, bytes.drop 8⟩).map Prod.fst

end Outline

end JarDerivation
