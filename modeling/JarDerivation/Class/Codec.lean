-- Class nodes as JSON documents, and codecs in general: ways to turn the bytes of
-- a class entry into a node and back.
import JarDerivation.Class.Node
import JarDerivation.Json.Printer
import JarDerivation.Json.Reader
import JarDerivation.Json.Record
import JarDerivation.Trace

namespace JarDerivation

/-! ## Writing -/

/-- A member that is left out when there is no value for it. -/
def Json.memberIf {α : Type} (key : String) (f : α → Json) : Option α → List (String × Json)
  | none => []
  | some a => [(key, f a)]

def Side.toJson : Side → Json
  | .client => .text "client"
  | .server => .text "server"

def MemberNode.toJson (m : MemberNode) : Json :=
  .record <| [("access", .nat m.access.toNat), ("name", .text m.name), ("desc", .text m.desc)] ++
    Json.memberIf "signature" Json.text m.signature ++ Json.memberIf "side" Side.toJson m.side

def InnerClass.toJson (ic : InnerClass) : Json :=
  .record [("name", .text ic.name), ("outer_name", Json.optional Json.text ic.outerName),
    ("inner_name", Json.optional Json.text ic.innerName), ("access", .nat ic.access.toNat)]

def ClassNode.toJson (c : ClassNode) : Json :=
  .record <| [("access", .nat c.access.toNat), ("name", .text c.name),
    ("super_name", Json.optional Json.text c.superName),
    ("interfaces", Json.list Json.text c.interfaces),
    ("fields", Json.list MemberNode.toJson c.fields),
    ("methods", Json.list MemberNode.toJson c.methods),
    ("inner_classes", Json.list InnerClass.toJson c.innerClasses)] ++
    Json.memberIf "outer_class" Json.text c.outerClass ++ Json.memberIf "side" Side.toJson c.side

/-! ## Reading -/

def Side.ofName? (s : String) : Option Side :=
  if s = "client" then some .client else if s = "server" then some .server else none

/-- A side is its name, or an object with a null under its name. -/
def Side.ofJson? : Json → Option Side
  | .string (some s) => Side.ofName? s
  | .object [(some s, .null)] => Side.ofName? s
  | _ => none

def MemberNode.ofJson? (v : Json) : Option MemberNode :=
  match Json.fields? ["access", "name", "desc", "signature", "side"] 3 v with
  | some [access, name, desc, signature, side] => do
    return {
      access := ← Json.withDefault 0 Json.uint16? access
      name := ← Json.required Json.text? name
      desc := ← Json.required Json.text? desc
      signature := ← Json.withDefault none (Json.optional? Json.text?) signature
      side := ← Json.withDefault none (Json.optional? Side.ofJson?) side }
  | _ => none

def InnerClass.ofJson? (v : Json) : Option InnerClass :=
  match Json.fields? ["name", "outer_name", "inner_name", "access"] 1 v with
  | some [name, outerName, innerName, access] => do
    return {
      name := ← Json.required Json.text? name
      outerName := ← Json.withDefault none (Json.optional? Json.text?) outerName
      innerName := ← Json.withDefault none (Json.optional? Json.text?) innerName
      access := ← Json.withDefault 0 Json.uint16? access }
  | _ => none

namespace ClassNode

def ofJson? (v : Json) : Option ClassNode :=
  match Json.fields? ["access", "name", "super_name", "interfaces", "fields", "methods",
      "inner_classes", "outer_class", "side"] 2 v with
  | some [access, name, superName, interfaces, fields, methods, innerClasses, outerClass, side] => do
    return {
      access := ← Json.withDefault 0 Json.uint16? access
      name := ← Json.required Json.text? name
      superName := ← Json.withDefault none (Json.optional? Json.text?) superName
      interfaces := ← Json.withDefault [] (Json.list? Json.text?) interfaces
      fields := ← Json.withDefault [] (Json.list? MemberNode.ofJson?) fields
      methods := ← Json.withDefault [] (Json.list? MemberNode.ofJson?) methods
      innerClasses := ← Json.withDefault [] (Json.list? InnerClass.ofJson?) innerClasses
      outerClass := ← Json.withDefault none (Json.optional? Json.text?) outerClass
      side := ← Json.withDefault none (Json.optional? Side.ofJson?) side }
  | _ => none

def encode (c : ClassNode) : Bytes := c.toJson.toBytes

def decode? (bytes : Bytes) : Option ClassNode := (Json.ofBytes? bytes).bind ofJson?

end ClassNode

/-! ## Codecs -/

structure Codec where
  /-- Gives the reason why there is no class in the bytes. -/
  decode : Bytes → Except String ClassNode
  /-- Gives the reason why a class cannot be written. -/
  encode : ClassNode → Except String Bytes

namespace Codec

/-- Classes as compact JSON documents. -/
def json : Codec where
  decode bytes :=
    match ClassNode.decode? bytes with
    | some c => .ok c
    | none => .error Error.malformedJson
  encode c := .ok c.encode

/-- Decodes the class of a jar entry. -/
def decodeEntry (codec : Codec) (entry : String) (bytes : Bytes) : Traced ClassNode := do
  Traced.note .decoded
  match codec.decode bytes with
  | .ok c => pure c
  | .error reason => Traced.fail (.classFormat entry reason)

/-- Encodes a class; a failure names the class. -/
def encodeClass (codec : Codec) (c : ClassNode) : Except Error Bytes :=
  (codec.encode c).mapError (.classFormat c.name)

end Codec

end JarDerivation
