-- Reading values of known shape out of JSON. A record is an object with known
-- keys, or a list of its values in the order of the keys.
import JarDerivation.Json.Basic

namespace JarDerivation

namespace Json

def text? : Json → Option String
  | .string t => t
  | _ => none

/-- A whole number below 2^16, written without sign, fraction or exponent. -/
def uint16? : Json → Option UInt16
  | .number w =>
    if w.toList.all (fun c => '0' ≤ c && c ≤ '9') then
      let n := w.toList.foldl (fun n c => n * 10 + (c.toNat - '0'.toNat)) 0
      if n < 65536 then some (UInt16.ofNat n) else none
    else none
  | _ => none

def list? {α : Type} (f : Json → Option α) : Json → Option (List α)
  | .array items => items.mapM f
  | _ => none

/-- A null is no value; anything else has to be one. -/
def optional? {α : Type} (f : Json → Option α) : Json → Option (Option α)
  | .null => some none
  | v => (f v).map some

/-! ## Records -/

/-- The value of a key, if it is there; a key that is there twice is refused. -/
def member? (members : List (Option String × Json)) (key : String) : Option (Option Json) :=
  match members.filter (·.1 == some key) with
  | [] => some none
  | [m] => some (some m.2)
  | _ => none

/-- The values of a record with these keys, in their order. Keys of an object
that are not listed are skipped. A list may leave out values at its end, but not
one of the first `least`. -/
def fields? (keys : List String) (least : Nat) : Json → Option (List (Option Json))
  | .object members =>
    if members.all (·.1.isSome) then keys.mapM (member? members) else none
  | .array items =>
    if least ≤ items.length ∧ items.length ≤ keys.length then
      some (items.map some ++ List.replicate (keys.length - items.length) none)
    else none
  | _ => none

/-- A value that has to be there. -/
def required {α : Type} (f : Json → Option α) (v : Option Json) : Option α := v.bind f

/-- A value with a default for when it is left out. -/
def withDefault {α : Type} (d : α) (f : Json → Option α) : Option Json → Option α
  | none => some d
  | some v => f v

end Json

end JarDerivation
