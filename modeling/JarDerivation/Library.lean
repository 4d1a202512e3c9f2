-- Libraries of the game, by their coordinates `group:name:version[:classifier]`.
import JarDerivation.Error
import JarDerivation.Text.Split

namespace JarDerivation

structure Library where
  group : String
  name : String
  version : String
  classifier : Option String
  deriving DecidableEq, Repr

namespace Library

def parse (coordinate : String) : Except Error Library :=
  match Text.splitEach ':' coordinate with
  | [group, name, version] => .ok ⟨group, name, version, none⟩
  | [group, name, version, classifier] => .ok ⟨group, name, version, some classifier⟩
  | _ => .error (.configuration s!"invalid library coordinate {coordinate}")

/-- The part of the coordinates that filters look at. -/
def moduleName (l : Library) : String := s!"{l.group}:{l.name}"

def describe (l : Library) : String :=
  s!"{l.group}:{l.name}:{l.version}" ++ ((l.classifier.map fun c => ":" ++ c).getD "")

end Library

end JarDerivation
