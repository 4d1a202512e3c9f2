-- Applying an access widener to a class, and rewriting it for another namespace.
import JarDerivation.Mapping.View
import JarDerivation.Sha256
import JarDerivation.Text.Ascending
import JarDerivation.Widener.Text

namespace JarDerivation

/-! ## Flags -/

namespace Access

/-- Everyone may see it, and if it is to be extended it is not final. -/
def widenClass (kind : AccessKind) (flags : Access) : Access :=
  let wide := makePublic flags
  if kind = .extendable then clear wide final else wide

/-- A private method that was not virtual stays so by becoming final. To be
extended, a method that is not public becomes protected. -/
def widenMethod (kind : AccessKind) (isConstructor : Bool) (flags : Access) : Access :=
  match kind with
  | .accessible =>
    if has flags «private» && !has flags static && !isConstructor then makePublic flags ||| final
    else makePublic flags
  | .extendable =>
    let wide := if has flags «public» then flags else clear flags visibility ||| «protected»
    clear wide final
  | .mutable => flags

def widenField (kind : AccessKind) (flags : Access) : Access :=
  match kind with
  | .accessible => makePublic flags
  | .mutable => clear flags final
  | .extendable => flags

end Access

/-! ## Classes -/

/-- Changes the first item of a kind. -/
def modifyFirst {α : Type} (p : α → Bool) (f : α → α) : List α → List α
  | [] => []
  | a :: rest => if p a then f a :: rest else a :: modifyFirst p f rest

namespace Widener

def widenMember (f : Access → Access) (m : MemberNode) : MemberNode := { m with access := f m.access }

/-- Applies an entry to the class that it names. -/
def applyEntry (c : ClassNode) (e : WidenEntry) : ClassNode :=
  match e.target with
  | .class _ =>
    { c with
      access := Access.widenClass e.access c.access
      innerClasses := modifyFirst (·.name == c.name)
        (fun ic => { ic with access := Access.widenClass e.access ic.access }) c.innerClasses }
  | .method _ name desc =>
    { c with
      methods := modifyFirst (·.key == (name, desc))
        (widenMember (Access.widenMethod e.access (name == "<init>"))) c.methods }
  | .field _ name desc =>
    { c with
      fields := modifyFirst (·.key == (name, desc))
        (widenMember (Access.widenField e.access)) c.fields }

/-- The entries that name a class or its members. -/
def entriesFor (w : Widener) (className : String) : List WidenEntry :=
  w.entries.filter (·.target.owner == className)

/-- Widens a class. -/
def widen (w : Widener) (c : ClassNode) : ClassNode := (w.entriesFor c.name).foldl applyEntry c

/-- Whether widening changes a class. -/
def changes (w : Widener) (c : ClassNode) : Bool := w.widen c != c

/-- The classes with an entry, in ascending order. -/
def targets (w : Widener) : List String := Text.ascending (w.entries.map (·.target.owner))

/-! ## Other namespaces -/

def remapTarget (v : MappingView) : WidenTarget → WidenTarget
  | .class name => .class (v.mapClassOrKeep name)
  | .method owner name desc =>
    .method (v.mapClassOrKeep owner) ((v.mapMethod owner name (some desc)).getD name)
      (v.mapDescriptor desc)
  | .field owner name desc =>
    .field (v.mapClassOrKeep owner) ((v.mapField owner name (some desc)).getD name)
      (v.mapDescriptor desc)

/-- The widener in the namespace that a view leads to. -/
def remap (w : Widener) (v : MappingView) : Widener :=
  ⟨w.version, v.targetName, w.entries.map fun e => { e with target := remapTarget v e.target }⟩

/-! ## The tag -/

/-- The tag of the stage that applies the widener: eight digits of the hash of its text. -/
def tag (w : Widener) : String :=
  "aw+" ++ String.ofList ((Sha256.hex (Sha256.digest (Utf8.encode w.toText))).toList.take 8)

end Widener

end JarDerivation
