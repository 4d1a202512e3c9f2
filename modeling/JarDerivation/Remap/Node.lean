-- Renaming a class node through a view: its own name and every name in it.
import JarDerivation.Class.Node
import JarDerivation.Mapping.View

namespace JarDerivation

namespace MappingView

/-- Renames a member of a class; `name?` is its new name, if it has one. -/
def remapMember (v : MappingView) (m : MemberNode) (name? : Option String) : MemberNode :=
  { m with name := name?.getD m.name, desc := v.mapDescriptor m.desc }

def remapField (v : MappingView) (owner : String) (m : MemberNode) : MemberNode :=
  v.remapMember m (v.mapField owner m.name (some m.desc))

/-- A method whose name begins with `<` keeps it. -/
def remapMethod (v : MappingView) (owner : String) (m : MemberNode) : MemberNode :=
  v.remapMember m
    (if Text.startsWith "<" m.name then none else v.mapMethod owner m.name (some m.desc))

/-- The simple name of a nested class follows its new name. -/
def remapInner (v : MappingView) (ic : InnerClass) : InnerClass :=
  let name := v.mapClassOrKeep ic.name
  { name
    outerName := ic.outerName.map v.mapClassOrKeep
    innerName := ic.innerName.map fun simple => ((Text.splitLast? '$' name).map (·.2)).getD simple
    access := ic.access }

def remapNode (v : MappingView) (c : ClassNode) : ClassNode :=
  { access := c.access
    name := v.mapClassOrKeep c.name
    superName := c.superName.map v.mapClassOrKeep
    interfaces := c.interfaces.map v.mapClassOrKeep
    fields := c.fields.map (v.remapField c.name)
    methods := c.methods.map (v.remapMethod c.name)
    innerClasses := c.innerClasses.map v.remapInner
    outerClass := c.outerClass.map v.mapClassOrKeep
    side := c.side }

end MappingView

end JarDerivation
