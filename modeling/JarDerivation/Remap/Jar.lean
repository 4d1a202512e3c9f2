-- Remapping a jar through a view. An engine rewrites the classes all at once;
-- the other entries are rewritten by the resource remappers. The classes come
-- first in the new jar.
import JarDerivation.Class.Codec
import JarDerivation.Remap.Node
import JarDerivation.Remap.Resource
import JarDerivation.Stage

namespace JarDerivation

/-- A class entry, by the name of its class. -/
structure ClassFile where
  name : String
  bytes : Bytes
  deriving DecidableEq, Repr

namespace ClassFile

def ofEntry? (e : Entry) : Option ClassFile :=
  (ClassNode.nameOfEntry? e.name).map fun name => ⟨name, e.bytes⟩

def toEntry (c : ClassFile) : Entry := ⟨ClassNode.entryName c.name, c.bytes⟩

/-- Decodes a class, renames it and encodes it again. -/
def remap (codec : Codec) (v : MappingView) (c : ClassFile) : Except String ClassFile :=
  match codec.decode c.bytes with
  | .error reason => .error s!"Failed to decode {c.name}: {reason}"
  | .ok node =>
    let node := v.remapNode node
    match codec.encode node with
    | .error reason => .error s!"Failed to encode {node.name}: {reason}"
    | .ok bytes => .ok ⟨node.name, bytes⟩

end ClassFile

/-- What an engine is called with. -/
structure EngineCall where
  view : MappingView
  classes : List ClassFile
  classpath : List String

inductive RemapEngine where
  /-- Renames the declarations of each class. -/
  | structural
  /-- An engine that the project brings along. It is told how many calls came before. -/
  | custom (run : Nat → EngineCall → Except String (List ClassFile))

namespace RemapEngine

/-- Renames class after class, up to the first that cannot be decoded or encoded. -/
def remapClasses (codec : Codec) (v : MappingView) :
    List ClassFile → Traced (Except String (List ClassFile))
  | [] => pure (.ok [])
  | c :: rest => do
    Traced.note .decoded
    match c.remap codec v with
    | .error reason => pure (.error reason)
    | .ok c =>
      match ← remapClasses codec v rest with
      | .error reason => pure (.error reason)
      | .ok cs => pure (.ok (c :: cs))

def eventOf (call : EngineCall) : Event :=
  .remapped call.view.sourceName call.view.targetName call.classpath (call.classes.map (·.name))

/-- Runs an engine after `earlier` other calls. -/
def run (engine : RemapEngine) (codec : Codec) (earlier : Nat) (call : EngineCall) :
    Traced (Except String (List ClassFile)) :=
  match engine with
  | .structural => remapClasses codec call.view call.classes
  | .custom f => do
    Traced.note (eventOf call)
    pure (f earlier call)

end RemapEngine

/-- How jars are remapped: the engine and the remappers for other entries. -/
structure Remapper where
  codec : Codec
  engine : RemapEngine
  resources : List ResourceRemapper

namespace Remapper

/-- Writes the entries of the remapped jar that are no classes. -/
def storeResources (m : Remapper) (v : MappingView) (es : List Entry) (out : Jar) :
    Except Error Jar :=
  es.foldlM (fun out e => do
    out.store e.name (← ResourceRemapper.applyFirst m.resources v e)) out

/-- The classes of the remapped jar; there are as many as before. -/
def remapClasses (m : Remapper) (earlier : Nat) (call : EngineCall) : Traced (List ClassFile) := do
  let failed (reason : String) := Error.remapFailed call.view.sourceName call.view.targetName reason
  match ← m.engine.run m.codec earlier call with
  | .error reason => Traced.fail (failed reason)
  | .ok classes =>
    if classes.length = call.classes.length then pure classes
    else Traced.fail (failed s!"engine returned {classes.length} of {call.classes.length} classes")

/-- The entries of a jar that are no classes. -/
def resourcesOf (j : Jar) : List Entry :=
  j.files.filter fun e => (ClassNode.nameOfEntry? e.name).isNone

def classesOf (j : Jar) : List ClassFile := j.files.filterMap ClassFile.ofEntry?

/-- Reads all files of a jar. -/
def readAll (j : Jar) : Except Error Unit := j.files.forM fun e => do let _ ← j.read e

/-- The remapped jar: its classes, then the other entries. -/
def assemble (m : Remapper) (v : MappingView) (j : Jar) (classes : List ClassFile) :
    Except Error Jar := do
  m.storeResources v (resourcesOf j) (← Jar.empty.storeAll (classes.map ClassFile.toEntry))

/-- How often an engine of the project has been called. -/
def earlierCalls (trace : List Event) : Nat :=
  (trace.filter fun e => match e with
    | .remapped .. => true
    | _ => false).length

/-- Remaps a jar on disk. The jars of `classpath` are those that it links against. -/
def remapFile (m : Remapper) (v : MappingView) (input output : String) (classpath : List String) :
    Work Unit := do
  let j ← Work.openJar input
  Work.ofExcept (readAll j)
  let earlier := earlierCalls (← get).trace
  let classes ← Work.ofTraced (m.remapClasses earlier ⟨v, classesOf j, classpath⟩)
  Work.writeJar output (Traced.ofExcept (m.assemble v j classes))

/-! ## Along a chain of namespaces

Each hop is a stage of its own, so the hops that are done are kept. On the way the fallback is the
namespace that a hop comes from; the last hop ends in the fallback asked for. -/

/-- One hop into the namespace `next`. -/
def hop (m : Remapper) (ctx : StageContext) (t : MappingTree) (next fallback : Namespace)
    (current : Artifact) : Work Artifact := do
  let target := current.deriveInto next.name next fallback
  let v ← Work.ofExcept (t.view current.namespaceOf.name current.fallback.name next.name)
  ctx.produce target (m.remapFile v current.path target.path [])

def remapAlong (m : Remapper) (ctx : StageContext) (t : MappingTree) (targetFallback : Namespace) :
    List Namespace → Artifact → Work Artifact
  | [], current => return current
  | [last], current => m.hop ctx t last targetFallback current
  | next :: rest, current => do
    let a ← m.hop ctx t next current.namespaceOf current
    m.remapAlong ctx t targetFallback rest a

end Remapper

end JarDerivation
