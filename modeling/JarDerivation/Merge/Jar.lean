-- Merging a client jar and a server jar entry by entry: first the entries of the
-- client, then those that only the server has. What lies in `META-INF` does not
-- hold for the merged jar and is left out.
import JarDerivation.Class.Codec
import JarDerivation.Glob
import JarDerivation.Merge.Class
import JarDerivation.Workspace

namespace JarDerivation

/-- What happens to a class whose versions cannot be merged. -/
inductive FailurePolicy where
  /-- The whole merge fails. -/
  | fatal
  | keepClient
  | skipClass
  /-- Gets both versions, the error and the jar so far, and may write to it. -/
  | custom (handle : ClassNode → ClassNode → Error → Jar → Except Error Jar)

structure MergeStats where
  merged : Nat
  clientOnly : Nat
  serverOnly : Nat
  stripped : Nat
  failed : Nat
  resources : Nat
  deriving DecidableEq, Repr

namespace MergeStats

def zero : MergeStats := ⟨0, 0, 0, 0, 0, 0⟩

def total (s : MergeStats) : Nat :=
  s.merged + s.clientOnly + s.serverOnly + s.stripped + s.failed + s.resources

end MergeStats

structure JarMerger where
  codec : Codec
  merger : ClassMerger
  filter : IncludeFilter
  onFailure : FailurePolicy

/-- The bytes of an entry on the sides that have it. -/
inductive EntrySides where
  | client (bytes : Bytes)
  | server (bytes : Bytes)
  | both (client server : Bytes)
  deriving DecidableEq, Repr

def EntrySides.preferred : EntrySides → Bytes
  | .client c => c
  | .server s => s
  | .both c _ => c

/-- A merge under way. -/
structure MergeState where
  jar : Jar
  stats : MergeStats

namespace MergeState

def start : MergeState := ⟨.empty, .zero⟩

def store (s : MergeState) (entry : String) (bytes : Bytes) : Traced MergeState := do
  return { s with jar := ← Traced.ofExcept (s.jar.store entry bytes) }

def count (s : MergeState) (f : MergeStats → MergeStats) : MergeState :=
  { s with stats := f s.stats }

end MergeState

namespace JarMerger

def isSkipped (entry : String) : Bool := Text.startsWith "META-INF/" entry

/-- What the policy makes of a conflict; `bytes` are the client's. -/
def handleFailure (m : JarMerger) (entry : String) (bytes : Bytes) (client server : ClassNode)
    (e : Error) (s : MergeState) : Traced MergeState :=
  match m.onFailure with
  | .fatal => Traced.fail e
  | .keepClient => s.store entry bytes
  | .skipClass => pure s
  | .custom handle => do
    let jar ← Traced.ofExcept (handle client server e s.jar)
    return { s with jar }

/-- Merges two versions of a class that differ. -/
def mergeVersions (m : JarMerger) (entry : String) (client server : Bytes) (s : MergeState) :
    Traced MergeState := do
  let c ← m.codec.decodeEntry entry client
  let d ← m.codec.decodeEntry entry server
  match m.merger.mergeBoth c d with
  | .failed c d e =>
    m.handleFailure entry client c d e (s.count fun n => { n with failed := n.failed + 1 })
  | .merged node | .clientOnly node | .serverOnly node => do
    let bytes ← Traced.ofExcept (m.codec.encodeClass node)
    (s.count fun n => { n with merged := n.merged + 1 }).store entry bytes

def mergeClass (m : JarMerger) (entry : String) (sides : EntrySides) (s : MergeState) :
    Traced MergeState :=
  match sides with
  | .client bytes => (s.count fun n => { n with clientOnly := n.clientOnly + 1 }).store entry bytes
  | .server bytes => (s.count fun n => { n with serverOnly := n.serverOnly + 1 }).store entry bytes
  | .both client server =>
    if client = server then
      (s.count fun n => { n with merged := n.merged + 1 }).store entry client
    else m.mergeVersions entry client server s

/-- Merges one entry. Of a resource on both sides the client's copy is kept. -/
def mergeEntry (m : JarMerger) (entry : String) (sides : EntrySides) (s : MergeState) :
    Traced MergeState :=
  match ClassNode.nameOfEntry? entry with
  | none => (s.count fun n => { n with resources := n.resources + 1 }).store entry sides.preferred
  | some className =>
    if m.filter.includes className then m.mergeClass entry sides s
    else pure (s.count fun n => { n with stripped := n.stripped + 1 })

/-- Reads an entry of the client, after the server's version of it. -/
def readSides (client server : Jar) (e : Entry) : Except Error EntrySides := do
  match ← server.readOptional e.name with
  | some bytes => return .both (← client.read e) bytes
  | none => return .client (← client.read e)

/-- The entries that a merge looks at. -/
def mergeable (j : Jar) : List Entry :=
  j.entries.filter fun e => !Text.endsWith "/" e.name && !isSkipped e.name

def mergeClientEntry (m : JarMerger) (client server : Jar) (s : MergeState) (e : Entry) :
    Traced MergeState := do
  m.mergeEntry e.name (← Traced.ofExcept (readSides client server e)) s

/-- Merges the entries of the server that the client does not have. What a
failure policy has written in the meantime stays. -/
def mergeServerEntry (m : JarMerger) (client server : Jar) (s : MergeState) (e : Entry) :
    Traced MergeState := do
  if s.jar.contains e.name || client.contains e.name then return s
  else m.mergeEntry e.name (.server (← Traced.ofExcept (server.read e))) s

def merge (m : JarMerger) (client server : Jar) : Traced MergeState := do
  let s ← (mergeable client).foldlM (m.mergeClientEntry client server) .start
  (mergeable server).foldlM (m.mergeServerEntry client server) s

/-- Merges two jars on disk. -/
def mergeFiles (m : JarMerger) (client server output : String) : Work MergeStats := do
  let c ← Work.openJar client
  let s ← Work.openJar server
  Work.writeJarWith output ((fun r => (r.jar, r.stats)) <$> m.merge c s)

end JarMerger

end JarDerivation
