-- What can go wrong while jars are derived. Every failure is a cause with the
-- facts that belong to it, and `Error.message` gives its wording.

namespace JarDerivation

/-- Why a file could not be read or written. -/
inductive IoFault where
  | notFound
  | notDirectory
  | isDirectory
  | alreadyExists
  | nameTooLong
  | nulInPath
  | invalidText
  /-- The bytes of an archive entry are not what was written. -/
  | damagedEntry
  /-- An archive entry has more bytes than its header can count. -/
  | oversizedEntry
  deriving DecidableEq, Repr

def IoFault.message : IoFault → String
  | .notFound => "No such file or directory (os error 2)"
  | .notDirectory => "Not a directory (os error 20)"
  | .isDirectory => "Is a directory (os error 21)"
  | .alreadyExists => "File exists (os error 17)"
  | .nameTooLong => "File name too long (os error 36)"
  | .nulInPath => "file name contained an unexpected NUL byte"
  | .invalidText => "stream did not contain valid UTF-8"
  | .damagedEntry => "Invalid checksum"
  | .oversizedEntry => "Large file option has not been set"

inductive Error where
  | io (fault : IoFault)
  | archive (path reason : String)
  /-- A mapping tree that could not be read back. -/
  | serialization
  | noRemapPath (source target : String)
  | unknownNamespace (name context : String)
  /-- The name is taken, with the other flag. -/
  | duplicateNamespace (name : String) (named : Bool)
  | incompatibleMergeInputs (client clientFallback server serverFallback : String)
  | mergeConflict (className reason : String)
  | mergeUnsupported (reason : String)
  | remapFailed (source target reason : String)
  | patchFailed (patch reason : String)
  | classFormat (className reason : String)
  | accessWidener (reason : String)
  | configuration (reason : String)
  | alreadyFinalized (what : String)
  | notFinalized (what : String)
  deriving DecidableEq, Repr

namespace Error

/-- Stands in a message for what is wrong inside a JSON document. -/
def malformedJson : String := "<json>"

def message : Error → String
  | io fault => s!"I/O error: {fault.message}"
  | archive path reason => s!"Archive error in {path}: {reason}"
  | serialization => s!"Serialization error: {malformedJson}"
  | noRemapPath source target => s!"No remap path from {source} to {target}"
  | unknownNamespace name context => s!"Unknown namespace {name} ({context})"
  | duplicateNamespace name named => s!"Namespace {name} already registered with named={named}"
  | incompatibleMergeInputs client clientFallback server serverFallback =>
    "Client and server jars must share a mapping namespace: " ++
      s!"client {client}/{clientFallback}, server {server}/{serverFallback}"
  | mergeConflict className reason => s!"Error merging class {className}: {reason}"
  | mergeUnsupported reason => s!"Merging is not supported: {reason}"
  | remapFailed source target reason => s!"Remap from {source} to {target} failed: {reason}"
  | patchFailed patch reason => s!"Patch {patch} failed: {reason}"
  | classFormat className reason => s!"Invalid class file {className}: {reason}"
  | accessWidener reason => s!"Access widener error: {reason}"
  | configuration reason => s!"Configuration error: {reason}"
  | alreadyFinalized what => s!"Cannot modify {what} after it was finalized"
  | notFinalized what => s!"{what} used before it was finalized"

/-- Errors of the build script, raised before any jar is touched. -/
def isConfiguration : Error → Bool
  | noRemapPath .. | unknownNamespace .. | duplicateNamespace .. | configuration _
  | alreadyFinalized _ | notFinalized _ => true
  | _ => false

/-- Only a conflict between the two sides of one class can be recovered from. -/
def isRecoverable : Error → Bool
  | mergeConflict .. => true
  | _ => false

end Error

end JarDerivation
