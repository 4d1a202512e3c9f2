-- Jar mods: archives whose entries take the place of the game's own. A later mod
-- overrides an earlier one.
import JarDerivation.Patcher.Base

namespace JarDerivation

namespace JarMod

/-- Whether an entry of a mod goes into the game jar. -/
def isOverlaid (name : String) : Bool := !Signature.isSignature name && name != Manifest.entryName

/-- Lays the entries of a mod over those of the mods before it. -/
def overlayJar (overlay : Text.Ascending Bytes) (j : Jar) : Except Error (Text.Ascending Bytes) :=
  j.files.foldlM (fun m e => do
    let bytes ← j.read e
    return if isOverlaid e.name then m.insert e.name bytes else m) overlay

/-- The game jar with entries replaced, and after them the new ones in ascending order. -/
def apply (overlay : Text.Ascending Bytes) (game : Jar) : Traced Jar := do
  let out ← game.editEntries fun entry bytes => pure (some ((overlay.find? entry).getD bytes))
  let added := overlay.filter fun e => !game.contains e.1
  Traced.ofExcept (out.storeAll (added.map fun e => ⟨e.1, e.2⟩))

/-- Opens the mods in order and lays them over each other. -/
def collect (mods : List String) : Work (Text.Ascending Bytes) :=
  mods.foldlM (fun overlay path => do
    Work.ofExcept (overlayJar overlay (← Work.openJar path))) []

def transform (ctx : StageContext) (mods : List String) (input : Artifact) : Work Artifact :=
  if mods.isEmpty then return input
  else
    let target := input.derive "jarmod"
    ctx.produce target do
      let overlay ← collect mods
      Work.rewriteJar input.path target.path (apply overlay)

end JarMod

end JarDerivation
