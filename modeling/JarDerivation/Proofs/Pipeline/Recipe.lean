-- What a request makes if nothing is kept. The recipe of a request goes through the
-- same stages as the pipeline, but it hands the jars on instead of writing them, and
-- reads its inputs from files that stay the same. It needs no cache and knows none.
import JarDerivation.Pipeline
import JarDerivation.Proofs.Files.Clearing

namespace JarDerivation

/-- A jar as it is made: what was done to it, the names of its namespaces, and the jar itself
unless the making failed. -/
structure Draft where
  env : Environment
  tags : List String
  namespaceName : String
  fallbackName : String
  jar : Option Jar

namespace Draft

/-- The draft that a stage makes of another one, in other namespaces. -/
def deriveInto (m : Draft) (tag ns fallback : String) (jar : Option Jar) : Draft :=
  ⟨m.env, m.tags ++ [tag], ns, fallback, jar⟩

def derive (m : Draft) (tag : String) (jar : Option Jar) : Draft :=
  m.deriveInto tag m.namespaceName m.fallbackName jar

end Draft

/-- A computation with drafts: what it gives unless it fails, and the outputs of its stages in
order. If a stage fails, its output is the last one and has no jar. -/
structure Recipe (α : Type) where
  outcome : Option α
  stages : List Draft

namespace Recipe

variable {α β : Type}

def ofOption (o : Option α) : Recipe α := ⟨o, []⟩

instance : Monad Recipe where
  pure a := ⟨some a, []⟩
  bind x k :=
    match x.outcome with
    | some a => ⟨(k a).outcome, x.stages ++ (k a).stages⟩
    | none => ⟨none, x.stages⟩

@[simp] theorem outcome_pure (a : α) : (pure a : Recipe α).outcome = some a := rfl

@[simp] theorem outcome_ofOption (o : Option α) : (ofOption o).outcome = o := rfl

theorem bind_of_none {x : Recipe α} (h : x.outcome = none) (k : α → Recipe β) :
    x >>= k = ⟨none, x.stages⟩ := by
  cases x
  cases h
  rfl

theorem bind_of_some {x : Recipe α} {a : α} (h : x.outcome = some a) (k : α → Recipe β) :
    x >>= k = ⟨(k a).outcome, x.stages ++ (k a).stages⟩ := by
  cases x
  cases h
  rfl

@[simp] theorem outcome_bind (x : Recipe α) (k : α → Recipe β) :
    (x >>= k).outcome = x.outcome.bind fun a => (k a).outcome := by
  cases h : x.outcome with
  | none => rw [bind_of_none h, Option.bind_none]
  | some a => rw [bind_of_some h, Option.bind_some]

theorem mem_stages_bind {x : Recipe α} {k : α → Recipe β} {s : Draft} :
    s ∈ (x >>= k).stages ↔
      s ∈ x.stages ∨ ∃ a, x.outcome = some a ∧ s ∈ (k a).stages := by
  cases h : x.outcome with
  | none => simp [bind_of_none h]
  | some a => simp [bind_of_some h]

end Recipe

/-- The contract of an engine: the same call has the same answer, however many came before. -/
def RemapEngine.Deterministic : RemapEngine → Prop
  | structural => True
  | custom run => ∀ earlier call, run earlier call = run 0 call

/-- The jar that a view remaps another one to. -/
def Remapper.remapped (m : Remapper) (v : MappingView) (j : Jar) : Option Jar := do
  (readAll j).toOption
  let classes ← (m.remapClasses 0 ⟨v, classesOf j, []⟩).outcome.toOption
  (m.assemble v j classes).toOption

/-- The access widener at a path, if it can be read. -/
def Files.widener? (f : Files) (path : String) : Option Widener := do
  (Widener.ofText (← (f.readText path).toOption)).toOption

namespace Pipeline

variable (p : Pipeline) (f : Files)

/-- The path of an artifact of the pipeline. -/
abbrev artifactPath (e : Environment) (tags : List String) : String :=
  Cache.artifactPath p.ctx.config.cacheRoot p.version e tags

/-- A stage that makes this draft, if it can be written. -/
def stage (target : Draft) : Recipe Draft :=
  let made : Draft :=
    { target with jar := target.jar.filter fun _ => f.canWrite (p.artifactPath target.env target.tags) }
  ⟨made.jar.map fun _ => made, [made]⟩

theorem stage_cases (m : Draft) :
    (∃ j, m.jar = some j ∧ f.canWrite (p.artifactPath m.env m.tags) = true ∧
      p.stage f m = ⟨some m, [m]⟩) ∨
    ((m.jar = none ∨ f.canWrite (p.artifactPath m.env m.tags) = false) ∧
      p.stage f m = ⟨none, [{ m with jar := none }]⟩) := by
  have hsame : ∀ o, m.jar = o → { m with jar := o } = m := fun _ h => h ▸ rfl
  unfold stage
  cases hcan : f.canWrite (p.artifactPath m.env m.tags) with
  | false => simp
  | true =>
    cases hj : m.jar with
    | none => simp
    | some j =>
      simp [Option.filter, hsame _ hj]

/-! ## The stages before the remap -/

def rawDraft (env : Environment) : Option Draft := do
  let raw ← p.rawJars.lookup env.rawSource
  let ns ← (p.ctx.registry.lookup raw.namespaceName).toOption
  if f.isFile raw.path then some ⟨env, [], ns.name, ns.name, f.jar? raw.path⟩ else none

/-- Whether two drafts can be merged. -/
def combines (client server : Draft) : Bool :=
  p.patcher.base.canCombine && client.namespaceName == server.namespaceName &&
    (p.ctx.config.ignoreMergeFallback || client.fallbackName == server.fallbackName)

def mergedDraft (client server : Draft) : Recipe Draft :=
  if p.combines client server then do
    let merger ← Recipe.ofOption (p.patcher.base.jarMerger p.ctx).toOption
    p.stage f ⟨.combined, s!"{p.patcher.name}-merged" :: (client.tags ++ server.tags),
      client.namespaceName, client.fallbackName,
      client.jar.bind fun c => server.jar.bind fun s =>
        (merger.merge c s).outcome.toOption.map (·.jar)⟩
  else .ofOption none

def inputDraft : Environment → Recipe Draft
  | .combined => do
    let client ← Recipe.ofOption (p.rawDraft f .client)
    let server ← Recipe.ofOption (p.rawDraft f .server)
    p.mergedDraft f client server
  | env => .ofOption (p.rawDraft f env)

def fixedDraft (input : Draft) : Recipe Draft :=
  p.stage f <| input.derive "fixed" <| input.jar.bind fun j =>
    (Jar.editEntries (fun entry bytes => JarFix.applyAll entry p.patcher.base.fixes bytes)
      j).outcome.toOption

/-- The entries of the mods, laid over each other. -/
def overlay (mods : List String) : Option (Text.Ascending Bytes) :=
  mods.foldlM (fun overlay path => do (JarMod.overlayJar overlay (← f.jar? path)).toOption) []

/-- The jar with the patches of an archive applied. -/
def binaryPatched (b : BinaryPatches) (game : Option Jar) : Option Jar :=
  game.bind fun j => (f.jar? b.archive).bind fun archive =>
    (BinaryPatches.readPatches archive).toOption.bind fun patches =>
      (b.apply patches j).outcome.toOption

def patchedDraft (input : Draft) : Patcher → Recipe Draft
  | .plain _ => pure input
  | .jarMod _ mods =>
    if mods.isEmpty then pure input
    else p.stage f <| input.derive "jarmod" <| (overlay f mods).bind fun overlay =>
      input.jar.bind fun j => (JarMod.apply overlay j).outcome.toOption
  | .binary b =>
    match b.outputNamespace with
    | none => p.stage f (input.derive b.name (binaryPatched f b input.jar))
    | some name => do
      let ns ← Recipe.ofOption (p.ctx.registry.lookup name).toOption
      p.stage f (input.deriveInto b.name ns.name input.namespaceName (binaryPatched f b input.jar))
  | .widened inner _ => patchedDraft input inner

/-- What is remapped for all requests of an environment. -/
def baseDraft (env : Environment) : Recipe Draft := do
  let input ← p.inputDraft f env
  let fixed ← p.fixedDraft f input
  p.patchedDraft f fixed p.patcher

/-! ## The remap -/

/-- The namespaces that a draft is remapped into, one after the other. -/
def route (m : Draft) (ns fallback : String) : Option (List String) :=
  (p.ctx.registry.ask
    (Registry.resolvePath m.namespaceName m.fallbackName ns fallback)).toOption.map
      (·.map Namespace.name)

def hopDraft (current : Draft) (next : String) : Recipe Draft := do
  let v ← Recipe.ofOption (p.tree.view current.namespaceName current.fallbackName next).toOption
  p.stage f (current.deriveInto next next current.namespaceName
    (current.jar.bind (p.remapper.remapped v)))

def hopDrafts (names : List String) (current : Draft) : Recipe Draft :=
  names.foldlM (p.hopDraft f) current

/-! ## The stages after the remap -/

def widenedDraft (widener : String) (input : Draft) : Recipe Draft := do
  let w ← Recipe.ofOption (f.widener? widener)
  if w.namespaceName ≠ input.namespaceName then .ofOption none
  else p.stage f <| input.derive w.tag <| input.jar.bind fun j =>
    (Jar.editEntries (w.widenEntry p.ctx.codec) j).outcome.toOption

def finishedDraft (input : Draft) : Patcher → Recipe Draft
  | .plain _ | .jarMod .. => pure input
  | .binary b =>
    if input.tags.contains b.fixedTag || input.namespaceName == b.base.prodNamespace then pure input
    else p.stage f <| input.derive b.fixedTag <| input.jar.bind fun j =>
      (BinaryPatches.withoutLeftovers j).outcome.toOption
  | .widened inner widener => finishedDraft input inner >>= p.widenedDraft f widener

/-- The tags that the stages after the remap append. -/
def finishingTags (f : Files) : Patcher → List String
  | .plain _ | .jarMod .. => []
  | .binary b => [b.fixedTag]
  | .widened inner widener => finishingTags f inner ++ ((f.widener? widener).map Widener.tag).toList

/-! ## The whole of it -/

/-- What a request makes. -/
def recipe (env : Environment) (ns fallback : String) : Recipe Draft := do
  let m ← p.baseDraft f env
  let names ← Recipe.ofOption (p.route m ns fallback)
  let remapped ← p.hopDrafts f names m
  p.finishedDraft f remapped p.patcher

/-- The namespaces that a request is remapped into. -/
def hops (env : Environment) (ns fallback : String) : List String :=
  ((p.baseDraft f env).outcome.bind fun m => p.route m ns fallback).getD []

end Pipeline

end JarDerivation
