-- What is provided: an artifact in the namespace that was asked for, whose tags tell each step of
-- its making in order. Its file is there, and no later request takes it away: a stage that would
-- use an output as it is keeps it, and the other stages write elsewhere.
import JarDerivation.Proofs.Pipeline.Route
import JarDerivation.Proofs.Pipeline.Transparency
import JarDerivation.Proofs.Registry.PathEnd
import JarDerivation.Proofs.Stage.Call

namespace JarDerivation

/-! ## The tags of a patcher -/

namespace Patcher

/-- The tag of a jar that is merged for a loader. -/
def mergedTags (q : Patcher) (env : Environment) : List String :=
  if env = .combined then [s!"{q.name}-merged"] else []

/-- The tag of what a loader patches, if it patches anything. -/
def patchTags : Patcher → List String
  | plain _ => []
  | jarMod _ mods => if mods.isEmpty then [] else ["jarmod"]
  | binary b => [b.name]
  | widened inner _ => patchTags inner

/-- Tags that may come after the remap. -/
def Finishes : Patcher → List String → Prop
  | plain _, tags | jarMod .., tags => tags = []
  | binary b, tags => tags = [] ∨ tags = [b.fixedTag]
  | widened inner _, tags =>
    ∃ before, inner.Finishes before ∧ ∃ w : Widener, tags = before ++ [w.tag]

end Patcher

namespace Pipeline

variable {α β : Type} {p : Pipeline} {u v w : Workspace} {env : Environment}
  {start : Namespace × Namespace} {tags : List String} {a : Artifact}

/-! ## What stays -/

/-- The outputs that would be used as they are before some work would still be so after it, and
nothing else has been provided. -/
structure Retains (p : Pipeline) (w v : Workspace) : Prop where
  trusted : ∀ e tags, p.Trusted w (p.artifactPath e tags) → p.Trusted v (p.artifactPath e tags)
  provided : v.provided = w.provided

theorem Retains.refl (p : Pipeline) (w : Workspace) : p.Retains w w := ⟨fun _ _ h => h, rfl⟩

theorem Retains.trans (h : p.Retains u v) (h' : p.Retains v w) : p.Retains u w :=
  ⟨fun e tags ht => h'.trusted e tags (h.trusted e tags ht), h'.provided.trans h.provided⟩

/-- Work that retains the outputs, and satisfies `post` if it ends well. -/
structure Yields (p : Pipeline) (w : Workspace) (x : Work α) (post : Workspace → α → Prop) :
    Prop where
  retains : p.Retains w (x.exec w).2
  gives : ∀ a, (x.exec w).1 = .ok a → post (x.exec w).2 a

theorem yields_ofExcept {r : Except Error α} {post : Workspace → α → Prop}
    (h : ∀ a, r = .ok a → post w a) : p.Yields w (Work.ofExcept r) post := by
  constructor
  · rw [Work.exec_ofExcept]
    exact .refl p w
  · intro a ha
    rw [Work.exec_ofExcept] at ha ⊢
    exact h a ha

theorem yields_pure {a : α} {post : Workspace → α → Prop} (h : post w a) :
    p.Yields w (pure a) post := ⟨.refl p w, fun _ hb => Except.ok.inj hb ▸ h⟩

theorem yields_throw {post : Workspace → α → Prop} (e : Error) :
    p.Yields w (throw e : Work α) post := ⟨.refl p w, nofun⟩

theorem yields_reading {x : Work α} (h : x.OnlyReads) : p.Yields w x fun _ _ => True := by
  obtain ⟨trace, hv⟩ := h w
  refine ⟨?_, fun _ _ => trivial⟩
  rw [hv]
  exact ⟨fun _ _ ht => ht, rfl⟩

theorem Yields.bind {x : Work α} {k : α → Work β} {post : Workspace → α → Prop}
    {post' : Workspace → β → Prop} (hx : p.Yields w x post)
    (hk : ∀ v a, post v a → p.Yields v (k a) post') : p.Yields w (x >>= k) post' := by
  obtain ⟨hretains, hgives⟩ := hx
  constructor
  · rw [Work.exec_bind]
    cases hrun : x.exec w with
    | mk r v =>
      rw [hrun] at hretains hgives
      cases r with
      | error e => exact hretains
      | ok a => exact hretains.trans (hk v a (hgives a rfl)).retains
  · intro b hb
    rw [Work.exec_bind] at hb ⊢
    cases hrun : x.exec w with
    | mk r v =>
      rw [hrun] at hgives hb
      cases r with
      | error e => cases hb
      | ok a => exact (hk v a (hgives a rfl)).gives b hb

theorem Yields.mono {x : Work α} {post post' : Workspace → α → Prop} (h : p.Yields w x post)
    (hpost : ∀ v a, post v a → post' v a) : p.Yields w x post' :=
  ⟨h.retains, fun a ha => hpost _ a (h.gives a ha)⟩

/-! ## Stages -/

/-- The artifact of the pipeline with some tags, in a namespace and with a fallback. -/
def artifact (p : Pipeline) (env : Environment) (start : Namespace × Namespace)
    (tags : List String) : Artifact :=
  .cached p.ctx.config.cacheRoot p.version env start.1 start.2 tags

theorem path_artifact (p : Pipeline) (env : Environment) (start : Namespace × Namespace)
    (tags : List String) : (p.artifact env start tags).path = p.artifactPath env tags := by
  unfold artifact artifactPath
  simp only [Artifact.cached]

/-- An artifact whose output would be used as it is. -/
structure InPlace (p : Pipeline) (env : Environment) (start : Namespace × Namespace)
    (tags : List String) (w : Workspace) (a : Artifact) : Prop where
  eq : a = p.artifact env start tags
  trusted : p.Trusted w a.path

/-- A stage that ends well gives its output, and keeps the other ones. -/
theorem yields_stage {target : Artifact} {build : Work Unit}
    (htarget : target = p.artifact env start tags) (hbuild : Builds target.path build) :
    p.Yields w (p.ctx.produce target build) (p.InPlace env start tags) := by
  have hpath : target.path = p.artifactPath env tags := by rw [htarget, path_artifact]
  have hother : ∀ e tags', p.ctx.Trusts w (p.artifactPath e tags') →
      p.ctx.Trusts (StageCall.exec ⟨target, build⟩ p.ctx w).2 (p.artifactPath e tags') := by
    intro e tags' ht
    refine StageContext.trusts_after hbuild (fun hgoal => ?_) ht
    unfold StageCall.path at hgoal ⊢
    dsimp only at hgoal ⊢
    rw [hpath] at hgoal ⊢
    have heq : p.artifactPath e tags' = p.artifactPath env tags := Cache.goal_injective hgoal
    rw [heq]
    exact Path.Alike.refl _
  have hremembers : p.ctx.Remembers w _ (StageCall.exec ⟨target, build⟩ p.ctx w).2 :=
    StageContext.remembers_exec (c := ⟨target, build⟩) hbuild w
  refine ⟨⟨hother, hremembers.provided⟩, fun a ha => ?_⟩
  obtain ⟨rfl, htrusted⟩ := StageContext.trusts_of_ok (c := ⟨target, build⟩) hbuild ha
  exact ⟨htarget, htrusted⟩

/-! ## Before the remap -/

/-- A jar that is fixed next. Fixing it gives an artifact in the namespace of a raw jar. -/
def Fixable (p : Pipeline) (env : Environment) (a : Artifact) : Prop :=
  ∃ ns, p.rawNamespace? env = some ns ∧
    a.derive "fixed" = p.artifact env (ns, ns) (p.patcher.mergedTags env ++ ["fixed"])

/-- The raw jar of an environment, in the namespace that it is configured with. -/
theorem yields_raw (p : Pipeline) (w : Workspace) (env : Environment) :
    p.Yields w (p.raw env) fun _ a => ∃ jar ns path, p.rawJars.lookup env.rawSource = some jar ∧
      p.ctx.registry.lookup jar.namespaceName = .ok ns ∧
      a = .raw p.ctx.config.cacheRoot p.version env ns ns path := by
  unfold raw
  dsimp only
  cases hjar : p.rawJars.lookup env.rawSource with
  | none => exact yields_throw _
  | some jar =>
    have hlookup : p.Yields w (Work.ofExcept (p.ctx.registry.lookup jar.namespaceName))
        fun _ ns => p.ctx.registry.lookup jar.namespaceName = .ok ns :=
      yields_ofExcept fun ns hns => hns
    refine hlookup.bind fun v ns hns => ?_
    refine (yields_reading Work.onlyReads_files).bind fun v f _ => ?_
    split
    · exact yields_pure ⟨jar, ns, jar.path, rfl, hns, rfl⟩
    · exact yields_throw _

theorem rawNamespace?_eq {source : Environment} {jar : RawJar} {ns : Namespace}
    (h : source.rawSource = env.leading) (hjar : p.rawJars.lookup source.rawSource = some jar)
    (hns : p.ctx.registry.lookup jar.namespaceName = .ok ns) : p.rawNamespace? env = some ns := by
  unfold rawNamespace?
  rw [← h, hjar]
  show (p.ctx.registry.lookup jar.namespaceName).toOption = some ns
  rw [hns]
  rfl

/-- A raw jar is fixed as it is, -/
theorem yields_single (hleading : env.rawSource = env.leading)
    (htags : p.patcher.mergedTags env = []) :
    p.Yields w (p.raw env) fun _ => p.Fixable env := by
  refine (yields_raw p w env).mono ?_
  rintro v a ⟨jar, ns, path, hjar, hns, rfl⟩
  exact ⟨ns, rawNamespace?_eq hleading hjar hns, by rw [htags]; rfl⟩

/-- or a client and a server are merged first. -/
theorem yields_merge {ns ns' : Namespace} (hns : p.rawNamespace? .combined = some ns)
    (path path' : String) :
    p.Yields w (p.patcher.merge p.ctx (.raw p.ctx.config.cacheRoot p.version .client ns ns path)
      (.raw p.ctx.config.cacheRoot p.version .server ns' ns' path'))
        fun _ => p.Fixable .combined := by
  unfold Patcher.merge BasePatcher.merge
  split
  · exact yields_throw _
  · have htarget : BasePatcher.mergeTarget p.patcher.name
        (.raw p.ctx.config.cacheRoot p.version .client ns ns path)
        (.raw p.ctx.config.cacheRoot p.version .server ns' ns' path') =
          p.artifact .combined (ns, ns) (p.patcher.mergedTags .combined) := rfl
    have hmerger : p.Yields w (Work.ofExcept (p.patcher.base.jarMerger p.ctx)) fun _ _ => True :=
      yields_ofExcept fun _ _ => trivial
    refine hmerger.bind fun v merger _ => ?_
    refine (yields_stage htarget ((builds_mergeFiles _ _ _ _).followed fun _ => .ok ())).mono ?_
    rintro v a ⟨rfl, -⟩
    exact ⟨ns, hns, rfl⟩

theorem yields_fix (h : p.Fixable env a) :
    p.Yields w (p.patcher.fix p.ctx a) fun v b => ∃ ns, p.rawNamespace? env = some ns ∧
      p.InPlace env (ns, ns) (p.patcher.mergedTags env ++ ["fixed"]) v b := by
  obtain ⟨ns, hns, htarget⟩ := h
  exact (yields_stage htarget (builds_rewriteJar _ _ _)).mono fun v b hb => ⟨ns, hns, hb⟩

/-- A stage that appends a tag in the same namespace. -/
theorem yields_derive_stage {tag : String} {build : Work Unit} (h : p.InPlace env start tags v a)
    (hbuild : Builds (a.derive tag).path build) :
    p.Yields w (p.ctx.produce (a.derive tag) build) (p.InPlace env start (tags ++ [tag])) :=
  yields_stage (by rw [h.eq]; rfl) hbuild

/-- What a loader patches is in its output namespace, and has its tag. -/
theorem yields_transform {ns : Namespace} (h : p.InPlace env (ns, ns) tags w a) (q : Patcher) :
    p.Yields w (q.transform p.ctx a) fun v b => ∃ start, q.output? p.ctx.registry ns = some start ∧
      p.InPlace env start (tags ++ q.patchTags) v b := by
  have hsame : p.InPlace env (ns, ns) (tags ++ []) w a := by rwa [List.append_nil]
  induction q with
  | plain base => exact yields_pure ⟨_, rfl, hsame⟩
  | widened inner widener ih => exact ih
  | jarMod base mods =>
    unfold Patcher.transform JarMod.transform Patcher.patchTags
    split
    · exact yields_pure ⟨_, rfl, hsame⟩
    · refine (yields_derive_stage h (.reading (onlyReads_collect mods) fun overlay =>
        builds_rewriteJar _ _ _)).mono fun v b hb => ⟨_, rfl, hb⟩
  | binary b =>
    have htarget : p.Yields w (Work.ofExcept (b.target p.ctx a)) fun _ target =>
        ∃ start, (Patcher.binary b).output? p.ctx.registry ns = some start ∧
          target = p.artifact env start (tags ++ [b.name]) := by
      refine yields_ofExcept fun target ht => ?_
      unfold BinaryPatches.target at ht
      unfold Patcher.output?
      rw [h.eq] at ht
      cases houtput : b.outputNamespace with
      | none =>
        rw [houtput] at ht
        cases ht
        exact ⟨_, rfl, rfl⟩
      | some name =>
        rw [houtput] at ht
        obtain ⟨output, hlookup, ht⟩ := ok_of_bind ht
        cases ht
        exact ⟨(output, ns), by dsimp only; rw [hlookup]; rfl, rfl⟩
    refine htarget.bind ?_
    rintro v target ⟨start, hstart, rfl⟩
    refine (yields_stage rfl ?_).mono fun v c hc => ⟨start, hstart, hc⟩
    exact .reading (Work.onlyReads_openJar _) fun _ =>
      .reading (Work.onlyReads_openJar _) fun _ =>
        .reading (Work.onlyReads_ofExcept _) fun _ => builds_rewriteJar _ _ _

/-- What is remapped starts where the configuration says, and has the tags of its making. -/
theorem yields_patched (p : Pipeline) (w : Workspace) (env : Environment) :
    p.Yields w (p.patched env) fun v a => ∃ start, p.start? env = some start ∧
      p.InPlace env start (p.patcher.mergedTags env ++ ["fixed"] ++ p.patcher.patchTags) v a := by
  have hrest : ∀ {v a}, p.Fixable env a → p.Yields v
      (p.patcher.fix p.ctx a >>= fun fixed => p.patcher.transform p.ctx fixed) fun v b =>
        ∃ start, p.start? env = some start ∧ p.InPlace env start
          (p.patcher.mergedTags env ++ ["fixed"] ++ p.patcher.patchTags) v b := by
    intro v a ha
    refine (yields_fix ha).bind ?_
    rintro v b ⟨ns, hns, hb⟩
    refine (yields_transform hb p.patcher).mono ?_
    rintro v c ⟨start, hstart, hc⟩
    refine ⟨start, ?_, hc⟩
    unfold start?
    rw [hns]
    exact hstart
  unfold patched
  cases env with
  | client => exact (yields_single rfl rfl).bind fun v a => hrest
  | server => exact (yields_single rfl rfl).bind fun v a => hrest
  | datagen => exact (yields_single rfl rfl).bind fun v a => hrest
  | combined =>
    refine (yields_raw p w .client).bind ?_
    rintro v client ⟨jar, ns, path, hjar, hns, rfl⟩
    refine (yields_raw p v .server).bind ?_
    rintro v server ⟨-, ns', path', -, -, rfl⟩
    exact (yields_merge (rawNamespace?_eq rfl hjar hns) path path').bind fun v a => hrest

/-! ## The remap, and what comes after it -/

theorem yields_hop (h : p.InPlace env start tags w a) (next fallback : Namespace) :
    p.Yields w (p.remapper.hop p.ctx p.tree next fallback a)
      (p.InPlace env (next, fallback) (tags ++ [next.name])) := by
  unfold Remapper.hop
  dsimp only
  refine (yields_reading (Work.onlyReads_ofExcept _)).bind fun v view _ => ?_
  exact yields_stage (by rw [h.eq]; rfl) (builds_remapFile _ _ _ _ _)

/-- A remap along a path ends in the last namespace of the path, and appends all of their names. -/
theorem yields_remapAlong (h : p.InPlace env start tags w a) (fallback : Namespace)
    (path : List Namespace) :
    p.Yields w (p.remapper.remapAlong p.ctx p.tree fallback path a) fun v b =>
      ∃ last, p.InPlace env (path.getLast?.getD start.1, last) (tags ++ path.map (·.name)) v b := by
  induction path generalizing start tags w a with
  | nil => exact yields_pure ⟨start.2, by simpa using h⟩
  | cons next rest ih =>
    cases rest with
    | nil => exact (yields_hop h next fallback).mono fun v b hb => ⟨fallback, hb⟩
    | cons second rest =>
      refine (yields_hop h next a.namespaceOf).bind fun v b hb => (ih hb).mono ?_
      rintro v c ⟨last, hc⟩
      refine ⟨last, ?_⟩
      rw [List.getLast?_cons_cons, List.getLast?_cons, Option.getD_some] at *
      simpa using hc

/-- Of what the loader finishes only the tags are new. -/
theorem yields_afterRemap (h : p.InPlace env start tags w a) (q : Patcher) :
    p.Yields w (q.afterRemap p.ctx a) fun v b => ∃ finishing, q.Finishes finishing ∧
      p.InPlace env start (tags ++ finishing) v b := by
  have hsame : p.InPlace env start (tags ++ []) w a := by rwa [List.append_nil]
  induction q with
  | plain base => exact yields_pure ⟨[], rfl, hsame⟩
  | jarMod base mods => exact yields_pure ⟨[], rfl, hsame⟩
  | binary b =>
    unfold Patcher.afterRemap BinaryPatches.afterRemap
    split
    · exact yields_pure ⟨[], .inl rfl, hsame⟩
    · exact (yields_derive_stage h (builds_rewriteJar _ _ _)).mono
        fun v c hc => ⟨_, .inr rfl, hc⟩
  | widened inner path ih =>
    refine ih.bind ?_
    rintro v b ⟨finishing, hfinishing, hb⟩
    unfold Widener.widenArtifact
    refine (yields_reading (onlyReads_readWidener path)).bind fun v widener _ => ?_
    split
    · exact yields_throw _
    · refine (yields_derive_stage hb (builds_rewriteJar _ _ _)).mono fun v c hc => ?_
      exact ⟨_, ⟨finishing, hfinishing, widener, rfl⟩, by rwa [← List.append_assoc]⟩

/-! ## Requests -/

/-- The tags of an artifact tell how it was made: it was merged, fixed and patched, then it was
remapped along the path to the requested namespace, and the loader has finished it. -/
def Tagged (p : Pipeline) (request : ArtifactRequest) (tags : List String) : Prop :=
  ∃ start path finishing, p.start? request.env = some start ∧
    p.ctx.registry.ask (Registry.resolvePath start.1.name start.2.name request.namespaceName
      request.fallback) = .ok path ∧ p.patcher.Finishes finishing ∧
    tags = p.patcher.mergedTags request.env ++ ["fixed"] ++ p.patcher.patchTags ++
      path.map (·.name) ++ finishing

/-- An artifact is what a request has asked for. -/
structure Fulfils (p : Pipeline) (request : ArtifactRequest) (a : Artifact) : Prop where
  env : a.env = request.env
  named : a.namespaceOf.name = request.namespaceName
  registered : p.ctx.registry.lookup request.namespaceName = .ok a.namespaceOf
  tagged : p.Tagged request a.tags
  path : a.path = p.artifactPath a.env a.tags

/-- A derivation starts in a registered namespace. -/
theorem lookup_start (h : p.start? env = some start) :
    p.ctx.registry.lookup start.1.name = .ok start.1 := by
  have hraw : ∀ {name ns}, (p.ctx.registry.lookup name).toOption = some ns →
      p.ctx.registry.lookup ns.name = .ok ns := by
    intro name ns hns
    cases hlookup : p.ctx.registry.lookup name with
    | error e =>
      rw [hlookup] at hns
      cases hns
    | ok found =>
      rw [hlookup] at hns
      obtain rfl := Option.some.inj hns
      rwa [Registry.name_of_lookup hlookup]
  have houtput : ∀ (q : Patcher) {ns : Namespace}, p.ctx.registry.lookup ns.name = .ok ns →
      q.output? p.ctx.registry ns = some start →
        p.ctx.registry.lookup start.1.name = .ok start.1 := by
    intro q ns hns hq
    induction q with
    | plain base =>
      cases hq
      exact hns
    | jarMod base mods =>
      cases hq
      exact hns
    | widened inner widener ih => exact ih hq
    | binary b =>
      unfold Patcher.output? at hq
      split at hq
      · obtain ⟨output, hlookup, rfl⟩ := Option.map_eq_some_iff.mp hq
        exact hraw hlookup
      · cases hq
        exact hns
  obtain ⟨ns, hns, hq⟩ := Option.bind_eq_some_iff.mp h
  obtain ⟨jar, -, hlookup⟩ := Option.bind_eq_some_iff.mp hns
  exact houtput p.patcher (hraw hlookup) hq

/-- The last namespace of a path is the one that was asked for. -/
theorem lookup_last {ns fallback : String} {path : List Namespace} (hs : p.ctx.registry.Sound)
    (hstart : p.start? env = some start)
    (hpath : p.ctx.registry.ask (Registry.resolvePath start.1.name start.2.name ns fallback) =
      .ok path) :
    p.ctx.registry.lookup ns = .ok (path.getLast?.getD start.1) := by
  rcases Registry.path_end hs hpath with ⟨rfl, rfl⟩ | ⟨before, last, rfl, hlast⟩
  · exact lookup_start hstart
  · rwa [List.getLast?_concat]

/-- A derivation that ends well fulfils its request, and its output is there. -/
theorem yields_derive (hs : p.ctx.registry.Sound) (env : Environment) (ns fallback : Namespace) :
    p.Yields w (p.derive env ns fallback) fun v a =>
      p.Fulfils ⟨env, ns.name, fallback.name⟩ a ∧ p.Trusted v a.path := by
  unfold derive
  refine (yields_patched p w env).bind ?_
  rintro v a ⟨start, hstart, ha⟩
  have hask : p.Yields v (p.pathBetween a.namespaceOf a.fallback ns fallback) fun v path =>
      p.ctx.registry.ask (Registry.resolvePath start.1.name start.2.name ns.name fallback.name) =
        .ok path ∧ p.InPlace env start
          (p.patcher.mergedTags env ++ ["fixed"] ++ p.patcher.patchTags) v a := by
    refine yields_ofExcept fun path hpath => ⟨?_, ha⟩
    rwa [ha.eq] at hpath
  refine hask.bind ?_
  rintro v path ⟨hpath, ha⟩
  refine (yields_remapAlong ha fallback path).bind ?_
  rintro v b ⟨last, hb⟩
  refine (yields_afterRemap hb p.patcher).mono ?_
  rintro v c ⟨finishing, hfinishing, rfl, htrusted⟩
  have hlast := lookup_last hs hstart hpath
  exact ⟨⟨rfl, Registry.name_of_lookup hlast, hlast,
    ⟨start, path, finishing, hstart, hpath, hfinishing, rfl⟩, path_artifact _ _ _ _⟩, htrusted⟩

/-- Requests are told apart by the environment and the names of the namespaces. -/
def requestOf (d : Demand) : ArtifactRequest := ⟨d.env, d.ns.name, d.fallback.name⟩

/-- All that has been provided is what was asked for, and would be used as it is. -/
def Supplied (p : Pipeline) (w : Workspace) : Prop :=
  ∀ entry ∈ w.provided, p.Fulfils entry.1 entry.2 ∧ p.Trusted w entry.2.path

theorem Supplied.recalls {request : ArtifactRequest} (h : p.Supplied w)
    (hmemo : w.provided.lookup request = some a) : p.Fulfils request a ∧ p.Trusted w a.path := by
  obtain ⟨before, after, heq, -⟩ := List.lookup_eq_some_iff.mp hmemo
  exact h (request, a) (heq ▸ List.mem_append_right before List.mem_cons_self)

theorem Supplied.retained (h : p.Supplied w) (hretains : p.Retains w v) : p.Supplied v := by
  intro entry hentry
  rw [hretains.provided] at hentry
  obtain ⟨hfulfils, htrusted⟩ := h entry hentry
  refine ⟨hfulfils, ?_⟩
  rw [hfulfils.path] at htrusted ⊢
  exact hretains.trusted _ _ htrusted

/-- A request is answered from what was provided before, or it is derived. -/
theorem serve_cases (hs : p.ctx.registry.Sound) (d : Demand) (w : Workspace) :
    (∃ a, w.provided.lookup (requestOf d) = some a ∧ p.serve d w = (.ok a, w)) ∨
      w.provided.lookup (requestOf d) = none ∧ ∃ v, p.Retains w v ∧
        ((∃ a, p.Fulfils (requestOf d) a ∧ p.Trusted v a.path ∧
            p.serve d w = (.ok a, { v with provided := (requestOf d, a) :: v.provided })) ∨
          ∃ e, p.serve d w = (.error e, v)) := by
  have hexec : p.serve d w = _ := exec_provide p d.env d.ns d.fallback w
  obtain ⟨hretains, hgives⟩ := yields_derive hs d.env d.ns d.fallback (w := w)
  rw [hexec]
  unfold requestOf
  cases w.provided.lookup ⟨d.env, d.ns.name, d.fallback.name⟩ with
  | some a => exact .inl ⟨a, rfl, rfl⟩
  | none =>
    refine .inr ⟨rfl, ?_⟩
    cases hrun : (p.derive d.env d.ns d.fallback).exec w with
    | mk r v =>
      rw [hrun] at hretains hgives
      refine ⟨v, hretains, ?_⟩
      cases r with
      | error e => exact .inr ⟨e, rfl⟩
      | ok a =>
        obtain ⟨hfulfils, htrusted⟩ := hgives a rfl
        exact .inl ⟨a, hfulfils, htrusted, rfl⟩

/-- What has been provided once is provided from then on. -/
structure Continues (p : Pipeline) (w v : Workspace) : Prop where
  supplied : p.Supplied v
  recalled : ∀ request a, w.provided.lookup request = some a →
    v.provided.lookup request = some a

theorem continues_serve (hs : p.ctx.registry.Sound) (h : p.Supplied w) (d : Demand) :
    p.Continues w (p.serve d w).2 := by
  rcases serve_cases hs d w with ⟨a, -, hserve⟩ |
    ⟨hnone, v, hretains, ⟨a, hfulfils, htrusted, hserve⟩ | ⟨e, hserve⟩⟩
  · rw [hserve]
    exact ⟨h, fun _ _ hmemo => hmemo⟩
  · have hsupplied := h.retained hretains
    rw [hserve]
    refine ⟨fun entry hentry => ?_, fun request b hmemo => ?_⟩
    · rcases List.mem_cons.mp hentry with rfl | hentry
      · exact ⟨hfulfils, htrusted⟩
      · exact hsupplied entry hentry
    · have hne : (request == requestOf d) = false := by
        rw [beq_eq_false_iff_ne]
        rintro rfl
        cases hnone.symm.trans hmemo
      show List.lookup request ((requestOf d, a) :: v.provided) = some b
      rw [List.lookup_cons, hne, hretains.provided]
      exact hmemo
  · rw [hserve]
    exact ⟨h.retained hretains, fun _ _ hmemo => by rwa [hretains.provided]⟩

theorem continues_serveAll (hs : p.ctx.registry.Sound) (h : p.Supplied w) (ds : List Demand) :
    p.Continues w (p.serveAll ds w) := by
  induction ds generalizing w with
  | nil => exact ⟨h, fun _ _ hmemo => hmemo⟩
  | cons d rest ih =>
    have hfirst := continues_serve hs h d
    have hrest := ih hfirst.supplied
    exact ⟨hrest.supplied, fun request a hmemo =>
      hrest.recalled request a (hfirst.recalled request a hmemo)⟩

/-- A request that ends well is remembered. -/
theorem recalled_of_serve (hs : p.ctx.registry.Sound) {d : Demand} (h : p.serve d w = (.ok a, v)) :
    v.provided.lookup (requestOf d) = some a := by
  rcases serve_cases hs d w with ⟨b, hmemo, hserve⟩ |
    ⟨-, u, -, ⟨b, -, -, hserve⟩ | ⟨e, hserve⟩⟩ <;> cases hserve.symm.trans h
  · exact hmemo
  · exact List.lookup_cons_self

theorem serve_of_recalled {d : Demand} (h : w.provided.lookup (requestOf d) = some a) :
    p.serve d w = (.ok a, w) := by
  have hexec : p.serve d w = _ := exec_provide p d.env d.ns d.fallback w
  rw [hexec, show w.provided.lookup ⟨d.env, d.ns.name, d.fallback.name⟩ = some a from h]

/-- Whatever the cache holds in the beginning, and whatever is requested before and after, the
artifact of a request is in the environment and the namespace that were asked for, and its tags
tell how it was made. Its file is there and stays there, and if the request is made again it gives
the same artifact and does nothing. -/
theorem a_provided_artifact_stays {calls : List RegistryCall}
    (hregistry : p.ctx.registry = Registry.run calls) (f : Files) (before : List Demand)
    {d : Demand} (later : List Demand)
    (h : p.serve d (p.serveAll before (.ofFiles f)) = (.ok a, w)) :
    p.Fulfils (requestOf d) a ∧ w.files.isFile a.path = true ∧
      (p.serveAll later w).files.isFile a.path = true ∧
        p.serve d (p.serveAll later w) = (.ok a, p.serveAll later w) := by
  have hs : p.ctx.registry.Sound := hregistry ▸ Registry.sound_run calls
  have hbefore := continues_serveAll (p := p) hs (w := .ofFiles f) nofun before
  have hserved := continues_serve hs hbefore.supplied d
  have hmemo := recalled_of_serve hs h
  rw [h] at hserved
  have hlater := continues_serveAll hs hserved.supplied later
  have hmemo' := hlater.recalled _ _ hmemo
  obtain ⟨hfulfils, htrusted⟩ := hserved.supplied.recalls hmemo
  exact ⟨hfulfils, htrusted.1, (hlater.supplied.recalls hmemo').2.1, serve_of_recalled hmemo'⟩

/-- A patched game that was remapped is there after a request for the game in its own names. -/
theorem a_remapped_game_stays :
    let p := oneHop patchingLoader "named" true
    ∃ a w, p.serve (clientIn "named") (.ofFiles gameFiles) = (.ok a, w) ∧
      a.tags = ["fixed", "forge", "named", "forge-fixed"] ∧
        p.Fulfils (requestOf (clientIn "named")) a ∧ w.files.isFile a.path = true ∧
          (p.serveAll [clientIn officialNamespace] w).files.isFile a.path = true ∧
            p.serve (clientIn "named") (p.serveAll [clientIn officialNamespace] w) =
              (.ok a, p.serveAll [clientIn officialNamespace] w) := by
  intro p
  have htags : (p.serve (clientIn "named") (.ofFiles gameFiles)).1.map Artifact.tags =
      .ok ["fixed", "forge", "named", "forge-fixed"] := by decide +kernel
  have hregistry : p.ctx.registry = Registry.run
      [.register officialNamespace false ["named"], .register "named" true []] := by decide +kernel
  cases hserve : p.serve (clientIn "named") (.ofFiles gameFiles) with
  | mk r w =>
    rw [hserve] at htags
    cases r with
    | error e => cases htags
    | ok a =>
      exact ⟨a, w, rfl, Except.ok.inj htags, a_provided_artifact_stays hregistry gameFiles []
        [clientIn officialNamespace] hserve⟩

end Pipeline

end JarDerivation
