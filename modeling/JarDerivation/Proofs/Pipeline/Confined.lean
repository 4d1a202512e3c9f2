-- Where a derivation writes: each stage puts its output at the path of an artifact, and
-- touches no other file. So whatever is derived, and however it ends, the files outside
-- of the cache are the same as before.
import JarDerivation.Proofs.Files.Leaving
import JarDerivation.Proofs.Pipeline.Derivation

namespace JarDerivation

namespace Work

variable {α β : Type} {touched left touched' left' : String → Prop} {post : α → Prop}
  {post' : β → Prop} {path : String}

/-! ## Work by the files that it leaves -/

/-- Whatever the workspace and however the work ends, it leaves the files so; and what it gives
satisfies `post`. -/
structure Leaves (touched left : String → Prop) (post : α → Prop) (x : Work α) : Prop where
  files : ∀ w : Workspace, w.files.Leaves touched left (x.exec w).2.files
  gives : ∀ w a, (x.exec w).1 = .ok a → post a

theorem leaves_of_exec {x : Work α} {r : Workspace → Except Error α}
    (hx : ∀ w, (x.exec w).1 = r w ∧ (x.exec w).2.files = w.files)
    (hpost : ∀ w a, r w = .ok a → post a) : Leaves touched left post x where
  files w := by
    rw [(hx w).2]
    exact .refl touched left w.files
  gives w a h := hpost w a ((hx w).1.symm.trans h)

theorem leaves_pure {a : α} (h : post a) : Leaves touched left post (pure a) :=
  leaves_of_exec (r := fun _ => .ok a) (fun _ => ⟨rfl, rfl⟩) fun _ _ hb => Except.ok.inj hb ▸ h

theorem leaves_throw (e : Error) : Leaves touched left post (throw e) :=
  leaves_of_exec (r := fun _ => .error e) (fun _ => ⟨rfl, rfl⟩) fun _ _ hb => nomatch hb

theorem leaves_ofExcept {r : Except Error α} (h : ∀ a, r = .ok a → post a) :
    Leaves touched left post (ofExcept r) := by
  cases r with
  | ok a => exact leaves_pure (h a rfl)
  | error e => exact leaves_throw e

/-- Whatever is found without a change. -/
theorem leaves_found (r : Except Error α) : Leaves touched left (fun _ => True) (ofExcept r) :=
  leaves_ofExcept fun _ _ => trivial

theorem leaves_get : Leaves touched left (fun _ => True) (get : Work Workspace) :=
  leaves_of_exec (r := .ok) (fun _ => ⟨rfl, rfl⟩) fun _ _ _ => trivial

theorem leaves_files : Leaves touched left (fun _ => True) files :=
  leaves_of_exec (r := fun w => .ok w.files) (fun _ => ⟨rfl, rfl⟩) fun _ _ _ => trivial

theorem leaves_openJar (path : String) : Leaves touched left (fun _ => True) (openJar path) :=
  leaves_of_exec (r := fun w => w.files.openJar path)
    (fun w => by rw [exec_openJar]; exact ⟨rfl, rfl⟩) fun _ _ _ => trivial

theorem leaves_ofTraced (x : Traced α) : Leaves touched left (fun _ => True) (ofTraced x) :=
  leaves_of_exec (r := fun _ => x.outcome)
    (fun w => by rw [exec_ofTraced]; exact ⟨rfl, rfl⟩) fun _ _ _ => trivial

theorem Leaves.bind {x : Work α} {k : α → Work β} (hx : Leaves touched left post x)
    (hk : ∀ a, post a → Leaves touched left post' (k a)) :
    Leaves touched left post' (x >>= k) := by
  constructor
  · intro w
    have hfirst := hx.files w
    rw [exec_bind]
    cases hrun : x.exec w with
    | mk r v =>
      rw [hrun] at hfirst
      cases r with
      | error e => exact hfirst
      | ok a => exact hfirst.trans ((hk a (hx.gives w a (by rw [hrun]))).files v)
  · intro w b hb
    rw [exec_bind] at hb
    cases hrun : x.exec w with
    | mk r v =>
      rw [hrun] at hb
      cases r with
      | error e => cases hb
      | ok a => exact (hk a (hx.gives w a (by rw [hrun]))).gives v b hb

theorem Leaves.mono {x : Work α} (h : Leaves touched left post x)
    (ht : ∀ q, touched q → touched' q) (hl : ∀ q, left q → left' q) :
    Leaves touched' left' post x :=
  ⟨fun w => (h.files w).mono ht hl, h.gives⟩

/-! ## Jars -/

theorem leaves_writeJarWith (ht : touched path) (hl : left path) (body : Traced (Jar × α)) :
    Leaves touched left (fun _ => True) (writeJarWith path body) := by
  refine ⟨fun w => ?_, fun _ _ _ => trivial⟩
  have hclear := FileWork.leaves_clear ht left w.files
  rw [exec_writeJarWith]
  cases hrun : (FileWork.clear path).exec w.files with
  | mk cleared g =>
    rw [hrun] at hclear
    cases cleared with
    | error fault => exact hclear
    | ok u =>
      dsimp only
      cases hplace : g.target path with
      | error fault => exact hclear
      | ok place =>
        dsimp only
        cases body.outcome with
        | error e => exact hclear
        | ok made => exact hclear.trans (Files.leaves_putAt ht hl hplace _)

theorem leaves_rewriteJar (ht : touched path) (hl : left path) (input : String)
    (edit : Jar → Traced Jar) :
    Leaves touched left (fun _ => True) (rewriteJar input path edit) :=
  (leaves_openJar input).bind fun _ _ => leaves_writeJarWith ht hl _

theorem exec_thenDiscard (path : String) (body : Work Unit) (w : Workspace) :
    (thenDiscard path body).exec w =
      ((body.exec w).1,
        { (body.exec w).2 with files := (body.exec w).2.files.discarded path }) := by
  unfold thenDiscard
  rw [exec_bind, exec_tryCatch]
  cases body.exec w with
  | mk r v =>
    cases r with
    | ok u => exact exec_discard path v
    | error e =>
      dsimp only
      rw [exec_bind, exec_discard]
      rfl

theorem ends_thenDiscard {body : Work Unit} {w v : Workspace}
    (h : Ends (Work.thenDiscard path body) w () v) :
    ∃ u, Ends body w () u ∧ v.files = u.files.discarded path := by
  have hexec := (exec_thenDiscard path body w).symm.trans h
  obtain ⟨hr, hv⟩ := Prod.ext_iff.mp hexec
  exact ⟨(body.exec w).2, Prod.ext hr rfl, (congrArg Workspace.files hv).symm⟩

/-- A file that is discarded in the end is not left. -/
theorem Leaves.thenDiscard {body : Work Unit} {post : Unit → Prop}
    (h : Leaves touched (fun q => left q ∨ q = path) post body)
    (hdots : Path.isDotted path = false) (hslash : Path.wantsFolder path = false)
    (ht : touched path) : Leaves touched left post (thenDiscard path body) := by
  constructor
  · intro w
    rw [exec_thenDiscard]
    exact (h.files w).discarded hdots hslash ht
  · intro w a ha
    rw [exec_thenDiscard] at ha
    exact h.gives w a ha

end Work

namespace Pipeline

open Work

variable {p : Pipeline} {a : Artifact}

/-! ## Stages -/

/-- The path of an artifact of the pipeline. -/
def Caches (p : Pipeline) (path : String) : Prop := ∃ e tags, path = p.artifactPath e tags

/-- Work that writes to the cache only. -/
abbrev Cached {α : Type} (p : Pipeline) (post : α → Prop) (x : Work α) : Prop :=
  Leaves p.Caches p.Caches post x

/-- An artifact of the pipeline, which may be a raw jar. -/
def Homed (p : Pipeline) (a : Artifact) : Prop :=
  a.root = p.ctx.config.cacheRoot ∧ a.version = p.version

theorem Homed.caches {e : Environment} {ns fallback : Namespace} {tags : List String}
    (h : p.Homed a) : p.Caches (Artifact.cached a.root a.version e ns fallback tags).path := by
  refine ⟨e, tags, ?_⟩
  unfold artifactPath
  rw [← h.1, ← h.2, Artifact.cached]

theorem cached_produce {target : Artifact} {build : Work Unit} (p : Pipeline)
    (hpath : p.Caches target.path) (h : p.Cached (fun _ => True) build) :
    p.Cached (· = target) (p.ctx.produce target build) := by
  constructor
  · intro w
    rw [exec_produce]
    split
    · exact .refl _ _ w.files
    · have hensured := FileWork.leaves_ensureAround p.Caches p.Caches target.path w.files
      cases hrun : (FileWork.ensureAround target.path).exec w.files with
      | mk r g =>
        rw [hrun] at hensured
        cases r with
        | error fault => exact hensured
        | ok u =>
          have hbuild := hensured.trans (h.files { w with files := g })
          dsimp only
          cases hbuilt : build.exec { w with files := g } with
          | mk r v =>
            rw [hbuilt] at hbuild
            cases r with
            | ok u => exact hbuild
            | error e =>
              dsimp only
              rw [exec_discard]
              exact hbuild.trans (Files.leaves_discarded hpath _ v.files)
  · intro w b hb
    rw [exec_produce] at hb
    split at hb
    · exact (Except.ok.inj hb).symm
    · split at hb
      · cases hb
      · split at hb
        · exact (Except.ok.inj hb).symm
        · cases hb

/-- A stage whose output comes from an artifact of the pipeline, at its place in the cache. -/
theorem cached_stage (h : p.Homed a) {target : Artifact} {e : Environment} {ns fallback : Namespace}
    {tags : List String} (htarget : target = .cached a.root a.version e ns fallback tags)
    {build : Work Unit} (hbuild : p.Caches target.path → p.Cached (fun _ => True) build) :
    p.Cached p.Homed (p.ctx.produce target build) := by
  have hpath : p.Caches target.path := by
    rw [htarget]
    exact h.caches
  have hmade := cached_produce p hpath (hbuild hpath)
  refine ⟨hmade.files, fun w b hb => ?_⟩
  rw [hmade.gives w b hb, htarget]
  exact h

theorem cached_raw (p : Pipeline) (env : Environment) : p.Cached p.Homed (p.raw env) := by
  unfold raw
  dsimp only
  cases p.rawJars.lookup env.rawSource with
  | none => exact leaves_throw _
  | some jar =>
    refine (leaves_found _).bind fun ns _ => ?_
    refine leaves_files.bind fun f _ => ?_
    split
    · exact leaves_pure ⟨rfl, rfl⟩
    · exact leaves_throw _

theorem cached_merge {client server : Artifact} (h : p.Homed client) :
    p.Cached p.Homed (p.patcher.merge p.ctx client server) := by
  unfold Patcher.merge BasePatcher.merge
  cases p.patcher.base.mergeFault? p.patcher.name p.ctx.config client server with
  | some e => exact leaves_throw e
  | none =>
    refine (leaves_found _).bind fun merger _ => cached_stage h rfl fun hpath => ?_
    have hmerged : p.Cached (fun _ => True) (merger.mergeFiles client.path server.path
        (BasePatcher.mergeTarget p.patcher.name client server).path) :=
      (leaves_openJar _).bind fun _ _ => (leaves_openJar _).bind fun _ _ =>
        leaves_writeJarWith hpath hpath _
    exact hmerged.bind fun _ _ => leaves_pure trivial

theorem cached_rewrite (h : p.Homed a) (tag : String) (edit : Jar → Traced Jar) :
    p.Cached p.Homed (p.ctx.produce (a.derive tag)
      (rewriteJar a.path (a.derive tag).path edit)) :=
  cached_stage h rfl fun hpath => leaves_rewriteJar hpath hpath _ _

theorem cached_collect (p : Pipeline) (mods : List String) :
    p.Cached (fun _ => True) (JarMod.collect mods) := by
  unfold JarMod.collect
  generalize ([] : Text.Ascending Bytes) = overlay
  induction mods generalizing overlay with
  | nil => exact leaves_pure trivial
  | cons path rest ih =>
    rw [List.foldlM_cons]
    have hfirst : p.Cached (fun _ => True)
        (do Work.ofExcept (JarMod.overlayJar overlay (← openJar path))) :=
      (leaves_openJar path).bind fun _ _ => leaves_found _
    exact hfirst.bind fun overlay _ => ih overlay

theorem cached_binary (h : p.Homed a) (b : BinaryPatches) :
    p.Cached p.Homed (b.transform p.ctx a) := by
  have htarget : p.Cached (fun target => ∃ ns fallback, target = a.deriveInto b.name ns fallback)
      (Work.ofExcept (b.target p.ctx a)) := by
    refine leaves_ofExcept fun target ht => ?_
    unfold BinaryPatches.target at ht
    split at ht
    · obtain ⟨ns, -, ht⟩ := ok_of_bind ht
      cases ht
      exact ⟨ns, _, rfl⟩
    · cases ht
      exact ⟨_, _, rfl⟩
  refine htarget.bind ?_
  rintro target ⟨ns, fallback, htarget⟩
  refine cached_stage h htarget fun hpath => ?_
  refine (leaves_openJar _).bind fun _ _ => (leaves_openJar _).bind fun _ _ => ?_
  exact (leaves_found _).bind fun _ _ => leaves_rewriteJar hpath hpath _ _

theorem cached_transform (h : p.Homed a) (patcher : Patcher) :
    p.Cached p.Homed (patcher.transform p.ctx a) := by
  induction patcher with
  | plain base => exact leaves_pure h
  | jarMod base mods =>
    unfold Patcher.transform JarMod.transform
    split
    · exact leaves_pure h
    · refine cached_stage h rfl fun hpath => ?_
      exact (cached_collect p mods).bind fun _ _ => leaves_rewriteJar hpath hpath _ _
  | binary b => exact cached_binary h b
  | widened inner widener ih => exact ih

theorem cached_patched (p : Pipeline) (env : Environment) : p.Cached p.Homed (p.patched env) := by
  have hrest : ∀ a, p.Homed a →
      p.Cached p.Homed (p.patcher.fix p.ctx a >>= fun fixed => p.patcher.transform p.ctx fixed) :=
    fun a ha => (cached_rewrite ha "fixed" _).bind fun b hb => cached_transform hb p.patcher
  unfold patched
  cases env with
  | combined =>
    refine (cached_raw p .client).bind fun client hclient => ?_
    exact (cached_raw p .server).bind fun server _ => (cached_merge hclient).bind hrest
  | client => exact (cached_raw p .client).bind hrest
  | server => exact (cached_raw p .server).bind hrest
  | datagen => exact (cached_raw p .datagen).bind hrest

/-! ## The remap, and what the loader finishes -/

theorem leaves_remapFile {touched left : String → Prop} {output : String} (ht : touched output)
    (hl : left output) (m : Remapper) (v : MappingView) (input : String) (classpath : List String) :
    Leaves touched left (fun _ => True) (m.remapFile v input output classpath) := by
  unfold Remapper.remapFile
  refine (leaves_openJar input).bind fun j _ => (leaves_found _).bind fun _ _ => ?_
  refine leaves_get.bind fun w _ => ?_
  exact (leaves_ofTraced _).bind fun classes _ => leaves_writeJarWith ht hl _

theorem cached_hop (h : p.Homed a) (next fallback : Namespace) :
    p.Cached p.Homed (p.remapper.hop p.ctx p.tree next fallback a) := by
  unfold Remapper.hop
  dsimp only
  refine (leaves_found _).bind fun v _ => ?_
  exact cached_stage h rfl fun hpath => leaves_remapFile hpath hpath _ _ _ _

theorem cached_remapAlong (h : p.Homed a) (fallback : Namespace) (path : List Namespace) :
    p.Cached p.Homed (p.remapper.remapAlong p.ctx p.tree fallback path a) := by
  induction path generalizing a with
  | nil => exact leaves_pure h
  | cons next rest ih =>
    cases rest with
    | nil => exact cached_hop h next fallback
    | cons second rest => exact (cached_hop h next a.namespaceOf).bind fun b hb => ih hb

theorem cached_widenArtifact (h : p.Homed a) (path : String) :
    p.Cached p.Homed (Widener.widenArtifact p.ctx path a) := by
  have hread : p.Cached (fun _ => True) (Widener.read path) :=
    leaves_files.bind fun f _ =>
      (leaves_found _).bind fun _ _ =>
        leaves_found _
  unfold Widener.widenArtifact
  refine hread.bind fun w _ => ?_
  split
  · exact leaves_throw _
  · exact cached_rewrite h w.tag _

theorem cached_afterRemap (h : p.Homed a) (patcher : Patcher) :
    p.Cached p.Homed (patcher.afterRemap p.ctx a) := by
  induction patcher with
  | plain base => exact leaves_pure h
  | jarMod base mods => exact leaves_pure h
  | binary b =>
    unfold Patcher.afterRemap BinaryPatches.afterRemap
    split
    · exact leaves_pure h
    · exact cached_rewrite h b.fixedTag _
  | widened inner widener ih => exact ih.bind fun b hb => cached_widenArtifact hb widener

/-! ## Requests -/

theorem cached_derive (p : Pipeline) (env : Environment) (ns fallback : Namespace) :
    p.Cached p.Homed (p.derive env ns fallback) := by
  unfold derive
  refine (cached_patched p env).bind fun a ha => ?_
  refine (leaves_found _).bind fun path _ => ?_
  exact (cached_remapAlong ha fallback path).bind fun b hb => cached_afterRemap hb p.patcher

/-- A request writes to the cache only. -/
theorem cached_provide (p : Pipeline) (env : Environment) (ns fallback : Namespace) :
    p.Cached (fun _ => True) (p.provide env ns fallback) := by
  refine ⟨fun w => ?_, fun _ _ _ => trivial⟩
  have hderive := (cached_derive p env ns fallback).files w
  rw [exec_provide]
  split
  · exact .refl _ _ w.files
  · cases hrun : (p.derive env ns fallback).exec w with
    | mk r v =>
      rw [hrun] at hderive
      cases r with
      | ok a => exact hderive
      | error e => exact hderive

end Pipeline

end JarDerivation
