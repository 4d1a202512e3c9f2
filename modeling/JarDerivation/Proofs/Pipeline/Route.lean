-- The route of a derivation: where its jar starts, and the namespaces that it passes
-- on the way to the one that is asked for. All of that is known before any jar is
-- read, and it decides alone whether a derivation can fail for its namespaces.
import JarDerivation.Proofs.Pipeline.Faults

namespace JarDerivation

/-! ## Where a jar starts -/

/-- The environment whose raw jar gives a derivation its namespace. A merged jar is in the
namespace of the client. -/
def Environment.leading : Environment → Environment
  | combined => client
  | env => env.rawSource

/-- The namespace and the fallback of the jar that a patcher makes of a jar in `ns`. -/
def Patcher.output? (r : Registry) (ns : Namespace) : Patcher → Option (Namespace × Namespace)
  | plain _ | jarMod .. => some (ns, ns)
  | binary b =>
    match b.outputNamespace with
    | some name => ((r.lookup name).toOption).map fun output => (output, ns)
    | none => some (ns, ns)
  | widened inner _ => output? r ns inner

namespace Pipeline

/-- The namespace of the raw jar that a derivation starts from. -/
def rawNamespace? (p : Pipeline) (env : Environment) : Option Namespace := do
  let jar ← p.rawJars.lookup env.leading
  (p.ctx.registry.lookup jar.namespaceName).toOption

/-- The namespace and the fallback that a jar is in before it is remapped. -/
def start? (p : Pipeline) (env : Environment) : Option (Namespace × Namespace) :=
  (p.rawNamespace? env).bind (p.patcher.output? p.ctx.registry)

/-- The tree has a column for each namespace of a path, and for those that it starts from. -/
def Paved (t : MappingTree) (source fallback : Namespace) (path : List Namespace) : Prop :=
  path = [] ∨ ∀ n ∈ source :: fallback :: path, n.name ∈ t.namespaces

/-- The jar of an environment starts somewhere, a path leads from there to a namespace, and
the tree has the names for each hop. -/
def Routed (p : Pipeline) (env : Environment) (ns fallback : Namespace) : Prop :=
  ∃ start path, p.start? env = some start ∧
    p.ctx.registry.ask (Registry.resolvePath start.1.name start.2.name ns.name fallback.name) =
      .ok path ∧ Paved p.tree start.1 start.2 path

end Pipeline

/-- A patcher whose own fixes and policy fail for no namespace. -/
structure Patcher.Unrelated (q : Patcher) : Prop where
  fixes : ∀ fix ∈ q.base.fixes, ∀ entry bytes,
    FailsOnlyWith Error.Unrelated (fix.apply entry bytes)
  conflicts : JarMerger.PolicyUnrelated q.base.onFailure

namespace Pipeline

/-- What the project brings along fails for no namespace, and its raw jars are in known ones. -/
structure Sound (p : Pipeline) : Prop where
  patcher : p.patcher.Unrelated
  resources : ∀ r ∈ p.remapper.resources, r.Unrelated
  raw : ∀ env jar, p.rawJars.lookup env = some jar →
    ∃ ns, p.ctx.registry.lookup jar.namespaceName = .ok ns

variable {p : Pipeline} {a : Artifact} {env : Environment} {ns fallback : Namespace}

open Work Error

/-! ## Stages -/

theorem meets_produce (p : Pipeline) (target : Artifact) {build : Work Unit}
    (h : Unaffected build) : Meets Unrelated (· = target) (p.ctx.produce target build) := by
  refine ⟨fun w => ?_⟩
  rw [exec_produce]
  by_cases htrusted : p.Trusted w target.path
  · rw [if_pos htrusted]
  · rw [if_neg htrusted]
    cases (FileWork.ensureAround target.path).exec w.files with
    | mk r g =>
      cases r with
      | error fault => exact id
      | ok u =>
        have hbuild := h.run { w with files := g }
        dsimp only
        cases hrun : build.exec { w with files := g } with
        | mk r v =>
          rw [hrun] at hbuild
          cases r with
          | ok u => rfl
          | error e => exact hbuild

/-- A raw jar is in its namespace, with that one as the fallback. -/
theorem meets_raw (hp : p.Sound) (env : Environment) :
    Meets Unrelated (fun a => ∃ jar ns, p.rawJars.lookup env.rawSource = some jar ∧
      p.ctx.registry.lookup jar.namespaceName = .ok ns ∧ a.namespaceOf = ns ∧ a.fallback = ns)
      (p.raw env) := by
  unfold raw
  dsimp only
  cases hjar : p.rawJars.lookup env.rawSource with
  | none => exact meets_throw id
  | some jar =>
    obtain ⟨ns, hns⟩ := hp.raw _ jar hjar
    dsimp only
    rw [hns]
    refine Meets.bind (meets_pure (show ns = ns from rfl)) fun _ hsame => ?_
    subst hsame
    refine unaffected_files.bind fun f _ => ?_
    split
    · exact meets_pure ⟨jar, _, rfl, hns, rfl, rfl⟩
    · exact meets_throw id

/-- An artifact in the namespace of the raw jar that a derivation starts from. -/
def Untouched (p : Pipeline) (env : Environment) (a : Artifact) : Prop :=
  ∃ ns, p.rawNamespace? env = some ns ∧ a.namespaceOf = ns ∧ a.fallback = ns

theorem Untouched.congr {b : Artifact} (h : p.Untouched env a)
    (hns : b.namespaceOf = a.namespaceOf) (hfallback : b.fallback = a.fallback) :
    p.Untouched env b := by
  obtain ⟨ns, hraw, ha, ha'⟩ := h
  exact ⟨ns, hraw, hns.trans ha, hfallback.trans ha'⟩

theorem meets_raw_leading (hp : p.Sound) {env source : Environment}
    (h : source.rawSource = env.leading) : Meets Unrelated (p.Untouched env) (p.raw source) := by
  refine (meets_raw hp source).mono (fun _ h => h) ?_
  rintro a ⟨jar, ns, hjar, hns, ha⟩
  refine ⟨ns, ?_, ha⟩
  unfold rawNamespace?
  rw [← h, hjar]
  show (p.ctx.registry.lookup jar.namespaceName).toOption = some ns
  rw [hns]
  rfl

theorem meets_merge (hp : p.Sound) {client server : Artifact} (h : p.Untouched env client) :
    Meets Unrelated (p.Untouched env) (p.patcher.merge p.ctx client server) := by
  unfold Patcher.merge BasePatcher.merge
  cases hfault : p.patcher.base.mergeFault? p.patcher.name p.ctx.config client server with
  | some e =>
    refine meets_throw ?_
    unfold BasePatcher.mergeFault? at hfault
    split at hfault
    · cases hfault
      exact id
    · split at hfault
      · cases hfault
        exact id
      · cases hfault
  | none =>
    refine (p.patcher.base.meets_jarMerger p.ctx).bind fun merger hpolicy => ?_
    refine (meets_produce p (BasePatcher.mergeTarget p.patcher.name client server) ?_).mono
      (fun _ he => he) fun a ha => ?_
    · exact (JarMerger.unaffected_mergeFiles (hpolicy ▸ hp.patcher.conflicts) _ _ _).bind
        fun _ _ => meets_pure trivial
    · rw [ha]
      exact h.congr rfl rfl

theorem meets_fix (hp : p.Sound) (h : p.Untouched env a) :
    Meets Unrelated (p.Untouched env) (p.patcher.fix p.ctx a) := by
  refine (meets_produce p (a.derive "fixed") (unaffected_rewriteJar _ _ fun j => ?_)).mono
    (fun _ he => he) fun b hb => ?_
  · exact Jar.failsOnlyWith_editEntries (JarFix.failsOnlyWith_applyAll hp.patcher.fixes) j
  · rw [hb]
    exact h.congr rfl rfl

/-! ## The patches of a loader -/

theorem failsOnlyWith_apply (b : BinaryPatches) (patches : Text.Ascending Bytes) (game : Jar) :
    FailsOnlyWith Unrelated (b.apply patches game).outcome := by
  have hone : ∀ entry bytes patch, FailsOnlyWith Unrelated (b.applyOne entry bytes patch) := by
    intro entry bytes patch
    unfold BinaryPatches.applyOne
    cases b.applier entry bytes patch with
    | ok out => exact failsOnlyWith_ok _
    | error reason => exact failsOnlyWith_error id
  unfold BinaryPatches.apply
  refine failsOnlyWith_traced_bind (Jar.failsOnlyWith_editEntries (fun entry bytes => ?_) game)
    fun out => failsOnlyWith_foldlM
      (fun out e => failsOnlyWith_bind (hone _ _ _) fun bytes => ?_) _ _
  · refine failsOnlyWith_bind ?_ fun _ => failsOnlyWith_ok _
    unfold BinaryPatches.patchEntry
    cases patches.find? entry with
    | some patch => exact hone _ _ _
    | none => exact failsOnlyWith_ok _
  · exact Jar.failsOnlyWith_store unrelated_io out e.1 bytes

/-- The artifact of the patched jar, or the output namespace that is not known. -/
theorem meets_target (b : BinaryPatches) (h : a.namespaceOf = ns ∧ a.fallback = ns) :
    Meets (OnlyIf ((Patcher.binary b).output? p.ctx.registry ns = none))
      (fun c => (Patcher.binary b).output? p.ctx.registry ns = some (c.namespaceOf, c.fallback))
      (Work.ofExcept (b.target p.ctx a)) := by
  unfold BinaryPatches.target Patcher.output?
  cases b.outputNamespace with
  | none =>
    refine meets_ofExcept (fun c hc => ?_) (failsOnlyWith_ok _)
    cases hc
    exact congrArg some (Prod.ext h.1.symm h.2.symm)
  | some name =>
    dsimp only
    cases hname : p.ctx.registry.lookup name with
    | error e => exact meets_ofExcept (fun c hc => nomatch hc) fun _ _ _ => rfl
    | ok output =>
      refine meets_ofExcept (fun c hc => ?_) fun e he => nomatch he
      cases hc
      exact congrArg some (Prod.ext rfl h.1.symm)

theorem meets_binary (b : BinaryPatches) (h : a.namespaceOf = ns ∧ a.fallback = ns) :
    Meets (OnlyIf ((Patcher.binary b).output? p.ctx.registry ns = none))
      (fun c => (Patcher.binary b).output? p.ctx.registry ns = some (c.namespaceOf, c.fallback))
      (b.transform p.ctx a) := by
  unfold BinaryPatches.transform
  refine (meets_target b h).bind fun target htarget => ?_
  refine (meets_produce p target ?_).mono (fun _ he he' => absurd he' he) fun c hc => ?_
  · refine (unaffected_openJar _).bind fun _ _ => (unaffected_openJar _).bind fun archive _ => ?_
    refine (unaffected_ofExcept
      (BinaryPatches.failsOnlyWith_readPatches unrelated_io archive)).bind fun patches _ => ?_
    exact unaffected_rewriteJar _ _ (failsOnlyWith_apply b patches)
  · rw [hc]
    exact htarget

theorem failsOnlyWith_overlayJar (overlay : Text.Ascending Bytes) (j : Jar) :
    FailsOnlyWith Unrelated (JarMod.overlayJar overlay j) := by
  unfold JarMod.overlayJar
  exact failsOnlyWith_foldlM (fun _ e => failsOnlyWith_bind
    (Jar.failsOnlyWith_read unrelated_io j e) fun _ => failsOnlyWith_ok _) _ _

theorem unaffected_collect (mods : List String) : Unaffected (JarMod.collect mods) := by
  unfold JarMod.collect
  generalize ([] : Text.Ascending Bytes) = overlay
  induction mods generalizing overlay with
  | nil => exact meets_pure trivial
  | cons path rest ih =>
    rw [List.foldlM_cons]
    have hfirst : Unaffected (do Work.ofExcept (JarMod.overlayJar overlay (← openJar path))) :=
      (unaffected_openJar path).bind fun j _ =>
        unaffected_ofExcept (failsOnlyWith_overlayJar overlay j)
    exact hfirst.bind fun overlay _ => ih overlay

/-- A patcher brings a jar to its output namespace, or fails because that is not known. -/
theorem meets_transform (h : a.namespaceOf = ns ∧ a.fallback = ns) (patcher : Patcher) :
    Meets (OnlyIf (patcher.output? p.ctx.registry ns = none))
      (fun b => patcher.output? p.ctx.registry ns = some (b.namespaceOf, b.fallback))
      (patcher.transform p.ctx a) := by
  have hsame : some (ns, ns) = some (a.namespaceOf, a.fallback) := by rw [h.1, h.2]
  induction patcher with
  | plain base => exact meets_pure hsame
  | jarMod base mods =>
    unfold Patcher.transform JarMod.transform
    split
    · exact meets_pure hsame
    · refine (meets_produce p (a.derive "jarmod") ?_).mono
        (fun e he he' => absurd he' he) fun b hb => ?_
      · exact (unaffected_collect mods).bind fun overlay _ =>
          unaffected_rewriteJar _ _ fun j => failsOnlyWith_traced_bind
            (Jar.failsOnlyWith_editEntries (fun _ _ => failsOnlyWith_ok _) j) fun out =>
              Jar.failsOnlyWith_storeAll unrelated_io out _
      · rw [hb]
        exact hsame
  | binary b => exact meets_binary b h
  | widened inner widener ih => exact ih

/-- What is patched starts where it should, or its start is not known. -/
theorem meets_patched (hp : p.Sound) (env : Environment) :
    Meets (OnlyIf (p.start? env = none))
      (fun a => p.start? env = some (a.namespaceOf, a.fallback)) (p.patched env) := by
  have hrest : ∀ a, p.Untouched env a → Meets (OnlyIf (p.start? env = none))
      (fun a => p.start? env = some (a.namespaceOf, a.fallback))
      (p.patcher.fix p.ctx a >>= fun fixed => p.patcher.transform p.ctx fixed) := by
    intro a ha
    refine (meets_fix hp ha).onlyIf.bind fun b ⟨ns, hraw, hns⟩ => ?_
    unfold start?
    rw [hraw]
    exact meets_transform hns p.patcher
  have hraw : ∀ {source}, source.rawSource = env.leading →
      Meets (OnlyIf (p.start? env = none)) (p.Untouched env) (p.raw source) :=
    fun h => (meets_raw_leading hp h).onlyIf
  unfold patched
  cases env with
  | combined =>
    refine (hraw (show Environment.client.rawSource = Environment.combined.leading from rfl)).bind
      fun client hclient => ?_
    refine (meets_raw hp .server).onlyIf.bind fun server _ => ?_
    exact (meets_merge hp hclient).onlyIf.bind hrest
  | client => exact (hraw rfl).bind hrest
  | server => exact (hraw rfl).bind hrest
  | datagen => exact (hraw rfl).bind hrest

/-! ## The hops -/

/-- The tree has the columns of a hop. -/
def HasHop (t : MappingTree) (source fallback next : Namespace) : Prop :=
  source.name ∈ t.namespaces ∧ fallback.name ∈ t.namespaces ∧ next.name ∈ t.namespaces

theorem view_isOk (t : MappingTree) (source fallback next : Namespace) :
    (∃ v, t.view source.name fallback.name next.name = .ok v) ↔ HasHop t source fallback next := by
  have hcol : ∀ name context,
      (∃ col, t.requireNamespace name context = .ok col) ↔ name ∈ t.namespaces := by
    intro name context
    unfold MappingTree.requireNamespace MappingTree.namespaceId?
    rw [← List.isSome_idxOf?]
    cases t.namespaces.idxOf? name <;> simp
  unfold HasHop
  rw [← hcol source.name "remap view source", ← hcol fallback.name "remap view fallback",
    ← hcol next.name "remap view target"]
  unfold MappingTree.view
  constructor
  · rintro ⟨v, hv⟩
    obtain ⟨s, hs, hv⟩ := ok_of_bind hv
    obtain ⟨f, hf, hv⟩ := ok_of_bind hv
    obtain ⟨d, hd, hv⟩ := ok_of_bind hv
    exact ⟨⟨s, hs⟩, ⟨f, hf⟩, ⟨d, hd⟩⟩
  · rintro ⟨⟨s, hs⟩, ⟨f, hf⟩, ⟨d, hd⟩⟩
    rw [hs, hf, hd]
    exact ⟨_, rfl⟩

theorem paved_cons_iff {t : MappingTree} {source fallback next : Namespace}
    {rest : List Namespace} :
    Paved t source fallback (next :: rest) ↔
      HasHop t source fallback next ∧ Paved t next source rest := by
  unfold Paved HasHop
  simp only [List.forall_mem_cons]
  constructor
  · rintro (h | ⟨hs, hf, hn, hrest⟩)
    · cases h
    · exact ⟨⟨hs, hf, hn⟩, .inr ⟨hn, hs, hrest⟩⟩
  · rintro ⟨⟨hs, hf, hn⟩, rfl | ⟨-, -, hrest⟩⟩
    · exact .inr ⟨hs, hf, hn, fun _ h => nomatch h⟩
    · exact .inr ⟨hs, hf, hn, hrest⟩

/-- A hop has a view if the tree has columns for it. -/
theorem meets_hop (hp : p.Sound) (next fallback : Namespace) (a : Artifact) :
    Meets (OnlyIf (¬ HasHop p.tree a.namespaceOf a.fallback next))
      (fun b => HasHop p.tree a.namespaceOf a.fallback next ∧ b.namespaceOf = next ∧
        b.fallback = fallback) (p.remapper.hop p.ctx p.tree next fallback a) := by
  have hview := view_isOk p.tree a.namespaceOf a.fallback next
  unfold Remapper.hop
  dsimp only
  refine Meets.bind (meets_ofExcept (fun v hv => hview.mp ⟨v, hv⟩) fun e he _ hhas => ?_)
    fun v hhas => ?_
  · obtain ⟨v, hv⟩ := hview.mpr hhas
    cases hv.symm.trans he
  · refine (meets_produce p (a.deriveInto next.name next fallback)
      (Remapper.unaffected_remapFile hp.resources _ _ _ _)).mono
        (fun _ he he' => absurd he' he) fun b hb => ?_
    rw [hb]
    exact ⟨hhas, rfl, rfl⟩

/-- A jar is remapped along a path if that is paved. -/
theorem meets_remapAlong (hp : p.Sound) (fallback : Namespace) (path : List Namespace)
    (a : Artifact) :
    Meets (OnlyIf (¬ Paved p.tree a.namespaceOf a.fallback path))
      (fun _ => Paved p.tree a.namespaceOf a.fallback path)
      (p.remapper.remapAlong p.ctx p.tree fallback path a) := by
  induction path generalizing a with
  | nil => exact meets_pure (.inl rfl)
  | cons next rest ih =>
    have hhop := fun fallback => (meets_hop hp next fallback a).imp
      fun h (hpaved : Paved p.tree a.namespaceOf a.fallback (next :: rest)) =>
        h (paved_cons_iff.mp hpaved).1
    cases rest with
    | nil =>
      refine (hhop fallback).mono (fun _ he => he) fun b hb => ?_
      exact paved_cons_iff.mpr ⟨hb.1, .inl rfl⟩
    | cons second rest =>
      refine (hhop a.namespaceOf).bind fun b ⟨hhas, hns, hfallback⟩ => ?_
      have hrest := ih b
      rw [hns, hfallback] at hrest
      refine hrest.mono (fun _ he he' hpaved => ?_) fun _ h => paved_cons_iff.mpr ⟨hhas, h⟩
      exact he he' (paved_cons_iff.mp hpaved).2

/-! ## What the loader finishes -/

theorem unaffected_widenArtifact (p : Pipeline) (path : String) (a : Artifact) :
    Unaffected (Widener.widenArtifact p.ctx path a) := by
  unfold Widener.widenArtifact
  refine (Widener.unaffected_read path).bind fun w _ => ?_
  split
  · exact meets_throw id
  · refine (meets_produce p (a.derive w.tag) (unaffected_rewriteJar _ _ fun j => ?_)).mono
      (fun _ he => he) fun _ _ => trivial
    exact Jar.failsOnlyWith_editEntries (w.failsOnlyWith_widenEntry p.ctx.codec) j

theorem unaffected_afterRemap (p : Pipeline) (patcher : Patcher) (a : Artifact) :
    Unaffected (patcher.afterRemap p.ctx a) := by
  induction patcher with
  | plain base => exact meets_pure trivial
  | jarMod base mods => exact meets_pure trivial
  | binary b =>
    unfold Patcher.afterRemap BinaryPatches.afterRemap
    split
    · exact meets_pure trivial
    · refine (meets_produce p (a.derive b.fixedTag) ?_).mono (fun _ he => he) fun _ _ => trivial
      exact unaffected_rewriteJar _ _ (Jar.failsOnlyWith_editEntries fun _ _ => failsOnlyWith_ok _)
  | widened inner widener ih => exact ih.bind fun b _ => unaffected_widenArtifact p widener b

/-! ## Requests -/

/-- A derivation that fails for a namespace is off its route, and one that is off its route
gives nothing. -/
theorem meets_derive (hp : p.Sound) (env : Environment) (ns fallback : Namespace) :
    Meets (OnlyIf (¬ p.Routed env ns fallback)) (fun _ => p.Routed env ns fallback)
      (p.derive env ns fallback) := by
  unfold derive
  have hnone : p.start? env = none → ¬ p.Routed env ns fallback := by
    rintro hnone ⟨start, path, hstart, -⟩
    cases hnone.symm.trans hstart
  refine ((meets_patched hp env).imp hnone).bind fun a ha => ?_
  have hstart : ∀ {start}, p.start? env = some start → start = (a.namespaceOf, a.fallback) :=
    fun hstart => Option.some.inj (hstart.symm.trans ha)
  unfold pathBetween
  refine Meets.bind (meets_ofExcept (fun _ h => h) fun e he _ => ?_) fun path hpath => ?_
  · rintro ⟨start, path, hs, hpath, -⟩
    rw [hstart hs] at hpath
    cases he.symm.trans hpath
  · have hroute : p.Routed env ns fallback ↔ Paved p.tree a.namespaceOf a.fallback path := by
      constructor
      · rintro ⟨start, path', hs, hpath', hpaved⟩
        rw [hstart hs] at hpath' hpaved
        obtain rfl := Except.ok.inj (hpath'.symm.trans hpath)
        exact hpaved
      · exact fun hpaved => ⟨_, path, ha, hpath, hpaved⟩
    rw [hroute]
    refine (meets_remapAlong hp fallback path a).bind fun b hpaved => ?_
    exact (unaffected_afterRemap p p.patcher b).onlyIf.mono (fun _ he => he) fun _ _ => hpaved

end Pipeline

end JarDerivation
