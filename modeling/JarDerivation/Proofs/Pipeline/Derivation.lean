-- Each stage of a derivation realizes its part of the recipe, and so does the whole of
-- it: a request comes to what its recipe makes, whatever was requested before. The
-- artifact goes by the names of the draft; only the fallback that the last hop ends
-- in is another one, and no stage after it reads that.
import JarDerivation.Proofs.Pipeline.Chains
import JarDerivation.Proofs.Pipeline.Keeping

namespace JarDerivation

/-- The files that a patcher reads besides the game. -/
def Patcher.inputs : Patcher → List String
  | plain _ => []
  | jarMod _ mods => mods
  | binary b => [b.archive]
  | widened inner widener => widener :: inner.inputs

namespace Pipeline

variable {p : Pipeline} {f : Files} {T : List Draft} {v w : Workspace} {a client server : Artifact}
  {m mc ms : Draft}

/-- A path outside of the cache of the pipeline. -/
abbrev Outside (p : Pipeline) (f : Files) (path : String) : Prop :=
  Cache.Outside p.ctx.config.cacheRoot p.version f path

/-- A pipeline on an empty cache whose inputs lie outside of it and whose engine keeps its
contract. -/
structure Steady (p : Pipeline) (f : Files) : Prop where
  bare : p.Bare f
  raw : ∀ r ∈ p.rawJars, p.Outside f r.2.path
  inputs : ∀ path ∈ p.patcher.inputs, p.Outside f path
  engine : p.remapper.engine.Deterministic

/-! ## Raw jars -/

theorem realizes_raw (hs : p.Steady f) (hk : Keeps p f T w) (env : Environment) :
    Realizes p f T w (p.raw env) (.ofOption (p.rawDraft f env))
      fun a m v => Stands p f T v a m ∧ a.fallback.name = m.fallbackName := by
  unfold raw rawDraft
  dsimp only
  cases hraw : p.rawJars.lookup env.rawSource with
  | none => exact realizes_throw hk
  | some jar =>
    obtain ⟨_, _, heq, -⟩ := List.lookup_eq_some_iff.mp hraw
    have hout := hs.raw (env.rawSource, jar) (by simp [heq])
    have hsame : w.files.isFile jar.path = f.isFile jar.path :=
      Files.isFile_congr (hk.filled.find?_outside hout)
    intro _ r v hx
    rw [Work.exec_bind, Work.exec_ofExcept] at hx
    cases hns : p.ctx.registry.lookup jar.namespaceName with
    | error e =>
      rw [hns] at hx
      cases hx
      exact ⟨.refl hk, by simp [hns, Except.toOption]⟩
    | ok ns =>
      rw [hns] at hx
      replace hx : Work.exec (if w.files.isFile jar.path then
          pure (.raw p.ctx.config.cacheRoot p.version env ns ns jar.path) else throw _) w =
            (r, v) := hx
      rw [hsame] at hx
      by_cases hfile : f.isFile jar.path = true
      · rw [if_pos hfile] at hx
        cases hx
        refine ⟨.refl hk, ⟨env, [], ns.name, ns.name, f.jar? jar.path⟩, ?_, ?_, rfl⟩
        · simp [hns, hfile, Except.toOption]
        · exact ⟨⟨rfl, rfl, rfl, rfl, rfl⟩, .outside hout⟩
      · rw [if_neg hfile] at hx
        cases hx
        exact ⟨.refl hk, by simp [hfile]⟩

/-! ## Stages before the remap -/

theorem mergeFault?_eq_none (hc : p.Named client mc ∧ client.fallback.name = mc.fallbackName)
    (hs : p.Named server ms ∧ server.fallback.name = ms.fallbackName) :
    p.patcher.base.mergeFault? p.patcher.name p.ctx.config client server = none ↔
      p.combines mc ms = true := by
  unfold BasePatcher.mergeFault? combines
  rw [hc.1.namespaceOf, hc.2, hs.1.namespaceOf, hs.2]
  cases p.patcher.base.canCombine <;> cases p.ctx.config.ignoreMergeFallback <;>
    simp [not_or]

theorem makes_mergeFiles (hbare : p.Bare f) {path : String} {e : Environment} {tags : List String}
    (hpath : path = p.artifactPath e tags) (merger : JarMerger) (c s : String) (jc js : Option Jar) :
    Makes p f [(c, jc), (s, js)] (do let _ ← merger.mergeFiles c s path) path
      (jc.bind fun c => js.bind fun s => (merger.merge c s).outcome.toOption.map (·.jar)) := by
  refine Makes.then_pure (makes_openJar (by simp) fun jc _ => makes_openJar (by simp) fun js _ => ?_) _
  have hwritten : (merger.merge jc js).outcome.toOption.map (·.jar) =
      (((fun r => (r.jar, r.stats)) <$> merger.merge jc js).outcome.toOption.map Prod.fst) := by
    rw [show ((fun r : MergeState => (r.jar, r.stats)) <$> merger.merge jc js).outcome =
      (merger.merge jc js).outcome >>= fun r => .ok (r.jar, r.stats) from Traced.outcome_bind _ _]
    cases (merger.merge jc js).outcome <;> rfl
  rw [hwritten]
  exact makes_writeJarWith hbare hpath _

/-- Merging two artifacts. -/
theorem realizes_merge (hT : p.Consistent T) (hs : p.Steady f) (hk : Keeps p f T w)
    (hc : Stands p f T w client mc ∧ client.fallback.name = mc.fallbackName)
    (hserver : Stands p f T w server ms ∧ server.fallback.name = ms.fallbackName) :
    Realizes p f T w (p.patcher.merge p.ctx client server) (p.mergedDraft f mc ms)
      fun a m v => Stands p f T v a m ∧ a.fallback.name = m.fallbackName := by
  have hfault := mergeFault?_eq_none ⟨hc.1.toNamed, hc.2⟩ ⟨hserver.1.toNamed, hserver.2⟩
  unfold Patcher.merge BasePatcher.merge mergedDraft
  cases h : p.patcher.base.mergeFault? p.patcher.name p.ctx.config client server with
  | some e =>
    rw [h] at hfault
    rw [if_neg (by simpa using hfault)]
    exact realizes_throw hk
  | none =>
    rw [if_pos (hfault.mp h)]
    refine (realizes_toOption hk _).bind ?_
    rintro merger _ v hafter rfl
    have hnamed : p.Named (BasePatcher.mergeTarget p.patcher.name client server)
        ⟨.combined, s!"{p.patcher.name}-merged" :: (mc.tags ++ ms.tags), mc.namespaceName,
          mc.fallbackName, mc.jar.bind fun c => ms.jar.bind fun s =>
            (merger.merge c s).outcome.toOption.map (·.jar)⟩ :=
      ⟨hc.1.root, hc.1.version, rfl, by simp [BasePatcher.mergeTarget, Artifact.cached, hc.1.tags,
        hserver.1.tags], hc.1.namespaceOf⟩
    have hbuild := makes_mergeFiles hs.bare (hnamed.path_eq rfl) merger
      client.path server.path mc.jar ms.jar
    refine (realizes_produce hT hs.bare hafter.keeps hnamed rfl ?_ hbuild).mono ?_
    · simp [hc.1.settled.after hafter.trusted, hserver.1.settled.after hafter.trusted]
    · rintro a m v - ⟨rfl, rfl, hmade⟩
      exact ⟨hmade.toStands, hc.2⟩

/-- A stage that makes one artifact of another. -/
theorem realizes_derive (hT : p.Consistent T) (hs : p.Steady f) (hk : Keeps p f T w)
    (ha : Stands p f T w a m) {tag fallbackName : String} {ns fallback : Namespace}
    {build : Work Unit} {jar : Option Jar} (inputs : Inputs)
    (hinputs : ∀ i ∈ inputs, Settled p f T w i.1 i.2)
    (hbuild : ∀ e tags, (a.deriveInto tag ns fallback).path = p.artifactPath e tags →
      Makes p f inputs build (a.deriveInto tag ns fallback).path jar) :
    Realizes p f T w (p.ctx.produce (a.deriveInto tag ns fallback) build)
      (p.stage f (m.deriveInto tag ns.name fallbackName jar))
      fun b s v => Made p f T v b s ∧ b.fallback = fallback ∧ s.fallbackName = fallbackName := by
  have hnamed := ha.toNamed.deriveInto tag ns fallback fallbackName jar
  refine (realizes_produce hT hs.bare hk hnamed rfl hinputs
    (hbuild _ _ (hnamed.path_eq rfl))).mono ?_
  rintro b s v - ⟨rfl, rfl, hmade⟩
  exact ⟨hmade, rfl, rfl⟩

theorem Named.derive_eq (h : p.Named a m) (tag : String) (jar : Option Jar) :
    m.derive tag jar = m.deriveInto tag a.namespaceOf.name m.fallbackName jar := by
  rw [h.namespaceOf, Draft.derive]

/-- A stage that edits the jar of an artifact and stays in its namespaces. -/
theorem realizes_edit (hT : p.Consistent T) (hs : p.Steady f) (hk : Keeps p f T w)
    (ha : Stands p f T w a m) (tag : String) (edit : Jar → Traced Jar) :
    Realizes p f T w
      (p.ctx.produce (a.derive tag) (Work.rewriteJar a.path (a.derive tag).path edit))
      (p.stage f (m.derive tag (m.jar.bind fun j => (edit j).outcome.toOption)))
      fun b s v => Made p f T v b s ∧ (a.fallback.name = m.fallbackName →
        b.fallback.name = s.fallbackName) := by
  rw [ha.toNamed.derive_eq]
  refine (realizes_derive hT hs hk ha [(a.path, m.jar)] ?_ ?_).mono ?_
  · simp [ha.settled]
  · exact fun e tags hpath => makes_rewriteJar hs.bare hpath (by simp) edit
  · rintro b s v - ⟨hmade, hb, hfallback⟩
    exact ⟨hmade, fun h => by rw [hb, hfallback, h]⟩

/-- Applying the fixes. -/
theorem realizes_fix (hT : p.Consistent T) (hs : p.Steady f) (hk : Keeps p f T w)
    (ha : Stands p f T w a m ∧ a.fallback.name = m.fallbackName) :
    Realizes p f T w (p.patcher.fix p.ctx a) (p.fixedDraft f m)
      fun b s v => Made p f T v b s ∧ b.fallback.name = s.fallbackName :=
  (realizes_edit hT hs hk ha.1 "fixed" _).mono fun _ _ _ _ h => ⟨h.1, h.2 ha.2⟩

/-- The entries of the mods are laid over each other before the game is read. -/
theorem makes_collect {α : Type} {inputs : Inputs} {path : String} {mods : List String}
    {k : Text.Ascending Bytes → Work α} {made : Text.Ascending Bytes → Option Jar}
    (hmods : ∀ mod ∈ mods, (mod, f.jar? mod) ∈ inputs)
    (hk : ∀ overlay, Makes p f inputs (k overlay) path (made overlay)) :
    Makes p f inputs (JarMod.collect mods >>= k) path ((overlay f mods).bind made) := by
  unfold JarMod.collect overlay
  generalize ([] : Text.Ascending Bytes) = start
  induction mods generalizing start with
  | nil => exact hk start
  | cons mod rest ih =>
    obtain ⟨hmod, hrest⟩ := List.forall_mem_cons.mp hmods
    have hread := makes_openJar hmod fun j _ =>
      makes_ofExcept (r := JarMod.overlayJar start j) fun laid => ih hrest laid
    simpa only [List.foldlM_cons, bind_assoc, Option.bind_eq_bind, Option.bind_assoc] using hread

theorem makes_patched (hbare : p.Bare f) {inputs : Inputs} {path : String} {e : Environment}
    {tags : List String} (hpath : path = p.artifactPath e tags) (b : BinaryPatches)
    {input : String} {o : Option Jar} (hinput : (input, o) ∈ inputs)
    (harchive : (b.archive, f.jar? b.archive) ∈ inputs) :
    Makes p f inputs (do
      let _ ← Work.openJar input
      let patches ← Work.ofExcept (BinaryPatches.readPatches (← Work.openJar b.archive))
      Work.rewriteJar input path (b.apply patches)) path (binaryPatched f b o) := by
  have hsame : binaryPatched f b o = o.bind fun _ => (f.jar? b.archive).bind fun archive =>
      (BinaryPatches.readPatches archive).toOption.bind fun patches =>
        o.bind fun game => (b.apply patches game).outcome.toOption := by
    unfold binaryPatched
    cases o <;> rfl
  rw [hsame]
  exact makes_openJar hinput fun _ _ => makes_openJar harchive fun _ _ =>
    makes_ofExcept fun _ => makes_rewriteJar hbare hpath hinput _

/-- Laying the mods over the game. -/
theorem realizes_jarMod (hT : p.Consistent T) (hs : p.Steady f) (hk : Keeps p f T w)
    (ha : Made p f T w a m ∧ a.fallback.name = m.fallbackName) (base : BasePatcher)
    {mods : List String} (hmods : ∀ mod ∈ mods, p.Outside f mod) :
    Realizes p f T w ((Patcher.jarMod base mods).transform p.ctx a)
      (p.patchedDraft f m (.jarMod base mods))
      fun b s v => Made p f T v b s ∧ b.fallback.name = s.fallbackName := by
  show Realizes p f T w (if mods.isEmpty then pure a else _)
    (if mods.isEmpty then pure m else _) _
  refine .ite Iff.rfl (realizes_pure hk ha) ?_
  rw [ha.1.toNamed.derive_eq]
  refine (realizes_derive hT hs hk ha.1.toStands
    ((a.path, m.jar) :: mods.map fun mod => (mod, f.jar? mod)) ?_ ?_).mono ?_
  · exact List.forall_mem_cons.mpr ⟨ha.1.settled, List.forall_mem_map.mpr fun mod hmod =>
      .outside (hmods mod hmod)⟩
  · intro e tags hpath
    refine makes_collect (fun mod hmod => List.mem_cons_of_mem _
      (List.mem_map.mpr ⟨mod, hmod, rfl⟩)) fun overlay => ?_
    exact makes_rewriteJar hs.bare hpath (by simp) _
  · rintro b s v - ⟨hmade, hb, hfallback⟩
    exact ⟨hmade, by rw [hb, hfallback, ha.2]⟩

/-- Patching the game, which may give it a namespace of its own. -/
theorem realizes_binary (hT : p.Consistent T) (hs : p.Steady f) (hk : Keeps p f T w)
    (ha : Made p f T w a m ∧ a.fallback.name = m.fallbackName) {b : BinaryPatches}
    (harchive : p.Outside f b.archive) :
    Realizes p f T w ((Patcher.binary b).transform p.ctx a) (p.patchedDraft f m (.binary b))
      fun b s v => Made p f T v b s ∧ b.fallback.name = s.fallbackName := by
  have hsettled : ∀ i ∈ [(a.path, m.jar), (b.archive, f.jar? b.archive)],
      Settled p f T w i.1 i.2 :=
    List.forall_mem_cons.mpr ⟨ha.1.settled, List.forall_mem_singleton.mpr (.outside harchive)⟩
  unfold Patcher.transform BinaryPatches.transform BinaryPatches.target patchedDraft
  cases b.outputNamespace with
  | none =>
    dsimp only
    rw [show Work.ofExcept (.ok (a.derive b.name)) = pure (a.derive b.name) from rfl, pure_bind,
      ha.1.toNamed.derive_eq]
    refine (realizes_derive hT hs hk ha.1.toStands _ hsettled fun e tags hpath =>
      makes_patched hs.bare hpath b (by simp) (by simp)).mono ?_
    rintro b s v - ⟨hmade, hb, hfallback⟩
    exact ⟨hmade, by rw [hb, hfallback, ha.2]⟩
  | some name =>
    have htarget : Work.ofExcept (do
        return a.deriveInto b.name (← p.ctx.registry.lookup name) a.namespaceOf) =
          Work.ofExcept (p.ctx.registry.lookup name) >>= fun ns =>
            pure (a.deriveInto b.name ns a.namespaceOf) := by
      cases p.ctx.registry.lookup name <;> rfl
    dsimp only
    rw [htarget, bind_assoc]
    refine (realizes_toOption hk _).bind ?_
    rintro ns _ v hafter rfl
    rw [pure_bind, ← ha.1.namespaceOf]
    refine (realizes_derive hT hs hafter.keeps (ha.1.toStands.after hafter) _
      (fun i hi => (hsettled i hi).after hafter.trusted) fun e tags hpath =>
        makes_patched hs.bare hpath b (by simp) (by simp)).mono ?_
    rintro b s v - ⟨hmade, hb, hfallback⟩
    exact ⟨hmade, by rw [hb, hfallback]⟩

/-- Applying the patches of a loader. -/
theorem realizes_transform (hT : p.Consistent T) (hs : p.Steady f) (hk : Keeps p f T w)
    (ha : Made p f T w a m ∧ a.fallback.name = m.fallbackName) (patcher : Patcher)
    (hinputs : ∀ path ∈ patcher.inputs, p.Outside f path) :
    Realizes p f T w (patcher.transform p.ctx a) (p.patchedDraft f m patcher)
      fun b s v => Made p f T v b s ∧ b.fallback.name = s.fallbackName := by
  induction patcher with
  | plain base => exact realizes_pure hk ha
  | jarMod base mods => exact realizes_jarMod hT hs hk ha base hinputs
  | binary b => exact realizes_binary hT hs hk ha (hinputs b.archive (by simp [Patcher.inputs]))
  | widened inner widener ih =>
    exact ih fun path hpath => hinputs path (List.mem_cons_of_mem _ hpath)

/-- What is remapped for all requests of an environment. -/
theorem realizes_patched (hT : p.Consistent T) (hs : p.Steady f) (hk : Keeps p f T w)
    (env : Environment) :
    Realizes p f T w (p.patched env) (p.baseDraft f env)
      fun a m v => Made p f T v a m ∧ a.fallback.name = m.fallbackName := by
  have hrest : ∀ {input : Work Artifact}, Realizes p f T w input (p.inputDraft f env)
      (fun a m v => Stands p f T v a m ∧ a.fallback.name = m.fallbackName) →
      Realizes p f T w (do
        let fixed ← p.patcher.fix p.ctx (← input)
        p.patcher.transform p.ctx fixed) (p.baseDraft f env)
        fun a m v => Made p f T v a m ∧ a.fallback.name = m.fallbackName := fun hinput => by
    refine hinput.bind fun input mi v hafter hinput => ?_
    refine (realizes_fix hT hs hafter.keeps hinput).bind fun fixed mf u hafter' hfixed => ?_
    exact realizes_transform hT hs hafter'.keeps hfixed p.patcher hs.inputs
  unfold patched
  cases env with
  | client =>
    dsimp only
    exact hrest (realizes_raw hs hk .client)
  | server =>
    dsimp only
    exact hrest (realizes_raw hs hk .server)
  | datagen =>
    dsimp only
    exact hrest (realizes_raw hs hk .datagen)
  | combined =>
    have hmerged : Realizes p f T w
        (do p.patcher.merge p.ctx (← p.raw .client) (← p.raw .server))
        (p.inputDraft f .combined)
        fun a m v => Stands p f T v a m ∧ a.fallback.name = m.fallbackName := by
      refine (realizes_raw hs hk .client).bind fun client mc v hafter hc => ?_
      refine (realizes_raw hs hafter.keeps .server).bind fun server ms u hafter' hserver => ?_
      exact realizes_merge hT hs hafter'.keeps ⟨hc.1.after hafter', hc.2⟩ hserver
    simpa only [bind_assoc] using hrest hmerged

/-! ## The remap -/

theorem realizes_pathBetween (hk : Keeps p f T w) (hnamed : p.Named a m)
    (hfallback : a.fallback.name = m.fallbackName) (ns fallback : Namespace) :
    Realizes p f T w (p.pathBetween a.namespaceOf a.fallback ns fallback)
      (Recipe.ofOption (p.route m ns.name fallback.name))
      fun path names _ => names = path.map Namespace.name := by
  unfold pathBetween route
  rw [hnamed.namespaceOf, hfallback]
  refine realizes_look hk ?_ (Work.exec_ofExcept _ w)
  cases p.ctx.registry.ask
    (Registry.resolvePath m.namespaceName m.fallbackName ns.name fallback.name) with
  | error e => rfl
  | ok path => exact ⟨_, rfl, rfl⟩

/-- The outcome of a call to an engine that keeps its contract. -/
theorem outcome_remapClasses {r : Remapper} (h : r.engine.Deterministic) (earlier : Nat)
    (call : EngineCall) :
    (r.remapClasses earlier call).outcome = (r.remapClasses 0 call).outcome := by
  have hrun : (r.engine.run r.codec earlier call).outcome =
      (r.engine.run r.codec 0 call).outcome := by
    unfold RemapEngine.run
    cases hengine : r.engine with
    | structural => rfl
    | custom run =>
      rw [hengine] at h
      have hsame : run earlier call = run 0 call := h earlier call
      simp [hsame]
  unfold Remapper.remapClasses
  rw [Traced.outcome_bind, Traced.outcome_bind, hrun]

theorem makes_remapFile (hbare : p.Bare f) {inputs : Inputs} {path : String} {e : Environment}
    {tags : List String} (hpath : path = p.artifactPath e tags) {r : Remapper}
    (hengine : r.engine.Deterministic) (view : MappingView) {input : String} {o : Option Jar}
    (hinput : (input, o) ∈ inputs) :
    Makes p f inputs (r.remapFile view input path []) path (o.bind (r.remapped view)) := by
  refine makes_openJar hinput fun j _ => makes_ofExcept fun _ => makes_get fun w => ?_
  show Makes p f inputs _ path
    ((r.remapClasses 0 ⟨view, Remapper.classesOf j, []⟩).outcome.toOption.bind fun classes =>
      (r.assemble view j classes).toOption)
  rw [← outcome_remapClasses hengine (Remapper.earlierCalls w.trace)]
  exact makes_ofTraced fun classes =>
    makes_writeJar hbare hpath (Traced.ofExcept (r.assemble view j classes))

/-- One hop. -/
theorem realizes_hop (hT : p.Consistent T) (hs : p.Steady f) (hk : Keeps p f T w)
    (ha : Made p f T w a m ∧ a.fallback.name = m.fallbackName) (next fallback : Namespace) :
    Realizes p f T w (p.remapper.hop p.ctx p.tree next fallback a) (p.hopDraft f m next.name)
      fun b s v => Made p f T v b s ∧ b.fallback = fallback ∧
        s.fallbackName = a.namespaceOf.name := by
  unfold Remapper.hop hopDraft
  rw [ha.1.namespaceOf, ha.2]
  refine (realizes_toOption hk _).bind ?_
  rintro view _ v hafter rfl
  rw [← ha.1.namespaceOf]
  refine (realizes_derive hT hs hafter.keeps (ha.1.toStands.after hafter)
    [(a.path, m.jar)] ?_ fun e tags hpath =>
      makes_remapFile hs.bare hpath hs.engine view (by simp)).mono fun _ _ _ _ h => h
  simpa using ha.1.settled.after hafter.trusted

theorem realizes_remapAlong (hT : p.Consistent T) (hs : p.Steady f) (hk : Keeps p f T w)
    (ha : Made p f T w a m ∧ a.fallback.name = m.fallbackName) (fallback : Namespace)
    (path : List Namespace) :
    Realizes p f T w (p.remapper.remapAlong p.ctx p.tree fallback path a)
      (p.hopDrafts f (path.map Namespace.name) m) fun b s v => Made p f T v b s := by
  induction path generalizing w a m with
  | nil => exact realizes_pure hk ha.1
  | cons next rest ih =>
    rw [List.map_cons, hopDrafts_cons]
    cases rest with
    | nil =>
      rw [← bind_pure (p.remapper.remapAlong p.ctx p.tree fallback [next] a)]
      refine (realizes_hop hT hs hk ha next fallback).bind fun b s v hafter hb => ?_
      exact realizes_pure hafter.keeps hb.1
    | cons last others =>
      refine (realizes_hop hT hs hk ha next a.namespaceOf).bind fun b s v hafter hb => ?_
      exact ih hafter.keeps ⟨hb.1, by rw [hb.2.1, hb.2.2]⟩

/-! ## The stages after the remap -/

/-- The text that a file is read as. -/
theorem toOption_readText (g : Files) (path : String) :
    (g.readText path).toOption = (g.find? path).bind Content.text? := by
  unfold Files.readText Files.find?
  cases g.look path with
  | error fault => rfl
  | ok n =>
    cases n with
    | folder => rfl
    | file c =>
      dsimp only
      rw [Option.bind_some]
      cases c.text? <;> rfl

/-- Reading a widener from outside of the cache. -/
theorem realizes_read (hk : Keeps p f T w) {path : String} (hpath : p.Outside f path) :
    Realizes p f T w (Widener.read path) (Recipe.ofOption (f.widener? path))
      fun x y _ => x = y := by
  have hexec : (Widener.read path).exec w = (w.files.readText path >>= Widener.ofText, w) := by
    show Work.exec (Work.ofExcept (w.files.readText path) >>= _) w = _
    rw [Work.exec_bind, Work.exec_ofExcept]
    cases w.files.readText path with
    | error e => rfl
    | ok text => exact Work.exec_ofExcept _ w
  have hsame : f.widener? path = (w.files.readText path >>= Widener.ofText).toOption := by
    unfold Files.widener?
    rw [toOption_readText, ← hk.filled.find?_outside hpath, ← toOption_readText]
    cases w.files.readText path <;> rfl
  rw [hsame]
  refine realizes_look hk ?_ hexec
  cases w.files.readText path >>= Widener.ofText with
  | error e => rfl
  | ok widener => exact ⟨widener, rfl, rfl⟩

/-- Widening an artifact that was made. -/
theorem realizes_widenArtifact (hT : p.Consistent T) (hs : p.Steady f) (hk : Keeps p f T w)
    (ha : Made p f T w a m) {path : String} (hpath : p.Outside f path) :
    Realizes p f T w (Widener.widenArtifact p.ctx path a) (p.widenedDraft f path m)
      fun b s v => Made p f T v b s := by
  refine (realizes_read hk hpath).bind ?_
  rintro widener _ v hafter rfl
  dsimp only
  rw [ha.namespaceOf]
  refine .ite Iff.rfl (realizes_throw hafter.keeps) ?_
  exact (realizes_edit hT hs hafter.keeps (ha.toStands.after hafter) widener.tag _).mono
    fun _ _ _ _ h => h.1

theorem realizes_afterRemap (hT : p.Consistent T) (hs : p.Steady f) (hk : Keeps p f T w)
    (ha : Made p f T w a m) (patcher : Patcher)
    (hinputs : ∀ path ∈ patcher.inputs, p.Outside f path) :
    Realizes p f T w (patcher.afterRemap p.ctx a) (p.finishedDraft f m patcher)
      fun b s v => Made p f T v b s := by
  induction patcher with
  | plain base => exact realizes_pure hk ha
  | jarMod base mods => exact realizes_pure hk ha
  | binary b =>
    unfold Patcher.afterRemap BinaryPatches.afterRemap finishedDraft
    rw [ha.tags, ha.namespaceOf]
    refine .ite Iff.rfl (realizes_pure hk ha) ?_
    exact (realizes_edit hT hs hk ha.toStands b.fixedTag BinaryPatches.withoutLeftovers).mono
      fun _ _ _ _ h => h.1
  | widened inner widener ih =>
    obtain ⟨hwidener, hinner⟩ := List.forall_mem_cons.mp hinputs
    exact (ih hinner).bind fun b s v hafter hb =>
      realizes_widenArtifact hT hs hafter.keeps hb hwidener

/-! ## The whole of it -/

theorem realizes_derivation (hT : p.Consistent T) (hs : p.Steady f) (hk : Keeps p f T w)
    (env : Environment) (ns fallback : Namespace) :
    Realizes p f T w (p.derive env ns fallback) (p.recipe f env ns.name fallback.name)
      fun a m v => Made p f T v a m := by
  refine (realizes_patched hT hs hk env).bind fun a m v hafter ha => ?_
  refine (realizes_pathBetween hafter.keeps ha.1.toNamed ha.2 ns fallback).bind ?_
  rintro path _ u hafter' rfl
  have ha := And.intro (ha.1.after hafter') ha.2
  refine (realizes_remapAlong hT hs hafter'.keeps ha fallback path).bind fun b s x hafter hb => ?_
  exact realizes_afterRemap hT hs hafter.keeps hb p.patcher hs.inputs

theorem exec_provide (p : Pipeline) (env : Environment) (ns fallback : Namespace) (w : Workspace) :
    (p.provide env ns fallback).exec w =
      match w.provided.lookup ⟨env, ns.name, fallback.name⟩ with
      | some a => (.ok a, w)
      | none =>
        match (p.derive env ns fallback).exec w with
        | (.ok a, v) =>
          (.ok a, { v with provided := (⟨env, ns.name, fallback.name⟩, a) :: v.provided })
        | (.error e, v) => (.error e, v) := by
  unfold provide
  rw [Work.exec_bind]
  show Work.exec (match w.provided.lookup ⟨env, ns.name, fallback.name⟩ with
    | some a => pure a
    | none => _) w = _
  cases w.provided.lookup ⟨env, ns.name, fallback.name⟩ with
  | some a => rfl
  | none =>
    dsimp only
    rw [Work.exec_bind]
    cases (p.derive env ns fallback).exec w with
    | mk r v => cases r <;> rfl

/-- A request comes to what its recipe makes, also if it was provided before. -/
theorem realizes_provide (hT : p.Consistent T) (hs : p.Steady f) (hk : Keeps p f T w)
    (env : Environment) (ns fallback : Namespace) :
    Realizes p f T w (p.provide env ns fallback) (p.recipe f env ns.name fallback.name)
      fun a m v => ∃ j, m.jar = some j ∧ Settled p f T v a.path (some j) := by
  intro hstages r v hx
  rw [exec_provide] at hx
  cases hmemo : w.provided.lookup ⟨env, ns.name, fallback.name⟩ with
  | some a =>
    rw [hmemo] at hx
    cases hx
    obtain ⟨_, _, heq, -⟩ := List.lookup_eq_some_iff.mp hmemo
    obtain ⟨m, j, hm, hj, hsettled⟩ := hk.provided (⟨env, ns.name, fallback.name⟩, a) (by simp [heq])
    exact ⟨.refl hk, m, hm, j, hj, hsettled⟩
  | none =>
    rw [hmemo] at hx
    dsimp only at hx
    cases hrun : (p.derive env ns fallback).exec w with
    | mk r' v' =>
      obtain ⟨hafter, hr⟩ := realizes_derivation hT hs hk env ns fallback hstages r' v' hrun
      rw [hrun] at hx
      cases r' with
      | error e =>
        cases hx
        exact ⟨hafter, hr⟩
      | ok a =>
        cases hx
        obtain ⟨m, hm, hmade⟩ := hr
        obtain ⟨j, hj⟩ := hmade.jar
        have hsettled : Settled p f T v' a.path (some j) := hj ▸ hmade.settled
        refine ⟨⟨⟨hafter.keeps.filled, hafter.keeps.right, ?_⟩, hafter.trusted⟩,
          m, hm, j, hj, hsettled.after fun _ _ ht => ht⟩
        refine List.forall_mem_cons.mpr ⟨⟨m, j, hm, hj, hsettled.after fun _ _ ht => ht⟩, ?_⟩
        intro entry hentry
        obtain ⟨m', j', hm', hj', hsettled'⟩ := hafter.keeps.provided entry hentry
        exact ⟨m', j', hm', hj', hsettled'.after fun _ _ ht => ht⟩

end Pipeline

end JarDerivation
