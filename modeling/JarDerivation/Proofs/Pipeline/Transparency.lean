-- The cache is transparent: each request gives the jar that it gives as the only one on
-- an empty cache, or fails as it does there. What was requested before makes no
-- difference, nor does what requests have failed, nor what a forced reload finds in
-- the cache. For this a namespace that a request passes may not be called like a tag
-- of the stages after the remap: then one path stands for two different jars.
import JarDerivation.Proofs.Pipeline.Derivation

namespace JarDerivation

/-- A request for the jar of an environment in a namespace, with a fallback. -/
structure Demand where
  env : Environment
  ns : Namespace
  fallback : Namespace

/-- What was left in the cache at the path of an artifact. -/
structure Leftover where
  env : Environment
  tags : List String
  content : Content

namespace Pipeline

/-- The outcome of a request, and the workspace after it. -/
def serve (p : Pipeline) (d : Demand) (w : Workspace) : Except Error Artifact × Workspace :=
  (p.provide d.env d.ns d.fallback).run.run w

/-- The workspace after a sequence of requests. -/
def serveAll (p : Pipeline) (ds : List Demand) (w : Workspace) : Workspace :=
  ds.foldl (fun w d => (p.serve d w).2) w

/-- Files with leftovers in the cache. -/
def withLeftovers (p : Pipeline) (leftovers : List Leftover) (f : Files) : Files :=
  leftovers.foldl (fun g l => g.put (p.artifactPath l.env l.tags) l.content) f

def recipeOf (p : Pipeline) (f : Files) (d : Demand) : Recipe Draft :=
  p.recipe f d.env d.ns.name d.fallback.name

/-- Both requests have given an artifact, and these have the same jar, or both have failed. -/
inductive SameJar (f f' : Files) : Except Error Artifact → Except Error Artifact → Prop
  | made {a a' : Artifact} {j : Jar} : f.openJar a.path = .ok j → f'.openJar a'.path = .ok j →
    SameJar f f' (.ok a) (.ok a')
  | failed {e e' : Error} : SameJar f f' (.error e) (.error e')

/-- A request, made after other ones on files with leftovers, comes to what it comes to alone on
the files as they are without; and its jar is still the same after further requests. -/
def ServedAsIfAlone (p : Pipeline) (f : Files) (leftovers : List Leftover) (before : List Demand)
    (d : Demand) (later : List Demand) : Prop :=
  let served := p.serve d (p.serveAll before (.ofFiles (p.withLeftovers leftovers f)))
  let alone := p.serve d (.ofFiles f)
  SameJar (p.serveAll later served.2).files alone.2.files served.1 alone.1

/-- The chains of tags that a request derives, each with its environment. -/
def chainsOf (p : Pipeline) (f : Files) (d : Demand) : List (Environment × List String) :=
  (p.recipeOf f d).stages.map fun s => (s.env, s.tags)

/-- The chains of tags that requests derive have paths of their own. -/
def PathsApart (p : Pipeline) (f : Files) (ds : List Demand) : Prop :=
  ∀ d ∈ ds, ∀ d' ∈ ds, ∀ c ∈ p.chainsOf f d, ∀ c' ∈ p.chainsOf f d',
    p.artifactPath c.1 c.2 = p.artifactPath c'.1 c'.2 → c = c'

/-- No request passes a namespace that is called like a tag of the stages after the remap. -/
def NamesApart (p : Pipeline) (f : Files) (ds : List Demand) : Prop :=
  ∀ d ∈ ds, ∀ n ∈ p.hops f d.env d.ns.name d.fallback.name, n ∉ finishingTags f p.patcher

variable {p : Pipeline} {f : Files} {T : List Draft} {v w : Workspace} {ds : List Demand} {d : Demand}
  {leftovers : List Leftover}

/-! ## All stages of all requests -/

def stagesOf (p : Pipeline) (f : Files) (ds : List Demand) : List Draft :=
  ds.flatMap fun d => (p.recipeOf f d).stages

theorem consistent_stagesOf (hpaths : p.PathsApart f ds) (hnames : p.NamesApart f ds) :
    p.Consistent (p.stagesOf f ds) := by
  intro s hs s' hs' hpath
  obtain ⟨d, hd, hs⟩ := List.mem_flatMap.mp hs
  obtain ⟨d', hd', hs'⟩ := List.mem_flatMap.mp hs'
  obtain ⟨henv, htags⟩ := Prod.mk.inj (hpaths d hd d' hd' _ (List.mem_map_of_mem hs) _
    (List.mem_map_of_mem hs') hpath)
  rw [((climbs_recipe _ _ _).stage s hs).1, ((climbs_recipe _ _ _).stage s' hs').1] at henv
  have hnames' := hnames d' hd'
  unfold recipeOf at hs'
  rw [← henv] at hs' hnames'
  rw [stage_of_chain (hnames d hd) hnames' hs hs' htags]

/-! ## The beginning -/

theorem filled_withLeftovers (hbare : p.Bare f) {g : Files} (hg : p.Filled f g)
    (leftovers : List Leftover) : p.Filled f (p.withLeftovers leftovers g) := by
  induction leftovers generalizing g with
  | nil => exact hg
  | cons l rest ih =>
    unfold withLeftovers
    rw [List.foldl_cons]
    exact ih (Cache.Filled.leftover hg hbare l.env l.tags l.content)

/-- In the beginning no output is trusted. -/
theorem keeps_start (hbare : p.Bare f) (leftovers : List Leftover)
    (hstart : leftovers = [] ∨ p.ctx.config.forceReload = true) :
    Keeps p f T (.ofFiles (p.withLeftovers leftovers f)) := by
  refine ⟨filled_withLeftovers hbare (.refl _ _ f) leftovers, fun s hs ht => ?_,
    fun entry h => (by cases h)⟩
  exfalso
  obtain ⟨hfile, hfresh | hrebuilt⟩ := ht
  · rcases hstart with hnone | hforce
    · subst hnone
      obtain ⟨c, hc⟩ := Option.isSome_iff_exists.mp hfile
      exact hbare s.env s.tags c (Files.look_eq_ok.mp (Files.find?_eq_some.mp hc)).2.2
    · rw [hforce] at hfresh
      cases hfresh
  · cases hrebuilt

/-! ## A sequence of requests -/

/-- A request has come to what its recipe makes. -/
def Answers (p : Pipeline) (f : Files) (T : List Draft) (d : Demand) (r : Except Error Artifact)
    (w : Workspace) : Prop :=
  match r with
  | .ok a => ∃ m j, (p.recipeOf f d).outcome = some m ∧ m.jar = some j ∧
    Settled p f T w a.path (some j)
  | .error _ => (p.recipeOf f d).outcome = none

theorem Answers.after {r : Except Error Artifact} (h : Answers p f T d r v)
    (hafter : After p f T v w) : Answers p f T d r w := by
  cases r with
  | error e => exact h
  | ok a =>
    obtain ⟨m, j, hm, hj, hsettled⟩ := h
    exact ⟨m, j, hm, hj, hsettled.after hafter.trusted⟩

/-- Two answers to one request have the same jar. -/
theorem Answers.sameJar {r r' : Except Error Artifact} (h : Answers p f T d r v)
    (hk : Keeps p f T v) (h' : Answers p f T d r' w) (hk' : Keeps p f T w) :
    SameJar v.files w.files r r' := by
  cases r with
  | error e =>
    have h : (p.recipeOf f d).outcome = none := h
    cases r' with
    | error e' => exact .failed
    | ok a' =>
      obtain ⟨_, _, hm, -⟩ := h'
      rw [h] at hm
      cases hm
  | ok a =>
    obtain ⟨m, j, hm, hj, hsettled⟩ := h
    cases r' with
    | error e' =>
      rw [show (p.recipeOf f d).outcome = none from h'] at hm
      cases hm
    | ok a' =>
      obtain ⟨m', j', hm', hj', hsettled'⟩ := h'
      obtain rfl := Option.some.inj (hm.symm.trans hm')
      obtain rfl := Option.some.inj (hj.symm.trans hj')
      exact .made (hsettled.openJar hk) (hsettled'.openJar hk')

/-- What one request does. -/
theorem serve_spec (hT : p.Consistent T) (hs : p.Steady f) (hk : Keeps p f T w)
    (hd : ∀ s ∈ (p.recipeOf f d).stages, s ∈ T) :
    After p f T w (p.serve d w).2 ∧ Answers p f T d (p.serve d w).1 (p.serve d w).2 := by
  cases hrun : p.serve d w with
  | mk r v =>
    obtain ⟨hafter, hr⟩ := realizes_provide hT hs hk d.env d.ns d.fallback hd r v hrun
    refine ⟨hafter, ?_⟩
    cases r with
    | error e => exact hr
    | ok a =>
      obtain ⟨m, hm, j, hj, hsettled⟩ := hr
      exact ⟨m, j, hm, hj, hsettled⟩

/-- What a sequence of requests does. -/
theorem after_serveAll (hT : p.Consistent T) (hs : p.Steady f) (hk : Keeps p f T w)
    (hds : ∀ d ∈ ds, ∀ s ∈ (p.recipeOf f d).stages, s ∈ T) : After p f T w (p.serveAll ds w) := by
  induction ds generalizing w with
  | nil => exact .refl hk
  | cons d rest ih =>
    obtain ⟨hd, hrest⟩ := List.forall_mem_cons.mp hds
    have hafter := (serve_spec hT hs hk hd).1
    exact hafter.trans (ih hafter.keeps hrest)

/-- Whatever is requested in whatever order, from an empty cache or with a reload forced, each
request comes to what it comes to alone on an empty cache. -/
theorem each_request_is_served_as_if_alone (hsteady : p.Steady f)
    (hstart : leftovers = [] ∨ p.ctx.config.forceReload = true) (before later : List Demand)
    (d : Demand) (hpaths : p.PathsApart f (before ++ d :: later))
    (hnames : p.NamesApart f (before ++ d :: later)) :
    p.ServedAsIfAlone f leftovers before d later := by
  have hT := consistent_stagesOf hpaths hnames
  have hmem : ∀ d' ∈ before ++ d :: later, ∀ s ∈ (p.recipeOf f d').stages,
      s ∈ p.stagesOf f (before ++ d :: later) := fun d' hd' s hs =>
    List.mem_flatMap.mpr ⟨d', hd', hs⟩
  have hbefore := after_serveAll hT hsteady (keeps_start hsteady.bare leftovers hstart)
    fun d' hd' => hmem d' (List.mem_append_left _ hd')
  obtain ⟨hserved, hanswer⟩ := serve_spec hT hsteady hbefore.keeps (hmem d (by simp))
  have hlater := after_serveAll hT hsteady hserved.keeps
    fun d' hd' => hmem d' (List.mem_append_right _ (List.mem_cons_of_mem _ hd'))
  have hfresh : Keeps p f (p.stagesOf f (before ++ d :: later)) (.ofFiles f) :=
    keeps_start hsteady.bare [] (.inl rfl)
  obtain ⟨halone, hanswer'⟩ := serve_spec hT hsteady hfresh (hmem d (by simp))
  exact (hanswer.after hlater).sameJar hlater.keeps hanswer' halone.keeps

/-! ## A game with one entry -/

/-- A game whose jar has an entry that looks like a patch, and an archive without patches. -/
def gameFiles : Files :=
  ⟨(Files.home.push "client.jar", .file (.jar ⟨[⟨"a.binpatch", []⟩], by decide, []⟩)) ::
    (Files.home.push "patches.jar", .file (.jar .empty)) :: Files.empty.nodes⟩

/-- A pipeline for that game, with one remap from its own names. -/
def oneHop (patcher : Patcher) (target : String) (forceReload : Bool) : Pipeline where
  ctx := ⟨{ PipelineConfig.withCacheRoot "cache" with forceReload },
    ⟨[⟨⟨officialNamespace, false⟩, [[target]], none⟩, ⟨⟨target, true⟩, [[]], none⟩], []⟩, .json,
      .plain⟩
  version := "1"
  rawJars := [(.client, ⟨"client.jar", officialNamespace⟩)]
  patcher
  tree := ⟨[officialNamespace, target], [], []⟩
  remapper := ⟨.json, .structural, []⟩

/-- A request for the client in a namespace. -/
def clientIn (ns : String) : Demand := ⟨.client, ⟨ns, false⟩, ⟨officialNamespace, false⟩⟩

/-- If all files are less deep than artifacts, none of them is one. -/
theorem bare_of_depth
    (hdepth : ∀ node ∈ f.nodes, node.1.size <
      (Cache.base p.ctx.config.cacheRoot p.version).size + 2) : p.Bare f := by
  intro e tags c hc
  unfold Files.node? at hc
  rw [Cache.goal_artifactPath, if_neg (by simp)] at hc
  obtain ⟨before, after, heq, -⟩ := List.lookup_eq_some_iff.mp hc
  have hnode := hdepth _ (heq ▸ List.mem_append_right before List.mem_cons_self)
  simp at hnode

/-- A file that is less deep than artifacts lies outside of the cache. -/
theorem outside_of_isFile {path : String} (hfile : f.isFile path = true)
    (hdepth : (Path.goal path).size <
      (Cache.base p.ctx.config.cacheRoot p.version).size + 2) : p.Outside f path := by
  obtain ⟨c, hc⟩ := Option.isSome_iff_exists.mp hfile
  have hlook := Files.find?_eq_some.mp hc
  refine ⟨fun e tags hgoal => ?_, fun c' hc' => ?_⟩
  · rw [hgoal, Cache.goal_artifactPath] at hdepth
    simp at hdepth
  · have hnode := (Files.look_eq_ok.mp hlook).2.2
    rw [hc'] at hnode
    cases hnode
    exact hlook

theorem steady_oneHop {patcher : Patcher} {target : String} {forceReload : Bool}
    (hinputs : ∀ path ∈ patcher.inputs, path = "patches.jar") :
    (oneHop patcher target forceReload).Steady gameFiles where
  bare := by
    refine bare_of_depth ?_
    show ∀ node ∈ gameFiles.nodes, node.1.size < (Cache.base "cache" "1").size + 2
    decide +kernel
  raw := by
    intro r hr
    obtain rfl := List.mem_singleton.mp hr
    refine outside_of_isFile (by decide +kernel) ?_
    show (Path.goal "client.jar").size < (Cache.base "cache" "1").size + 2
    decide +kernel
  inputs := by
    intro path hpath
    rw [hinputs path hpath]
    refine outside_of_isFile (by decide +kernel) ?_
    show (Path.goal "patches.jar").size < (Cache.base "cache" "1").size + 2
    decide +kernel
  engine := trivial

/-- Chains have paths of their own if the parts of their tags tell them apart. -/
theorem pathsApart_of_chains {ds : List Demand} {chains : List (Environment × List String)}
    (hchains : ∀ d ∈ ds, ∀ c ∈ p.chainsOf f d, c ∈ chains)
    (happart : ∀ c ∈ chains, ∀ c' ∈ chains,
      c.1 = c'.1 → Cache.tagParts c.2 = Cache.tagParts c'.2 → c = c') : p.PathsApart f ds := by
  intro d hd d' hd' c hc c' hc' hpath
  obtain ⟨-, henv, htags⟩ := Cache.artifactPath_eq_iff.mp hpath
  exact happart c (hchains d hd c hc) c' (hchains d' hd' c' hc') henv htags

/-- A game that is remapped is served from old leftovers as it is from an empty cache. -/
theorem a_remapped_game_is_served_as_if_alone :
    let p := oneHop (.plain .default) "named" true
    let before := [clientIn "named", clientIn officialNamespace]
    p.Steady gameFiles ∧ p.PathsApart gameFiles (before ++ [clientIn "named"]) ∧
      p.NamesApart gameFiles (before ++ [clientIn "named"]) ∧
        p.ServedAsIfAlone gameFiles [⟨.client, ["fixed"], .raw []⟩] before (clientIn "named") [] := by
  intro p before
  have hsteady : p.Steady gameFiles := steady_oneHop fun path hpath => absurd hpath List.not_mem_nil
  have hchains : ∀ d ∈ before ++ [clientIn "named"], ∀ c ∈ p.chainsOf gameFiles d,
      c ∈ [(Environment.client, ["fixed"]), (.client, ["fixed", "named"])] := by decide +kernel
  have hpaths : p.PathsApart gameFiles (before ++ [clientIn "named"]) :=
    pathsApart_of_chains hchains (by decide +kernel)
  have hnames : p.NamesApart gameFiles (before ++ [clientIn "named"]) :=
    fun d hd n hn => List.not_mem_nil
  refine ⟨hsteady, hpaths, hnames, ?_⟩
  exact each_request_is_served_as_if_alone hsteady (.inr rfl) before [] _ hpaths hnames

/-! ## A namespace that is called like a tag -/

/-- A loader that drops the leftovers of its patches under a tag of its own. -/
def patchingLoader : Patcher :=
  .binary ⟨{ BasePatcher.default with prodNamespace := "loader" }, "forge", "patches.jar",
    fun _ bytes _ => .ok bytes, none, []⟩

/-- The jar that a request has given. -/
def jarOf (out : Except Error Artifact × Workspace) : Option Jar :=
  out.1.toOption.bind fun a => (out.2.files.openJar a.path).toOption

theorem ServedAsIfAlone.jarOf_eq {before : List Demand}
    (h : p.ServedAsIfAlone f leftovers before d []) :
    jarOf (p.serve d (p.serveAll before (.ofFiles (p.withLeftovers leftovers f)))) =
      jarOf (p.serve d (.ofFiles f)) := by
  have hsame : ∀ out out' : Except Error Artifact × Workspace,
      SameJar out.2.files out'.2.files out.1 out'.1 → jarOf out = jarOf out' := by
    rintro ⟨r, v⟩ ⟨r', v'⟩ hsame
    cases hsame with
    | made h h' => simp [jarOf, Except.toOption, h, h']
    | failed => rfl
  exact hsame _ _ h

/-- A jar without leftovers takes the place of one that is remapped into the namespace. -/
theorem a_request_is_not_always_served_as_if_alone :
    ¬ ∀ (p : Pipeline) (f : Files) (leftovers : List Leftover) (before later : List Demand)
      (d : Demand), p.Steady f → (leftovers = [] ∨ p.ctx.config.forceReload = true) →
        p.PathsApart f (before ++ d :: later) → p.ServedAsIfAlone f leftovers before d later := by
  intro h
  have hchains : ∀ d ∈ [clientIn officialNamespace] ++ [clientIn "forge-fixed"],
      ∀ c ∈ (oneHop patchingLoader "forge-fixed" false).chainsOf gameFiles d,
        c ∈ [(Environment.client, ["fixed"]), (.client, ["fixed", "forge"]),
          (.client, ["fixed", "forge", "forge-fixed"])] := by decide +kernel
  have hserved := h (oneHop patchingLoader "forge-fixed" false) gameFiles []
    [clientIn officialNamespace] [] (clientIn "forge-fixed")
    (steady_oneHop fun path hpath => List.mem_singleton.mp hpath) (.inl rfl)
    (pathsApart_of_chains hchains (by decide +kernel))
  exact absurd hserved.jarOf_eq (by decide +kernel)

end Pipeline

end JarDerivation
