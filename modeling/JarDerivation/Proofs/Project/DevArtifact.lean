-- The jar to develop with. Putting a project together checks the namespaces of its raw
-- jars and the path from the namespace that the game runs in. What a request for the
-- jar needs is the path from where that jar starts, and a column for each hop, so it
-- can still fail for a namespace: just when the jar has no route.
import JarDerivation.Project
import JarDerivation.Proofs.Pipeline.Derivation
import JarDerivation.Proofs.Pipeline.Route

namespace JarDerivation

open Work

/-! ## What a script brings along -/

/-- A declaration whose patcher or resource remapper fails for no namespace. -/
def Declaration.Unrelated : Declaration → Prop
  | patcher q => q.Unrelated
  | resource r => r.Unrelated
  | _ => True

namespace Settings

/-- The declared patcher and the declared resource remappers fail for no namespace. -/
structure Unrelated (s : Settings) : Prop where
  patcher : s.patcher.Unrelated
  resources : ∀ r ∈ s.resources, r.Unrelated

theorem unrelated_start : start.Unrelated where
  patcher := by
    refine ⟨fun fix hfix entry bytes => ?_, fun handle h => nomatch h⟩
    obtain rfl := List.mem_singleton.mp hfix
    exact failsOnlyWith_ok _
  resources r hr := by
    obtain rfl := List.mem_singleton.mp hr
    exact ResourceRemapper.unrelated_accessWidener

theorem Unrelated.declare {s s' : Settings} {d : Declaration} (hs : s.Unrelated)
    (hd : d.Unrelated) (h : s.declare d = .ok s') : s'.Unrelated := by
  cases d with
  | namespaceOf name named targets =>
    obtain ⟨⟨ns, registry⟩, -, h⟩ := ok_of_bind h
    cases h
    exact ⟨hs.patcher, hs.resources⟩
  | patcher q =>
    cases h
    exact ⟨hd, hs.resources⟩
  | resource r =>
    cases h
    refine ⟨hs.patcher, fun r' hr' => ?_⟩
    rcases List.mem_append.mp hr' with hr' | hr'
    · exact hs.resources r' hr'
    · exact List.mem_singleton.mp hr' ▸ hd
  | mapping | dev | rawJar | hierarchy | codec | engine =>
    cases h
    exact ⟨hs.patcher, hs.resources⟩

theorem Unrelated.declareAll {ds : List Declaration} {s s' : Settings} (hs : s.Unrelated)
    (hds : ∀ d ∈ ds, d.Unrelated) (h : ds.foldlM Settings.declare s = .ok s') : s'.Unrelated := by
  induction ds generalizing s with
  | nil =>
    cases h
    exact hs
  | cons d rest ih =>
    obtain ⟨hd, hrest⟩ := List.forall_mem_cons.mp hds
    rw [List.foldlM_cons] at h
    obtain ⟨next, hnext, h⟩ := ok_of_bind h
    exact ih (hs.declare hd hnext) hrest h

theorem known_of_checkRawJars {s : Settings} {r : Registry} (h : s.checkRawJars r = .ok ())
    (env : Environment) (jar : RawJar) (hjar : s.rawJars.lookup env = some jar) :
    ∃ ns, r.lookup jar.namespaceName = .ok ns := by
  have hmem : env ∈ environments := by cases env <;> decide
  unfold checkRawJars at h
  have hone := forM_eq_ok.mp h _ hmem
  rw [hjar] at hone
  dsimp only at hone
  cases hns : r.lookup jar.namespaceName with
  | ok ns => exact ⟨ns, rfl⟩
  | error e =>
    rw [hns] at hone
    cases hone

/-- A path was found if there is a namespace to develop in. -/
theorem path_of_devNamespaces {s : Settings} {r : Registry} {prod ns fallback : Namespace}
    (h : s.devNamespaces r prod = .ok (some (ns, fallback))) :
    ∃ path, r.ask (Registry.resolvePath prod.name prod.name ns.name fallback.name) = .ok path := by
  unfold devNamespaces at h
  split at h
  · cases h
  · obtain ⟨ns, -, h⟩ := ok_of_bind h
    obtain ⟨fallback, -, h⟩ := ok_of_bind h
    obtain ⟨path, hpath, h⟩ := ok_of_bind h
    cases h
    exact ⟨path, hpath⟩

end Settings

/-! ## What has been checked -/

/-- What is known of a project that was put together for a game that runs in `prod`. -/
structure Project.Checked (p : Project) (prod : Namespace) : Prop extends p.pipeline.Sound where
  runsIn : p.pipeline.ctx.registry.lookup p.pipeline.patcher.prodNamespace = .ok prod
  reached : ∀ ns fallback, p.dev = some (ns, fallback) → ∃ path, p.pipeline.ctx.registry.ask
    (Registry.resolvePath prod.name prod.name ns.name fallback.name) = .ok path

theorem ProjectBuilder.checked_of_ends {b : ProjectBuilder} {w v : Workspace} {p : Project}
    (hb : ∀ d ∈ b.pending, d.Unrelated) (h : Ends b.finalize.2 w p v) : ∃ prod, p.Checked prod := by
  unfold finalize at h
  split at h
  · cases h
  · obtain ⟨_, _, -, h⟩ := ends_of_bind h
    obtain ⟨s, _, hs, h⟩ := ends_of_bind h
    obtain ⟨hs, -⟩ := ends_ofExcept hs
    have hunrelated := Settings.unrelated_start.declareAll hb hs
    unfold Settings.assemble at h
    obtain ⟨hierarchy, _, -, h⟩ := ends_of_bind h
    obtain ⟨disk, _, -, h⟩ := ends_of_bind h
    obtain ⟨tree, _, -, h⟩ := ends_of_bind h
    obtain ⟨prod, _, hprod, h⟩ := ends_of_bind h
    obtain ⟨_, _, hraw, h⟩ := ends_of_bind h
    obtain ⟨dev, _, hdev, h⟩ := ends_of_bind h
    obtain ⟨rfl, -⟩ := ends_pure h
    refine ⟨prod, ⟨hunrelated.patcher, hunrelated.resources, ?_⟩, (ends_ofExcept hprod).1, ?_⟩
    · exact s.known_of_checkRawJars (ends_ofExcept hraw).1
    · rintro ns fallback rfl
      exact s.path_of_devNamespaces (ends_ofExcept hdev).1

/-! ## Requests -/

/-- A request fails for a namespace only off its route, and off its route nothing is derived. -/
theorem Project.devArtifact_spec {p : Project} (hp : p.pipeline.Sound) {ns fallback : Namespace}
    (hdev : p.dev = some (ns, fallback)) (env : Environment) (u : Workspace) :
    match ((p.devArtifact env).exec u).1 with
    | .ok _ => u.provided.lookup ⟨env, ns.name, fallback.name⟩ ≠ none ∨
        p.pipeline.Routed env ns fallback
    | .error e => e.OfNamespaces → ¬ p.pipeline.Routed env ns fallback := by
  have hderive := (Pipeline.meets_derive hp env ns fallback).run u
  unfold devArtifact
  rw [hdev]
  dsimp only
  rw [Pipeline.exec_provide]
  cases hmemo : u.provided.lookup ⟨env, ns.name, fallback.name⟩ with
  | some a => exact .inl (by simp)
  | none =>
    dsimp only
    cases hrun : (p.pipeline.derive env ns fallback).exec u with
    | mk r v =>
      rw [hrun] at hderive
      cases r with
      | ok a => exact .inr hderive
      | error e => exact hderive

namespace ProjectBuilder

variable {b : ProjectBuilder} {w v : Workspace} {p : Project} {ns fallback : Namespace}

/-- A project that was put together fails for a namespace only where the jar that is asked for
has no route, and then the jar cannot be derived at all. A jar that starts in the namespace
that the game runs in has a path for sure, so only the columns of the tree can be missing. -/
theorem a_routed_dev_artifact_fails_for_no_namespace (hb : ∀ d ∈ b.pending, d.Unrelated)
    (h : b.finalize.2.exec w = (.ok p, v)) (hdev : p.dev = some (ns, fallback))
    (env : Environment) :
    (p.pipeline.Routed env ns fallback →
      ∀ u e, ((p.devArtifact env).exec u).1 = .error e → e.Unrelated) ∧
    (¬ p.pipeline.Routed env ns fallback →
      ∀ u, u.provided.lookup ⟨env, ns.name, fallback.name⟩ = none →
        ∃ e, ((p.devArtifact env).exec u).1 = .error e) ∧
    ∀ prod, p.pipeline.ctx.registry.lookup p.pipeline.patcher.prodNamespace = .ok prod →
      p.pipeline.start? env = some (prod, prod) →
        ∃ path, p.pipeline.ctx.registry.ask
            (Registry.resolvePath prod.name prod.name ns.name fallback.name) = .ok path ∧
          (p.pipeline.Routed env ns fallback ↔ Pipeline.Paved p.pipeline.tree prod prod path) := by
  obtain ⟨prod, hchecked⟩ := checked_of_ends hb h
  have hspec := p.devArtifact_spec hchecked.toSound hdev env
  refine ⟨fun hroute u e he hns => ?_, fun hroute u hmemo => ?_, fun prod' hprod' hstart => ?_⟩
  · have hu := hspec u
    rw [he] at hu
    exact hu hns hroute
  · have hu := hspec u
    cases hrun : ((p.devArtifact env).exec u).1 with
    | error e => exact ⟨e, rfl⟩
    | ok a =>
      rw [hrun] at hu
      exact absurd hu (not_or.mpr ⟨not_not.mpr hmemo, hroute⟩)
  · obtain rfl := Except.ok.inj (hchecked.runsIn.symm.trans hprod')
    obtain ⟨path, hpath⟩ := hchecked.reached ns fallback hdev
    refine ⟨path, hpath, fun ⟨start, path', hstart', hpath', hpaved⟩ => ?_, fun hpaved => ?_⟩
    · obtain rfl := Option.some.inj (hstart.symm.trans hstart')
      obtain rfl := Except.ok.inj (hpath.symm.trans hpath')
      exact hpaved
    · exact ⟨_, path, hstart, hpath, hpaved⟩

/-! ## A route, and a jar without one -/

/-- A game whose client is one class, in a file next to the project. -/
def clientFiles : Files :=
  ⟨(Files.home.push "client.jar",
    .file (.jar ⟨[⟨"a.class", Utf8.encode "\x7b\"name\":\"a\"\x7d"⟩], by decide, []⟩)) ::
      Files.empty.nodes⟩

/-- A project that develops in named classes. Its client is in a namespace of choice. -/
def developing (clientNamespace : String) : ProjectBuilder :=
  ⟨"1", .withCacheRoot "cache", .plain,
    [.namespaceOf officialNamespace false ["named"], .namespaceOf "named" true [],
      .namespaceOf "mojang" true [],
      .mapping (.ofSource (.memory "names" [MappingSource.memoryFile "names.json"
        ⟨[officialNamespace, "named"], [⟨[some "a", some "Game"], [], []⟩]⟩])),
      .rawJar .client ⟨"client.jar", clientNamespace⟩, .dev "named" officialNamespace], false⟩

theorem unrelated_developing (clientNamespace : String) :
    ∀ d ∈ (developing clientNamespace).pending, d.Unrelated := by
  simp [developing, Declaration.Unrelated]

/-- What a builder comes to: the namespaces to develop in, and what a request for the client
gives as the first one after that. -/
def developed (b : ProjectBuilder) (w : Workspace) :
    Option (Option (Namespace × Namespace) × Except Error String) :=
  match b.finalize.2.exec w with
  | (.ok p, v) =>
    if v.provided.isEmpty then some (p.dev, ((p.devArtifact .client).exec v).1.map (·.path))
    else none
  | (.error _, _) => none

theorem of_developed {dev : Option (Namespace × Namespace)} {r : Except Error String}
    (h : b.developed w = some (dev, r)) :
    ∃ p v, b.finalize.2.exec w = (.ok p, v) ∧ v.provided = [] ∧ p.dev = dev ∧
      ((p.devArtifact .client).exec v).1.map (·.path) = r := by
  unfold developed at h
  cases hrun : b.finalize.2.exec w with
  | mk outcome v =>
    rw [hrun] at h
    cases outcome with
    | error e => cases h
    | ok p =>
      dsimp only at h
      split at h
      · rename_i hempty
        cases h
        exact ⟨p, v, rfl, List.isEmpty_iff.mp hempty, rfl, rfl⟩
      · cases h

/-- A client that starts where the game runs has a route. -/
theorem an_official_client_is_routed :
    (∀ d ∈ (developing officialNamespace).pending, d.Unrelated) ∧
      ∃ p v, (developing officialNamespace).finalize.2.exec (.ofFiles clientFiles) = (.ok p, v) ∧
        p.dev = some (⟨"named", true⟩, ⟨officialNamespace, false⟩) ∧
        p.pipeline.Routed .client ⟨"named", true⟩ ⟨officialNamespace, false⟩ ∧
        ∀ u e, ((p.devArtifact .client).exec u).1 = .error e → e.Unrelated := by
  have hb := unrelated_developing officialNamespace
  have hdeveloped : (developing officialNamespace).developed (.ofFiles clientFiles) =
      some (some (⟨"named", true⟩, ⟨officialNamespace, false⟩),
        .ok "cache/1/client/minecraft-1-client-fixed+named.jar") := by decide +kernel
  obtain ⟨p, v, h, hfresh, hdev, hanswer⟩ := of_developed hdeveloped
  obtain ⟨hsafe, hlost, -⟩ := a_routed_dev_artifact_fails_for_no_namespace hb h hdev .client
  have hroute : p.pipeline.Routed .client ⟨"named", true⟩ ⟨officialNamespace, false⟩ := by
    by_contra hroute
    obtain ⟨e, he⟩ := hlost hroute v (by rw [hfresh]; rfl)
    rw [he] at hanswer
    cases hanswer
  exact ⟨hb, p, v, h, hdev, hroute, hsafe hroute⟩

/-- A client in a namespace that leads nowhere is only noticed when it is asked for. -/
theorem a_dev_artifact_can_fail_for_a_namespace :
    ¬ ∀ (b : ProjectBuilder) (w v u : Workspace) (p : Project) (env : Environment) (e : Error),
      (∀ d ∈ b.pending, d.Unrelated) → b.finalize.2.exec w = (.ok p, v) → p.dev.isSome →
        ((p.devArtifact env).exec u).1 = .error e → e.Unrelated := by
  intro hclaim
  have hdeveloped : (developing "mojang").developed (.ofFiles clientFiles) =
      some (some (⟨"named", true⟩, ⟨officialNamespace, false⟩),
        .error (.noRemapPath "mojang" "named")) := by decide +kernel
  obtain ⟨p, v, h, -, hdev, hanswer⟩ := of_developed hdeveloped
  cases hrun : ((p.devArtifact .client).exec v).1 with
  | ok a =>
    rw [hrun] at hanswer
    cases hanswer
  | error e =>
    rw [hrun] at hanswer
    cases hanswer
    have hdev' : p.dev.isSome = true := by rw [hdev]; rfl
    exact hclaim _ _ v v p .client _ (unrelated_developing "mojang") h hdev' hrun trivial

end ProjectBuilder

end JarDerivation
