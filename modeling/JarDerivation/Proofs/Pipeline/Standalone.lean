-- Remapping a jar that stands alone. The jars between two hops lie beside the output
-- under names of their own, and they are discarded however the work ends. What lay
-- under such a name before is lost, and no other file outside of the cache is touched.
import JarDerivation.Proofs.Pipeline.Confined

namespace JarDerivation

/-! ## Paths that end in a name -/

namespace Path

/-- A path whose last character is no slash and no dot ends in a name. -/
theorem named_of_last {p : String} {l : List Char} {d : Char} (hslash : d ≠ '/') (hdot : d ≠ '.')
    (hp : p.toList = l ++ [d]) : isDotted p = false ∧ wantsFolder p = false := by
  constructor
  · obtain ⟨parts, part, hcut⟩ := Text.cutEach_append_of_ne hslash l
    have hlast : lastName p = String.ofList (part ++ [d]) := by
      unfold lastName backwards segments Text.splitEach
      rw [hp, hcut]
      simp
    have hne : ∀ q : String, (∀ c ∈ q.toList, c = '.') → lastName p ≠ q := by
      rintro q hq rfl
      exact hdot (hq d (by simp [hlast]))
    simp [isDotted, hne]
  · rw [wantsFolder, Bool.eq_false_iff, Ne, endsWith_iff]
    rintro ⟨l', hl'⟩
    rw [hp] at hl'
    exact hslash (by simpa using (List.append_inj' hl' rfl).2)

/-- A joined path ends as the path that was joined on does. -/
theorem toList_join (p q : String) : ∃ l, (join p q).toList = l ++ q.toList := by
  unfold join
  split
  · exact ⟨[], rfl⟩
  · split
    · exact ⟨[], rfl⟩
    · split
      · exact ⟨p.toList, by simp⟩
      · exact ⟨p.toList ++ ['/'], by simp⟩

end Path

namespace Pipeline

open Work

variable {p : Pipeline} {env : Environment} {output : String} {ns fallback : Namespace}

/-! ## The jars between two hops -/

theorem toList_hopName (stem next : String) :
    ∃ l, (s!"{stem}-temp-{next}.jar").toList = l ++ ['r'] := by
  refine ⟨(stem ++ "-temp-" ++ next).toList ++ ['.', 'j', 'a'], ?_⟩
  rw [List.append_assoc]
  exact String.toList_append

theorem named_hopPath (output next : String) :
    Path.isDotted (hopPath output next) = false ∧
      Path.wantsFolder (hopPath output next) = false := by
  have hlast : ∃ l, (hopPath output next).toList = l ++ ['r'] := by
    unfold hopPath Path.withFileName
    dsimp only
    obtain ⟨l, hl⟩ := toList_hopName ((Path.fileStem? output).getD "remapped") next
    split
    all_goals
      obtain ⟨l', hl'⟩ := Path.toList_join _ _
      exact ⟨l' ++ l, by rw [hl', hl, List.append_assoc]⟩
  obtain ⟨l, hl⟩ := hlast
  exact Path.named_of_last (by decide) (by decide) hl

/-- Paths that may be touched: those of artifacts, the output, and the jars between two hops. -/
def Touched (p : Pipeline) (output : String) (path : List Namespace) (q : String) : Prop :=
  p.Caches q ∨ q = output ∨ ∃ next ∈ path, q = hopPath output next.name

/-- Paths where a new file may stay. -/
def Left (p : Pipeline) (output q : String) : Prop := p.Caches q ∨ q = output

theorem leaves_remapHops (p : Pipeline) (env : Environment) (output : String)
    (path : List Namespace) (ns fallback : Namespace) (current : String) :
    Leaves (p.Touched output path) (p.Left output) (fun _ => True)
      (p.remapHops env output path ns fallback current) := by
  induction path generalizing ns fallback current with
  | nil =>
    exact (leaves_openJar current).bind fun _ _ => (leaves_found _).bind fun _ _ =>
      leaves_writeJarWith (.inr (.inl rfl)) (.inr rfl) _
  | cons next rest ih =>
    have htarget : p.Touched output (next :: rest) (hopPath output next.name) :=
      .inr (.inr ⟨next, List.mem_cons_self, rfl⟩)
    unfold remapHops
    refine ((cached_provide p env ns fallback).mono (fun q => .inl) fun q => .inl).bind
      fun game _ => ?_
    obtain ⟨hdots, hslash⟩ := named_hopPath output next.name
    refine Leaves.thenDiscard ?_ hdots hslash htarget
    refine (leaves_found _).bind fun v _ => ?_
    refine (leaves_remapFile htarget (.inr rfl) p.remapper v current _).bind fun _ _ => ?_
    refine (ih next ns _).mono (fun q hq => ?_) fun q => .inl
    exact hq.imp_right (.imp_right fun ⟨n, hn, hq⟩ => ⟨n, List.mem_cons_of_mem _ hn, hq⟩)

theorem leads_of_openJar {f : Files} {path : String} {j : Jar} (h : f.openJar path = .ok j) :
    f.Leads path := by
  unfold Files.openJar at h
  split at h
  · rename_i j' hlook
    obtain ⟨hsane, hway, -⟩ := Files.look_eq_ok.mp hlook
    exact Files.leads_iff.mpr ⟨hsane, hway⟩
  all_goals cases h

/-- The path of a jar that was remapped leads to it. -/
theorem leads_of_ends_remapFile {m : Remapper} {view : MappingView} {input target : String}
    {classpath : List String} {w v : Workspace}
    (h : Ends (m.remapFile view input target classpath) w () v) : v.files.Leads target := by
  unfold Remapper.remapFile at h
  obtain ⟨j, _, -, h⟩ := ends_of_bind h
  obtain ⟨_, _, -, h⟩ := ends_of_bind h
  obtain ⟨_, _, -, h⟩ := ends_of_bind h
  obtain ⟨classes, _, -, h⟩ := ends_of_bind h
  obtain ⟨_, -, hopen⟩ := ends_writeJar h
  exact leads_of_openJar hopen

/-- Once a jar is remapped, nothing is left under the names of the jars between two hops. -/
theorem gone_of_ends_remapHops {path : List Namespace} {current : String} {w v : Workspace}
    (h : Ends (p.remapHops env output path ns fallback current) w () v) :
    ∀ next ∈ path, v.files.fileAt (Path.goal (hopPath output next.name)) = none := by
  induction path generalizing ns fallback current w v with
  | nil => exact fun next hnext => nomatch hnext
  | cons next rest ih =>
    unfold remapHops at h
    obtain ⟨game, u, -, h⟩ := ends_of_bind h
    obtain ⟨x, hbody, hv⟩ := ends_thenDiscard h
    obtain ⟨view, _, -, hbody⟩ := ends_of_bind hbody
    obtain ⟨_, y, hremap, hrest⟩ := ends_of_bind hbody
    have hleft := (leaves_remapHops p env output rest next ns (hopPath output next.name)).files y
    rw [show (Work.exec _ y).2 = x from congrArg Prod.snd hrest] at hleft
    have hleads : x.files.Leads (hopPath output next.name) :=
      hleft.leads (leads_of_ends_remapFile hremap)
    obtain ⟨hdots, hslash⟩ := named_hopPath output next.name
    rw [hv]
    refine List.forall_mem_cons.mpr ⟨Files.fileAt_discarded hdots hslash hleads, fun n hn => ?_⟩
    -- a jar that is gone stays away when another one is discarded
    have hgone := ih hrest n hn
    have hlast : x.files.Leaves (· = hopPath output next.name) (fun _ => False)
        (x.files.discarded (hopPath output next.name)) := by
      refine Files.leaves_discarded ?_ _ _
      rfl
    rcases hlast.new (Path.goal (hopPath output n.name)) with hsame | hnone | ⟨_, hfalse, -⟩
    · exact hsame.trans hgone
    · exact hnone
    · exact hfalse.elim

/-! ## What a remap leaves -/

/-- A place in the cache: that of an artifact. -/
def InCache (p : Pipeline) (l : Location) : Prop := ∃ e tags, l = Path.goal (p.artifactPath e tags)

/-- The places of the jars between two hops. There are none if no path is found. -/
def hopPlaces (p : Pipeline) (output : String) (dev devFallback prod : Namespace) :
    List Location :=
  match p.ctx.registry.ask
    (Registry.resolvePath dev.name devFallback.name prod.name prod.name) with
  | .ok path => path.map fun next => Path.goal (hopPath output next.name)
  | .error _ => []

theorem exec_remapJar (p : Pipeline) (env : Environment) (input output : String)
    (dev devFallback prod : Namespace) (w : Workspace) :
    (p.remapJar env input output dev devFallback prod).exec w =
      match p.ctx.registry.ask
        (Registry.resolvePath dev.name devFallback.name prod.name prod.name) with
      | .ok path => (p.remapHops env output path dev devFallback input).exec w
      | .error e => (.error e, w) := by
  unfold remapJar pathBetween
  rw [exec_bind, exec_ofExcept]
  cases p.ctx.registry.ask (Registry.resolvePath dev.name devFallback.name prod.name prod.name) <;>
    rfl

/-- However a remap ends, the files that are neither the output nor in the cache are the same
as before, and there are no new ones: only a file that is where a jar between two hops goes can
be gone, and it is when the remap succeeds. The cache lies below its root, unless the version is
called like the folder above. -/
theorem a_remap_leaves_no_trace_unless_a_hop_meets_a_file {p : Pipeline} {env : Environment}
    {input output : String} {dev devFallback prod : Namespace} {w v : Workspace}
    {r : Except Error Unit}
    (h : (p.remapJar env input output dev devFallback prod).exec w = (r, v)) :
    (∀ l, l ≠ Path.goal output → ¬ p.InCache l → v.files.fileAt l = w.files.fileAt l ∨
      l ∈ p.hopPlaces output dev devFallback prod ∧ w.files.fileAt l ≠ none ∧
        v.files.fileAt l = none) ∧
    (r = .ok () → ∀ l ∈ p.hopPlaces output dev devFallback prod, v.files.fileAt l = none) ∧
    (Cache.sanitize p.version ≠ ".." → ∀ l, p.InCache l →
      (Path.goal p.ctx.config.cacheRoot).toList <+: l.toList) := by
  have hbelow : Cache.sanitize p.version ≠ ".." → ∀ l, p.InCache l →
      (Path.goal p.ctx.config.cacheRoot).toList <+: l.toList := by
    rintro hversion l ⟨e, tags, hl⟩
    rw [hl]
    exact Cache.root_prefix_goal hversion e tags
  rw [exec_remapJar] at h
  unfold hopPlaces
  cases hpath : p.ctx.registry.ask
    (Registry.resolvePath dev.name devFallback.name prod.name prod.name) with
  | error e =>
    rw [hpath] at h
    cases h
    exact ⟨fun _ _ _ => .inl rfl, fun _ l hl => absurd hl List.not_mem_nil, hbelow⟩
  | ok path =>
    rw [hpath] at h
    dsimp only at h
    have hleft := (leaves_remapHops p env output path dev devFallback input).files w
    rw [h] at hleft
    refine ⟨fun l hl hcache => ?_, fun hr l hl => ?_, hbelow⟩
    · -- a new file could only be an artifact or the output
      have hold : ∀ q, p.Left output q → l ≠ Path.goal q := by
        rintro q (⟨e, tags, hq⟩ | hq)
        · exact fun heq => hcache ⟨e, tags, hq ▸ heq⟩
        · exact hq ▸ hl
      by_cases hmem : l ∈ path.map fun next => Path.goal (hopPath output next.name)
      · rcases hleft.new l with hsame | hnone | ⟨q, hq, hgoal, -⟩
        · exact .inl hsame
        · by_cases hfree : w.files.fileAt l = none
          · exact .inl (hnone.trans hfree.symm)
          · exact .inr ⟨hmem, hfree, hnone⟩
        · exact absurd hgoal (hold q hq)
      · refine .inl (hleft.same l fun q hq => ?_)
        rcases hq with hq | hq | ⟨next, hnext, rfl⟩
        · exact hold q (.inl hq)
        · exact hold q (.inr hq)
        · rintro rfl
          exact hmem (List.mem_map_of_mem hnext)
    · obtain ⟨next, hnext, rfl⟩ := List.mem_map.mp hl
      rw [hr] at h
      exact gone_of_ends_remapHops h next hnext

/-! ## A mod beside its output -/

/-- Where a file is less deep than artifacts, there is none. -/
theorem not_inCache_of_depth {l : Location}
    (h : l.size < (Cache.base p.ctx.config.cacheRoot p.version).size + 2) : ¬ p.InCache l := by
  rintro ⟨e, tags, hl⟩
  rw [hl, Cache.goal_artifactPath] at h
  simp at h

/-- A game and a mod, both next to the output. -/
def modFiles (mod : String) : Files :=
  ⟨(Files.home.push "client.jar", .file (.jar .empty)) ::
    (Files.home.push mod, .file (.jar ⟨[⟨"mod.txt", []⟩], by decide, []⟩)) :: Files.empty.nodes⟩

/-- A pipeline for that game between two namespaces, each of them remapped into the other. -/
def backAndForth : Pipeline where
  ctx := ⟨.withCacheRoot "cache",
    ⟨[⟨⟨officialNamespace, false⟩, [["named"]], none⟩,
      ⟨⟨"named", true⟩, [[officialNamespace]], none⟩], []⟩, .json, .plain⟩
  version := "1"
  rawJars := [(.client, ⟨"client.jar", officialNamespace⟩)]
  patcher := .plain .default
  tree := ⟨[officialNamespace, "named"], [], []⟩
  remapper := ⟨.json, .structural, [.accessWidener]⟩

/-- Brings a mod from the named namespace back to the official one. -/
def bringBack (mod : String) : Work Unit :=
  backAndForth.remapJar .client mod "out.jar" ⟨"named", true⟩ ⟨officialNamespace, false⟩
    ⟨officialNamespace, false⟩

theorem not_inCache_beside (mod : String) : ¬ backAndForth.InCache (Files.home.push mod) := by
  refine not_inCache_of_depth ?_
  rw [Array.size_push]
  show Files.home.size + 1 < (Cache.base "cache" "1").size + 2
  decide +kernel

theorem exec_of_ok {x : Work Unit} {w : Workspace} (h : (x.exec w).1 = .ok ()) :
    ∃ v, x.exec w = (.ok (), v) := ⟨_, Prod.ext h rfl⟩

/-- A mod whose name no hop takes is still there afterwards, and the jar of the hop is gone. -/
theorem a_mod_stays_when_it_is_brought_back :
    backAndForth.hopPlaces "out.jar" ⟨"named", true⟩ ⟨officialNamespace, false⟩
        ⟨officialNamespace, false⟩ = [Files.home.push "out-temp-official.jar"] ∧
      Files.home.push "mod.jar" ≠ Path.goal "out.jar" ∧
      ¬ backAndForth.InCache (Files.home.push "mod.jar") ∧
      ∃ v, (bringBack "mod.jar").exec (.ofFiles (modFiles "mod.jar")) = (.ok (), v) ∧
        v.files.fileAt (Files.home.push "mod.jar") =
          (modFiles "mod.jar").fileAt (Files.home.push "mod.jar") ∧
        v.files.fileAt (Files.home.push "out-temp-official.jar") = none := by
  have hhops : backAndForth.hopPlaces "out.jar" ⟨"named", true⟩ ⟨officialNamespace, false⟩
      ⟨officialNamespace, false⟩ = [Files.home.push "out-temp-official.jar"] := by decide +kernel
  have hapart : Files.home.push "mod.jar" ≠ Path.goal "out.jar" := by decide +kernel
  have hmem : Files.home.push "mod.jar" ∉ [Files.home.push "out-temp-official.jar"] := by
    decide +kernel
  obtain ⟨v, hv⟩ := exec_of_ok (show ((bringBack "mod.jar").exec
    (.ofFiles (modFiles "mod.jar"))).1 = .ok () by decide +kernel)
  obtain ⟨hsame, hgone, -⟩ := a_remap_leaves_no_trace_unless_a_hop_meets_a_file hv
  rw [hhops] at hsame hgone
  refine ⟨hhops, hapart, not_inCache_beside "mod.jar", v, hv, ?_, ?_⟩
  · exact (hsame _ hapart (not_inCache_beside "mod.jar")).resolve_right fun h => hmem h.1
  · exact hgone rfl _ (List.mem_singleton_self _)

/-- A mod that is called like the jar of a hop is gone when it was brought back. -/
theorem a_remap_does_not_always_leave_no_trace :
    ¬ ∀ (p : Pipeline) (env : Environment) (input output : String)
      (dev devFallback prod : Namespace) (w v : Workspace) (r : Except Error Unit) (l : Location),
      Path.goal input ≠ Path.goal output →
        (p.remapJar env input output dev devFallback prod).exec w = (r, v) →
          l ≠ Path.goal output → ¬ p.InCache l → v.files.fileAt l = w.files.fileAt l := by
  intro h
  obtain ⟨v, hv⟩ := exec_of_ok (show ((bringBack "out-temp-official.jar").exec
    (.ofFiles (modFiles "out-temp-official.jar"))).1 = .ok () by decide +kernel)
  have hsame := h _ _ "out-temp-official.jar" "out.jar" _ _ _ _ v _
    (Files.home.push "out-temp-official.jar") (by decide +kernel) hv (by decide +kernel)
    (not_inCache_beside "out-temp-official.jar")
  have hgone : ((bringBack "out-temp-official.jar").exec
      (.ofFiles (modFiles "out-temp-official.jar"))).2.files.fileAt
        (Files.home.push "out-temp-official.jar") = none := by decide +kernel
  rw [hv] at hgone
  have hlost := hsame.symm.trans hgone
  exact absurd hlost (by decide +kernel)

end Pipeline

end JarDerivation
