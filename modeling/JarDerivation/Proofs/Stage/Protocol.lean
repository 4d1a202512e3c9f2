-- The protocol of stages, for any calls in a row. A call that ends well leaves a file at the path
-- of its output, one that fails leaves none, and the files at other places stay as they were. Under
-- a forced reload an output is built until that has worked once. It is then used as it is, unless
-- a call for another path has reached its file.
import JarDerivation.Proofs.Stage.Call

namespace JarDerivation

namespace StageContext

variable {ctx : StageContext} {c : StageCall} {done : List (List String)} {w : Workspace}
  {p : String}

/-- The workspace after calls in a row. A call that fails does not stop the next one. -/
def after (ctx : StageContext) (calls : List StageCall) (w : Workspace) : Workspace :=
  calls.foldl (fun w c => (c.exec ctx w).2) w

/-- What calls in a row have built, by the parts of the paths. -/
def built (ctx : StageContext) : List StageCall → Workspace → List (List String)
  | [], _ => []
  | c :: rest, w => ctx.built? c w ++ built ctx rest (c.exec ctx w).2

theorem after_append (ctx : StageContext) (calls calls' : List StageCall) (w : Workspace) :
    ctx.after (calls ++ calls') w = ctx.after calls' (ctx.after calls w) := List.foldl_append

/-! ## One call -/

/-- What a call does in a workspace, when some outputs have been built before. -/
structure Served (ctx : StageContext) (c : StageCall) (done : List (List String)) (w : Workspace) :
    Prop where
  found : ∀ a, (c.exec ctx w).1 = .ok a →
    a = c.target ∧ (c.exec ctx w).2.files.isFile c.path = true
  gone : ∀ e, (c.exec ctx w).1 = .error e → (c.exec ctx w).2.files.isFile c.path = false
  /-- The files at other places stay, -/
  others : ∀ l, l ≠ Path.goal c.path → (c.exec ctx w).2.files.fileAt l = w.files.fileAt l
  /-- and so do the ways to them. -/
  ways : ∀ l, w.files.node? l = some .folder → (c.exec ctx w).2.files.node? l = some .folder
  /-- If the build runs, the call ends as the build does; -/
  ran : ctx.Runs c.target w → ∃ g, (FileWork.ensureAround c.path).exec w.files = (.ok (), g) ∧
    (c.exec ctx w).1 = (c.build.exec { w with files := g }).1.map fun _ => c.target
  /-- and a build that does not run makes no difference. -/
  idle : ¬ ctx.Runs c.target w → ∀ build, c.exec ctx w = (ctx.produce c.target build).exec w
  /-- Without the folders around its output a call fails before the build. -/
  barred : ¬ Reachable c.target w → ∃ fault, (c.exec ctx w).1 = .error (.io fault)
  missing : ctx.config.forceReload = false →
    (ctx.Runs c.target w ↔ w.files.isFile c.path = false ∧ Reachable c.target w)
  /-- Under a forced reload a build runs where a file is, too, unless it was built before. -/
  anew : ctx.config.forceReload = true → (ctx.Runs c.target w ↔
    (Path.components c.path ∉ done ∨ w.files.isFile c.path = false) ∧ Reachable c.target w)

/-- What holds between two calls, when some outputs have been built. -/
structure Noted (ctx : StageContext) (done : List (List String)) (w : Workspace) : Prop where
  rooted : w.files.Rooted
  counted : w.builds = done.length
  noted : ctx.config.forceReload = true → ∀ q, q ∈ w.rebuilt ↔ q ∈ done

theorem noted_start {f : Files} (hrooted : f.Rooted) : Noted ctx [] (.ofFiles f) where
  rooted := hrooted
  counted := rfl
  noted _ _ := Iff.rfl

theorem Noted.served (h : Noted ctx done w) (hbuild : Builds c.path c.build) :
    ctx.Served c done w := by
  have hfound : ∀ a, (c.exec ctx w).1 = .ok a →
      a = c.target ∧ (c.exec ctx w).2.files.isFile c.path = true := fun a ha =>
    (trusts_of_ok hbuild ha).imp_right And.left
  obtain ⟨hways, hothers⟩ : _ ∧ _ := confined_exec hbuild w
  have hreach : ¬ Reachable c.target w → ¬ ctx.Trusts w c.target.path := fun hbarred ht =>
    hbarred (congrArg Prod.fst (FileWork.ensureAround_of_isFile h.rooted ht.1))
  refine ⟨hfound, fun e he => isFile_of_error h.rooted hbuild he, hothers, hways,
    ran_of_runs, fun hidle build => exec_of_not_runs hidle _ _,
    fun hbarred => ?_, fun hforce => ?_, fun hforce => ?_⟩
  · unfold StageCall.exec
    rw [exec_produce, if_neg (hreach hbarred)]
    unfold Reachable at hbarred
    cases hensure : (FileWork.ensureAround c.target.path).exec w.files with
    | mk r g =>
      cases r with
      | error fault => exact ⟨fault, rfl⟩
      | ok u =>
        rw [hensure] at hbarred
        exact absurd rfl hbarred
  · rw [runs_iff, Trusts, hforce, ← Bool.not_eq_true]
    simp [StageCall.path]
  · rw [runs_iff, Trusts, h.noted hforce, hforce, ← Bool.not_eq_true]
    simp [StageCall.path, imp_iff_not_or, or_comm]

/-! ## Calls in a row -/

theorem Noted.next (h : Noted ctx done w) (hbuild : Builds c.path c.build) :
    Noted ctx (done ++ ctx.built? c w) (c.exec ctx w).2 := by
  obtain ⟨hbuilds, hrebuilt, -⟩ : ctx.Remembers w _ _ := remembers_exec hbuild w
  refine ⟨(h.served hbuild).ways _ h.rooted, ?_, fun hforce q => ?_⟩
  · rw [hbuilds, h.counted, List.length_append]
  · rw [hrebuilt, if_pos hforce, List.mem_append, List.mem_append, h.noted hforce q, or_comm]

theorem Noted.run {calls : List StageCall} (h : Noted ctx done w)
    (hbuilds : ∀ c ∈ calls, Builds c.path c.build) :
    Noted ctx (done ++ ctx.built calls w) (ctx.after calls w) := by
  induction calls generalizing done w with
  | nil =>
    rw [built, List.append_nil]
    exact h
  | cons c rest ih =>
    obtain ⟨hbuild, hbuilds⟩ := List.forall_mem_cons.mp hbuilds
    rw [built, ← List.append_assoc]
    exact ih (h.next hbuild) hbuilds

theorem folders_after {calls : List StageCall} (hbuilds : ∀ c ∈ calls, Builds c.path c.build)
    {l : Location} (hl : w.files.node? l = some .folder) :
    (ctx.after calls w).files.node? l = some .folder := by
  induction calls generalizing w with
  | nil => exact hl
  | cons c rest ih =>
    obtain ⟨hbuild, hbuilds⟩ := List.forall_mem_cons.mp hbuilds
    exact ih hbuilds ((confined_exec hbuild w).1 l hl)

/-- Once the folders around an output were made sure of, they stay. -/
theorem reachable_after {calls : List StageCall} (hbuilds : ∀ c ∈ calls, Builds c.path c.build)
    (hbuild : Builds c.path c.build) (hrooted : w.files.Rooted) (hreach : Reachable c.target w) :
    Reachable c.target (ctx.after calls (c.exec ctx w).2) := by
  have hreach : ((FileWork.ensureAround c.path).exec w.files).1 = .ok () := hreach
  cases hensure : (FileWork.ensureAround c.path).exec w.files with
  | mk r g =>
    rw [hensure] at hreach
    cases hreach
    exact FileWork.ensureAround_again hensure fun l hl =>
      folders_after hbuilds (ensured_folders_stay hbuild hrooted hensure hl)

/-- A build that has run and was never a success runs again. -/
theorem Noted.runs_again {mid : List StageCall} {more : List (List String)} {c' : StageCall}
    (h : Noted ctx done w) (hbuilds : ∀ d ∈ mid, Builds d.path d.build)
    (hbuild : Builds c.path c.build) (hbuild' : Builds c'.path c'.build)
    (hruns : ctx.Runs c.target w)
    (hlater : Noted ctx more (ctx.after mid (c.exec ctx w).2)) (hpath : c'.path = c.path)
    (hforce : ctx.config.forceReload = true) (hnever : Path.components c.path ∉ more) :
    ctx.Runs c'.target (ctx.after mid (c.exec ctx w).2) := by
  have hreach : Reachable c.target (ctx.after mid (c.exec ctx w).2) :=
    reachable_after hbuilds hbuild h.rooted (runs_iff.mp hruns).2
  refine ((hlater.served hbuild').anew hforce).mpr ⟨.inl (hpath ▸ hnever), ?_⟩
  unfold Reachable at hreach ⊢
  rwa [show c'.target.path = c.target.path from hpath]

/-! ## A path with a place of its own -/

/-- Who calls for the place of a path calls for that path. -/
def OwnPlace (p : String) (calls : List StageCall) : Prop :=
  ∀ c ∈ calls, Path.goal p = Path.goal c.path → Path.Alike p c.path

/-- What holds of such a path between two calls: what was built there is used as it is, and so it
is not built again. -/
structure Kept (ctx : StageContext) (p : String) (done : List (List String)) (w : Workspace) :
    Prop where
  there : Path.components p ∈ done → ctx.Trusts w p
  once : done.count (Path.components p) ≤ 1

theorem kept_start (p : String) (w : Workspace) : Kept ctx p [] w := ⟨nofun, Nat.zero_le 1⟩

theorem mem_built? {q : List String} :
    q ∈ ctx.built? c w ↔ q = Path.components c.path ∧ ctx.Succeeds c w := by
  unfold built?
  split <;> simp [*]

theorem Kept.next (h : Kept ctx p done w) (hbuild : Builds c.path c.build)
    (hown : Path.goal p = Path.goal c.path → Path.Alike p c.path) :
    Kept ctx p (done ++ ctx.built? c w) (c.exec ctx w).2 := by
  by_cases hbuilt : Path.components p ∈ ctx.built? c w
  · obtain ⟨hparts, hsucceeds⟩ := mem_built?.mp hbuilt
    have halike : Path.Alike p c.path := hown (Path.goal_of_components hparts)
    -- a build runs only where the output would not be used as it is
    have hnew : Path.components p ∉ done := fun hdone =>
      (runs_iff.mp hsucceeds.1).1 ((trusts_iff_of_alike halike).mp (h.there hdone))
    refine ⟨fun _ => (trusts_iff_of_alike halike).mpr (trusts_of_ok hbuild hsucceeds.2).2, ?_⟩
    rw [List.count_append, List.count_eq_zero.mpr hnew, Nat.zero_add, built?, if_pos hsucceeds]
    exact List.count_le_length
  · constructor
    case there =>
      intro hdone
      exact trusts_after hbuild hown (h.there ((List.mem_append.mp hdone).resolve_right hbuilt))
    case once =>
      rw [List.count_append, List.count_eq_zero.mpr hbuilt]
      exact h.once

theorem Kept.run {calls : List StageCall} (h : Kept ctx p done w)
    (hbuilds : ∀ c ∈ calls, Builds c.path c.build) (hown : OwnPlace p calls) :
    Kept ctx p (done ++ ctx.built calls w) (ctx.after calls w) := by
  induction calls generalizing done w with
  | nil =>
    rw [built, List.append_nil]
    exact h
  | cons c rest ih =>
    obtain ⟨hbuild, hbuilds⟩ := List.forall_mem_cons.mp hbuilds
    obtain ⟨hc, hown⟩ := List.forall_mem_cons.mp hown
    rw [built, ← List.append_assoc]
    exact ih (h.next hbuild hc) hbuilds hown

/-! ## The protocol -/

/-- What calls in a row come to, beginning with a new context. -/
structure Protocol (ctx : StageContext) (f : Files) (calls : List StageCall) : Prop where
  served : ∀ before c rest, calls = before ++ c :: rest →
    ctx.Served c (ctx.built before (.ofFiles f)) (ctx.after before (.ofFiles f))
  counted : (ctx.after calls (.ofFiles f)).builds = (ctx.built calls (.ofFiles f)).length
  /-- An output whose build has run and was never a success is built anew. -/
  retried : ctx.config.forceReload = true → ∀ before c mid c' rest,
    calls = before ++ c :: (mid ++ c' :: rest) → c'.path = c.path →
      ctx.Runs c.target (ctx.after before (.ofFiles f)) →
        Path.components c.path ∉ ctx.built (before ++ c :: mid) (.ofFiles f) →
          ctx.Runs c'.target (ctx.after (before ++ c :: mid) (.ofFiles f))

/-- What calls in a row come to beyond that for a path with a place of its own. -/
structure Undisturbed (ctx : StageContext) (f : Files) (calls : List StageCall) (p : String) :
    Prop where
  once : (ctx.built calls (.ofFiles f)).count (Path.components p) ≤ 1
  /-- What was built is used as it is by every later call, also under a forced reload. -/
  used : ∀ before c rest, calls = before ++ c :: rest → Path.Alike p c.path →
    Path.components p ∈ ctx.built before (.ofFiles f) →
      c.exec ctx (ctx.after before (.ofFiles f)) = (.ok c.target, ctx.after before (.ofFiles f))
  /-- No call for another path touches the file. -/
  apart : ∀ before c rest, calls = before ++ c :: rest → ¬ Path.Alike p c.path →
    (ctx.after (before ++ [c]) (.ofFiles f)).files.fileAt (Path.goal p) =
        (ctx.after before (.ofFiles f)).files.fileAt (Path.goal p) ∧
      ∀ content, (ctx.after before (.ofFiles f)).files.find? p = some content →
        (ctx.after (before ++ [c]) (.ofFiles f)).files.find? p = some content

theorem protocol_of_builds {f : Files} {calls : List StageCall} (hrooted : f.Rooted)
    (hbuilds : ∀ c ∈ calls, Builds c.path c.build) : ctx.Protocol f calls := by
  have hnoted : ∀ before, before ⊆ calls →
      Noted ctx (ctx.built before (.ofFiles f)) (ctx.after before (.ofFiles f)) :=
    fun before hbefore => (noted_start hrooted).run fun c hc => hbuilds c (hbefore hc)
  refine ⟨?_, (hnoted calls (List.Subset.refl _)).counted, ?_⟩
  · rintro before c rest rfl
    exact (hnoted before (List.subset_append_left _ _)).served
      (hbuilds c (List.mem_append_right _ List.mem_cons_self))
  · rintro hforce before c mid c' rest rfl hpath hruns hnever
    have hbefore := hnoted before (List.subset_append_left _ _)
    have hlater := hnoted (before ++ c :: mid) fun d hd => by
      rw [show before ++ c :: (mid ++ c' :: rest) = (before ++ c :: mid) ++ c' :: rest by simp]
      exact List.mem_append_left _ hd
    rw [after_append] at hlater ⊢
    exact hbefore.runs_again (fun d hd => hbuilds d (by simp [hd])) (hbuilds c (by simp))
      (hbuilds c' (by simp)) hruns hlater hpath hforce hnever

theorem undisturbed_of_builds {f : Files} {calls : List StageCall}
    (hbuilds : ∀ c ∈ calls, Builds c.path c.build) (hown : OwnPlace p calls) :
    ctx.Undisturbed f calls p := by
  have hkept : ∀ before, before ⊆ calls →
      Kept ctx p (ctx.built before (.ofFiles f)) (ctx.after before (.ofFiles f)) :=
    fun before hbefore => (kept_start p _).run (fun c hc => hbuilds c (hbefore hc))
      (fun c hc => hown c (hbefore hc))
  refine ⟨(hkept calls (List.Subset.refl _)).once, ?_, ?_⟩
  · rintro before c rest rfl halike hdone
    have htrusts := (hkept before (List.subset_append_left _ _)).there hdone
    exact exec_of_trusts ((trusts_iff_of_alike halike).mp htrusts)
  · rintro before c rest rfl hother
    have hc : c ∈ before ++ c :: rest := List.mem_append_right _ List.mem_cons_self
    have hgoal : Path.goal p ≠ Path.goal c.path := fun hgoal => hother (hown c hc hgoal)
    rw [after_append]
    exact ⟨(confined_exec (hbuilds c hc) _).2 _ hgoal,
      fun content hfind => find?_of_confined (hbuilds c hc) hgoal hfind⟩

/-- Whatever is called, in whatever order, the protocol is kept. And where a path is the only one
to its place, no call for another one disturbs it. -/
theorem a_stage_keeps_its_protocol {f : Files} {calls : List StageCall} (hrooted : f.Rooted)
    (hbuilds : ∀ c ∈ calls, Builds c.path c.build) :
    ctx.Protocol f calls ∧ ∀ p, OwnPlace p calls → ctx.Undisturbed f calls p :=
  ⟨protocol_of_builds hrooted hbuilds, fun _ => undisturbed_of_builds hbuilds⟩

/-- A call whose build writes a jar, and may fail then. -/
def writing (target : Artifact) (r : Except Error Unit) : StageCall :=
  ⟨target, do Work.writeJar target.path (pure .empty); Work.ofExcept r⟩

theorem builds_writing (target : Artifact) (r : Except Error Unit) :
    Builds (writing target r).path (writing target r).build :=
  (builds_writeJar target.path (pure .empty)).followed fun _ => r

/-- The client of a version in its own names. -/
def clientOf (version : String) : Artifact :=
  .cached "cache" version .client ⟨officialNamespace, false⟩ ⟨officialNamespace, false⟩ ["fixed"]

/-- A client jar at a path of its own. -/
def clientAt (path : String) : Artifact :=
  .raw "cache" "1" .client ⟨officialNamespace, false⟩ ⟨officialNamespace, false⟩ path

/-- A context without namespaces. -/
def bareContext (forceReload : Bool) : StageContext :=
  ⟨{ PipelineConfig.withCacheRoot "cache" with forceReload }, .empty, .json, .plain⟩

/-- After a failure the output is built, and then it is used as it is. -/
theorem a_failed_build_is_done_again :
    let calls := [writing (clientOf "1") (.error probe), writing (clientOf "1") (.ok ()),
      writing (clientOf "1") (.error probe)]
    (bareContext true).Protocol .empty calls ∧
      (bareContext true).Undisturbed .empty calls (clientOf "1").path ∧
      (bareContext true).built calls (.ofFiles .empty) = [Path.components (clientOf "1").path] := by
  intro calls
  have hcalls : ∀ c ∈ calls, ∃ r, c = writing (clientOf "1") r := by
    intro c hc
    simp only [calls, List.mem_cons, List.not_mem_nil, or_false] at hc
    rcases hc with rfl | rfl | rfl <;> exact ⟨_, rfl⟩
  have hbuilds : ∀ c ∈ calls, Builds c.path c.build := by
    intro c hc
    obtain ⟨r, rfl⟩ := hcalls c hc
    exact builds_writing _ r
  have hown : OwnPlace (clientOf "1").path calls := by
    intro c hc _
    obtain ⟨r, rfl⟩ := hcalls c hc
    exact Path.Alike.refl _
  obtain ⟨hprotocol, hapart⟩ :=
    @a_stage_keeps_its_protocol (bareContext true) .empty calls Files.rooted_empty hbuilds
  exact ⟨hprotocol, hapart _ hown, by decide +kernel⟩

/-! ## Folders that cannot be made -/

/-- The name of the version is on the way to an artifact. -/
theorem version_mem_segments {root version : String} (hnamed : Cache.sanitize version ≠ "")
    (e : Environment) :
    Cache.sanitize version ∈ Path.segments (Cache.folder root version e) := by
  have hslash := Cache.slash_notMem_sanitize version
  rw [Cache.segments_folder, Path.fore, Cache.versionDir_eq, Path.asFolder_of_name hnamed hslash,
    Path.segments_slash, List.dropLast_concat, Path.segments_asFolder_append hslash]
  simp

/-- No build runs for an artifact of a version whose name is too long for a folder. -/
theorem not_reachable_of_long {root version : String} {tags : List String}
    (hlong : Path.longestName < (Cache.sanitize version).utf8ByteSize) (e : Environment)
    (ns fallback : Namespace) (w : Workspace) :
    ¬ Reachable (.cached root version e ns fallback tags) w := by
  intro hreach
  have hin := Cache.inFolder_artifactPath root version e tags
  unfold Reachable Artifact.cached at hreach
  dsimp only at hreach
  rw [FileWork.ensureAround_eq hin.parent] at hreach
  obtain ⟨n, hlook⟩ := (FileWork.ensured hin.named).done hreach
  have hnamed : Cache.sanitize version ≠ "" := by
    intro hempty
    rw [hempty] at hlong
    exact absurd hlong (by decide)
  rcases (Files.look_eq_ok.mp hlook).1.fits _ (version_mem_segments hnamed e) with h | h | h | h
  · exact hnamed h
  · rw [h] at hlong
    exact absurd hlong (by decide)
  · rw [h] at hlong
    exact absurd hlong (by decide)
  · omega

/-- A version with a name of some length. -/
def versionOfLength (n : Nat) : String := String.ofList (List.replicate n 'x')

theorem utf8ByteSize_versionOfLength (n : Nat) :
    (Cache.sanitize (versionOfLength n)).utf8ByteSize = n := by
  have hsafe : Cache.sanitize (versionOfLength n) = versionOfLength n := by
    unfold Cache.sanitize versionOfLength
    rw [String.toList_ofList, List.map_replicate]
    rfl
  rw [hsafe]
  clear hsafe
  induction n with
  | zero => rfl
  | succ n ih =>
    have hlast : versionOfLength (n + 1) = versionOfLength n ++ "x" := by
      apply String.toList_injective
      simp [versionOfLength, List.replicate_succ']
    rw [hlast, String.utf8ByteSize_append, ih]
    rfl

/-- The folder of a version with a very long name cannot be made, so the output stays missing and
no build runs. The same file can be reached by two paths: then one call deletes what another one has
built, and it is built a second time. And of two paths that are one for the stages, only one may
lead to the file. -/
theorem a_missing_output_is_not_always_built :
    (¬ ∀ (ctx : StageContext) (f : Files) (c : StageCall), f.Rooted → Builds c.path c.build →
      ctx.config.forceReload = false →
        (ctx.Runs c.target (.ofFiles f) ↔ f.isFile c.path = false)) ∧
    (¬ ∀ (ctx : StageContext) (f : Files) (c c' : StageCall), f.Rooted →
      Builds c.path c.build → Builds c'.path c'.build →
        Path.components c.path ≠ Path.components c'.path →
          (c.exec ctx (.ofFiles f)).1 = .ok c.target →
            (ctx.after [c, c'] (.ofFiles f)).files.isFile c.path = true) ∧
    (¬ ∀ (ctx : StageContext) (f : Files) (calls : List StageCall), f.Rooted →
      (∀ c ∈ calls, Builds c.path c.build) → ctx.config.forceReload = true →
        (ctx.built calls (.ofFiles f)).Nodup) ∧
    ¬ ∀ (ctx : StageContext) (f : Files) (c c' : StageCall), f.Rooted →
      Builds c.path c.build → Builds c'.path c'.build → ctx.config.forceReload = true →
        Path.components c.path = Path.components c'.path →
          (c.exec ctx (.ofFiles f)).1 = .ok c.target →
            ¬ ctx.Runs c'.target (ctx.after [c] (.ofFiles f)) := by
  refine ⟨fun h => ?_, fun h => ?_, fun h => ?_, fun h => ?_⟩
  · have hruns := (h (bareContext false) .empty (writing (clientOf (versionOfLength 300)) (.ok ()))
      Files.rooted_empty (builds_writing _ _) rfl).mpr (Files.isFile_empty _)
    refine not_reachable_of_long ?_ _ _ _ _ (runs_iff.mp hruns).2
    rw [utf8ByteSize_versionOfLength]
    decide
  · have hthere := h (bareContext true) .empty (writing (clientAt "client.jar") (.ok ()))
      (writing (clientAt "./client.jar") (.error probe)) Files.rooted_empty
      (builds_writing _ _) (builds_writing _ _) (by decide +kernel) (by decide +kernel)
    exact absurd hthere (by decide +kernel)
  · have honce := h (bareContext true) .empty [writing (clientAt "client.jar") (.ok ()),
      writing (clientAt "./client.jar") (.error probe), writing (clientAt "client.jar") (.ok ())]
      Files.rooted_empty (by simp [builds_writing]) rfl
    exact absurd honce (by decide +kernel)
  · have hused := h (bareContext true) .empty (writing (clientAt "client.jar") (.ok ()))
      (writing (clientAt "client.jar/") (.ok ())) Files.rooted_empty (builds_writing _ _)
      (builds_writing _ _) rfl (by decide +kernel) (by decide +kernel)
    exact hused (by decide +kernel)

end StageContext

end JarDerivation
