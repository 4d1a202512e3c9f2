-- The builds of the stages. Each of them reads its inputs and then writes one jar. So it touches
-- no file but the one of its output, and it has no say in what the workspace remembers.
import JarDerivation.Proofs.Pipeline.Confined

namespace JarDerivation

/-! ## Work that only reads -/

namespace Work

variable {α β : Type}

/-- However the work ends, no more than the trace of the workspace has changed. -/
def OnlyReads (x : Work α) : Prop := ∀ w, ∃ trace, (x.exec w).2 = { w with trace }

theorem onlyReads_ofExcept (r : Except Error α) : OnlyReads (ofExcept r) := fun w =>
  ⟨w.trace, congrArg Prod.snd (exec_ofExcept r w)⟩

theorem onlyReads_pure (a : α) : OnlyReads (pure a) := onlyReads_ofExcept (.ok a)

theorem onlyReads_get : OnlyReads (get : Work Workspace) := fun w => ⟨w.trace, rfl⟩

theorem onlyReads_files : OnlyReads files := fun w => ⟨w.trace, rfl⟩

theorem onlyReads_openJar (path : String) : OnlyReads (openJar path) := fun w =>
  ⟨w.trace, congrArg Prod.snd (exec_openJar path w)⟩

theorem onlyReads_ofTraced (x : Traced α) : OnlyReads (ofTraced x) := fun w =>
  ⟨w.trace ++ x.events, congrArg Prod.snd (exec_ofTraced x w)⟩

theorem OnlyReads.bind {x : Work α} {k : α → Work β} (hx : OnlyReads x)
    (hk : ∀ a, OnlyReads (k a)) : OnlyReads (x >>= k) := by
  intro w
  obtain ⟨trace, hv⟩ := hx w
  rw [exec_bind]
  cases hrun : x.exec w with
  | mk r v =>
    rw [hrun] at hv
    obtain rfl : v = { w with trace } := hv
    cases r with
    | error e => exact ⟨trace, rfl⟩
    | ok a => exact hk a { w with trace }

end Work

/-! ## Builds -/

/-- Two workspaces remember the same of their outputs. -/
structure Workspace.SameMemory (w v : Workspace) : Prop where
  builds : v.builds = w.builds
  rebuilt : v.rebuilt = w.rebuilt
  provided : v.provided = w.provided

/-- A build that touches no file but the one at its path, and leaves a file there if it succeeds.
It may fail after it has written something. -/
structure Builds {α : Type} (path : String) (build : Work α) : Prop where
  folders : ∀ w l, w.files.node? l = some .folder →
    (build.exec w).2.files.node? l = some .folder
  others : ∀ w l, l ≠ Path.goal path → (build.exec w).2.files.fileAt l = w.files.fileAt l
  makes : ∀ w a, (build.exec w).1 = .ok a → (build.exec w).2.files.isFile path = true
  remembers : ∀ w : Workspace, w.SameMemory (build.exec w).2

section

variable {α β : Type} {path : String}

/-- Writing a jar is such a build. -/
theorem builds_writeJarWith (path : String) (body : Traced (Jar × α)) :
    Builds path (Work.writeJarWith path body) := by
  have hleaves : Work.Leaves (· = path) (· = path) (fun _ => True)
      (Work.writeJarWith path body) := by
    refine Work.leaves_writeJarWith ?_ ?_ _ <;> rfl
  refine ⟨fun w => (hleaves.files w).folders, fun w l hl => (hleaves.files w).same l ?_,
    fun w a hok => ?_, fun w => ?_⟩
  · rintro _ rfl
    exact hl
  · obtain ⟨j, -, hopen⟩ := Work.ends_writeJarWith (w := w) (a := a) (Prod.ext hok rfl)
    exact Files.isFile_of_jar? (j := j) (by rw [Files.jar?, hopen]; rfl)
  · rw [Work.exec_writeJarWith]
    cases (FileWork.clear path).exec w.files with
    | mk cleared g =>
      cases cleared with
      | error fault => exact ⟨rfl, rfl, rfl⟩
      | ok u =>
        dsimp only
        cases g.target path with
        | error fault => exact ⟨rfl, rfl, rfl⟩
        | ok place =>
          dsimp only
          cases body.outcome <;> exact ⟨rfl, rfl, rfl⟩

theorem builds_writeJar (path : String) (body : Traced Jar) :
    Builds path (Work.writeJar path body) := builds_writeJarWith path _

/-- A build may read before it writes, -/
theorem Builds.reading {x : Work α} {k : α → Work β} (hx : x.OnlyReads)
    (hk : ∀ a, Builds path (k a)) : Builds path (x >>= k) := by
  have hexec : ∀ w, (∃ e trace, (x >>= k).exec w = (.error e, { w with trace })) ∨
      ∃ a trace, (x >>= k).exec w = (k a).exec { w with trace } := by
    intro w
    obtain ⟨trace, hv⟩ := hx w
    rw [Work.exec_bind]
    cases hrun : x.exec w with
    | mk r v =>
      rw [hrun] at hv
      obtain rfl : v = { w with trace } := hv
      cases r with
      | error e => exact .inl ⟨e, trace, rfl⟩
      | ok a => exact .inr ⟨a, trace, rfl⟩
  constructor
  case folders =>
    intro w l hl
    rcases hexec w with ⟨e, trace, h⟩ | ⟨a, trace, h⟩ <;> rw [h]
    · exact hl
    · exact (hk a).folders _ l hl
  case others =>
    intro w l hl
    rcases hexec w with ⟨e, trace, h⟩ | ⟨a, trace, h⟩ <;> rw [h]
    exact (hk a).others _ l hl
  case makes =>
    intro w b hok
    rcases hexec w with ⟨e, trace, h⟩ | ⟨a, trace, h⟩ <;> rw [h] at hok
    · cases hok
    · rw [h]
      exact (hk a).makes _ b hok
  case remembers =>
    intro w
    rcases hexec w with ⟨e, trace, h⟩ | ⟨a, trace, h⟩ <;> rw [h]
    · exact ⟨rfl, rfl, rfl⟩
    · obtain ⟨hbuilds, hrebuilt, hprovided⟩ := (hk a).remembers { w with trace }
      exact ⟨hbuilds, hrebuilt, hprovided⟩

/-- and it may fail once all is written. -/
theorem Builds.followed {build : Work α} (h : Builds path build) (r : α → Except Error β) :
    Builds path (build >>= fun a => Work.ofExcept (r a)) := by
  have hexec : ∀ w, (build >>= fun a => Work.ofExcept (r a)).exec w =
      ((build.exec w).1 >>= r, (build.exec w).2) := by
    intro w
    rw [Work.exec_bind]
    cases build.exec w with
    | mk s v =>
      cases s with
      | error e => rfl
      | ok a => exact Work.exec_ofExcept (r a) v
  refine ⟨fun w l hl => ?_, fun w l hl => ?_, fun w b hok => ?_, fun w => ?_⟩
  · rw [hexec]
    exact h.folders w l hl
  · rw [hexec]
    exact h.others w l hl
  · rw [hexec] at hok ⊢
    obtain ⟨a, ha, -⟩ := ok_of_bind hok
    exact h.makes w a ha
  · rw [hexec]
    exact h.remembers w

/-! ## The builds of a pipeline -/

theorem builds_rewriteJar (input path : String) (edit : Jar → Traced Jar) :
    Builds path (Work.rewriteJar input path edit) :=
  .reading (Work.onlyReads_openJar input) fun _ => builds_writeJar path _

theorem builds_mergeFiles (m : JarMerger) (client server path : String) :
    Builds path (m.mergeFiles client server path) :=
  .reading (Work.onlyReads_openJar client) fun _ =>
    .reading (Work.onlyReads_openJar server) fun _ => builds_writeJarWith path _

theorem builds_remapFile (m : Remapper) (v : MappingView) (input path : String)
    (classpath : List String) : Builds path (m.remapFile v input path classpath) :=
  .reading (Work.onlyReads_openJar input) fun _ => .reading (Work.onlyReads_ofExcept _) fun _ =>
    .reading Work.onlyReads_get fun _ => .reading (Work.onlyReads_ofTraced _) fun _ =>
      builds_writeJar path _

theorem onlyReads_collect (mods : List String) : (JarMod.collect mods).OnlyReads := by
  unfold JarMod.collect
  generalize ([] : Text.Ascending Bytes) = overlay
  induction mods generalizing overlay with
  | nil => exact Work.onlyReads_pure overlay
  | cons mod rest ih =>
    rw [List.foldlM_cons]
    have hfirst : (do Work.ofExcept (JarMod.overlayJar overlay (← Work.openJar mod))).OnlyReads :=
      (Work.onlyReads_openJar mod).bind fun _ => Work.onlyReads_ofExcept _
    exact hfirst.bind ih

theorem onlyReads_readWidener (path : String) : (Widener.read path).OnlyReads :=
  Work.onlyReads_files.bind fun _ => (Work.onlyReads_ofExcept _).bind fun _ =>
    Work.onlyReads_ofExcept _

end

end JarDerivation
