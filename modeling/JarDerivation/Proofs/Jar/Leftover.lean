-- What a failure leaves at the path of a jar. Once the jar is being written, a file that was there
-- before is gone for good. But the inputs are read first, and if that fails, nothing has changed:
-- an old file is still there.
import JarDerivation.Merge.Jar
import JarDerivation.Proofs.Files.Around
import JarDerivation.Proofs.Remap.Jar
import JarDerivation.Proofs.Stage.Builds

namespace JarDerivation

/-! ## Making way -/

namespace Files

variable {f g : Files} {path : String}

/-- A file that a path leads to can be removed. -/
theorem remove_of_look (hrooted : f.Rooted) {c : Content} (hlook : f.look path = .ok (.file c)) :
    f.remove path = .ok (f.eraseAt (Path.goal path)) := by
  obtain ⟨before, name, hends⟩ := endsIn_of_look hrooted hlook
  obtain ⟨hsane, hway, hgoal⟩ := look_eq_ok.mp hlook
  exact remove_of_leads hends.named.1 hends.named.2 (leads_iff.mpr ⟨hsane, hway⟩)
    (fileAt_eq_some.mpr hgoal)

/-- A file that was removed is not found. -/
theorem isFile_of_remove (hremove : f.remove path = .ok g) : g.isFile path = false := by
  obtain ⟨⟨c, hc⟩, rfl⟩ := file_of_remove hremove
  rw [Bool.eq_false_iff]
  intro hfile
  obtain ⟨d, hlook⟩ := isFile_iff.mp hfile
  have hthere := fileAt_eq_some.mpr (look_eq_ok.mp hlook).2.2
  rw [fileAt_eraseAt_self hc] at hthere
  cases hthere

end Files

namespace FileWork

/-- However making way for a file ends, no file is at its path afterwards. -/
theorem isFile_clear {f : Files} (hrooted : f.Rooted) (path : String) :
    ((clear path).exec f).2.isFile path = false := by
  have hleft := leaves_ensureAround (fun _ => False) (fun _ => False) path f
  unfold clear
  rw [exec_bind]
  cases hensure : (ensureAround path).exec f with
  | mk r g =>
    rw [hensure] at hleft
    have hrooted' : g.Rooted := hleft.folders _ hrooted
    cases r with
    | error fault => exact isFile_of_ensureAround_error hrooted hensure
    | ok u =>
      show ((if g.exists? path then change (·.remove path) else pure () : FileWork Unit).exec
        g).2.isFile path = false
      by_cases hexists : g.exists? path = true
      · rw [if_pos hexists]
        cases hremove : g.remove path with
        | ok h =>
          rw [exec_change_ok hremove]
          exact Files.isFile_of_remove hremove
        | error fault =>
          -- what cannot be removed is no file
          rw [exec_change_error hremove, Bool.eq_false_iff]
          intro hfile
          obtain ⟨c, hlook⟩ := Files.isFile_iff.mp hfile
          rw [Files.remove_of_look hrooted' hlook] at hremove
          cases hremove
      · rw [if_neg hexists, Bool.eq_false_iff]
        intro hfile
        have hfile : g.isFile path = true := hfile
        exact hexists (by simp [Files.exists?, hfile])

end FileWork

/-! ## Work that fails -/

namespace Work

variable {α β : Type} {path : String} {begun : Prop} {w v : Workspace}

/-- What a failure leaves of a file: it is there just when it was there and its writing had not
begun, and in that case no file at all has changed. -/
structure Leftover (path : String) (begun : Prop) (w v : Workspace) : Prop where
  kept : v.files.isFile path = true ↔ w.files.isFile path = true ∧ ¬ begun
  same : ¬ begun → v.files = w.files

theorem Leftover.of_same (hbegun : ¬ begun) (hsame : v.files = w.files) :
    Leftover path begun w v :=
  ⟨by rw [hsame]; exact ⟨fun h => ⟨h, hbegun⟩, And.left⟩, fun _ => hsame⟩

theorem Leftover.of_gone (hbegun : begun) (hgone : v.files.isFile path = false) :
    Leftover path begun w v :=
  ⟨⟨fun h => absurd h (by simp [hgone]), fun h => absurd hbegun h.2⟩, fun h => absurd hbegun h⟩

/-- If writing a jar fails, no file is at its path. -/
theorem isFile_of_writeJarWith_error (hrooted : w.files.Rooted) {body : Traced (Jar × α)}
    {e : Error} (hfailed : (writeJarWith path body).exec w = (.error e, v)) :
    v.files.isFile path = false := by
  have hcleared := FileWork.isFile_clear hrooted path
  rw [exec_writeJarWith] at hfailed
  cases hclear : (FileWork.clear path).exec w.files with
  | mk r g =>
    rw [hclear] at hfailed hcleared
    cases r with
    | error fault =>
      cases hfailed
      exact hcleared
    | ok u =>
      dsimp only at hfailed hcleared
      split at hfailed
      · cases hfailed
        exact hcleared
      · split at hfailed
        · cases hfailed
          exact hcleared
        · cases hfailed

/-- Work that begins with opening a jar fails because that fails, or afterwards. -/
theorem error_of_openJar_bind {input : String} {k : Jar → Work β} {e : Error}
    (h : (openJar input >>= k).exec w = (.error e, v)) :
    (∀ j, w.files.openJar input ≠ .ok j) ∧ v = w ∨
      ∃ j, w.files.openJar input = .ok j ∧ (k j).exec w = (.error e, v) := by
  rw [exec_bind, exec_openJar] at h
  cases hopen : w.files.openJar input with
  | error fault =>
    rw [hopen] at h
    cases h
    exact .inl ⟨nofun, rfl⟩
  | ok j =>
    rw [hopen] at h
    exact .inr ⟨j, rfl, h⟩

/-- Work that begins with a check fails because of that, or afterwards. -/
theorem error_of_ofExcept_bind {r : Except Error α} {k : α → Work β} {e : Error}
    (h : (ofExcept r >>= k).exec w = (.error e, v)) :
    (∀ a, r ≠ .ok a) ∧ v = w ∨ ∃ a, r = .ok a ∧ (k a).exec w = (.error e, v) := by
  rw [exec_bind, exec_ofExcept] at h
  cases r with
  | error fault =>
    cases h
    exact .inl ⟨nofun, rfl⟩
  | ok a => exact .inr ⟨a, rfl, h⟩

/-- Work that begins with a traced piece fails because that fails, or afterwards. -/
theorem error_of_ofTraced_bind {x : Traced α} {k : α → Work β} {e : Error}
    (h : (ofTraced x >>= k).exec w = (.error e, v)) :
    (∀ a, x.outcome ≠ .ok a) ∧ v.files = w.files ∨
      ∃ a, x.outcome = .ok a ∧
        (k a).exec { w with trace := w.trace ++ x.events } = (.error e, v) := by
  rw [exec_bind, exec_ofTraced] at h
  cases hout : x.outcome with
  | error fault =>
    rw [hout] at h
    cases h
    exact .inl ⟨nofun, rfl⟩
  | ok a =>
    rw [hout] at h
    exact .inr ⟨a, rfl, h⟩

end Work

/-! ## The two operations -/

/-- Both inputs of a merge can be opened. -/
def JarMerger.Begins (client server : String) (w : Workspace) : Prop :=
  ∃ c s, w.files.openJar client = .ok c ∧ w.files.openJar server = .ok s

/-- The input of a remap can be opened and read, and all of its classes can be remapped. -/
def Remapper.Begins (r : Remapper) (v : MappingView) (input : String) (classpath : List String)
    (w : Workspace) : Prop :=
  ∃ j classes, w.files.openJar input = .ok j ∧ j.Readable ∧
    (r.remapClasses (earlierCalls w.trace) ⟨v, classesOf j, classpath⟩).outcome = .ok classes

section

variable {w w' : Workspace} {e : Error} {output : String}

theorem JarMerger.leftover_mergeFiles {m : JarMerger} {client server : String}
    (hrooted : w.files.Rooted)
    (hfailed : (m.mergeFiles client server output).exec w = (.error e, w')) :
    Work.Leftover output (Begins client server w) w w' := by
  rcases Work.error_of_openJar_bind hfailed with ⟨hnone, rfl⟩ | ⟨c, hc, hfailed⟩
  · exact .of_same (fun ⟨c, _, hc, _⟩ => hnone c hc) rfl
  rcases Work.error_of_openJar_bind hfailed with ⟨hnone, rfl⟩ | ⟨s, hs, hfailed⟩
  · exact .of_same (fun ⟨_, s, _, hs⟩ => hnone s hs) rfl
  exact .of_gone ⟨c, s, hc, hs⟩ (Work.isFile_of_writeJarWith_error hrooted hfailed)

theorem Remapper.leftover_remapFile {r : Remapper} {v : MappingView} {input : String}
    {classpath : List String} (hrooted : w.files.Rooted)
    (hfailed : (r.remapFile v input output classpath).exec w = (.error e, w')) :
    Work.Leftover output (r.Begins v input classpath w) w w' := by
  rcases Work.error_of_openJar_bind hfailed with ⟨hnone, rfl⟩ | ⟨j, hj, hfailed⟩
  · exact .of_same (fun ⟨j, _, hj, _⟩ => hnone j hj) rfl
  rcases Work.error_of_ofExcept_bind hfailed with ⟨hnone, rfl⟩ | ⟨_, hread, hfailed⟩
  · refine .of_same (fun ⟨j', _, hj', hread, _⟩ => ?_) rfl
    rw [hj] at hj'
    cases hj'
    exact hnone () (readAll_eq_ok.mpr hread)
  rcases Work.error_of_ofTraced_bind hfailed with ⟨hnone, hsame⟩ | ⟨classes, hclasses, hfailed⟩
  · refine .of_same (fun ⟨j', classes, hj', _, hclasses⟩ => ?_) hsame
    rw [hj] at hj'
    cases hj'
    exact hnone classes hclasses
  -- only the trace has changed since the call
  refine .of_gone ⟨j, classes, hj, readAll_eq_ok.mp hread, hclasses⟩
    (Work.isFile_of_writeJarWith_error ?_ hfailed)
  exact hrooted

/-- After a merge or a remap that failed, a file is at the output just when one was there and the
writing had not begun: an input could not be opened, or that of a remap could not be read or a
class of it not be remapped. Then no file at all has changed. -/
theorem a_failed_output_stays_just_when_its_writing_had_not_begun (m : JarMerger) (r : Remapper)
    (v : MappingView) (client server input output : String) (classpath : List String)
    (w w' : Workspace) (e : Error) (hrooted : w.files.Rooted) :
    ((m.mergeFiles client server output).exec w = (.error e, w') →
      Work.Leftover output (JarMerger.Begins client server w) w w') ∧
    ((r.remapFile v input output classpath).exec w = (.error e, w') →
      Work.Leftover output (r.Begins v input classpath w) w w') :=
  ⟨JarMerger.leftover_mergeFiles hrooted, Remapper.leftover_remapFile hrooted⟩

end

/-- A merger that no damaged class gets past. -/
def strictMerger : JarMerger := ⟨.json, ⟨true⟩, ⟨[]⟩, .fatal⟩

def plainRemapper : Remapper := ⟨.json, .structural, []⟩

def emptyView : MappingView := ⟨.rebuildIndex ⟨["official", "intermediary"], [], []⟩, 0, 0, 1⟩

/-- A jar with a class that cannot be decoded. -/
def damagedJar (byte : UInt8) : Jar := Jar.ofEntries [⟨"a.class", [byte]⟩]

/-- Two such jars, and a jar of an earlier time. -/
def damagedWorkspace : Workspace :=
  .ofFiles (((Files.empty.putAt (Files.home.push "client.jar")
    (.file (.jar (damagedJar 1)))).putAt (Files.home.push "server.jar")
    (.file (.jar (damagedJar 2)))).putAt (Files.home.push "out.jar")
    (.file (.jar (Jar.ofEntries [⟨"old.txt", [3]⟩]))))

theorem openJar_damagedWorkspace :
    damagedWorkspace.files.openJar "client.jar" = .ok (damagedJar 1) ∧
      damagedWorkspace.files.openJar "server.jar" = .ok (damagedJar 2) :=
  ⟨Files.openJar_of_plain ⟨by simp, by decide, by decide, by decide, by decide, by decide⟩ rfl rfl,
    Files.openJar_of_plain ⟨by simp, by decide, by decide, by decide, by decide, by decide⟩ rfl rfl⟩

/-- A merge and a remap that come to the damaged class. -/
def lateMerge : Except Error MergeStats × Workspace :=
  (strictMerger.mergeFiles "client.jar" "server.jar" "out.jar").exec damagedWorkspace

def earlyRemap : Except Error Unit × Workspace :=
  (plainRemapper.remapFile emptyView "client.jar" "out.jar" []).exec damagedWorkspace

theorem error_of_isOk {α : Type} {x : Except Error α × Workspace} (h : x.1.isOk = false) :
    ∃ e, x = (.error e, x.2) := by
  obtain ⟨_ | a, w⟩ := x
  · exact ⟨_, rfl⟩
  · cases h

/-- The damaged class fails a merge in the middle of its writing, and a remap before that. -/
theorem a_damaged_class_fails_a_merge_late_and_a_remap_early :
    (∃ e w', lateMerge = (.error e, w') ∧ w'.files.isFile "out.jar" = false) ∧
      ∃ e w', earlyRemap = (.error e, w') ∧ w'.files.isFile "out.jar" = true := by
  have hclaim := fun e w' => a_failed_output_stays_just_when_its_writing_had_not_begun strictMerger
    plainRemapper emptyView "client.jar" "server.jar" "client.jar" "out.jar" [] damagedWorkspace
    w' e rfl
  obtain ⟨hclient, hserver⟩ := openJar_damagedWorkspace
  obtain ⟨late, hmerge⟩ := error_of_isOk (show lateMerge.1.isOk = false by decide +kernel)
  obtain ⟨early, hremap⟩ := error_of_isOk (show earlyRemap.1.isOk = false by decide +kernel)
  refine ⟨⟨late, _, hmerge, ?_⟩, early, _, hremap, ?_⟩
  · rw [Bool.eq_false_iff]
    intro hfile
    exact (((hclaim _ _).1 hmerge).kept.mp hfile).2 ⟨_, _, hclient, hserver⟩
  · refine ((hclaim _ _).2 hremap).kept.mpr ⟨by decide +kernel, ?_⟩
    rintro ⟨j, classes, hj, -, hclasses⟩
    rw [hclient] at hj
    cases hj
    have hnone : (plainRemapper.remapClasses (Remapper.earlierCalls damagedWorkspace.trace)
        ⟨emptyView, Remapper.classesOf (damagedJar 1), []⟩).outcome.isOk = false := by
      decide +kernel
    rw [hclasses] at hnone
    cases hnone

/-- An old jar outlives a merge without a client and a remap of a damaged class. -/
theorem a_failure_can_leave_an_old_jar :
    (¬ ∀ (m : JarMerger) (client server output : String) (w w' : Workspace) (e : Error),
      w.files.Rooted → (m.mergeFiles client server output).exec w = (.error e, w') →
        w'.files.isFile output = false) ∧
      ¬ ∀ (r : Remapper) (v : MappingView) (input output : String) (classpath : List String)
          (w w' : Workspace) (e : Error), w.files.Rooted →
        (r.remapFile v input output classpath).exec w = (.error e, w') →
          w'.files.isFile output = false := by
  constructor <;> intro hall
  · have hgone := hall strictMerger "none.jar" "server.jar" "out.jar" damagedWorkspace
      damagedWorkspace _ rfl rfl
    have hthere : damagedWorkspace.files.isFile "out.jar" = true := by decide +kernel
    rw [hthere] at hgone
    cases hgone
  · obtain ⟨e, hremap⟩ := error_of_isOk (show earlyRemap.1.isOk = false by decide +kernel)
    have hgone := hall plainRemapper emptyView "client.jar" "out.jar" [] damagedWorkspace _ e rfl
      hremap
    have hthere : earlyRemap.2.files.isFile "out.jar" = true := by decide +kernel
    rw [hthere] at hgone
    cases hgone

end JarDerivation
