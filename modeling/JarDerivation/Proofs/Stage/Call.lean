-- One call for the output of a stage. It uses the output as it is, or it fails before the build,
-- or its build runs; and if that fails, nothing is left of the output. A call for one place keeps
-- what is at the others.
import JarDerivation.Proofs.Files.Around
import JarDerivation.Proofs.Stage.Builds

namespace JarDerivation

/-! ## Calls -/

/-- A call for an output, with the build that makes it. -/
structure StageCall where
  target : Artifact
  build : Work Unit

namespace StageCall

def path (c : StageCall) : String := c.target.path

/-- What a call gives, and the workspace that it leaves. -/
def exec (c : StageCall) (ctx : StageContext) (w : Workspace) : Except Error Artifact × Workspace :=
  (ctx.produce c.target c.build).exec w

end StageCall

/-- Two paths are one path, for the stages as for the files: they have the same parts, and where
one of them leads to a file the other one does. -/
structure Path.Alike (p q : String) : Prop where
  parts : components p = components q
  files : ∀ f : Files, f.isFile p = f.isFile q

theorem Path.Alike.refl (p : String) : Path.Alike p p := ⟨rfl, fun _ => rfl⟩

namespace StageContext

variable {ctx : StageContext} {c : StageCall} {w : Workspace}

/-- What can come of a call. -/
inductive Outcome (ctx : StageContext) (c : StageCall) (w : Workspace) :
    Except Error Artifact × Workspace → Prop where
  | used : ctx.Trusts w c.path → Outcome ctx c w (.ok c.target, w)
  | barred {fault : IoFault} {g : Files} : ¬ ctx.Trusts w c.path →
      (FileWork.ensureAround c.path).exec w.files = (.error fault, g) →
      Outcome ctx c w (.error (.io fault), { w with files := g })
  | built {g : Files} {v : Workspace} : ¬ ctx.Trusts w c.path →
      (FileWork.ensureAround c.path).exec w.files = (.ok (), g) →
      c.build.exec { w with files := g } = (.ok (), v) →
      Outcome ctx c w (.ok c.target, ((ctx.noteBuild c.target).exec v).2)
  | failed {g : Files} {e : Error} {v : Workspace} : ¬ ctx.Trusts w c.path →
      (FileWork.ensureAround c.path).exec w.files = (.ok (), g) →
      c.build.exec { w with files := g } = (.error e, v) →
      Outcome ctx c w (.error e, { v with files := v.files.discarded c.path })

theorem outcome_exec (ctx : StageContext) (c : StageCall) (w : Workspace) :
    Outcome ctx c w (c.exec ctx w) := by
  unfold StageCall.exec
  rw [exec_produce]
  by_cases htrusts : ctx.Trusts w c.path
  · rw [if_pos (show ctx.Trusts w c.target.path from htrusts)]
    exact .used htrusts
  · rw [if_neg (show ¬ ctx.Trusts w c.target.path from htrusts)]
    cases hensure : (FileWork.ensureAround c.target.path).exec w.files with
    | mk r g =>
      cases r with
      | error fault => exact .barred htrusts hensure
      | ok u =>
        dsimp only
        cases hbuild : c.build.exec { w with files := g } with
        | mk r v =>
          cases r with
          | ok u => exact .built htrusts hensure hbuild
          | error e =>
            dsimp only
            rw [Work.exec_discard]
            exact .failed htrusts hensure hbuild

/-- If the build of a call runs, the call ends as the build does. -/
theorem ran_of_runs (h : ctx.Runs c.target w) :
    ∃ g, (FileWork.ensureAround c.path).exec w.files = (.ok (), g) ∧
      (c.exec ctx w).1 = (c.build.exec { w with files := g }).1.map fun _ => c.target := by
  obtain ⟨htrusts, hreach⟩ := runs_iff.mp h
  have houtcome := outcome_exec ctx c w
  generalize c.exec ctx w = r at houtcome ⊢
  cases houtcome with
  | used hused => exact absurd hused htrusts
  | barred _ herror => exact absurd (hreach.symm.trans (congrArg Prod.fst herror)) nofun
  | @built g v _ hok hrun => exact ⟨g, hok, by rw [hrun]; rfl⟩
  | @failed g e v _ hok hrun => exact ⟨g, hok, by rw [hrun]; rfl⟩

/-- The folders that were there are there after a call, and no file at another place has changed. -/
theorem confined_exec (hbuild : Builds c.path c.build) (w : Workspace) :
    (∀ l, w.files.node? l = some .folder → (c.exec ctx w).2.files.node? l = some .folder) ∧
      ∀ l, l ≠ Path.goal c.path → (c.exec ctx w).2.files.fileAt l = w.files.fileAt l := by
  have hensured := FileWork.leaves_ensureAround (· = c.path) (fun _ => False) c.path w.files
  have hsame : ∀ {f : Files}, Files.Leaves (· = c.path) (fun _ => False) w.files f →
      ∀ l, l ≠ Path.goal c.path → f.fileAt l = w.files.fileAt l := by
    intro f hleaves l hl
    refine hleaves.same l ?_
    rintro _ rfl
    exact hl
  have houtcome := outcome_exec ctx c w
  generalize c.exec ctx w = r at houtcome ⊢
  cases houtcome with
  | used => exact ⟨fun _ hl => hl, fun _ _ => rfl⟩
  | barred _ herror =>
    rw [herror] at hensured
    exact ⟨hensured.folders, hsame hensured⟩
  | @built g v _ hok hrun =>
    rw [hok] at hensured
    have hfolders := hbuild.folders { w with files := g }
    have hothers := hbuild.others { w with files := g }
    rw [hrun] at hfolders hothers
    exact ⟨fun l hl => hfolders l (hensured.folders l hl),
      fun l hl => (hothers l hl).trans (hsame hensured l hl)⟩
  | @failed g e v _ hok hrun =>
    rw [hok] at hensured
    have hfolders := hbuild.folders { w with files := g }
    have hothers := hbuild.others { w with files := g }
    rw [hrun] at hfolders hothers
    have hdiscarded := Files.discarded_touches c.path (fun _ => False) v.files
    refine ⟨fun l hl => hdiscarded.folders l (hfolders l (hensured.folders l hl)), fun l hl => ?_⟩
    refine (hdiscarded.same l ?_).trans ((hothers l hl).trans (hsame hensured l hl))
    rintro _ rfl
    exact hl

/-- The folders that are there when the build begins are there after the call. -/
theorem ensured_folders_stay {g : Files} (hbuild : Builds c.path c.build)
    (hrooted : w.files.Rooted) (hensure : (FileWork.ensureAround c.path).exec w.files = (.ok (), g))
    {l : Location} (hl : g.node? l = some .folder) :
    (c.exec ctx w).2.files.node? l = some .folder := by
  have houtcome := outcome_exec ctx c w
  generalize c.exec ctx w = r at houtcome ⊢
  cases houtcome with
  | used htrusts =>
    cases hensure.symm.trans (FileWork.ensureAround_of_isFile hrooted htrusts.1)
    exact hl
  | barred _ herror => cases hensure.symm.trans herror
  | built _ hok hrun =>
    cases hensure.symm.trans hok
    have hfolders := hbuild.folders { w with files := g } l hl
    rw [hrun] at hfolders
    exact hfolders
  | @failed _ _ v _ hok hrun =>
    cases hensure.symm.trans hok
    have hfolders := hbuild.folders { w with files := g } l hl
    rw [hrun] at hfolders
    exact (Files.discarded_touches c.path (fun _ => False) v.files).folders l hfolders

/-- A file stays where it is, and as it is, when a call for another place is done. -/
theorem find?_of_confined {q : String} {content : Content} (hbuild : Builds c.path c.build)
    (hapart : Path.goal q ≠ Path.goal c.path) (hfile : w.files.find? q = some content) :
    (c.exec ctx w).2.files.find? q = some content := by
  have hconfined := @confined_exec ctx c hbuild w
  obtain ⟨hfolders, hsame⟩ := hconfined
  obtain ⟨hsane, hway, hgoal⟩ := Files.look_eq_ok.mp (Files.find?_eq_some.mp hfile)
  have hkept := (hsame _ hapart).trans (Files.fileAt_eq_some.mpr hgoal)
  exact Files.find?_eq_some.mpr (Files.look_eq_ok.mpr
    ⟨hsane, fun l hl => hfolders l (hway l hl), Files.fileAt_eq_some.mp hkept⟩)

/-! ## What is remembered -/

/-- Whether the build of a call runs and succeeds. -/
def Succeeds (ctx : StageContext) (c : StageCall) (w : Workspace) : Prop :=
  ctx.Runs c.target w ∧ (c.exec ctx w).1 = .ok c.target

instance (ctx : StageContext) (c : StageCall) (w : Workspace) : Decidable (ctx.Succeeds c w) :=
  inferInstanceAs (Decidable (_ ∧ _))

/-- The parts of the path of a call, if its build runs and succeeds. -/
def built? (ctx : StageContext) (c : StageCall) (w : Workspace) : List (List String) :=
  if ctx.Succeeds c w then [Path.components c.path] else []

/-- What a workspace remembers, when the outputs at some more paths were built. -/
structure Remembers (ctx : StageContext) (w : Workspace) (more : List (List String))
    (v : Workspace) : Prop where
  builds : v.builds = w.builds + more.length
  rebuilt : v.rebuilt = if ctx.config.forceReload then more ++ w.rebuilt else w.rebuilt
  provided : v.provided = w.provided

theorem remembers_nothing {v : Workspace} (h : w.SameMemory v) : ctx.Remembers w [] v :=
  ⟨h.builds, h.rebuilt.trans (ite_self w.rebuilt).symm, h.provided⟩

/-- A build that runs and succeeds is counted, and noted if a reload is forced; nothing else is. -/
theorem remembers_exec (hbuild : Builds c.path c.build) (w : Workspace) :
    ctx.Remembers w (ctx.built? c w) (c.exec ctx w).2 := by
  have houtcome := outcome_exec ctx c w
  have hsucceeds : ctx.Succeeds c w ↔ (¬ ctx.Trusts w c.path ∧ Reachable c.target w) ∧
      (c.exec ctx w).1 = .ok c.target := and_congr_left' runs_iff
  unfold built?
  generalize c.exec ctx w = r at houtcome hsucceeds ⊢
  cases houtcome with
  | used htrusts =>
    rw [if_neg fun h => (hsucceeds.mp h).1.1 htrusts]
    exact remembers_nothing ⟨rfl, rfl, rfl⟩
  | barred =>
    rw [if_neg fun h => nomatch (hsucceeds.mp h).2]
    exact remembers_nothing ⟨rfl, rfl, rfl⟩
  | @built g v htrusts hok hrun =>
    obtain ⟨hbuilds, hrebuilt, hprovided⟩ := hbuild.remembers { w with files := g }
    rw [hrun] at hbuilds hrebuilt hprovided
    rw [if_pos (hsucceeds.mpr ⟨⟨htrusts, congrArg Prod.fst hok⟩, rfl⟩)]
    refine ⟨congrArg (· + 1) hbuilds, ?_, hprovided⟩
    rw [rebuilt_noteBuild, hrebuilt]
    rfl
  | @failed g e v htrusts hok hrun =>
    obtain ⟨hbuilds, hrebuilt, hprovided⟩ := hbuild.remembers { w with files := g }
    rw [hrun] at hbuilds hrebuilt hprovided
    rw [if_neg fun h => nomatch (hsucceeds.mp h).2]
    exact remembers_nothing ⟨hbuilds, hrebuilt, hprovided⟩

/-! ## What is found -/

theorem trusts_iff_of_alike {p q : String} (h : Path.Alike p q) :
    ctx.Trusts w p ↔ ctx.Trusts w q := by
  unfold Trusts
  rw [h.files, h.parts]

theorem exec_of_trusts (h : ctx.Trusts w c.path) : c.exec ctx w = (.ok c.target, w) := by
  unfold StageCall.exec
  rw [exec_produce, if_pos (show ctx.Trusts w c.target.path from h)]

/-- A call that ends well gives its output, and from then on that is used as it is. -/
theorem trusts_of_ok {a : Artifact} (hbuild : Builds c.path c.build)
    (h : (c.exec ctx w).1 = .ok a) : a = c.target ∧ ctx.Trusts (c.exec ctx w).2 c.path := by
  have houtcome := outcome_exec ctx c w
  generalize c.exec ctx w = r at houtcome h ⊢
  cases houtcome with
  | used htrusts => exact ⟨(Except.ok.inj h).symm, htrusts⟩
  | barred => cases h
  | failed => cases h
  | @built g v _ _ hrun =>
    have hmade := hbuild.makes { w with files := g } ()
    rw [hrun] at hmade
    refine ⟨(Except.ok.inj h).symm, hmade rfl, ?_⟩
    rw [rebuilt_noteBuild]
    cases ctx.config.forceReload with
    | false => exact .inl rfl
    | true => exact .inr List.mem_cons_self

/-- No file is left by a call that fails. -/
theorem isFile_of_error {e : Error} (hrooted : w.files.Rooted) (hbuild : Builds c.path c.build)
    (h : (c.exec ctx w).1 = .error e) : (c.exec ctx w).2.files.isFile c.path = false := by
  have houtcome := outcome_exec ctx c w
  generalize c.exec ctx w = r at houtcome h ⊢
  cases houtcome with
  | used => cases h
  | built => cases h
  | barred _ herror => exact FileWork.isFile_of_ensureAround_error hrooted herror
  | @failed g e v _ hok hrun =>
    have hensured := FileWork.leaves_ensureAround (fun _ => False) (fun _ => False) c.path w.files
    have hfolders := hbuild.folders { w with files := g }
    rw [hok] at hensured
    rw [hrun] at hfolders
    exact Files.isFile_discarded (hfolders _ (hensured.folders _ hrooted)) c.path

/-- What would be used as it is before a call would still be so after it, if a path to the same
place as that of the call is the same path. -/
theorem trusts_after {q : String} (hbuild : Builds c.path c.build)
    (hapart : Path.goal q = Path.goal c.path → Path.Alike q c.path) (h : ctx.Trusts w q) :
    ctx.Trusts (c.exec ctx w).2 q := by
  by_cases hgoal : Path.goal q = Path.goal c.path
  · have hused : ctx.Trusts w c.path := (trusts_iff_of_alike (hapart hgoal)).mp h
    rwa [exec_of_trusts hused]
  · obtain ⟨content, hfind⟩ := Option.isSome_iff_exists.mp h.1
    refine ⟨Option.isSome_iff_exists.mpr ⟨content, find?_of_confined hbuild hgoal hfind⟩,
      h.2.imp_right fun hmem => ?_⟩
    rw [(remembers_exec hbuild w).rebuilt]
    split
    · exact List.mem_append_right _ hmem
    · exact hmem

end StageContext

/-! ## Builds that end -/

/-- The workspace in which the build of an output begins: the folders around it were made sure
of. -/
def Workspace.around (w : Workspace) (target : Artifact) : Workspace :=
  { w with files := ((FileWork.ensureAround target.path).exec w.files).2 }

theorem Files.look_of_openJar {f : Files} {path : String} {j : Jar} (h : f.openJar path = .ok j) :
    f.look path = .ok (.file (.jar j)) := by
  unfold openJar at h
  split at h <;> cases h
  assumption

/-- A jar that is there is found in its place when folders were made. -/
theorem FileWork.openJar_ensureAround {f : Files} {path : String} {j : Jar}
    (h : f.openJar path = .ok j) (target : String) :
    ((ensureAround target).exec f).2.openJar path = .ok j := by
  unfold ensureAround
  cases Path.parent? target with
  | none => exact h
  | some folder =>
    show ((ensureFolder folder).exec f).2.openJar path = .ok j
    by_cases hnamed : folder = ""
    · unfold ensureFolder
      rw [if_pos hnamed]
      exact h
    · have hlook := (ensured hnamed).grown.look (Files.look_of_openJar h)
      unfold Files.openJar
      rw [hlook]

theorem Workspace.openJar_around {w : Workspace} {path : String} {j : Jar}
    (h : w.files.openJar path = .ok j) (target : Artifact) :
    (w.around target).files.openJar path = .ok j :=
  FileWork.openJar_ensureAround h target.path

/-- A stage that cannot use its output has built it, with the folders around it there. -/
theorem StageContext.ends_produce {ctx : StageContext} {target a : Artifact} {build : Work Unit}
    {s s' : Workspace} (hfresh : ¬ ctx.Trusts s a.path)
    (h : Work.Ends (ctx.produce target build) s a s') :
    a = target ∧ ∃ v, v.files = s'.files ∧ Work.Ends build
      { s with files := ((FileWork.ensureAround target.path).exec s.files).2 } () v := by
  have houtcome := ctx.outcome_exec ⟨target, build⟩ s
  unfold StageCall.exec at houtcome
  rw [show (ctx.produce target build).exec s = (.ok a, s') from h] at houtcome
  cases houtcome with
  | used htrusts => exact absurd htrusts hfresh
  | @built g v _ hensure hbuild =>
    refine ⟨rfl, v, rfl, ?_⟩
    rw [show (FileWork.ensureAround target.path).exec s.files = (.ok (), g) from hensure]
    exact hbuild

/-- A stage gives its own output. -/
theorem StageContext.eq_of_ends_produce {ctx : StageContext} {target a : Artifact}
    {build : Work Unit} {s s' : Workspace} (h : Work.Ends (ctx.produce target build) s a s') :
    a = target := by
  have houtcome := ctx.outcome_exec ⟨target, build⟩ s
  unfold StageCall.exec at houtcome
  rw [show (ctx.produce target build).exec s = (.ok a, s') from h] at houtcome
  cases houtcome <;> rfl

/-- If the build of a call runs, the call ends as the build does. -/
theorem StageContext.outcome_produce {ctx : StageContext} {target : Artifact} {w : Workspace}
    (h : ctx.Runs target w) (build : Work Unit) :
    ((ctx.produce target build).exec w).1 =
      (build.exec (w.around target)).1.map fun _ => target := by
  obtain ⟨g, hensure, hran⟩ := ran_of_runs (c := ⟨target, build⟩) h
  refine hran.trans ?_
  unfold Workspace.around
  rw [show (FileWork.ensureAround target.path).exec w.files = (.ok (), g) from hensure]

/-- A stage that cannot use its output ends just when the folders around it can be made and the
build ends. -/
theorem StageContext.produce_ends_iff {ctx : StageContext} {target : Artifact} {build : Work Unit}
    {s : Workspace} (hfresh : ¬ ctx.Trusts s target.path) :
    (∃ a s', Work.Ends (ctx.produce target build) s a s') ↔
      Reachable target s ∧ (build.exec (s.around target)).1 = .ok () := by
  constructor
  · rintro ⟨a, s', h⟩
    have hreach : Reachable target s := by
      have houtcome := ctx.outcome_exec ⟨target, build⟩ s
      unfold StageCall.exec at houtcome
      rw [show (ctx.produce target build).exec s = (.ok a, s') from h] at houtcome
      cases houtcome with
      | used htrusts => exact absurd htrusts hfresh
      | built _ hensure _ => exact congrArg Prod.fst hensure
    refine ⟨hreach, ?_⟩
    have hran := outcome_produce (runs_iff.mpr ⟨hfresh, hreach⟩) build
    rw [show (ctx.produce target build).exec s = (.ok a, s') from h] at hran
    cases hbuild : (build.exec (s.around target)).1 with
    | error e =>
      rw [hbuild] at hran
      cases hran
    | ok u => rfl
  · rintro ⟨hreach, hbuild⟩
    have hran := outcome_produce (runs_iff.mpr ⟨hfresh, hreach⟩) build
    rw [hbuild] at hran
    exact ⟨target, _, Prod.ext hran rfl⟩

namespace Work

variable {path : String} {w : Workspace}

/-- Writing a jar ends as the work on its entries does, unless no file can be written. -/
theorem outcome_writeJar (path : String) (body : Traced Jar) (w : Workspace) :
    w.files.canWrite path = true ∧
        ((writeJar path body).exec w).1 = (body.outcome.map fun _ => ()) ∨
      w.files.canWrite path = false ∧ ∃ e, ((writeJar path body).exec w).1 = .error e := by
  unfold Files.canWrite writeJar
  rw [exec_writeJarWith, outcome_map,
    show (FileWork.clear path).run.run w.files = (FileWork.clear path).exec w.files from rfl]
  cases (FileWork.clear path).exec w.files with
  | mk cleared g =>
    cases cleared with
    | error fault => exact .inr ⟨rfl, _, rfl⟩
    | ok u =>
      dsimp only
      cases g.target path with
      | error fault => exact .inr ⟨rfl, _, rfl⟩
      | ok place => exact .inl ⟨rfl, by cases body.outcome <;> rfl⟩

/-- A jar is written just when a file can be and the work on its entries ends. -/
theorem writeJar_ok_iff {body : Traced Jar} :
    ((writeJar path body).exec w).1 = .ok () ↔
      w.files.canWrite path = true ∧ ∃ j, body.outcome = .ok j := by
  rcases outcome_writeJar path body w with ⟨hcan, hout⟩ | ⟨hcannot, e, hout⟩
  · rw [hout, hcan]
    cases body.outcome with
    | error e => exact ⟨nofun, fun ⟨_, _, h⟩ => nomatch h⟩
    | ok j => exact ⟨fun _ => ⟨rfl, j, rfl⟩, fun _ => rfl⟩
  · rw [hout, hcannot]
    exact ⟨nofun, fun h => nomatch h.1⟩

end Work

end JarDerivation
