-- One call for the output of a stage. If the output is not used as it is, the folders around it
-- are made sure of, and then the build runs. Whether it runs is seen by a build that only fails.
import JarDerivation.Proofs.Pipeline.Making

namespace JarDerivation

namespace StageContext

variable {ctx : StageContext} {target : Artifact} {w : Workspace}

/-- Whether a stage would use what is at a path. -/
def Trusts (ctx : StageContext) (w : Workspace) (path : String) : Prop :=
  w.files.isFile path = true ∧
    (ctx.config.forceReload = false ∨ Path.components path ∈ w.rebuilt)

instance (ctx : StageContext) (w : Workspace) (path : String) : Decidable (ctx.Trusts w path) :=
  inferInstanceAs (Decidable (_ ∧ _))

theorem rebuilt_noteBuild (ctx : StageContext) (target : Artifact) (w : Workspace) :
    ((ctx.noteBuild target).exec w).2.rebuilt =
      if ctx.config.forceReload then Path.components target.path :: w.rebuilt else w.rebuilt := rfl

theorem exec_produce (ctx : StageContext) (target : Artifact) (build : Work Unit) (w : Workspace) :
    (ctx.produce target build).exec w =
      if ctx.Trusts w target.path then (.ok target, w)
      else
        match (FileWork.ensureAround target.path).exec w.files with
        | (.error fault, g) => (.error (.io fault), { w with files := g })
        | (.ok (), g) =>
          match build.exec { w with files := g } with
          | (.ok (), v) => (.ok target, ((ctx.noteBuild target).exec v).2)
          | (.error e, v) => (.error e, ((Work.discard target.path).exec v).2) := by
  unfold produce
  have hcached : (ctx.isCached target).exec w = (.ok (w.files.isFile target.path &&
      (!ctx.config.forceReload || w.rebuilt.contains (Path.components target.path))), w) := rfl
  rw [Work.exec_bind, hcached]
  dsimp only
  by_cases h : ctx.Trusts w target.path
  · rw [if_pos h, if_pos (by simpa [Trusts] using h)]
    rfl
  · rw [if_neg h, if_neg (by simpa [Trusts] using h), Work.exec_bind, Work.exec_onFiles]
    cases (FileWork.ensureAround target.path).exec w.files with
    | mk r g =>
      cases r with
      | error fault => rfl
      | ok u =>
        show Work.exec (tryCatch build _ >>= _) _ = _
        rw [Work.exec_bind, Work.exec_tryCatch]
        dsimp only
        cases build.exec { w with files := g } with
        | mk r v =>
          cases r with
          | ok u => rfl
          | error e =>
            dsimp only
            rw [Work.exec_bind, Work.exec_discard]
            rfl

/-! ## Whether a build runs -/

/-- What a build can fail with and nothing else in a call does. -/
def probe : Error := .serialization

/-- A call for an output runs its build: if the build fails, so does the call. -/
def Runs (ctx : StageContext) (target : Artifact) (w : Workspace) : Prop :=
  ((ctx.produce target (throw probe)).exec w).1 = .error probe

instance (ctx : StageContext) (target : Artifact) (w : Workspace) :
    Decidable (ctx.Runs target w) := inferInstanceAs (Decidable (_ = _))

/-- The folders around an output are there, or they can be made. -/
def Reachable (target : Artifact) (w : Workspace) : Prop :=
  ((FileWork.ensureAround target.path).exec w.files).1 = .ok ()

instance (target : Artifact) (w : Workspace) : Decidable (Reachable target w) :=
  inferInstanceAs (Decidable (_ = _))

theorem runs_iff :
    ctx.Runs target w ↔ ¬ ctx.Trusts w target.path ∧ Reachable target w := by
  unfold Runs Reachable
  rw [exec_produce]
  by_cases h : ctx.Trusts w target.path
  · rw [if_pos h]
    exact ⟨nofun, fun hrest => absurd h hrest.1⟩
  · rw [if_neg h]
    cases (FileWork.ensureAround target.path).exec w.files with
    | mk r g =>
      cases r with
      | error fault => exact ⟨nofun, fun hrest => nomatch hrest.2⟩
      | ok u => exact ⟨fun _ => ⟨h, rfl⟩, fun _ => rfl⟩

/-- If the build does not run, a call does the same for every build. -/
theorem exec_of_not_runs (h : ¬ ctx.Runs target w) (build build' : Work Unit) :
    (ctx.produce target build).exec w = (ctx.produce target build').exec w := by
  rw [exec_produce, exec_produce]
  by_cases htrusts : ctx.Trusts w target.path
  · rw [if_pos htrusts, if_pos htrusts]
  · rw [if_neg htrusts, if_neg htrusts]
    have hbarred : ¬ Reachable target w := fun hreach => h (runs_iff.mpr ⟨htrusts, hreach⟩)
    unfold Reachable at hbarred
    cases hensure : (FileWork.ensureAround target.path).exec w.files with
    | mk r g =>
      cases r with
      | error fault => rfl
      | ok u =>
        rw [hensure] at hbarred
        exact absurd rfl hbarred

end StageContext

end JarDerivation
