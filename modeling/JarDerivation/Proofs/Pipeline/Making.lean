-- Work that makes an output. It reads its inputs first, and then it writes one jar;
-- it writes it just when there is one to write and nothing is in its way, and all
-- other outputs are left alone.
import JarDerivation.Proofs.Artifact.Filled
import JarDerivation.Proofs.Pipeline.Recipe
import JarDerivation.Proofs.Work

namespace JarDerivation

/-! ## Work by its results -/

namespace Work

variable {α β : Type} {w : Workspace}

/-- What a piece of work gives, and the workspace that it leaves. -/
abbrev exec (x : Work α) (w : Workspace) : Except Error α × Workspace := x.run.run w

theorem exec_bind (x : Work α) (k : α → Work β) (w : Workspace) :
    (x >>= k).exec w = match x.exec w with
      | (.ok a, v) => (k a).exec v
      | (.error e, v) => (.error e, v) := by
  unfold exec
  rw [ExceptT.run_bind, StateT.run_bind]
  cases x.run.run w with
  | mk r v => cases r <;> rfl

theorem exec_tryCatch (x : Work α) (handle : Error → Work α) (w : Workspace) :
    (tryCatch x handle).exec w = match x.exec w with
      | (.ok a, v) => (.ok a, v)
      | (.error e, v) => (handle e).exec v := by
  unfold exec
  show StateT.run (ExceptT.run (ExceptT.tryCatch x handle)) w = _
  unfold ExceptT.tryCatch
  rw [ExceptT.run_mk, StateT.run_bind, show StateT.run x w = x.run.run w from rfl]
  cases x.run.run w with
  | mk r v => cases r <;> rfl

theorem exec_ofExcept (r : Except Error α) (w : Workspace) : (ofExcept r).exec w = (r, w) := by
  cases r <;> rfl

theorem exec_openJar (path : String) (w : Workspace) :
    (openJar path).exec w = (w.files.openJar path, w) := exec_ofExcept _ w

theorem exec_onFiles (x : FileWork α) (w : Workspace) :
    (onFiles x).exec w =
      ((x.exec w.files).1.mapError .io, { w with files := (x.exec w.files).2 }) := exec_ofExcept _ _

theorem exec_ofTraced (x : Traced α) (w : Workspace) :
    (ofTraced x).exec w = (x.outcome, { w with trace := w.trace ++ x.events }) := exec_ofExcept _ _

theorem exec_files_bind (k : Files → Work β) (w : Workspace) :
    (files >>= k).exec w = (k w.files).exec w := rfl

theorem exec_discard (path : String) (w : Workspace) :
    (discard path).exec w =
      (.ok (), { w with files := ((w.files.remove path).toOption.getD w.files) }) := by
  unfold discard
  rw [exec_files_bind]
  cases w.files.remove path <;> rfl

theorem exec_jarPlace (path : String) (w : Workspace) :
    (jarPlace path).exec w = ((w.files.target path).mapError fun fault =>
      .archive path s!"Failed to create jar: {fault.message}", w) := exec_ofExcept _ w

theorem exec_writeJarWith (path : String) (body : Traced (Jar × α)) (w : Workspace) :
    (writeJarWith path body).exec w = match (FileWork.clear path).exec w.files with
      | (.error fault, g) => (.error (.io fault), { w with files := g })
      | (.ok (), g) =>
        match g.target path with
        | .error fault =>
          (.error (.archive path s!"Failed to create jar: {fault.message}"), { w with files := g })
        | .ok place =>
          let noted := { w with files := g, trace := w.trace ++ body.events }
          match body.outcome with
          | .error e => (.error e, noted)
          | .ok (jar, a) => (.ok a, { noted with files := g.putAt place (.file (.jar jar)) }) := by
  unfold writeJarWith
  rw [exec_bind, exec_onFiles]
  cases (FileWork.clear path).exec w.files with
  | mk cleared g =>
    cases cleared with
    | error fault => rfl
    | ok u =>
      show exec (jarPlace path >>= _) _ = _
      rw [exec_bind, exec_jarPlace]
      dsimp only
      cases g.target path with
      | error fault => rfl
      | ok place =>
        show exec (ofTraced body >>= _) _ = _
        rw [exec_bind, exec_ofTraced]
        dsimp only
        cases body.outcome <;> rfl

end Work

namespace Pipeline

variable {p : Pipeline} {f : Files}

/-! ## Outputs -/

/-- Whether a stage would use what is at a path. -/
def Trusted (p : Pipeline) (w : Workspace) (path : String) : Prop :=
  w.files.isFile path = true ∧
    (p.ctx.config.forceReload = false ∨ Path.components path ∈ w.rebuilt)

instance (p : Pipeline) (w : Workspace) (path : String) : Decidable (p.Trusted w path) :=
  inferInstanceAs (Decidable (_ ∧ _))

/-- The files are those from the beginning, with folders and files of the pipeline's artifacts. -/
abbrev Filled (p : Pipeline) (f g : Files) : Prop :=
  Cache.Filled p.ctx.config.cacheRoot p.version f g

/-- No output of the pipeline is there. -/
abbrev Bare (p : Pipeline) (f : Files) : Prop := Cache.Bare p.ctx.config.cacheRoot p.version f

/-- Work that has left alone all outputs but the one at a path. -/
structure LeavesOthers (p : Pipeline) (f : Files) (path : String) (w v : Workspace) : Prop where
  filled : p.Filled f v.files
  others : ∀ e tags, p.artifactPath e tags ≠ path →
    v.files.find? (p.artifactPath e tags) = w.files.find? (p.artifactPath e tags)
  rebuilt : ∀ other, other ≠ Path.components path → (other ∈ v.rebuilt ↔ other ∈ w.rebuilt)
  provided : v.provided = w.provided

theorem LeavesOthers.refl {path : String} {w : Workspace} (h : p.Filled f w.files) :
    LeavesOthers p f path w w :=
  ⟨h, fun _ _ _ => rfl, fun _ _ => Iff.rfl, rfl⟩

theorem LeavesOthers.trans {path : String} {u v w : Workspace} (h : LeavesOthers p f path u v)
    (h' : LeavesOthers p f path v w) : LeavesOthers p f path u w :=
  ⟨h'.filled, fun e tags hne => (h'.others e tags hne).trans (h.others e tags hne),
    fun other hne => (h'.rebuilt other hne).trans (h.rebuilt other hne),
    h'.provided.trans h.provided⟩

/-- Inputs of a stage: their paths with the jars that are found there. -/
abbrev Inputs := List (String × Option Jar)

def Found (inputs : Inputs) (g : Files) : Prop := ∀ i ∈ inputs, g.jar? i.1 = i.2

/-- Work that writes a jar to a path just when there is one to write and it can be written. -/
def Makes {α : Type} (p : Pipeline) (f : Files) (inputs : Inputs) (x : Work α) (path : String)
    (made : Option Jar) : Prop :=
  ∀ w r v, p.Filled f w.files → Found inputs w.files → x.exec w = (r, v) →
    LeavesOthers p f path w v ∧
      match r with
      | .ok _ => ∃ j, made = some j ∧ f.canWrite path = true ∧ v.files.jar? path = some j
      | .error _ => made = none ∨ f.canWrite path = false

variable {α β : Type} {w : Workspace} {e : Environment} {tags : List String} {inputs : Inputs}
  {path : String}

/-- What comes after the writing and does nothing. -/
theorem Makes.then_pure {x : Work α} {made : Option Jar} (h : Makes p f inputs x path made)
    (k : α → β) : Makes p f inputs (x >>= fun a => pure (k a)) path made := by
  intro w r v hw hfound hx
  rw [Work.exec_bind] at hx
  cases hrun : x.exec w with
  | mk r' v' =>
    rw [hrun] at hx
    have hmade := h w r' v' hw hfound hrun
    cases r' with
    | error e =>
      cases hx
      exact hmade
    | ok a =>
      cases hx
      exact hmade

/-! ## Reading before writing -/

/-- Work that reads and changes nothing that a stage depends on, and then goes on. -/
theorem makes_of_read {x : Work α} {k : α → Work β} {made : Option Jar}
    (hx : ∀ w r v, p.Filled f w.files → Found inputs w.files → x.exec w = (r, v) →
      LeavesOthers p f path w v ∧ v.files = w.files ∧
        match r with
        | .ok a => Makes p f inputs (k a) path made
        | .error _ => made = none) :
    Makes p f inputs (x >>= k) path made := by
  intro w r v hw hfound hrun
  rw [Work.exec_bind] at hrun
  cases hread : x.exec w with
  | mk r' v' =>
    rw [hread] at hrun
    obtain ⟨hleaves, hfiles, hnext⟩ := hx w r' v' hw hfound hread
    cases r' with
    | error e =>
      cases hrun
      exact ⟨hleaves, .inl hnext⟩
    | ok a =>
      obtain ⟨hleaves', hdone⟩ := hnext v' r v hleaves.filled (hfiles ▸ hfound) hrun
      exact ⟨hleaves.trans hleaves', hdone⟩

theorem makes_openJar {input : String} {o : Option Jar} {k : Jar → Work α}
    {made : Jar → Option Jar} (hinput : (input, o) ∈ inputs)
    (hk : ∀ j, o = some j → Makes p f inputs (k j) path (made j)) :
    Makes p f inputs (Work.openJar input >>= k) path (o.bind made) := by
  refine makes_of_read fun w r v hw hfound hx => ?_
  rw [Work.exec_openJar] at hx
  have hjar : w.files.jar? input = o := hfound (input, o) hinput
  cases hx
  refine ⟨.refl hw, rfl, ?_⟩
  cases hopen : w.files.openJar input with
  | error e =>
    have ho : o = none := by rw [← hjar, Files.jar?, hopen]; rfl
    rw [ho]
    rfl
  | ok j =>
    have ho : o = some j := by rw [← hjar, Files.jar?, hopen]; rfl
    have hmade := hk j ho
    rw [ho]
    exact hmade

theorem makes_ofExcept {r : Except Error α} {k : α → Work β} {made : α → Option Jar}
    (hk : ∀ a, Makes p f inputs (k a) path (made a)) :
    Makes p f inputs (Work.ofExcept r >>= k) path (r.toOption.bind made) := by
  refine makes_of_read fun w r' v hw hfound hx => ?_
  rw [Work.exec_ofExcept] at hx
  cases hx
  refine ⟨.refl hw, rfl, ?_⟩
  cases r with
  | error e => rfl
  | ok a => exact hk a

theorem makes_ofTraced {x : Traced α} {k : α → Work β} {made : α → Option Jar}
    (hk : ∀ a, Makes p f inputs (k a) path (made a)) :
    Makes p f inputs (Work.ofTraced x >>= k) path (x.outcome.toOption.bind made) := by
  refine makes_of_read fun w r v hw hfound hx => ?_
  rw [Work.exec_ofTraced] at hx
  cases hx
  refine ⟨⟨hw, fun _ _ _ => rfl, fun _ _ => Iff.rfl, rfl⟩, rfl, ?_⟩
  cases x.outcome with
  | error e => rfl
  | ok a => exact hk a

theorem makes_get {k : Workspace → Work α} {made : Option Jar}
    (hk : ∀ w, Makes p f inputs (k w) path made) :
    Makes p f inputs (get >>= k) path made := by
  refine makes_of_read fun w r v hw hfound hx => ?_
  cases hx
  exact ⟨.refl hw, rfl, hk w⟩

/-! ## Writing -/

/-- Writing a jar to the path of an output, with a value that is handed on. -/
theorem makes_writeJarWith (hbare : p.Bare f) (hpath : path = p.artifactPath e tags)
    (body : Traced (Jar × α)) :
    Makes p f inputs (Work.writeJarWith path body) path (body.outcome.toOption.map Prod.fst) := by
  rw [hpath]
  intro w r v hw hfound hx
  rw [Work.exec_writeJarWith] at hx
  cases hclear : (FileWork.clear (p.artifactPath e tags)).exec w.files with
  | mk cleared g =>
    obtain ⟨hg, hothers, hwrite⟩ := hw.clear hbare e tags hclear
    have hblocked : ¬ (cleared = .ok () ∧ ∃ place, g.target (p.artifactPath e tags) = .ok place) →
        f.canWrite (p.artifactPath e tags) = false := fun hnot => by
      rw [Bool.eq_false_iff]
      exact fun hcan => hnot (hwrite.mp hcan)
    rw [hclear] at hx
    cases cleared with
    | error fault =>
      cases hx
      exact ⟨⟨hg, hothers, fun _ _ => Iff.rfl, rfl⟩, .inr (hblocked fun h => (by cases h.1))⟩
    | ok u =>
      dsimp only at hx
      cases htarget : g.target (p.artifactPath e tags) with
      | error fault =>
        rw [htarget] at hx
        cases hx
        refine ⟨⟨hg, hothers, fun _ _ => Iff.rfl, rfl⟩, .inr (hblocked fun ⟨_, place, hplace⟩ => ?_)⟩
        rw [htarget] at hplace
        cases hplace
      | ok place =>
        rw [htarget] at hx
        cases hbody : body.outcome with
        | error fault =>
          rw [hbody] at hx
          cases hx
          exact ⟨⟨hg, hothers, fun _ _ => Iff.rfl, rfl⟩, .inl rfl⟩
        | ok made =>
          rw [hbody] at hx
          cases hx
          have hfind := Cache.find?_put htarget (.jar made.1)
          refine ⟨⟨hg.put hbare htarget _, fun e' tags' hne => ?_, fun _ _ => Iff.rfl, rfl⟩,
            made.1, rfl, hwrite.mpr ⟨rfl, place, htarget⟩, ?_⟩
          · exact (hfind e' tags').trans ((if_neg hne).trans (hothers e' tags' hne))
          · exact Files.jar?_of_find? ((hfind e tags).trans (if_pos rfl))

theorem makes_writeJar (hbare : p.Bare f) (hpath : path = p.artifactPath e tags)
    (body : Traced Jar) :
    Makes p f inputs (Work.writeJar path body) path body.outcome.toOption := by
  have hmade : Makes p f inputs _ path _ :=
    makes_writeJarWith hbare hpath ((fun j => (j, ())) <$> body)
  rw [Work.outcome_map] at hmade
  cases hbody : body.outcome <;> rw [hbody] at hmade <;> exact hmade

/-- A jar that is made from another one. -/
theorem makes_rewriteJar (hbare : p.Bare f) (hpath : path = p.artifactPath e tags) {input : String}
    {o : Option Jar} (hinput : (input, o) ∈ inputs) (edit : Jar → Traced Jar) :
    Makes p f inputs (Work.rewriteJar input path edit) path
      (o.bind fun j => (edit j).outcome.toOption) :=
  makes_openJar hinput fun j _ => makes_writeJar hbare hpath (edit j)

end Pipeline

end JarDerivation
