-- Work in the workspace that ends well: what each piece of it has found and what
-- it leaves behind. A jar that was written is the one that is opened afterwards.
-- A name `ends_…` says what a piece that ended has done, and `…_ends` that one ends.
import JarDerivation.Proofs.Files.Written
import JarDerivation.Workspace

namespace JarDerivation

namespace Work

variable {α β : Type} {w w' : Workspace}

/-- The work leads from one workspace to another and gives a value. -/
def Ends (x : Work α) (w : Workspace) (a : α) (w' : Workspace) : Prop :=
  x.run.run w = (.ok a, w')

theorem ends_of_bind {x : Work α} {f : α → Work β} {b : β} (h : Ends (x >>= f) w b w') :
    ∃ a v, Ends x w a v ∧ Ends (f a) v b w' := by
  unfold Ends at h ⊢
  rw [ExceptT.run_bind, StateT.run_bind] at h
  cases hx : x.run.run w with
  | mk outcome v =>
    rw [hx] at h
    cases outcome with
    | error e => cases h
    | ok a => exact ⟨a, v, rfl, h⟩

theorem ends_bind {x : Work α} {f : α → Work β} {a : α} {b : β} {v : Workspace}
    (hx : Ends x w a v) (hf : Ends (f a) v b w') : Ends (x >>= f) w b w' := by
  unfold Ends at hx hf ⊢
  rw [ExceptT.run_bind, StateT.run_bind, hx]
  exact hf

theorem ends_pure {a b : α} (h : Ends (pure a) w b w') : b = a ∧ w' = w := by
  cases h
  exact ⟨rfl, rfl⟩

theorem ends_ofExcept {r : Except Error α} {a : α} (h : Ends (ofExcept r) w a w') :
    r = .ok a ∧ w' = w := by
  cases r with
  | error e => cases h
  | ok b =>
    cases h
    exact ⟨rfl, rfl⟩

theorem files_ends : Ends files w w.files w := rfl

theorem ends_files {f : Files} (h : Ends files w f w') : f = w.files ∧ w' = w := by
  cases h
  exact ⟨rfl, rfl⟩

theorem ends_setFiles {f : Files} (h : Ends (setFiles f) w () w') : w' = { w with files := f } := by
  cases h
  rfl

theorem ends_ofTraced {x : Traced α} {a : α} (h : Ends (ofTraced x) w a w') :
    x.outcome = .ok a ∧ w'.files = w.files := by
  obtain ⟨_, v, hnoted, hdone⟩ := ends_of_bind h
  obtain ⟨hx, rfl⟩ := ends_ofExcept hdone
  cases hnoted
  exact ⟨hx, rfl⟩

theorem ofTraced_ends {x : Traced α} {a : α} (h : x.outcome = .ok a) :
    Ends (ofTraced x) w a { w with trace := w.trace ++ x.events } := by
  unfold ofTraced
  refine ends_bind (show Ends (modify _) w () _ from rfl) ?_
  rw [h]
  rfl

/-! ## Jars -/

theorem ends_openJar {path : String} {j : Jar} (h : Ends (openJar path) w j w') :
    w.files.openJar path = .ok j ∧ w' = w := by
  obtain ⟨f, v, hf, hdone⟩ := ends_of_bind h
  obtain ⟨rfl, rfl⟩ := ends_files hf
  exact ends_ofExcept hdone

theorem ends_jarPlace {path : String} {place : Location} (h : Ends (jarPlace path) w place w') :
    w.files.target path = .ok place ∧ w' = w := by
  obtain ⟨f, v, hf, hdone⟩ := ends_of_bind h
  obtain ⟨rfl, rfl⟩ := ends_files hf
  obtain ⟨hplace, rfl⟩ := ends_ofExcept hdone
  cases htarget : w'.files.target path with
  | error fault =>
    rw [htarget] at hplace
    cases hplace
  | ok found =>
    rw [htarget] at hplace
    cases hplace
    exact ⟨rfl, rfl⟩

theorem outcome_map (f : α → β) (x : Traced α) :
    (f <$> x).outcome = x.outcome >>= fun a => .ok (f a) :=
  Traced.outcome_bind _ _

theorem openJar_ends {path : String} {j : Jar} (h : w.files.openJar path = .ok j) :
    Ends (openJar path) w j w := by
  unfold openJar
  refine ends_bind files_ends ?_
  rw [h]
  rfl

/-- A jar that was written is found where it was written to. -/
theorem ends_writeJarWith {path : String} {body : Traced (Jar × α)} {a : α}
    (h : Ends (writeJarWith path body) w a w') :
    ∃ j, body.outcome = .ok (j, a) ∧ w'.files.openJar path = .ok j := by
  obtain ⟨_, cleared, _, hplacing⟩ := ends_of_bind h
  obtain ⟨place, placed, hplace, hwriting⟩ := ends_of_bind hplacing
  obtain ⟨htarget, hplaced⟩ := ends_jarPlace hplace
  obtain ⟨⟨j, b⟩, written, hbody, hsetting⟩ := ends_of_bind hwriting
  obtain ⟨hout, hfiles⟩ := ends_ofTraced hbody
  obtain ⟨f, found, hf, hset⟩ := ends_of_bind hsetting
  obtain ⟨hf, hfound⟩ := ends_files hf
  obtain ⟨_, last, hput, hdone⟩ := ends_of_bind hset
  have hlast := ends_setFiles hput
  obtain ⟨rfl, hw'⟩ := ends_pure hdone
  refine ⟨j, hout, ?_⟩
  unfold Files.openJar
  rw [hw', hlast, hf, hfiles, hplaced]
  rw [Files.look_putAt (Files.places_of_target htarget)]

theorem ends_writeJar {path : String} {body : Traced Jar} (h : Ends (writeJar path body) w () w') :
    ∃ j, body.outcome = .ok j ∧ w'.files.openJar path = .ok j := by
  obtain ⟨j, hout, hfound⟩ := ends_writeJarWith h
  rw [outcome_map] at hout
  obtain ⟨made, hmade, heq⟩ := ok_of_bind hout
  cases heq
  exact ⟨j, hmade, hfound⟩

/-- A new jar can be written to a plain name. -/
theorem writeJarWith_ends {name : String} {body : Traced (Jar × α)} {j : Jar} {a : α}
    (hname : Files.PlainName name) (hhome : w.files.node? Files.home = some .folder)
    (hfree : w.files.node? (Files.home.push name) = none) (hbody : body.outcome = .ok (j, a)) :
    ∃ v, Ends (writeJarWith name body) w a v := by
  have hclear : Ends (onFiles (FileWork.clear name)) w () w := by
    unfold onFiles
    refine ends_bind files_ends ?_
    rw [FileWork.clear_of_plain hname hhome hfree]
    rfl
  have hplace : Ends (jarPlace name) w (Files.home.push name) w := by
    unfold jarPlace
    refine ends_bind files_ends ?_
    rw [Files.target_of_plain hname hhome (by simp [hfree])]
    rfl
  exact ⟨_, ends_bind hclear (ends_bind hplace (ends_bind (ofTraced_ends hbody) rfl))⟩

theorem writeJar_ends {name : String} {body : Traced Jar} {j : Jar} (hname : Files.PlainName name)
    (hhome : w.files.node? Files.home = some .folder)
    (hfree : w.files.node? (Files.home.push name) = none) (hbody : body.outcome = .ok j) :
    ∃ v, Ends (writeJar name body) w () v := by
  refine writeJarWith_ends (j := j) hname hhome hfree ?_
  rw [outcome_map, hbody]
  rfl

end Work

end JarDerivation
