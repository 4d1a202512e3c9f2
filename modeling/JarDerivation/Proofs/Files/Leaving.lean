-- What a piece of work leaves of the files: at which places they may have changed, and
-- at which there may be new ones. Folders are made and never deleted, so a path that
-- has led to its place leads there for good, and what it has written can be deleted.
import JarDerivation.Proofs.Files.Clearing

namespace JarDerivation

namespace Files

variable {f g h : Files} {path : String} {place : Location} {c : Content}
  {touched left touched' left' : String → Prop}

/-- The file at a place. -/
def fileAt (f : Files) (place : Location) : Option Content :=
  match f.node? place with
  | some (.file c) => some c
  | _ => none

theorem fileAt_eq_some : f.fileAt place = some c ↔ f.node? place = some (.file c) := by
  unfold fileAt
  split <;> simp_all

theorem fileAt_congr (hnode : g.node? place = f.node? place) : g.fileAt place = f.fileAt place := by
  unfold fileAt
  rw [hnode]

/-- Only folders are on the way of a path. -/
def Leads (f : Files) (path : String) : Prop := f.locate path = .ok (Path.goal path)

theorem leads_iff : f.Leads path ↔
    Path.Sane path ∧ ∀ w ∈ Path.way path, f.node? w = some .folder := by
  unfold Leads
  rw [locate_eq_ok]
  simp

theorem leads_of_locate (hplace : f.locate path = .ok place) :
    place = Path.goal path ∧ f.Leads path := by
  obtain ⟨hsane, hway, rfl⟩ := locate_eq_ok.mp hplace
  exact ⟨rfl, hplace⟩

/-! ## The last name of a path -/

/-- A path that is no dots and has no slash at its end is followed to the folder around it, and
then to its last name. -/
theorem locate_eq_ok_of_named (hdots : Path.isDotted path = false)
    (hslash : Path.wantsFolder path = false) :
    f.locate path = .ok place ↔
      ∃ folder, f.folderAround path = .ok folder ∧
        f.step folder (Path.lastName path) = .ok place := by
  have hlocate : ∀ {before}, f.follow path (Path.around path) = .ok before →
      f.locate path = f.step before (Path.lastName path) := by
    intro before hbefore
    have hway := hbefore
    unfold locate
    rw [follow_of_ok hbefore] at hway ⊢
    rw [Path.segments_eq hdots hslash, List.foldlM_append, hway]
    simp only [List.foldlM_cons, List.foldlM_nil, bind_pure]
    rfl
  unfold folderAround
  constructor
  · intro h
    have hway := h
    unfold locate at hway
    rw [follow_of_ok h, Path.segments_eq hdots hslash, List.foldlM_append] at hway
    obtain ⟨before, hbefore, hlast⟩ := ok_of_bind hway
    rw [← follow_of_ok h] at hbefore
    rw [hlocate hbefore] at h
    refine ⟨before, ?_, h⟩
    rw [hbefore]
    exact step_eq_ok.mpr ⟨folder_of_step h, by simp [Path.Fits], rfl⟩
  · rintro ⟨folder, hfolder, hlast⟩
    obtain ⟨before, hbefore, hdot⟩ := ok_of_bind hfolder
    rw [hlocate hbefore, ← step_dot hdot]
    exact hlast

/-- What was removed is the file that the path has led to. -/
theorem file_of_remove (hremove : f.remove path = .ok g) :
    (∃ c, f.fileAt (Path.goal path) = some c) ∧ g = f.eraseAt (Path.goal path) := by
  unfold remove at hremove
  obtain ⟨folder, hfolder, h⟩ := ok_of_bind hremove
  cases hdots : Path.isDotted path with
  | true =>
    rw [hdots] at h
    cases h
  | false =>
    rw [hdots] at h
    obtain ⟨place, hplace, h⟩ := ok_of_bind (x := f.step folder (Path.lastName path)) h
    split at h
    · cases h
    · cases h
    · rename_i c hnode
      cases hslash : Path.wantsFolder path with
      | true =>
        rw [hslash] at h
        cases h
      | false =>
        obtain ⟨rfl, -⟩ := leads_of_locate
          ((locate_eq_ok_of_named hdots hslash).mpr ⟨folder, hfolder, hplace⟩)
        rw [hslash] at h
        cases h
        exact ⟨⟨c, fileAt_eq_some.mpr hnode⟩, rfl⟩

/-- A file that a path leads to can be removed, if the path is no dots and has no slash at its
end. -/
theorem remove_of_leads (hdots : Path.isDotted path = false)
    (hslash : Path.wantsFolder path = false) (hleads : f.Leads path)
    (hc : f.fileAt (Path.goal path) = some c) :
    f.remove path = .ok (f.eraseAt (Path.goal path)) := by
  obtain ⟨folder, hfolder, hplace⟩ := (locate_eq_ok_of_named hdots hslash).mp hleads
  unfold remove
  rw [hfolder, hdots, hslash]
  show (do let place ← f.step folder (Path.lastName path); _) = _
  rw [hplace]
  simp only [bind, Except.bind, fileAt_eq_some.mp hc]
  rfl

/-! ## What is left -/

/-- Folders stay. Files have changed only where a path that was touched ends, and a new file is
only where one of some paths leads to it. -/
structure Leaves (touched left : String → Prop) (f g : Files) : Prop where
  folders : ∀ l, f.node? l = some .folder → g.node? l = some .folder
  same : ∀ l, (∀ path, touched path → l ≠ Path.goal path) → g.fileAt l = f.fileAt l
  new : ∀ l, g.fileAt l = f.fileAt l ∨ g.fileAt l = none ∨
    ∃ path, left path ∧ l = Path.goal path ∧ g.Leads path

theorem Leaves.refl (touched left : String → Prop) (f : Files) : Leaves touched left f f :=
  ⟨fun _ h => h, fun _ _ => rfl, fun _ => .inl rfl⟩

/-- A path that leads to its place does so for good. -/
theorem Leaves.leads (h : Leaves touched left f g) (hleads : f.Leads path) : g.Leads path := by
  obtain ⟨hsane, hway⟩ := leads_iff.mp hleads
  exact leads_iff.mpr ⟨hsane, fun w hw => h.folders w (hway w hw)⟩

theorem Leaves.trans (hf : Leaves touched left f g) (hg : Leaves touched left g h) :
    Leaves touched left f h := by
  refine ⟨fun l hl => hg.folders l (hf.folders l hl),
    fun l hl => (hg.same l hl).trans (hf.same l hl), fun l => ?_⟩
  rcases hg.new l with hsame | hnone | hnew
  · rw [hsame]
    refine (hf.new l).imp_right (.imp_right ?_)
    rintro ⟨path, hpath, rfl, hleads⟩
    exact ⟨path, hpath, rfl, hg.leads hleads⟩
  · exact .inr (.inl hnone)
  · exact .inr (.inr hnew)

theorem Leaves.mono (h : Leaves touched left f g) (ht : ∀ path, touched path → touched' path)
    (hl : ∀ path, left path → left' path) : Leaves touched' left' f g :=
  ⟨h.folders, fun l hnot => h.same l fun path hpath => hnot path (ht path hpath), fun l =>
    (h.new l).imp_right (.imp_right fun ⟨path, hpath, hrest⟩ => ⟨path, hl path hpath, hrest⟩)⟩

theorem Grown.leaves {places : Location → Prop} (h : f.Grown places g)
    (touched left : String → Prop) : Leaves touched left f g := by
  have hsame : ∀ l, g.fileAt l = f.fileAt l := fun l => by
    rcases h l with hnode | ⟨-, hnone, hfolder⟩
    · exact fileAt_congr hnode
    · simp [fileAt, hnone, hfolder]
  exact ⟨fun l hl => h.stays hl, fun l _ => hsame l, fun l => .inl (hsame l)⟩

/-- Work at the end of a path that was touched. -/
theorem leaves_of_change (ht : touched path) (hfolder : f.node? (Path.goal path) ≠ some .folder)
    (hsame : ∀ l, l ≠ Path.goal path → g.node? l = f.node? l)
    (hnew : g.fileAt (Path.goal path) = none ∨ left path ∧ g.Leads path) :
    Leaves touched left f g := by
  refine ⟨fun l hl => ?_, fun l hl => fileAt_congr (hsame l (hl path ht)), fun l => ?_⟩
  · rw [hsame l fun heq => hfolder (heq ▸ hl)]
    exact hl
  · by_cases hl : l = Path.goal path
    · rw [hl]
      exact .inr (hnew.imp_right fun ⟨hleft, hleads⟩ => ⟨path, hleft, rfl, hleads⟩)
    · exact .inl (fileAt_congr (hsame l hl))

theorem fileAt_eraseAt_self (hc : f.fileAt place = some c) :
    (f.eraseAt place).fileAt place = none := by
  have hempty : place.isEmpty = false := by
    rw [Bool.eq_false_iff]
    intro hempty
    simp [fileAt, node?, hempty] at hc
  simp [fileAt, node?_eraseAt_self hempty]

theorem leaves_remove (ht : touched path) (left : String → Prop)
    (hremove : f.remove path = .ok g) : Leaves touched left f g := by
  obtain ⟨⟨c, hc⟩, rfl⟩ := file_of_remove hremove
  refine leaves_of_change ht ?_ (fun l hl => node?_eraseAt_of_ne hl)
    (.inl (fileAt_eraseAt_self hc))
  rw [fileAt_eq_some.mp hc]
  simp

theorem leaves_putAt (ht : touched path) (hl : left path) (hplace : f.target path = .ok place)
    (c : Content) : Leaves touched left f (f.putAt place (.file c)) := by
  have hplaces := places_of_target hplace
  obtain ⟨hgoal, -⟩ := leads_of_locate hplaces.located
  have hlook := look_eq_ok.mp (look_putAt hplaces (n := .file c))
  exact leaves_of_change ht (hgoal ▸ hplaces.free)
    (fun l hne => node?_putAt_of_ne fun heq => hne (heq.trans hgoal))
    (.inr ⟨hl, leads_iff.mpr ⟨hlook.1, hlook.2.1⟩⟩)

/-! ## Discarding -/

/-- The files without what may be left at a path. -/
def discarded (f : Files) (path : String) : Files := (f.remove path).toOption.getD f

theorem leaves_discarded (ht : touched path) (left : String → Prop) (f : Files) :
    Leaves touched left f (f.discarded path) := by
  unfold discarded
  cases hremove : f.remove path with
  | ok g => exact leaves_remove ht left hremove
  | error fault => exact .refl touched left f

/-- A path that leads to its place can be cleared. -/
theorem fileAt_discarded (hdots : Path.isDotted path = false)
    (hslash : Path.wantsFolder path = false) (hleads : f.Leads path) :
    (f.discarded path).fileAt (Path.goal path) = none := by
  unfold discarded
  cases hc : f.fileAt (Path.goal path) with
  | some c =>
    rw [remove_of_leads hdots hslash hleads hc]
    exact fileAt_eraseAt_self hc
  | none =>
    cases hremove : f.remove path with
    | error fault => exact hc
    | ok g =>
      obtain ⟨⟨c, hfound⟩, -⟩ := file_of_remove hremove
      rw [hc] at hfound
      cases hfound

/-- What is discarded in the end is not left. -/
theorem Leaves.discarded (h : Leaves touched (fun q => left q ∨ q = path) f g)
    (hdots : Path.isDotted path = false) (hslash : Path.wantsFolder path = false)
    (ht : touched path) : Leaves touched left f (g.discarded path) := by
  have hlast := leaves_discarded ht left g
  refine ⟨fun l hl => hlast.folders l (h.folders l hl),
    fun l hl => (hlast.same l hl).trans (h.same l hl), fun l => ?_⟩
  have hgone : ∀ q, q = path → l = Path.goal q → g.Leads q →
      (g.discarded path).fileAt l = none := by
    rintro _ rfl rfl hleads
    exact fileAt_discarded hdots hslash hleads
  rcases hlast.new l with hsame | hnone | ⟨q, hq, hl, hleads⟩
  · rcases h.new l with hold | hnone | ⟨q, hq | hq, hl, hleads⟩
    · exact .inl (hsame.trans hold)
    · exact .inr (.inl (hsame.trans hnone))
    · exact .inr (.inr ⟨q, hq, hl, hlast.leads hleads⟩)
    · exact .inr (.inl (hgone q hq hl hleads))
  · exact .inr (.inl hnone)
  · exact .inr (.inr ⟨q, hq, hl, hleads⟩)

end Files

/-! ## Making way -/

namespace FileWork

theorem leaves_ensureAround (touched left : String → Prop) (path : String) (f : Files) :
    Files.Leaves touched left f ((ensureAround path).exec f).2 := by
  unfold ensureAround
  cases Path.parent? path with
  | none => exact .refl touched left f
  | some folder =>
    show Files.Leaves touched left f ((ensureFolder folder).exec f).2
    by_cases hfolder : folder = ""
    · unfold ensureFolder
      rw [if_pos hfolder]
      exact .refl touched left f
    · exact (ensured hfolder).grown.leaves touched left

theorem leaves_clear {touched : String → Prop} {path : String} (ht : touched path)
    (left : String → Prop) (f : Files) :
    Files.Leaves touched left f ((clear path).exec f).2 := by
  have hensured := leaves_ensureAround touched left path f
  unfold clear
  rw [exec_bind]
  cases hrun : (ensureAround path).exec f with
  | mk r g =>
    rw [hrun] at hensured
    cases r with
    | error fault => exact hensured
    | ok u =>
      refine hensured.trans ?_
      show Files.Leaves touched left g
        ((if g.exists? path then change (·.remove path) else pure () : FileWork Unit).exec g).2
      split
      · cases hremove : g.remove path with
        | ok h =>
          rw [exec_change_ok hremove]
          exact Files.leaves_remove ht left hremove
        | error fault =>
          rw [exec_change_error hremove]
          exact .refl touched left g
      · exact .refl touched left g

end FileWork

end JarDerivation
