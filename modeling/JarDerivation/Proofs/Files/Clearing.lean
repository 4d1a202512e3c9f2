-- Making way for a file: the folders around it are there, and the file that was
-- at its path is gone. A new file can be written just when no other file is on the
-- way, so what can be written depends on few places.
import JarDerivation.Proofs.Files.Walk

namespace JarDerivation

namespace Path

/-- All places on the way to a folder, its own included. -/
def visits (path : String) : List Location := visited (Files.start path) (segments path)

theorem start_mem_visits (path : String) : Files.start path ∈ visits path := by
  unfold visits visited
  cases segments path <;> simp [passed, reached]

/-- A path that names a file in a folder. -/
structure InFolder (path folder name : String) : Prop where
  parent : parent? path = some folder
  segments : segments path = segments folder ++ [name]
  start : Files.start path = Files.start folder
  proper : name ≠ "" ∧ name ≠ "." ∧ name ≠ ".."
  unslashed : wantsFolder path = false
  named : folder ≠ ""
  clean : '\x00' ∉ path.toList → '\x00' ∉ folder.toList
  shorter : folder.utf8ByteSize ≤ path.utf8ByteSize

namespace InFolder

variable {path folder name : String}

theorem way_eq (h : InFolder path folder name) : way path = visits folder := by
  unfold way visits visited
  rw [h.segments, h.start, passed_append]
  rfl

theorem goal_eq (h : InFolder path folder name) : goal path = (goal folder).push name := by
  unfold goal
  rw [h.segments, h.start, reached_append]
  exact onward_name _ h.proper.1 h.proper.2.1 h.proper.2.2

theorem goal_isEmpty (h : InFolder path folder name) : (goal path).isEmpty = false := by
  simp [h.goal_eq]

theorem sane_folder (h : InFolder path folder name) (hsane : Sane path) : Sane folder where
  text := h.clean hsane.text
  named := h.named
  short := Nat.le_trans h.shorter hsane.short
  fits segment hsegment := hsane.fits segment (by simp [h.segments, hsegment])

theorem backwards_eq (h : InFolder path folder name) :
    backwards path = name :: (Path.segments folder).reverse := by
  unfold backwards
  rw [h.segments]
  simp [h.proper.1]

theorem around_eq (h : InFolder path folder name) : around path = Path.segments folder := by
  simp [around, h.backwards_eq]

theorem lastName_eq (h : InFolder path folder name) : lastName path = name := by
  simp [lastName, h.backwards_eq]

theorem isDotted_eq (h : InFolder path folder name) : isDotted path = false := by
  simp [isDotted, h.lastName_eq, h.proper]

end InFolder

end Path

namespace Files

variable {f g h : Files} {place : Location} {path folder name : String}

/-! ## Erasing -/

theorem node?_eraseAt_of_ne {other : Location} (h : other ≠ place) :
    (f.eraseAt place).node? other = f.node? other := by
  unfold node?
  rw [lookup_eraseAt h]

theorem node?_eraseAt_self (h : place.isEmpty = false) : (f.eraseAt place).node? place = none := by
  unfold node? eraseAt
  rw [if_neg (by simpa using h), List.lookup_eq_none_iff]
  intro node hnode
  have hne : node.1 ≠ place := by simpa using (List.mem_filter.mp hnode).2
  simpa using hne.symm

/-! ## The place of a file -/

theorem folderAround_eq_ok (hp : Path.InFolder path folder name) :
    f.folderAround path = .ok place ↔
      ('\x00' ∉ path.toList ∧ path ≠ "" ∧ path.utf8ByteSize ≤ Path.longestPath) ∧
        (∀ segment ∈ Path.segments folder, Path.Fits segment) ∧
          (∀ w ∈ Path.visits folder, f.node? w = some .folder) ∧ place = Path.goal folder := by
  unfold folderAround
  rw [hp.around_eq]
  have hvisits : Path.visits folder =
      Path.passed (start path) (Path.segments folder) ++ [Path.goal folder] := by
    rw [Path.visits, Path.visited, hp.start]
    rfl
  have hgoal : Path.goal folder = Path.reached (start path) (Path.segments folder) := by
    rw [Path.goal, hp.start]
  constructor
  · intro h
    obtain ⟨before, hbefore, hdot⟩ := ok_of_bind h
    obtain ⟨htext, hnamed, hshort, hfollow⟩ := follow_eq_ok.mp hbefore
    obtain ⟨hpassed, hfits, rfl⟩ := foldlM_step_eq_ok.mp hfollow
    obtain ⟨hfolder, -, rfl⟩ := step_eq_ok.mp hdot
    rw [← hgoal] at hfolder
    exact ⟨⟨htext, hnamed, hshort⟩, hfits,
      by simpa [hvisits, or_imp, forall_and] using And.intro hpassed hfolder, by rw [hgoal]; rfl⟩
  · rintro ⟨⟨htext, hnamed, hshort⟩, hfits, hfolders, rfl⟩
    rw [hvisits] at hfolders
    obtain ⟨hpassed, hfolder⟩ := List.forall_mem_append.mp hfolders
    rw [follow_eq_ok.mpr ⟨htext, hnamed, hshort, foldlM_step_eq_ok.mpr ⟨hpassed, hfits, rfl⟩⟩]
    exact step_eq_ok.mpr ⟨by rw [← hgoal]; exact hfolder _ (by simp), by simp [Path.Fits],
      by rw [hgoal]; rfl⟩

/-- Work on the place of a file is work on the end of its path, if only folders are on its way. -/
theorem at_place_eq_ok (hp : Path.InFolder path folder name) {α : Type}
    (k : Location → Except IoFault α) {a : α} :
    (do let around ← f.folderAround path; let place ← f.step around name; k place) = .ok a ↔
      Path.Sane path ∧ (∀ w ∈ Path.visits folder, f.node? w = some .folder) ∧
        k (Path.goal path) = .ok a := by
  have honward : Path.onward (Path.goal folder) name = Path.goal path := by
    rw [hp.goal_eq, Path.onward_name _ hp.proper.1 hp.proper.2.1 hp.proper.2.2]
  constructor
  · intro h
    obtain ⟨around, haround, h⟩ := ok_of_bind h
    obtain ⟨⟨htext, hnamed, hshort⟩, hfits, hfolders, rfl⟩ := (folderAround_eq_ok hp).mp haround
    obtain ⟨place, hplace, h⟩ := ok_of_bind h
    obtain ⟨-, hfit, rfl⟩ := step_eq_ok.mp hplace
    refine ⟨⟨htext, hnamed, hshort, ?_⟩, hfolders, honward ▸ h⟩
    rw [hp.segments]
    exact List.forall_mem_append.mpr ⟨hfits, by simpa using hfit⟩
  · rintro ⟨hsane, hfolders, hk⟩
    have hfits : ∀ segment ∈ Path.segments folder, Path.Fits segment := (hp.sane_folder hsane).fits
    have hfit : Path.Fits name := hsane.fits name (by simp [hp.segments])
    have hgoal : Path.goal folder ∈ Path.visits folder := by
      simp [Path.visits, Path.visited, Path.goal]
    rw [(folderAround_eq_ok hp).mpr ⟨⟨hsane.text, hsane.named, hsane.short⟩, hfits, hfolders, rfl⟩]
    show (do let place ← f.step (Path.goal folder) name; k place) = _
    rw [step_eq_ok.mpr ⟨hfolders _ hgoal, hfit, rfl⟩, honward]
    exact hk

/-- A file can be put at a path if only folders are on its way and none is at its end. -/
theorem target_eq_ok (hp : Path.InFolder path folder name) :
    f.target path = .ok place ↔
      Path.Sane path ∧ (∀ w ∈ Path.visits folder, f.node? w = some .folder) ∧
        f.node? (Path.goal path) ≠ some .folder ∧ place = Path.goal path := by
  have hrest : (if f.node? (Path.goal path) = some .folder then throw .isDirectory
      else return Path.goal path : Except IoFault Location) = .ok place ↔
        f.node? (Path.goal path) ≠ some .folder ∧ place = Path.goal path := by
    by_cases hfolder : f.node? (Path.goal path) = some .folder
    · rw [if_pos hfolder]
      exact ⟨fun h => (by cases h), fun h => absurd hfolder h.1⟩
    · rw [if_neg hfolder]
      exact ⟨fun h => ⟨hfolder, (Except.ok.inj h).symm⟩, fun h => congrArg _ h.2.symm⟩
  unfold target
  rw [hp.isDotted_eq, hp.unslashed, hp.lastName_eq, ← hrest]
  exact at_place_eq_ok hp fun place =>
    if f.node? place = some .folder then throw .isDirectory else return place

theorem look_eq_ok_of_inFolder (hp : Path.InFolder path folder name) {n : FileNode} :
    f.look path = .ok n ↔
      Path.Sane path ∧ (∀ w ∈ Path.visits folder, f.node? w = some .folder) ∧
        f.node? (Path.goal path) = some n := by
  rw [look_eq_ok, hp.way_eq]

/-- What can be removed is a file that the path leads to. -/
theorem remove_eq_ok (hp : Path.InFolder path folder name) :
    f.remove path = .ok g ↔
      ∃ c, f.look path = .ok (.file c) ∧ g = f.eraseAt (Path.goal path) := by
  unfold remove
  rw [hp.isDotted_eq, hp.unslashed, hp.lastName_eq]
  refine (at_place_eq_ok hp _).trans ?_
  simp only [look_eq_ok_of_inFolder hp, and_assoc, exists_and_left]
  refine and_congr_right fun _ => and_congr_right fun _ => ?_
  cases f.node? (Path.goal path) with
  | none => exact ⟨fun h => (by cases h), fun ⟨c, h, _⟩ => (by cases h)⟩
  | some n =>
    cases n with
    | folder => exact ⟨fun h => (by cases h), fun ⟨c, h, _⟩ => (by cases h)⟩
    | file c =>
      exact ⟨fun h => ⟨c, rfl, (Except.ok.inj h).symm⟩, fun ⟨_, _, h⟩ => congrArg _ h.symm⟩

theorem exists?_iff {path : String} : f.exists? path = true ↔ ∃ n, f.look path = .ok n := by
  unfold exists? isFile isFolder find?
  cases hlook : f.look path with
  | error fault => simp
  | ok n => cases n <;> simp

/-! ## What can be written -/

/-- Whether a file can be written to a path, once there is way for it. -/
def canWrite (f : Files) (path : String) : Bool :=
  match (FileWork.clear path).run.run f with
  | (.ok (), g) => (g.target path).toOption.isSome
  | (.error _, _) => false

/-- Nothing is in the way of a file: no other file is, and its place is no folder and does not
become one when the folders around it are made. -/
structure Open (f : Files) (path folder : String) : Prop where
  sane : Path.Sane path
  start : f.node? (start path) = some .folder
  free : ∀ w ∈ Path.visits folder, ∀ c, f.node? w ≠ some (.file c)
  outside : Path.goal path ∉ Path.visits folder
  apart : f.node? (Path.goal path) ≠ some .folder

/-- If no file was in the way of a folder, the path to it leads through folders once it is made. -/
theorem folders_of_grown {n : FileNode} (hgrown : f.Grown (· ∈ Path.visits folder) h)
    (hfree : ∀ w ∈ Path.visits folder, ∀ c, f.node? w ≠ some (.file c))
    (hlook : h.look folder = .ok n) : ∀ w ∈ Path.visits folder, h.node? w = some .folder := by
  obtain ⟨-, hway, hgoal⟩ := look_eq_ok.mp hlook
  intro w hw
  rcases List.mem_append.mp hw with hw | hw
  · exact hway w hw
  · have hw : w = Path.goal folder := by simpa [Path.goal] using hw
    subst hw
    cases n with
    | folder => exact hgoal
    | file c =>
      exact absurd (hgrown.file hgoal) (hfree _ (by simp [Path.visits, Path.visited, Path.goal]) c)

/-- The place of a file that nothing is in the way of keeps what it has, when the folders around
it are made. -/
theorem Open.kept (hopen : f.Open path folder) (hgrown : f.Grown (· ∈ Path.visits folder) h) :
    h.node? (Path.goal path) = f.node? (Path.goal path) := by
  rcases hgrown (Path.goal path) with hsame | ⟨hmem, -, -⟩
  · exact hsame
  · exact absurd hmem hopen.outside

end Files

namespace FileWork

variable {f g : Files} {path folder name : String}

theorem exec_ensureAround (hp : Path.InFolder path folder name) :
    (ensureAround path).exec f = (ensureFolder folder).exec f := by
  unfold ensureAround
  rw [hp.parent]
  rfl

theorem exec_clear (hp : Path.InFolder path folder name) :
    (clear path).exec f = match (ensureFolder folder).exec f with
      | (.error fault, g) => (.error fault, g)
      | (.ok (), g) =>
        if g.exists? path then
          match g.remove path with
          | .ok h => (.ok (), h)
          | .error fault => (.error fault, g)
        else (.ok (), g) := by
  unfold clear
  rw [exec_bind, exec_ensureAround hp]
  cases (ensureFolder folder).exec f with
  | mk r g =>
    cases r with
    | error fault => rfl
    | ok u =>
      show (if g.exists? path then change (·.remove path) else pure () : FileWork Unit).exec g = _
      dsimp only
      by_cases hexists : g.exists? path
      · rw [if_pos hexists, if_pos hexists]
        show (match g.remove path with
          | .ok h => set h
          | .error fault => throw fault : FileWork Unit).exec g = _
        cases g.remove path <;> rfl
      · rw [if_neg hexists, if_neg hexists]
        rfl

/-- What making way for a file has done: folders are added, and then the file at the path is
gone. It ends well, with a place for the new file, just when nothing was in the way. -/
structure Cleared (path folder : String) (f : Files) (r : Except IoFault Unit) (g : Files) :
    Prop where
  changes : ∃ h, f.Grown (· ∈ Path.visits folder) h ∧
    h.node? (Files.start path) = f.node? (Files.start path) ∧
      (g = h ∨ ∃ c, h.look path = .ok (.file c) ∧ g = h.eraseAt (Path.goal path))
  ready : f.Open path folder → r = .ok () ∧ g.target path = .ok (Path.goal path)
  needed : r = .ok () → ∀ place, g.target path = .ok place → f.Open path folder

/-- Whatever a path leads to decides what removing it has done. -/
theorem cases_of_clear {h : Files} (hp : Path.InFolder path folder name)
    {r : Except IoFault Unit}
    (hr : (if h.exists? path then
        match h.remove path with
        | .ok g => (.ok (), g)
        | .error fault => (.error fault, h)
      else (.ok (), h)) = (r, g)) :
    (h.exists? path = false ∧ r = .ok () ∧ g = h) ∨
      (∃ c, h.look path = .ok (.file c) ∧ r = .ok () ∧ g = h.eraseAt (Path.goal path)) ∨
      (h.look path = .ok .folder ∧ r ≠ .ok () ∧ g = h) := by
  by_cases hexists : h.exists? path = true
  · rw [if_pos hexists] at hr
    cases hremove : h.remove path with
    | ok k =>
      rw [hremove] at hr
      obtain ⟨c, hlook, rfl⟩ := (Files.remove_eq_ok hp).mp hremove
      cases hr
      exact .inr (.inl ⟨c, hlook, rfl, rfl⟩)
    | error fault =>
      rw [hremove] at hr
      cases hr
      obtain ⟨n, hn⟩ := Files.exists?_iff.mp hexists
      cases n with
      | folder => exact .inr (.inr ⟨hn, (by simp), rfl⟩)
      | file c =>
        rw [(Files.remove_eq_ok hp).mpr ⟨c, hn, rfl⟩] at hremove
        cases hremove
  · rw [if_neg hexists] at hr
    cases hr
    exact .inl ⟨by simpa using hexists, rfl, rfl⟩

/-- The second half of making way, once the folders are there. -/
theorem cleared_of_folder {h : Files} {n : FileNode} (hp : Path.InFolder path folder name)
    (hgrown : f.Grown (· ∈ Path.visits folder) h)
    (hanchored : h.node? (Files.start path) = f.node? (Files.start path))
    (hfolder : h.look folder = .ok n) {r : Except IoFault Unit}
    (hr : (if h.exists? path then
        match h.remove path with
        | .ok g => (.ok (), g)
        | .error fault => (.error fault, h)
      else (.ok (), h)) = (r, g)) : Cleared path folder f r g := by
  have hstart : Files.start path ∈ Path.visits folder := hp.start ▸ Path.start_mem_visits folder
  have hcases := cases_of_clear hp hr
  have hchanges : g = h ∨ ∃ c, h.look path = .ok (.file c) ∧ g = h.eraseAt (Path.goal path) := by
    rcases hcases with ⟨-, -, rfl⟩ | ⟨c, hc, -, rfl⟩ | ⟨-, -, rfl⟩
    · exact .inl rfl
    · exact .inr ⟨c, hc, rfl⟩
    · exact .inl rfl
  have hdone : ∀ k, (k = h ∨ ∃ c, h.look path = .ok (.file c) ∧ k = h.eraseAt (Path.goal path)) →
      ∀ w, k.node? w = some .folder → h.node? w = some .folder := by
    rintro k (rfl | ⟨c, hc, rfl⟩) w hw
    · exact hw
    · by_cases hgoal : w = Path.goal path
      · rw [hgoal, Files.node?_eraseAt_self hp.goal_isEmpty] at hw
        cases hw
      · rwa [Files.node?_eraseAt_of_ne hgoal] at hw
  refine ⟨⟨h, hgrown, hanchored, hchanges⟩, fun hopen => ?_, fun hok place htarget => ?_⟩
  · have hfolders := Files.folders_of_grown hgrown hopen.free hfolder
    have hapart : h.node? (Path.goal path) ≠ some .folder := by
      rw [hopen.kept hgrown]
      exact hopen.apart
    rcases hcases with ⟨-, rfl, rfl⟩ | ⟨c, -, rfl, rfl⟩ | ⟨hlook, -, -⟩
    · exact ⟨rfl, (Files.target_eq_ok hp).mpr ⟨hopen.sane, hfolders, hapart, rfl⟩⟩
    · refine ⟨rfl, (Files.target_eq_ok hp).mpr ⟨hopen.sane, fun w hw => ?_, ?_, rfl⟩⟩
      · have hne : w ≠ Path.goal path := by
          rintro rfl
          exact hopen.outside hw
        rw [Files.node?_eraseAt_of_ne hne]
        exact hfolders w hw
      · simp [Files.node?_eraseAt_self hp.goal_isEmpty]
    · exact absurd ((Files.look_eq_ok_of_inFolder hp).mp hlook).2.2 hapart
  · obtain ⟨hsane, hfolders, hapart, -⟩ := (Files.target_eq_ok hp).mp htarget
    have hback := hdone g hchanges
    refine ⟨hsane, ?_, fun w hw c hc => ?_, fun hmem => hapart (hfolders _ hmem), fun hnode => ?_⟩
    · rw [← hanchored]
      exact hback _ (hfolders _ hstart)
    · have hw := hback w (hfolders w hw)
      rcases hgrown w with hsame | ⟨-, hnone, -⟩
      · rw [hsame, hc] at hw
        cases hw
      · rw [hnone] at hc
        cases hc
    · have hnode := hgrown.stays hnode
      rcases hcases with ⟨-, -, rfl⟩ | ⟨c, hc, -, -⟩ | ⟨-, hr, -⟩
      · exact hapart hnode
      · rw [((Files.look_eq_ok_of_inFolder hp).mp hc).2.2] at hnode
        cases hnode
      · exact hr hok

theorem cleared (hp : Path.InFolder path folder name) :
    Cleared path folder f ((clear path).exec f).1 ((clear path).exec f).2 := by
  have hensured := ensured (f := f) hp.named
  rw [exec_clear hp]
  cases hensure : (ensureFolder folder).exec f with
  | mk r h =>
    rw [hensure] at hensured
    have hgrown : f.Grown (· ∈ Path.visits folder) h := hensured.grown
    have hanchored : h.node? (Files.start path) = f.node? (Files.start path) := by
      rw [hp.start]
      exact hensured.anchored
    cases r with
    | error fault =>
      refine ⟨⟨h, hgrown, hanchored, .inl rfl⟩, fun hopen => ?_, fun hr => (by cases hr)⟩
      have hr := hensured.free (hp.sane_folder hopen.sane) (hp.start ▸ hopen.start) hopen.free
      cases hr
    | ok u =>
      obtain ⟨n, hn⟩ := hensured.done rfl
      exact cleared_of_folder hp hgrown hanchored hn rfl

end FileWork

namespace Files

variable {f : Files} {path folder name : String}

theorem canWrite_iff (hp : Path.InFolder path folder name) :
    f.canWrite path = true ↔ f.Open path folder := by
  have hcleared := FileWork.cleared (f := f) hp
  unfold canWrite
  show (match (FileWork.clear path).exec f with
    | (.ok (), g) => (g.target path).toOption.isSome
    | (.error _, _) => false) = true ↔ _
  cases hclear : (FileWork.clear path).exec f with
  | mk r g =>
    rw [hclear] at hcleared
    constructor
    · intro h
      cases r with
      | error fault => cases h
      | ok u =>
        cases htarget : g.target path with
        | error fault => simp [htarget, Except.toOption] at h
        | ok place => exact hcleared.needed rfl place htarget
    · intro hopen
      obtain ⟨hr, htarget⟩ := hcleared.ready hopen
      dsimp only at hr htarget
      rw [hr]
      simp [htarget, Except.toOption]

/-- A file that is put at a path has its folders made first, as far as they can be. -/
theorem put_cases (hp : Path.InFolder path folder name) (c : Content) :
    ∃ h, f.Grown (· ∈ Path.visits folder) h ∧
      h.node? (start path) = f.node? (start path) ∧
        (f.put path c = h ∨
          ∃ place, h.target path = .ok place ∧ f.put path c = h.putAt place (.file c)) := by
  have hensured := FileWork.ensured (f := f) hp.named
  have hput : f.put path c = match (FileWork.ensureFolder folder).exec f with
      | (.error _, h) => h
      | (.ok (), h) =>
        match h.target path with
        | .ok place => h.putAt place (.file c)
        | .error _ => h := by
    show ((do FileWork.ensureAround path
              FileWork.change (·.write path c) : FileWork Unit).exec f).2 = _
    rw [FileWork.exec_bind, FileWork.exec_ensureAround hp]
    cases (FileWork.ensureFolder folder).exec f with
    | mk r h =>
      cases r with
      | error fault => rfl
      | ok u =>
        dsimp only
        cases htarget : h.target path with
        | error fault => rw [FileWork.exec_change_error (by rw [write, htarget]; rfl)]
        | ok place => rw [FileWork.exec_change_ok (by rw [write, htarget]; rfl)]
  rw [hput]
  cases hensure : (FileWork.ensureFolder folder).exec f with
  | mk r h =>
    rw [hensure] at hensured
    refine ⟨h, hensured.grown, hp.start ▸ hensured.anchored, ?_⟩
    cases r with
    | error fault => exact .inl rfl
    | ok u =>
      dsimp only
      cases htarget : h.target path with
      | error fault => exact .inl rfl
      | ok place => exact .inr ⟨place, rfl, rfl⟩

end Files

end JarDerivation
