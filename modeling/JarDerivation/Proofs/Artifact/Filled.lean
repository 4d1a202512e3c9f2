-- What artifacts do to the files: there are new folders on the way to them, and new
-- files at their places. Neither has an effect on where a new artifact can be
-- written, nor on a path outside the cache.
import JarDerivation.Proofs.Artifact.Location

namespace JarDerivation

namespace Files

variable {f g k : Files} {path : String}

/-- Which paths lead somewhere depends on where the folders are. -/
theorem look_congr (hfolders : ∀ w, g.node? w = some .folder ↔ f.node? w = some .folder)
    (hgoal : g.node? (Path.goal path) = f.node? (Path.goal path)) {n : FileNode} :
    g.look path = .ok n ↔ f.look path = .ok n := by
  simp only [look_eq_ok, hfolders, hgoal]

theorem find?_congr (h : ∀ c, g.look path = .ok (.file c) ↔ f.look path = .ok (.file c)) :
    g.find? path = f.find? path := by
  apply Option.ext
  intro c
  rw [find?_eq_some, find?_eq_some, h]

theorem isFile_congr (h : g.find? path = f.find? path) : g.isFile path = f.isFile path := by
  unfold isFile
  rw [h]

end Files

namespace Cache

variable {root version : String} {f g k : Files} {e : Environment} {tags : List String}

/-- No artifact of the version is there. -/
def Bare (root version : String) (f : Files) : Prop :=
  ∀ e tags c, f.node? (Path.goal (artifactPath root version e tags)) ≠ some (.file c)

/-- Files with what the artifacts of a version may have added: folders on the way to them, and
files at places that their paths lead to. -/
structure Filled (root version : String) (f g : Files) : Prop where
  node : ∀ w, g.node? w = f.node? w ∨
    (OnWay root version w ∧ f.node? w = none ∧ g.node? w = some .folder) ∨
    (∃ e tags c, w = Path.goal (artifactPath root version e tags) ∧ ¬ OnWay root version w ∧
      f.node? w = none ∧ g.look (artifactPath root version e tags) = .ok (.file c))
  anchored : g.node? (anchor root version) = f.node? (anchor root version)

theorem Filled.refl (root version : String) (f : Files) : Filled root version f f :=
  ⟨fun _ => .inl rfl, rfl⟩

/-- A file at the place of an artifact is one that the artifact's path leads to. -/
theorem Filled.look (h : Filled root version f g) (hbare : Bare root version f) {c : Content}
    (hc : g.node? (Path.goal (artifactPath root version e tags)) = some (.file c)) :
    g.look (artifactPath root version e tags) = .ok (.file c) := by
  rcases h.node (Path.goal (artifactPath root version e tags)) with hsame | hfolder | hfile
  · rw [hc] at hsame
    exact absurd hsame.symm (hbare e tags c)
  · rw [hfolder.2.2] at hc
    cases hc
  · obtain ⟨e', tags', c', hplace, -, -, hlook⟩ := hfile
    rw [← goal_injective hplace] at hlook
    have hnode := (Files.look_eq_ok.mp hlook).2.2
    rw [hc] at hnode
    cases hnode
    exact hlook

/-! ## Making folders -/

theorem Filled.grow (h : Filled root version f g) (hgrown : g.Grown (OnWay root version) k)
    (hanchored : k.node? (anchor root version) = g.node? (anchor root version)) :
    Filled root version f k := by
  refine ⟨fun w => ?_, hanchored.trans h.anchored⟩
  rcases hgrown w with hsame | ⟨hway, hnone, hfolder⟩
  · rw [hsame]
    refine (h.node w).imp_right (.imp_right ?_)
    rintro ⟨e, tags, c, hplace, hway, hnone, hlook⟩
    exact ⟨e, tags, c, hplace, hway, hnone, hgrown.look hlook⟩
  · rcases h.node w with hsame | hold | ⟨e, tags, c, hplace, -, -, hlook⟩
    · exact .inr (.inl ⟨hway, by rw [← hsame, hnone], hfolder⟩)
    · rw [hold.2.2] at hnone
      cases hnone
    · rw [hplace, (Files.look_eq_ok.mp hlook).2.2] at hnone
      cases hnone

theorem Filled.find?_grow (h : Filled root version f g) (hbare : Bare root version f)
    (hgrown : g.Grown (OnWay root version) k) (e : Environment) (tags : List String) :
    k.find? (artifactPath root version e tags) = g.find? (artifactPath root version e tags) := by
  refine Files.find?_congr fun c => ⟨fun hlook => ?_, hgrown.look⟩
  exact h.look hbare (hgrown.file (Files.look_eq_ok.mp hlook).2.2)

/-! ## Changing the file of one artifact -/

/-- What happens at the place of an artifact leaves the other artifacts as they are. -/
theorem find?_of_apart {place : Location} (hplace : g.node? place ≠ some .folder)
    (hfree : k.node? place ≠ some .folder) (hsame : ∀ w, w ≠ place → k.node? w = g.node? w)
    {path : String} (hpath : Path.goal path ≠ place) : k.find? path = g.find? path := by
  refine Files.find?_congr fun c => Files.look_congr (fun w => ?_) (hsame _ hpath)
  by_cases hw : w = place
  · subst hw
    exact ⟨fun h => absurd h hfree, fun h => absurd h hplace⟩
  · rw [hsame w hw]

/-- The relation between the files stays when the place of an artifact changes and no folder
does, if the artifact is missing afterwards or its path leads to it. -/
theorem Filled.change (h : Filled root version f g) (hbare : Bare root version f)
    (hway : ¬ OnWay root version (Path.goal (artifactPath root version e tags)))
    (hplace : g.node? (Path.goal (artifactPath root version e tags)) ≠ some .folder)
    (hsame : ∀ w, w ≠ Path.goal (artifactPath root version e tags) → k.node? w = g.node? w)
    (hnow : k.node? (Path.goal (artifactPath root version e tags)) = none ∨
      ∃ c, k.look (artifactPath root version e tags) = .ok (.file c)) :
    Filled root version f k := by
  have hfree : k.node? (Path.goal (artifactPath root version e tags)) ≠ some .folder := by
    rcases hnow with hnone | ⟨c, hlook⟩
    · simp [hnone]
    · simp [(Files.look_eq_ok.mp hlook).2.2]
  have hmissing : f.node? (Path.goal (artifactPath root version e tags)) = none := by
    rcases h.node (Path.goal (artifactPath root version e tags)) with hold | hfolder | hfile
    · rw [← hold]
      cases hnode : g.node? (Path.goal (artifactPath root version e tags)) with
      | none => rfl
      | some n =>
        cases n with
        | folder => exact absurd hnode hplace
        | file c =>
          rw [hnode] at hold
          exact absurd hold.symm (hbare e tags c)
    · exact absurd hfolder.1 hway
    · obtain ⟨_, _, _, -, -, hnone, -⟩ := hfile
      exact hnone
  refine ⟨fun w => ?_, ?_⟩
  · by_cases hw : w = Path.goal (artifactPath root version e tags)
    · rcases hnow with hnone | ⟨c, hlook⟩
      · exact .inl (by rw [hw, hnone, hmissing])
      · exact .inr (.inr ⟨e, tags, c, hw, hw ▸ hway, by rw [hw, hmissing], hlook⟩)
    · rw [hsame w hw]
      refine (h.node w).imp_right (.imp_right ?_)
      rintro ⟨e', tags', c, hw', hway', hnone, hlook⟩
      have hfind := find?_of_apart hplace hfree hsame (hw' ▸ hw)
      exact ⟨e', tags', c, hw', hway', hnone,
        Files.find?_eq_some.mp (hfind.trans (Files.find?_eq_some.mpr hlook))⟩
  · rw [hsame, h.anchored]
    rintro heq
    refine hway ⟨e, ?_⟩
    rw [← heq, ← start_folder root version e]
    exact Path.start_mem_visits _

theorem not_onWay (hfolders : ∀ w ∈ Path.visits (folder root version e), g.node? w = some .folder)
    (hplace : g.node? (Path.goal (artifactPath root version e tags)) ≠ some .folder) :
    ¬ OnWay root version (Path.goal (artifactPath root version e tags)) :=
  fun h => hplace (hfolders _ (onWay_goal h))

theorem Filled.erase (h : Filled root version f g) (hbare : Bare root version f) {c : Content}
    (hlook : g.look (artifactPath root version e tags) = .ok (.file c)) :
    Filled root version f (g.eraseAt (Path.goal (artifactPath root version e tags))) := by
  have hin := inFolder_artifactPath root version e tags
  obtain ⟨-, hfolders, hnode⟩ := (Files.look_eq_ok_of_inFolder hin).mp hlook
  have hplace : g.node? (Path.goal (artifactPath root version e tags)) ≠ some .folder := by
    simp [hnode]
  exact h.change hbare (not_onWay hfolders hplace) hplace
    (fun w hw => Files.node?_eraseAt_of_ne hw) (.inl (Files.node?_eraseAt_self hin.goal_isEmpty))

theorem find?_erase {c : Content}
    (hlook : g.look (artifactPath root version e tags) = .ok (.file c)) (e' : Environment)
    (tags' : List String) :
    (g.eraseAt (Path.goal (artifactPath root version e tags))).find?
        (artifactPath root version e' tags') =
      if artifactPath root version e' tags' = artifactPath root version e tags then none
      else g.find? (artifactPath root version e' tags') := by
  have hempty := (inFolder_artifactPath root version e tags).goal_isEmpty
  have hnode := (Files.look_eq_ok.mp hlook).2.2
  split
  · rename_i heq
    rw [Option.eq_none_iff_forall_ne_some]
    intro c' hc'
    have hgone := (Files.look_eq_ok.mp (Files.find?_eq_some.mp hc')).2.2
    rw [heq, Files.node?_eraseAt_self hempty] at hgone
    cases hgone
  · rename_i hne
    refine find?_of_apart (by simp [hnode]) (by simp [Files.node?_eraseAt_self hempty])
      (fun w hw => Files.node?_eraseAt_of_ne hw) fun hgoal => hne (goal_injective hgoal)

/-- A file that is put at the place of an artifact is one that its path leads to. -/
theorem look_put {place : Location}
    (htarget : g.target (artifactPath root version e tags) = .ok place) (c : Content) :
    (g.putAt place (.file c)).look (artifactPath root version e tags) = .ok (.file c) :=
  Files.look_putAt (Files.places_of_target htarget)

theorem Filled.put (h : Filled root version f g) (hbare : Bare root version f) {place : Location}
    (htarget : g.target (artifactPath root version e tags) = .ok place) (c : Content) :
    Filled root version f (g.putAt place (.file c)) := by
  have hin := inFolder_artifactPath root version e tags
  have hlook := look_put htarget c
  obtain ⟨-, hfolders, hplace, hgoal⟩ := (Files.target_eq_ok hin).mp htarget
  rw [hgoal] at hlook ⊢
  exact h.change hbare (not_onWay hfolders hplace) hplace
    (fun w hw => Files.node?_putAt_of_ne hw) (.inr ⟨c, hlook⟩)

theorem find?_put {place : Location}
    (htarget : g.target (artifactPath root version e tags) = .ok place) (c : Content)
    (e' : Environment) (tags' : List String) :
    (g.putAt place (.file c)).find? (artifactPath root version e' tags') =
      if artifactPath root version e' tags' = artifactPath root version e tags then some c
      else g.find? (artifactPath root version e' tags') := by
  have hin := inFolder_artifactPath root version e tags
  have hlook := look_put htarget c
  obtain ⟨-, -, hplace, hgoal⟩ := (Files.target_eq_ok hin).mp htarget
  rw [hgoal] at hlook ⊢
  split
  · rename_i heq
    rw [heq, Files.find?_eq_some.mpr hlook]
  · rename_i hne
    refine find?_of_apart hplace (by simp [Files.node?_putAt_self hin.goal_isEmpty])
      (fun w hw => Files.node?_putAt_of_ne hw) fun hgoal => hne (goal_injective hgoal)

/-! ## What stays possible -/

theorem Filled.open_iff (h : Filled root version f g) :
    g.Open (artifactPath root version e tags) (folder root version e) ↔
      f.Open (artifactPath root version e tags) (folder root version e) := by
  have hstart : Files.start (artifactPath root version e tags) = anchor root version := by
    rw [(inFolder_artifactPath root version e tags).start, start_folder]
  -- no file is on the way to an artifact but those that were there from the beginning
  have hfiles : ∀ w ∈ Path.visits (folder root version e),
      (∀ c, g.node? w ≠ some (.file c)) ↔ ∀ c, f.node? w ≠ some (.file c) := by
    intro w hw
    rcases h.node w with hsame | ⟨-, hnone, hfolder⟩ | ⟨_, _, _, -, hway, -, -⟩
    · rw [hsame]
    · simp [hnone, hfolder]
    · exact absurd ⟨e, hw⟩ hway
  have hgoal : Path.goal (artifactPath root version e tags) ∉ Path.visits (folder root version e) →
      (g.node? (Path.goal (artifactPath root version e tags)) ≠ some .folder ↔
        f.node? (Path.goal (artifactPath root version e tags)) ≠ some .folder) := by
    intro hout
    rcases h.node (Path.goal (artifactPath root version e tags)) with hsame | hfolder | hfile
    · rw [hsame]
    · exact absurd (onWay_goal hfolder.1) hout
    · obtain ⟨e', tags', c, hplace, -, hnone, hlook⟩ := hfile
      rw [hplace, (Files.look_eq_ok.mp hlook).2.2, ← hplace, hnone]
      simp
  constructor
  · rintro ⟨hsane, hanchor, hfree, hout, hapart⟩
    rw [hstart, h.anchored] at hanchor
    exact ⟨hsane, hstart ▸ hanchor, fun w hw => (hfiles w hw).mp (hfree w hw), hout,
      (hgoal hout).mp hapart⟩
  · rintro ⟨hsane, hanchor, hfree, hout, hapart⟩
    rw [hstart, ← h.anchored] at hanchor
    exact ⟨hsane, hstart ▸ hanchor, fun w hw => (hfiles w hw).mpr (hfree w hw), hout,
      (hgoal hout).mpr hapart⟩

/-! ## Making way for an artifact -/

theorem grown_onWay (hgrown : g.Grown (· ∈ Path.visits (folder root version e)) k) :
    g.Grown (OnWay root version) k := hgrown.mono fun _ hw => ⟨e, hw⟩

/-- Making the folders around an artifact changes no artifact. -/
theorem Filled.ensureAround (h : Filled root version f g) (hbare : Bare root version f)
    (e : Environment) (tags : List String) {r : Except IoFault Unit}
    (hr : (FileWork.ensureAround (artifactPath root version e tags)).exec g = (r, k)) :
    Filled root version f k ∧
      (∀ e' tags', k.find? (artifactPath root version e' tags') =
        g.find? (artifactPath root version e' tags')) ∧
      (f.canWrite (artifactPath root version e tags) = true → r = .ok ()) := by
  have hin := inFolder_artifactPath root version e tags
  have hensured := FileWork.ensured (f := g) hin.named
  rw [FileWork.exec_ensureAround hin] at hr
  rw [hr] at hensured
  have hgrown := grown_onWay hensured.grown
  have hanchored := hensured.anchored
  rw [start_folder] at hanchored
  refine ⟨h.grow hgrown hanchored, h.find?_grow hbare hgrown, fun hwrite => ?_⟩
  have hopen := h.open_iff.mpr ((Files.canWrite_iff hin).mp hwrite)
  exact hensured.free (hin.sane_folder hopen.sane) (hin.start ▸ hopen.start) hopen.free

/-- Making way for an artifact leaves the others as they are, and it is there to be made just
when it was so in the beginning. -/
theorem Filled.clear (h : Filled root version f g) (hbare : Bare root version f)
    (e : Environment) (tags : List String) {r : Except IoFault Unit}
    (hr : (FileWork.clear (artifactPath root version e tags)).exec g = (r, k)) :
    Filled root version f k ∧
      (∀ e' tags', artifactPath root version e' tags' ≠ artifactPath root version e tags →
        k.find? (artifactPath root version e' tags') =
          g.find? (artifactPath root version e' tags')) ∧
      (f.canWrite (artifactPath root version e tags) = true ↔
        r = .ok () ∧ ∃ place, k.target (artifactPath root version e tags) = .ok place) := by
  have hin := inFolder_artifactPath root version e tags
  have hcleared := FileWork.cleared (f := g) hin
  rw [hr] at hcleared
  rw [Files.canWrite_iff hin, ← h.open_iff]
  have hiff : g.Open (artifactPath root version e tags) (folder root version e) ↔
      r = .ok () ∧ ∃ place, k.target (artifactPath root version e tags) = .ok place :=
    ⟨fun hopen => ⟨(hcleared.ready hopen).1, _, (hcleared.ready hopen).2⟩,
      fun ⟨hok, place, htarget⟩ => hcleared.needed hok place htarget⟩
  obtain ⟨mid, hgrown, hanchored, hlast⟩ := hcleared.changes
  have hgrown := grown_onWay hgrown
  rw [hin.start, start_folder] at hanchored
  have hmid := h.grow hgrown hanchored
  have hfind := h.find?_grow hbare hgrown
  rcases hlast with hlast | ⟨c, hlook, hlast⟩
  · have hk : k = mid := hlast
    rw [hk] at hiff ⊢
    exact ⟨hmid, fun e' tags' _ => hfind e' tags', hiff⟩
  · have hk : k = mid.eraseAt (Path.goal (artifactPath root version e tags)) := hlast
    rw [hk] at hiff ⊢
    refine ⟨hmid.erase hbare hlook, fun e' tags' hne => ?_, hiff⟩
    rw [find?_erase hlook, if_neg hne, hfind]

/-- What may be left at the place of an artifact is discarded. -/
theorem Filled.discard (h : Filled root version f g) (hbare : Bare root version f)
    (e : Environment) (tags : List String)
    (hk : k = (g.remove (artifactPath root version e tags)).toOption.getD g) :
    Filled root version f k ∧
      (∀ e' tags', artifactPath root version e' tags' ≠ artifactPath root version e tags →
        k.find? (artifactPath root version e' tags') =
          g.find? (artifactPath root version e' tags')) ∧
      k.find? (artifactPath root version e tags) = none := by
  have hin := inFolder_artifactPath root version e tags
  cases hremove : g.remove (artifactPath root version e tags) with
  | ok gone =>
    obtain ⟨c, hlook, hgone⟩ := (Files.remove_eq_ok hin).mp hremove
    rw [hremove] at hk
    have hk : k = g.eraseAt (Path.goal (artifactPath root version e tags)) := hk.trans hgone
    rw [hk]
    refine ⟨h.erase hbare hlook, fun e' tags' hne => ?_, ?_⟩
    · rw [find?_erase hlook, if_neg hne]
    · rw [find?_erase hlook, if_pos rfl]
  | error fault =>
    rw [hremove] at hk
    have hk : k = g := hk
    rw [hk]
    refine ⟨h, fun _ _ _ => rfl, ?_⟩
    rw [Option.eq_none_iff_forall_ne_some]
    intro c hc
    rw [(Files.remove_eq_ok hin).mpr ⟨c, Files.find?_eq_some.mp hc, rfl⟩] at hremove
    cases hremove

/-- Whatever is put at the path of an artifact, nothing else changes but folders. -/
theorem Filled.leftover (h : Filled root version f g) (hbare : Bare root version f)
    (e : Environment) (tags : List String) (c : Content) :
    Filled root version f (g.put (artifactPath root version e tags) c) := by
  have hin := inFolder_artifactPath root version e tags
  obtain ⟨k, hgrown, hanchored, hlast⟩ := Files.put_cases (f := g) hin c
  rw [hin.start, start_folder] at hanchored
  have hk := h.grow (grown_onWay hgrown) hanchored
  rcases hlast with hlast | ⟨place, htarget, hlast⟩
  · rw [hlast]
    exact hk
  · rw [hlast]
    exact hk.put hbare htarget c

/-! ## Paths outside the cache -/

/-- A path outside the cache of a version: it ends at no place of an artifact, and if a file is at
its end, it leads there. -/
structure Outside (root version : String) (f : Files) (path : String) : Prop where
  apart : ∀ e tags, Path.goal path ≠ Path.goal (artifactPath root version e tags)
  leads : ∀ c, f.node? (Path.goal path) = some (.file c) → f.look path = .ok (.file c)

/-- What was there from the beginning is there. -/
theorem Filled.stays (h : Filled root version f g) {w : Location} {n : FileNode}
    (hn : f.node? w = some n) : g.node? w = some n := by
  rcases h.node w with hsame | ⟨-, hnone, -⟩ | ⟨_, _, _, -, -, hnone, -⟩
  · rw [hsame, hn]
  · rw [hnone] at hn
    cases hn
  · rw [hnone] at hn
    cases hn

theorem Filled.find?_outside (h : Filled root version f g) {path : String}
    (hpath : Outside root version f path) : g.find? path = f.find? path := by
  refine Files.find?_congr fun c => ⟨fun hlook => ?_, fun hlook => ?_⟩
  · have hnode := (Files.look_eq_ok.mp hlook).2.2
    rcases h.node (Path.goal path) with hsame | ⟨-, -, hfolder⟩ | ⟨e, tags, _, hplace, -, -, -⟩
    · exact hpath.leads c (hsame ▸ hnode)
    · rw [hnode] at hfolder
      cases hfolder
    · exact absurd hplace (hpath.apart e tags)
  · obtain ⟨hsane, hway, hnode⟩ := Files.look_eq_ok.mp hlook
    exact Files.look_eq_ok.mpr ⟨hsane, fun w hw => h.stays (hway w hw), h.stays hnode⟩

end Cache

end JarDerivation
