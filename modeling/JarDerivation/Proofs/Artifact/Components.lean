-- The parts of the path of an artifact. Below the root of the cache there are the folder of the
-- version, the folder of the environment and the file. A version that is empty or made of dots
-- names no folder, so its artifacts are elsewhere, and with two dots even outside of the root.
import JarDerivation.Proofs.Artifact.Location

namespace JarDerivation

/-! ## The parts of a path -/

namespace Path

/-- A part that leads to what is called so, and nowhere else. -/
structure Ordinary (part : String) : Prop where
  proper : part ≠ "" ∧ part ≠ "." ∧ part ≠ ".."
  slash : '/' ∉ part.toList
  backslash : '\\' ∉ part.toList

/-- What stands before the names below a path has the segments of the path, apart from an empty
one at the end. -/
theorem fore_cases (path : String) :
    path = "" ∧ fore path = [] ∨
      fore path ≠ [] ∧ (segments path = fore path ∨ segments path = fore path ++ [""]) := by
  unfold fore asFolder
  by_cases hempty : path = ""
  · subst hempty
    exact .inl ⟨rfl, by decide⟩
  · rw [if_neg hempty]
    split
    · rename_i hend
      obtain ⟨l, hl⟩ := endsWith_iff.mp hend
      have hslash : path = String.ofList l ++ "/" := String.toList_injective (by simp [hl])
      have hsegments : segments path = segments (String.ofList l) ++ [""] := by
        rw [hslash, segments_slash]
      rw [hsegments, List.dropLast_concat]
      exact .inr ⟨segments_ne_nil _, .inr rfl⟩
    · rw [segments_slash, List.dropLast_concat]
      exact .inr ⟨segments_ne_nil _, .inl rfl⟩

theorem filter_fore (path : String) :
    (fore path).filter isNamed = (segments path).filter isNamed := by
  rcases fore_cases path with ⟨rfl, hfore⟩ | ⟨-, hsame | hslash⟩
  · rw [hfore]
    decide
  · rw [hsame]
  · rw [hslash, List.filter_append]
    exact (List.append_nil _).symm

theorem isAbsolute_below {name : String} (hname : '/' ∉ name.toList) (path : String) :
    isAbsolute (asFolder path ++ name) = isAbsolute path := by
  rw [Bool.eq_iff_iff, isAbsolute_iff, isAbsolute_iff, String.toList_append]
  by_cases hempty : path = ""
  · subst hempty
    have hrelative : ∀ l, name.toList ≠ '/' :: l := fun l hl => hname (by simp [hl])
    simp [asFolder, hrelative]
  · obtain ⟨c, rest, hl⟩ := List.exists_cons_of_ne_nil (show path.toList ≠ [] by simpa using hempty)
    have hfolder : ∃ more, (asFolder path).toList = c :: more := by
      unfold asFolder
      rw [if_neg hempty]
      split
      · exact ⟨rest, hl⟩
      · exact ⟨rest ++ ['/'], by simp [hl]⟩
    obtain ⟨more, hmore⟩ := hfolder
    simp [hl, hmore]

/-- Whether there is a `.` at the front is decided by the path, if there is one. -/
theorem head?_fore {path : String} (hpath : path ≠ "") (more : List String) :
    (fore path ++ more).head? = (segments path).head? := by
  rcases fore_cases path with ⟨hempty, -⟩ | ⟨hne, hsegments⟩
  · exact absurd hempty hpath
  · obtain ⟨first, rest, hfore⟩ := List.exists_cons_of_ne_nil hne
    rcases hsegments with h | h <;> simp [h, hfore]

/-- Below a path its parts come first, and then what the name below it adds. -/
theorem components_below {path name : String} (hpath : path ≠ "") (hname : '/' ∉ name.toList) :
    components (asFolder path ++ name) = components path ++ [name].filter isNamed := by
  unfold components
  rw [isAbsolute_below hname, segments_asFolder_append hname, head?_fore hpath,
    List.filter_append, filter_fore]
  split
  · rfl
  · split <;> rfl

theorem components_named {path name : String} (hnamed : isNamed name = true)
    (hname : '/' ∉ name.toList) :
    components (asFolder path ++ name) = components path ++ [name] := by
  have hone : [name].filter isNamed = [name] := List.filter_cons_of_pos hnamed
  by_cases hpath : path = ""
  · subst hpath
    have hrelative := isAbsolute_below hname ""
    have hdot : name ≠ "." := by
      rintro rfl
      exact absurd hnamed (by decide)
    have hsegments : segments (asFolder "" ++ name) = [name] := by
      rw [segments_asFolder_append hname, show fore "" = [] by decide, List.nil_append]
    have hempty : components "" = [] := by decide
    rw [hempty]
    unfold components
    rw [hrelative, hsegments, hone]
    simp [show isAbsolute "" = false by decide, hdot]
  · rw [components_below hpath hname, hone]

end Path

namespace Files

variable {f g : Files} {path folder name : String}

/-- A change at the path of a file changes nothing but what is at its place. -/
theorem node?_of_changed (hp : Path.InFolder path folder name) {c : Content}
    (hchange : f.write path c = .ok g ∨ f.remove path = .ok g) {w : Location}
    (hw : w ≠ Path.goal path) : g.node? w = f.node? w := by
  rcases hchange with hwrite | hremove
  · unfold write at hwrite
    cases htarget : f.target path with
    | error fault =>
      rw [htarget] at hwrite
      cases hwrite
    | ok place =>
      rw [htarget] at hwrite
      cases hwrite
      obtain ⟨-, -, -, rfl⟩ := (target_eq_ok hp).mp htarget
      exact node?_putAt_of_ne hw
  · obtain ⟨-, -, rfl⟩ := (remove_eq_ok hp).mp hremove
    exact node?_eraseAt_of_ne hw

end Files

namespace Cache

variable {root version : String} {e : Environment} {tags : List String}

/-! ## The folder of a version -/

/-- A text without underscores comes of no other text when it is made fit for a file name. -/
theorem eq_of_sanitize {s t : String} (h : sanitize s = t) (ht : '_' ∉ t.toList) : s = t := by
  rw [← h]
  refine (sanitize_of_safe fun c hc => ?_).symm
  rw [Bool.eq_false_iff]
  intro hunsafe
  refine ht ?_
  rw [← h, toList_sanitize]
  exact List.mem_map.mpr ⟨c, hc, if_pos hunsafe⟩

theorem sanitize_eq_iff {s t : String} (hunderscore : '_' ∉ t.toList)
    (hsafe : t.toList.any isUnsafe = false) : sanitize s = t ↔ s = t := by
  refine ⟨fun h => eq_of_sanitize h hunderscore, ?_⟩
  rintro rfl
  exact sanitize_of_safe fun c hc => Bool.eq_false_iff.mpr (List.any_eq_false.mp hsafe c hc)

/-- Making a version fit for a file name does not help if it is empty or made of dots. -/
theorem sanitize_proper_iff (version : String) :
    (sanitize version ≠ "" ∧ sanitize version ≠ "." ∧ sanitize version ≠ "..") ↔
      version ≠ "" ∧ version ≠ "." ∧ version ≠ ".." := by
  rw [Ne, Ne, Ne, sanitize_eq_iff (by decide) (by decide), sanitize_eq_iff (by decide) (by decide),
    sanitize_eq_iff (by decide) (by decide)]

theorem ordinary_sanitize (h : version ≠ "" ∧ version ≠ "." ∧ version ≠ "..") :
    Path.Ordinary (sanitize version) :=
  ⟨(sanitize_proper_iff version).mpr h, notMem_sanitize (by decide) version,
    notMem_sanitize (by decide) version⟩

theorem ordinary_name (e : Environment) : Path.Ordinary e.name :=
  ⟨name_proper e, notMem_name (by decide) e, notMem_name (by decide) e⟩

theorem ordinary_fileName (version : String) (e : Environment) (tags : List String) :
    Path.Ordinary (fileName version e tags) :=
  ⟨fileName_proper version e tags, notMem_fileName (by decide) version e tags,
    notMem_fileName (by decide) version e tags⟩

/-! ## The parts of the path of an artifact -/

theorem isNamed_of_ordinary {part : String} (h : Path.Ordinary part) :
    Path.isNamed part = true := by
  simp [Path.isNamed, h.proper]

theorem components_artifactPath (root version : String) (e : Environment) (tags : List String) :
    Path.components (artifactPath root version e tags) =
      Path.components (versionDir root version) ++ [e.name, fileName version e tags] := by
  have hfile := ordinary_fileName version e tags
  have henv := ordinary_name e
  rw [artifactPath_eq, ← versionDir_eq,
    Path.components_named (isNamed_of_ordinary hfile) hfile.slash,
    Path.components_named (isNamed_of_ordinary henv) henv.slash, List.append_assoc]
  rfl

/-- The folder of a version adds one ordinary part to the root just when the version is no empty
text and no dots. -/
theorem components_versionDir (root version : String) :
    (∃ part, Path.Ordinary part ∧
        Path.components (versionDir root version) = Path.components root ++ [part]) ↔
      version ≠ "" ∧ version ≠ "." ∧ version ≠ ".." := by
  have hslash := slash_notMem_sanitize version
  rw [versionDir_eq]
  constructor
  · rintro ⟨part, hpart, hparts⟩
    rw [← sanitize_proper_iff]
    by_cases hnamed : Path.isNamed (sanitize version) = true
    · -- the part that was added is the version itself
      rw [Path.components_named hnamed hslash] at hparts
      obtain rfl := List.singleton_inj.mp (List.append_cancel_left hparts)
      exact hpart.proper
    · have hone : [sanitize version].filter Path.isNamed = [] := List.filter_cons_of_neg hnamed
      exfalso
      by_cases hroot : root = ""
      · subst hroot
        have hnothing : sanitize version = "" ∨ sanitize version = "." := by
          simpa [Path.isNamed, or_iff_not_imp_left] using hnamed
        rcases hnothing with h | h
        · rw [h] at hparts
          exact absurd hparts (List.cons_ne_nil _ _).symm
        · rw [h, show Path.components (Path.asFolder "" ++ ".") = ["."] by decide,
            show Path.components "" = [] by decide] at hparts
          exact hpart.proper.2.1 (List.singleton_inj.mp hparts).symm
      · rw [Path.components_below hroot hslash, hone] at hparts
        exact absurd (List.append_cancel_left hparts) (List.cons_ne_nil _ _).symm
  · intro h
    have hordinary := ordinary_sanitize h
    exact ⟨_, hordinary, Path.components_named (isNamed_of_ordinary hordinary) hslash⟩

/-- What is written or deleted at the path of an artifact is in the root of the cache. -/
theorem node?_outside_root (hversion : version ≠ "..") {f g : Files} {c : Content}
    (hchange : f.write (artifactPath root version e tags) c = .ok g ∨
      f.remove (artifactPath root version e tags) = .ok g)
    {w : Location} (hw : ¬ (Path.goal root).toList <+: w.toList) : g.node? w = f.node? w := by
  have hin := inFolder_artifactPath root version e tags
  have hsane : sanitize version ≠ ".." := fun h => hversion (eq_of_sanitize h (by decide))
  have hplace : w ≠ Path.goal (artifactPath root version e tags) := by
    intro heq
    rw [heq] at hw
    exact hw (root_prefix_goal hsane e tags)
  exact Files.node?_of_changed hin hchange hplace

/-- The path of an artifact is the root of the cache followed by three ordinary parts just when
its version is no empty text and no dots. And unless the version is two dots, no file outside of
the root is written or deleted at the path. -/
theorem an_artifact_lies_below_the_root_just_when_its_version_is_a_name
    (root version : String) (e : Environment) (tags : List String) :
    ((∃ a b c, Path.Ordinary a ∧ Path.Ordinary b ∧ Path.Ordinary c ∧
        Path.components (artifactPath root version e tags) =
          Path.components root ++ [a, b, c]) ↔
      version ≠ "" ∧ version ≠ "." ∧ version ≠ "..") ∧
    (version ≠ ".." → ∀ (f g : Files) (c : Content),
      f.write (artifactPath root version e tags) c = .ok g ∨
          f.remove (artifactPath root version e tags) = .ok g →
        ∀ w : Location, ¬ (Path.goal root).toList <+: w.toList → g.node? w = f.node? w) := by
  refine ⟨?_, fun hversion f g c hchange w hw => node?_outside_root hversion hchange hw⟩
  rw [← components_versionDir root version, components_artifactPath]
  constructor
  · rintro ⟨a, b, c, ha, -, -, hparts⟩
    have hcut : Path.components (versionDir root version) ++ [e.name, fileName version e tags] =
        (Path.components root ++ [a]) ++ [b, c] := by
      rw [hparts, List.append_assoc]
      rfl
    exact ⟨a, ha, (List.append_inj' hcut rfl).1⟩
  · rintro ⟨a, ha, hparts⟩
    refine ⟨a, _, _, ha, ordinary_name e, ordinary_fileName version e tags, ?_⟩
    rw [hparts, List.append_assoc]
    rfl

/-- A cache with one artifact in it, and a file beside it. -/
def oneCached (version : String) : Files :=
  (Files.empty.put "notes.txt" (.raw [1])).put (artifactPath "cache" version .client ["fixed"])
    (.jar .empty)

theorem a_cached_client_is_deleted_in_the_cache :
    "1.20.1" ≠ ".." ∧ "1.20.1" ≠ "" ∧ "1.20.1" ≠ "." ∧
      (∃ a b c, Path.Ordinary a ∧ Path.Ordinary b ∧ Path.Ordinary c ∧
        Path.components (artifactPath "cache" "1.20.1" .client ["fixed"]) =
          Path.components "cache" ++ [a, b, c]) ∧
      ∃ g, (oneCached "1.20.1").remove (artifactPath "cache" "1.20.1" .client ["fixed"]) = .ok g ∧
        g.node? (Files.home.push "notes.txt") = some (.file (.raw [1])) := by
  have hmain := an_artifact_lies_below_the_root_just_when_its_version_is_a_name "cache" "1.20.1"
    .client ["fixed"]
  refine ⟨by decide, by decide, by decide, hmain.1.mpr (by decide), ?_⟩
  cases hremove : (oneCached "1.20.1").remove (artifactPath "cache" "1.20.1" .client ["fixed"]) with
  | error fault =>
    have hdone : ((oneCached "1.20.1").remove
        (artifactPath "cache" "1.20.1" .client ["fixed"])).toOption.isSome = true := by
      decide +kernel
    rw [hremove] at hdone
    cases hdone
  | ok g =>
    have hstays := hmain.2 (by decide) _ g (.raw []) (.inr hremove) (Files.home.push "notes.txt")
      (by decide +kernel)
    exact ⟨g, rfl, hstays.trans (by decide +kernel)⟩

/-- The artifacts of a version called `..` are not below the root, and deleting one changes the
files beside it. -/
theorem an_artifact_is_not_always_in_the_root_of_the_cache :
    (¬ ∀ (root version : String) (e : Environment) (tags : List String), ∃ a b c,
      Path.Ordinary a ∧ Path.Ordinary b ∧ Path.Ordinary c ∧
        Path.components (artifactPath root version e tags) =
          Path.components root ++ [a, b, c]) ∧
    ¬ ∀ (root version : String) (e : Environment) (tags : List String) (f g : Files),
      f.remove (artifactPath root version e tags) = .ok g →
        ∀ w : Location, ¬ (Path.goal root).toList <+: w.toList → g.node? w = f.node? w := by
  constructor
  · intro h
    obtain ⟨a, b, c, ha, -, -, hparts⟩ := h "cache" ".." .client ["fixed"]
    have hactual : Path.components (artifactPath "cache" ".." .client ["fixed"]) =
        ["cache", "..", "client", "minecraft-..-client-fixed.jar"] := by decide +kernel
    rw [hactual, show Path.components "cache" = ["cache"] by decide] at hparts
    cases hparts
    exact ha.proper.2.2 rfl
  · intro h
    have hdeleted : (oneCached "..").remove (artifactPath "cache" ".." .client ["fixed"]) =
        .ok ((oneCached "..").eraseAt
          ((Files.home.push "client").push "minecraft-..-client-fixed.jar")) := by decide +kernel
    have hstays := h _ _ _ _ _ _ hdeleted
      ((Files.home.push "client").push "minecraft-..-client-fixed.jar") (by decide +kernel)
    exact absurd hstays (by decide +kernel)

end Cache

end JarDerivation
