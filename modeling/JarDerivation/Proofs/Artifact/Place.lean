-- The place of an artifact in the cache. Its path shows the version, the
-- environment and the tags, each made fit for a file name and then joined with `+`.
-- Neither step can be undone for all texts, so the path is short of the tags.
import JarDerivation.Artifact
import JarDerivation.Proofs.Text.Split

namespace JarDerivation

/-! ## A name below a folder -/

namespace Path

/-- A path as what stands before a name below it. -/
def asFolder (p : String) : String :=
  if p = "" then "" else if Text.endsWith "/" p then p else p ++ "/"

theorem join_of_relative {q : String} (hq : isAbsolute q = false) (p : String) :
    join p q = asFolder p ++ q := by
  unfold join asFolder
  rw [if_neg (by simp [hq])]
  split
  · simp
  · split <;> rfl

theorem isAbsolute_iff {p : String} : isAbsolute p = true ↔ ∃ l, p.toList = '/' :: l := by
  unfold isAbsolute Text.startsWith
  rw [List.isPrefixOf_iff_prefix]
  exact ⟨fun ⟨l, hl⟩ => ⟨l, hl.symm⟩, fun ⟨l, hl⟩ => ⟨l, hl.symm⟩⟩

theorem relative_of_notMem {p : String} (h : '/' ∉ p.toList) : isAbsolute p = false := by
  rw [Bool.eq_false_iff, Ne, isAbsolute_iff]
  rintro ⟨l, hl⟩
  simp [hl] at h

theorem endsWith_iff {p : String} : Text.endsWith "/" p = true ↔ ∃ l, p.toList = l ++ ['/'] := by
  unfold Text.endsWith
  rw [List.isSuffixOf_iff_suffix]
  exact ⟨fun ⟨l, hl⟩ => ⟨l, hl.symm⟩, fun ⟨l, hl⟩ => ⟨l, hl.symm⟩⟩

theorem endsWith_append_name {name : String} (hname : name ≠ "") (h : '/' ∉ name.toList)
    (p : String) : Text.endsWith "/" (p ++ name) = false := by
  rw [Bool.eq_false_iff, Ne, endsWith_iff]
  rintro ⟨l, hl⟩
  rw [String.toList_append] at hl
  obtain ⟨before, last, hlast⟩ :=
    (List.eq_nil_or_concat' name.toList).resolve_left (by simpa using hname)
  rw [hlast, ← List.append_assoc] at hl
  have hslash : last = '/' := by simpa using (List.append_inj' hl rfl).2
  simp [hlast, hslash] at h

theorem asFolder_of_name {name : String} (hname : name ≠ "") (h : '/' ∉ name.toList) (p : String) :
    asFolder (p ++ name) = p ++ name ++ "/" := by
  rw [asFolder, if_neg (by simp [hname]), endsWith_append_name hname h]
  rfl

/-- What stands before a name ends in a slash, if there is anything. -/
theorem asFolder_cases (p : String) :
    (asFolder p).toList = [] ∨ ∃ l, (asFolder p).toList = l ++ ['/'] := by
  unfold asFolder
  split
  · exact .inl rfl
  · split
    · rename_i hend
      exact .inr (endsWith_iff.mp hend)
    · exact .inr ⟨p.toList, by simp⟩

theorem asFolder_asFolder (p : String) : asFolder (asFolder p) = asFolder p := by
  have hfixed : ∀ q, q = "" ∨ Text.endsWith "/" q = true → asFolder q = q := by
    rintro q (rfl | hend)
    · rfl
    · by_cases hq : q = ""
      · rw [hq]
        rfl
      · rw [asFolder, if_neg hq, if_pos hend]
  apply hfixed
  rcases asFolder_cases p with h | h
  · exact .inl (String.toList_injective h)
  · exact .inr (endsWith_iff.mpr h)

/-- A name below a folder is known from the whole path, and so is what stands before it. -/
theorem asFolder_append_inj {p q a b : String} (ha : '/' ∉ a.toList) (hb : '/' ∉ b.toList)
    (h : asFolder p ++ a = asFolder q ++ b) : asFolder p = asFolder q ∧ a = b := by
  have hl : (asFolder p).toList ++ a.toList = (asFolder q).toList ++ b.toList := by
    simpa using congrArg String.toList h
  have hlists : (asFolder p).toList = (asFolder q).toList ∧ a.toList = b.toList := by
    rcases asFolder_cases p with hp | ⟨p', hp⟩ <;> rcases asFolder_cases q with hq | ⟨q', hq⟩ <;>
      rw [hp, hq] at hl ⊢
    · exact ⟨rfl, hl⟩
    · rw [List.nil_append] at hl
      exact absurd (by simp [hl]) ha
    · rw [List.nil_append] at hl
      exact absurd (by simp [← hl]) hb
    · rw [List.append_assoc, List.append_assoc, List.singleton_append, List.singleton_append] at hl
      have hcut := Text.cutLast_append ha p'
      rw [hl, Text.cutLast_append hb q', Option.some_inj, Prod.mk.injEq] at hcut
      exact ⟨by rw [hcut.1], hcut.2.symm⟩
  exact ⟨String.toList_injective hlists.1, String.toList_injective hlists.2⟩

end Path

namespace Cache

/-! ## Texts that are made fit for a file name -/

theorem toList_sanitize (s : String) :
    (sanitize s).toList = s.toList.map fun c => if isUnsafe c then '_' else c :=
  String.toList_ofList

theorem not_isUnsafe_of_mem_sanitize {s : String} {c : Char} (h : c ∈ (sanitize s).toList) :
    isUnsafe c = false := by
  rw [toList_sanitize] at h
  obtain ⟨d, -, hd⟩ := List.mem_map.mp h
  rw [← hd]
  split
  · decide
  · simp_all

theorem notMem_of_safe {c : Char} (hc : isUnsafe c = true) {l : List Char}
    (hl : l.any isUnsafe = false) : c ∉ l := fun h => List.any_eq_false.mp hl c h hc

theorem notMem_sanitize {c : Char} (hc : isUnsafe c = true) (s : String) :
    c ∉ (sanitize s).toList := fun h => by simp [not_isUnsafe_of_mem_sanitize h] at hc

theorem slash_notMem_sanitize (s : String) : '/' ∉ (sanitize s).toList :=
  notMem_sanitize (by decide) s

/-- A text without unsafe characters stays as it is. -/
theorem sanitize_of_safe {s : String} (h : ∀ c ∈ s.toList, isUnsafe c = false) :
    sanitize s = s := by
  apply String.toList_injective
  rw [toList_sanitize]
  exact (List.map_congr_left fun c hc => by simp [h c hc]).trans (List.map_id s.toList)

theorem notMem_name {c : Char} (hc : isUnsafe c = true) (e : Environment) : c ∉ e.name.toList :=
  notMem_of_safe hc (by cases e <;> decide)

theorem slash_notMem_name (e : Environment) : '/' ∉ e.name.toList := notMem_name (by decide) e

theorem name_ne_empty (e : Environment) : e.name ≠ "" := by cases e <;> decide

theorem name_injective {e e' : Environment} (h : e.name = e'.name) : e = e' := by
  cases e <;> cases e' <;> first | rfl | exact absurd h (by decide)

/-! ## The tags in a path -/

/-- What the path shows of the tags: the parts of all of them between `+`. -/
def tagParts (tags : List String) : List String :=
  tags.flatMap fun t => Text.splitEach '+' (sanitize t)

theorem tagParts_eq_nil {tags : List String} : tagParts tags = [] ↔ tags = [] := by
  cases tags with
  | nil => simp [tagParts]
  | cons t rest => simp [tagParts, Text.splitEach, Text.cutEach_ne_nil]

theorem toList_joined (tags : List String) :
    ("+".intercalate (tags.map sanitize)).toList =
      ['+'].intercalate (tags.map fun t => (sanitize t).toList) := by
  rw [String.toList_intercalate, List.map_map]
  rfl

/-- The joined tags show their parts, and nothing else. -/
theorem splitEach_joined {tags : List String} (h : tags ≠ []) :
    Text.splitEach '+' ("+".intercalate (tags.map sanitize)) = tagParts tags := by
  unfold Text.splitEach tagParts
  rw [toList_joined, Text.cutEach_intercalate _ (by simpa using h), List.map_flatMap,
    List.flatMap_map]
  rfl

theorem suffix_eq (tags : List String) :
    suffix tags = if tagParts tags = [] then "" else "-" ++ "+".intercalate (tagParts tags) := by
  unfold suffix
  by_cases h : tags = []
  · simp [h, tagParts]
  · rw [if_neg (by simpa using h), if_neg (by rwa [tagParts_eq_nil]), ← splitEach_joined h]
    rw [show "+" = String.singleton '+' from rfl, Text.intercalate_splitEach]

/-- The end of a file name says as much of the tags as their parts do. -/
theorem suffix_eq_iff {tags tags' : List String} :
    suffix tags = suffix tags' ↔ tagParts tags = tagParts tags' := by
  constructor
  · intro h
    unfold suffix at h
    by_cases htags : tags = [] <;> by_cases htags' : tags' = []
    · rw [htags, htags']
    · rw [if_pos (by simpa using htags), if_neg (by simpa using htags')] at h
      exact absurd (congrArg String.toList h) (by simp)
    · rw [if_neg (by simpa using htags), if_pos (by simpa using htags')] at h
      exact absurd (congrArg String.toList h) (by simp)
    · rw [if_neg (by simpa using htags), if_neg (by simpa using htags')] at h
      rw [← splitEach_joined htags, ← splitEach_joined htags', (String.append_right_inj _).mp h]
  · intro h
    rw [suffix_eq, suffix_eq, h]

/-! ## The whole path -/

theorem fileName_eq (version : String) (e : Environment) (tags : List String) :
    fileName version e tags =
      "minecraft-" ++ sanitize version ++ "-" ++ e.name ++ suffix tags ++ ".jar" := rfl

theorem notMem_suffix {c : Char} (hc : isUnsafe c = true) (tags : List String) :
    c ∉ (suffix tags).toList := by
  unfold suffix
  split
  · exact List.not_mem_nil
  · rw [String.toList_append, toList_joined, List.mem_append, not_or]
    refine ⟨notMem_of_safe hc (by decide),
      Text.notMem_intercalate (notMem_of_safe hc (by decide)) ?_⟩
    simp [notMem_sanitize hc]

/-- The name of a file has no unsafe character, whatever is in the version and the tags. -/
theorem notMem_fileName {c : Char} (hc : isUnsafe c = true) (version : String) (e : Environment)
    (tags : List String) : c ∉ (fileName version e tags).toList := by
  simp only [fileName_eq, String.toList_append, List.mem_append, not_or]
  exact ⟨⟨⟨⟨⟨notMem_of_safe hc (by decide), notMem_sanitize hc version⟩,
    notMem_of_safe hc (by decide)⟩, notMem_name hc e⟩, notMem_suffix hc tags⟩,
    notMem_of_safe hc (by decide)⟩

theorem slash_notMem_fileName (version : String) (e : Environment) (tags : List String) :
    '/' ∉ (fileName version e tags).toList := notMem_fileName (by decide) version e tags

theorem artifactPath_eq (root version : String) (e : Environment) (tags : List String) :
    artifactPath root version e tags =
      Path.asFolder (Path.asFolder (Path.asFolder root ++ sanitize version) ++ e.name) ++
        fileName version e tags := by
  unfold artifactPath versionDir
  rw [Path.join_of_relative (Path.relative_of_notMem (slash_notMem_sanitize version)),
    Path.join_of_relative (Path.relative_of_notMem (slash_notMem_name e)),
    Path.join_of_relative (Path.relative_of_notMem (slash_notMem_fileName version e tags))]

/-- What a name below a folder puts before the names below it. -/
theorem asFolder_below {root name : String} (h : '/' ∉ name.toList) :
    Path.asFolder (Path.asFolder root ++ name) =
      Path.asFolder root ++ (if name = "" then "" else name ++ "/") := by
  by_cases hname : name = ""
  · rw [hname, String.append_empty, if_pos rfl, String.append_empty, Path.asFolder_asFolder]
  · rw [if_neg hname, Path.asFolder_of_name hname h, String.append_assoc]

/-- The segment of the version is known from what it puts before the names below it. -/
theorem segment_inj {s t : String}
    (h : (if s = "" then "" else s ++ "/") = if t = "" then "" else t ++ "/") : s = t := by
  by_cases hempty : s = "" <;> by_cases hempty' : t = ""
  · rw [hempty, hempty']
  · rw [if_pos hempty, if_neg hempty'] at h
    exact absurd (congrArg String.toList h) (by simp)
  · rw [if_neg hempty, if_pos hempty'] at h
    exact absurd (congrArg String.toList h) (by simp)
  · rw [if_neg hempty, if_neg hempty'] at h
    exact (String.append_left_inj _).mp h

theorem fileName_inj {v v' : String} {e e' : Environment} {tags tags' : List String}
    (hv : sanitize v = sanitize v') (he : e = e')
    (h : fileName v e tags = fileName v' e' tags') : suffix tags = suffix tags' := by
  rw [fileName_eq, fileName_eq, hv, he, String.append_left_inj, String.append_right_inj] at h
  exact h

/-- Two artifacts share a path just when their environments are the same, their versions
agree once they are fit for a file name, and so do the parts of their tags between `+`. -/
theorem artifactPath_eq_iff {root v v' : String} {e e' : Environment} {tags tags' : List String} :
    artifactPath root v e tags = artifactPath root v' e' tags' ↔
      sanitize v = sanitize v' ∧ e = e' ∧ tagParts tags = tagParts tags' := by
  constructor
  · intro h
    rw [artifactPath_eq, artifactPath_eq] at h
    obtain ⟨hfolder, hfile⟩ :=
      Path.asFolder_append_inj (slash_notMem_fileName v e tags) (slash_notMem_fileName v' e' tags') h
    rw [Path.asFolder_of_name (name_ne_empty e) (slash_notMem_name e),
      Path.asFolder_of_name (name_ne_empty e') (slash_notMem_name e'),
      String.append_left_inj] at hfolder
    obtain ⟨hversion, henv⟩ :=
      Path.asFolder_append_inj (slash_notMem_name e) (slash_notMem_name e') hfolder
    rw [asFolder_below (slash_notMem_sanitize v), asFolder_below (slash_notMem_sanitize v'),
      String.append_right_inj] at hversion
    have hv := segment_inj hversion
    have he := name_injective henv
    exact ⟨hv, he, suffix_eq_iff.mp (fileName_inj hv he hfile)⟩
  · rintro ⟨hv, rfl, htags⟩
    rw [artifactPath_eq, artifactPath_eq, fileName_eq, fileName_eq, hv, suffix_eq_iff.mpr htags]

/-! ## What a path tells of an artifact -/

/-- A version and tags that are in the path as they are. -/
structure ShownWhole (v : String) (tags : List String) : Prop where
  version : ∀ c ∈ v.toList, isUnsafe c = false
  tags : ∀ t ∈ tags, '+' ∉ t.toList ∧ ∀ c ∈ t.toList, isUnsafe c = false

variable {v : String} {tags : List String}

/-- Tags without `+` and without unsafe characters are their parts. -/
theorem ShownWhole.tagParts_eq (h : ShownWhole v tags) : tagParts tags = tags := by
  unfold tagParts
  conv_rhs => rw [← List.flatMap_singleton' tags]
  refine List.flatMap_congr fun t ht => ?_
  obtain ⟨hplus, hsafe⟩ := h.tags t ht
  rw [sanitize_of_safe hsafe, Text.splitEach, Text.cutEach_of_notMem hplus]
  simp

/-- A path tells the environment, the version as far as it is fit for a file name, and the
parts of the tags between `+`: two artifacts share a path just when these agree. So it
identifies an artifact among those whose version and tags are in it as they are. -/
theorem a_path_tells_an_artifact_up_to_the_parts_of_its_tags (root v v' : String)
    (e e' : Environment) (tags tags' : List String) :
    (artifactPath root v e tags = artifactPath root v' e' tags' ↔
      sanitize v = sanitize v' ∧ e = e' ∧ tagParts tags = tagParts tags') ∧
    (ShownWhole v tags → ShownWhole v' tags' →
      (artifactPath root v e tags = artifactPath root v' e' tags' ↔
        v = v' ∧ e = e' ∧ tags = tags')) := by
  refine ⟨artifactPath_eq_iff, fun h h' => ?_⟩
  rw [artifactPath_eq_iff, sanitize_of_safe h.version, sanitize_of_safe h'.version,
    h.tagParts_eq, h'.tagParts_eq]

/-- The tags of a fixed jar that a loader patches are in its path as they are. -/
theorem a_patched_jar_has_a_path_of_its_own :
    ShownWhole "1.20.1" ["fixed", "forge"] ∧ ShownWhole "1.20.1" ["forge", "fixed"] ∧
      artifactPath "/cache" "1.20.1" .client ["fixed", "forge"] ≠
        artifactPath "/cache" "1.20.1" .client ["forge", "fixed"] := by
  have hfixed : ShownWhole "1.20.1" ["fixed", "forge"] := ⟨by simp [isUnsafe], by simp [isUnsafe]⟩
  have hforge : ShownWhole "1.20.1" ["forge", "fixed"] := ⟨by simp [isUnsafe], by simp [isUnsafe]⟩
  refine ⟨hfixed, hforge, fun h => ?_⟩
  have hsame := ((a_path_tells_an_artifact_up_to_the_parts_of_its_tags ..).2 hfixed hforge).mp h
  exact absurd hsame (by decide)

/-- A tag with a `+` in it has the path of two tags. -/
theorem a_path_does_not_always_identify_an_artifact :
    ¬ ∀ (root v v' : String) (e e' : Environment) (tags tags' : List String),
      artifactPath root v e tags = artifactPath root v' e' tags' →
        v = v' ∧ e = e' ∧ tags = tags' := by
  intro h
  have hpath : artifactPath "cache" "1.20.1" .client ["aw", "x"] =
      artifactPath "cache" "1.20.1" .client ["aw+x"] :=
    artifactPath_eq_iff.mpr ⟨rfl, rfl, by decide⟩
  exact absurd (h _ _ _ _ _ _ _ hpath) (by decide)

end Cache

end JarDerivation
