-- Where artifacts lie: each environment of a version has a folder, and an artifact
-- is a file in it. All of them have the way to the folder of the version in common,
-- and different artifact paths lead to different places.
import JarDerivation.Proofs.Artifact.Place
import JarDerivation.Proofs.Files.Clearing

namespace JarDerivation

/-! ## Segments of longer paths -/

namespace Path

theorem segments_append_slash {name : String} (h : '/' ∉ name.toList) (p : String) :
    segments (p ++ "/" ++ name) = segments p ++ [name] := by
  unfold segments Text.splitEach
  have hlist : (p ++ "/" ++ name).toList = p.toList ++ '/' :: name.toList := by simp
  rw [hlist, Text.cutEach_append, Text.cutEach_of_notMem h]
  simp

theorem segments_slash (p : String) : segments (p ++ "/") = segments p ++ [""] := by
  rw [← segments_append_slash (by simp) p, String.append_empty]

/-- The segments before a name below a path. -/
def fore (p : String) : List String := (segments (asFolder p)).dropLast

theorem segments_asFolder_append {name : String} (h : '/' ∉ name.toList) (p : String) :
    segments (asFolder p ++ name) = fore p ++ [name] := by
  unfold fore
  rcases asFolder_cases p with hempty | ⟨l, hl⟩
  · have hp : asFolder p = "" := String.toList_injective hempty
    rw [hp, String.empty_append]
    simp [segments, Text.splitEach, Text.cutEach_of_notMem h, Text.cutEach]
  · have hp : asFolder p = String.ofList l ++ "/" := String.toList_injective (by simp [hl])
    rw [hp, segments_append_slash h, segments_slash, List.dropLast_concat]

theorem start_append {q : String} (hq : isAbsolute q = false) (p : String) :
    Files.start (p ++ q) = Files.start p := by
  have habsolute : isAbsolute (p ++ q) = isAbsolute p := by
    rw [Bool.eq_iff_iff, isAbsolute_iff, isAbsolute_iff, String.toList_append]
    cases hp : p.toList with
    | nil =>
      rw [List.nil_append, ← isAbsolute_iff, hq]
      simp
    | cons c rest => simp
  unfold Files.start
  rw [habsolute]

theorem ofSegments_segments (p : String) : ofSegments (segments p) = p :=
  Text.intercalate_splitEach '/' p

/-- A last segment that is a name is not trimmed. -/
theorem trimEnd_append {name : String} (hname : name ≠ "" ∧ name ≠ "." ∧ name ≠ "..")
    (segs : List String) : trimEnd (segs ++ [name]) = segs ++ [name] := by
  cases segs with
  | nil => simp [trimEnd]
  | cons first rest => simp [trimEnd, hname]

theorem parent?_of_segments {p q name last : String} {before : List String}
    (hp : segments p = segments q ++ [name]) (hq : segments q = before ++ [last])
    (hname : name ≠ "" ∧ name ≠ "." ∧ name ≠ "..") (hlast : last ≠ "" ∧ last ≠ "." ∧ last ≠ "..") :
    parent? p = some q := by
  have htrim : trimEnd (segments p).dropLast = segments q := by
    rw [hp, List.dropLast_concat, hq, trimEnd_append hlast]
  unfold parent?
  rw [hp, trimEnd_append hname, ← hp]
  have hlength : 2 ≤ (segments p).length := by simp [hp, hq]
  split
  · rename_i heq
    rw [heq] at hlength
    simp at hlength
  · rename_i heq
    rw [heq] at hlength
    simp at hlength
  · rename_i heq
    rw [heq] at hlength
    simp at hlength
  · rw [htrim]
    split
    · rename_i heq
      rw [hq] at heq
      cases before with
      | nil => exact absurd (List.singleton_inj.mp heq) hlast.1
      | cons first rest => simp at heq
    · rw [ofSegments_segments]

end Path

namespace Cache

/-! ## The folder of an environment -/

/-- The folder of the artifacts of a version in an environment. -/
def folder (root version : String) (e : Environment) : String :=
  Path.asFolder (versionDir root version) ++ e.name

/-- The place that all paths in the cache start from. -/
def anchor (root version : String) : Location := Files.start (Path.asFolder (versionDir root version))

/-- The places on the way to the folder of a version, and that folder. -/
def approach (root version : String) : List Location :=
  Path.visited (anchor root version) (Path.fore (versionDir root version))

/-- The place of the folder of a version. -/
def base (root version : String) : Location :=
  Path.reached (anchor root version) (Path.fore (versionDir root version))

variable {root version : String} {e : Environment} {tags : List String}

theorem name_proper (e : Environment) : e.name ≠ "" ∧ e.name ≠ "." ∧ e.name ≠ ".." := by
  cases e <;> decide

theorem fileName_proper (version : String) (e : Environment) (tags : List String) :
    fileName version e tags ≠ "" ∧ fileName version e tags ≠ "." ∧
      fileName version e tags ≠ ".." := by
  have hhead : (fileName version e tags).toList.head? = some 'm' := by simp [fileName_eq]
  refine ⟨?_, ?_, ?_⟩ <;>
  · intro h
    rw [h] at hhead
    simp at hhead

theorem versionDir_eq (root version : String) :
    versionDir root version = Path.asFolder root ++ sanitize version :=
  Path.join_of_relative (Path.relative_of_notMem (slash_notMem_sanitize version)) root

theorem artifactPath_eq_folder (root version : String) (e : Environment) (tags : List String) :
    artifactPath root version e tags = folder root version e ++ "/" ++ fileName version e tags := by
  rw [artifactPath_eq, ← versionDir_eq,
    Path.asFolder_of_name (name_ne_empty e) (slash_notMem_name e)]
  rfl

theorem segments_folder (root version : String) (e : Environment) :
    Path.segments (folder root version e) = Path.fore (versionDir root version) ++ [e.name] :=
  Path.segments_asFolder_append (slash_notMem_name e) _

theorem start_folder (root version : String) (e : Environment) :
    Files.start (folder root version e) = anchor root version :=
  Path.start_append (Path.relative_of_notMem (slash_notMem_name e)) _

theorem visits_folder (root version : String) (e : Environment) :
    Path.visits (folder root version e) =
      approach root version ++ [(base root version).push e.name] := by
  unfold Path.visits approach base Path.visited
  obtain ⟨hempty, hdot, hdots⟩ := name_proper e
  rw [segments_folder, start_folder, Path.passed_append, Path.reached_append]
  simp [Path.passed, Path.reached, Path.onward_name _ hempty hdot hdots]

/-- An artifact is a file in the folder of its environment. -/
theorem inFolder_artifactPath (root version : String) (e : Environment) (tags : List String) :
    Path.InFolder (artifactPath root version e tags) (folder root version e)
      (fileName version e tags) := by
  have hsegments : Path.segments (artifactPath root version e tags) =
      Path.segments (folder root version e) ++ [fileName version e tags] := by
    rw [artifactPath_eq_folder, Path.segments_append_slash (slash_notMem_fileName version e tags)]
  have hpath := artifactPath_eq_folder root version e tags
  refine ⟨?_, hsegments, ?_, fileName_proper version e tags, ?_, ?_, ?_, ?_⟩
  · exact Path.parent?_of_segments hsegments (segments_folder root version e)
      (fileName_proper version e tags) (name_proper e)
  · have hrelative : Path.isAbsolute (e.name ++ ("/" ++ fileName version e tags)) = false := by
      rw [Bool.eq_false_iff, Ne, Path.isAbsolute_iff]
      rintro ⟨l, hl⟩
      cases e <;> simp [Environment.name] at hl
    rw [start_folder, hpath, folder, String.append_assoc, String.append_assoc,
      Path.start_append hrelative]
    rfl
  · rw [hpath]
    exact Path.endsWith_append_name (fileName_proper version e tags).1
      (slash_notMem_fileName version e tags) _
  · intro h
    have hlist := congrArg String.toList h
    simp [folder, name_ne_empty] at hlist
  · intro h hmem
    rw [hpath] at h
    exact h (by simp [hmem])
  · rw [hpath, String.utf8ByteSize_append, String.utf8ByteSize_append]
    omega

/-! ## The places of artifacts -/

theorem goal_folder (root version : String) (e : Environment) :
    Path.goal (folder root version e) = (base root version).push e.name := by
  obtain ⟨hempty, hdot, hdots⟩ := name_proper e
  rw [Path.goal, segments_folder, start_folder, Path.reached_append]
  exact Path.onward_name _ hempty hdot hdots

theorem goal_artifactPath (root version : String) (e : Environment) (tags : List String) :
    Path.goal (artifactPath root version e tags) =
      ((base root version).push e.name).push (fileName version e tags) := by
  rw [(inFolder_artifactPath root version e tags).goal_eq, goal_folder]

/-- Artifacts at one place have one path. -/
theorem goal_injective {e e' : Environment} {tags tags' : List String}
    (h : Path.goal (artifactPath root version e tags) =
      Path.goal (artifactPath root version e' tags')) :
    artifactPath root version e tags = artifactPath root version e' tags' := by
  rw [goal_artifactPath, goal_artifactPath, Array.push_eq_push, Array.push_eq_push] at h
  obtain ⟨hfile, henv, -⟩ := h
  rw [artifactPath_eq_folder, artifactPath_eq_folder, hfile, name_injective henv]

theorem components_injective {e e' : Environment} {tags tags' : List String}
    (h : Path.components (artifactPath root version e tags) =
      Path.components (artifactPath root version e' tags')) :
    artifactPath root version e tags = artifactPath root version e' tags' :=
  goal_injective (Path.goal_of_components h)

/-- A place is on the way to an artifact of a version if the way to one of its folders leads
there. -/
def OnWay (root version : String) (w : Location) : Prop :=
  ∃ e, w ∈ Path.visits (folder root version e)

/-- An artifact lies on the way to no artifact but those that are on the way to itself. -/
theorem onWay_goal (h : OnWay root version (Path.goal (artifactPath root version e tags))) :
    Path.goal (artifactPath root version e tags) ∈ Path.visits (folder root version e) := by
  obtain ⟨e', h⟩ := h
  rw [visits_folder] at h ⊢
  rcases List.mem_append.mp h with h | h
  · exact List.mem_append_left _ h
  · -- a folder of an environment lies less deep than a file in one
    rw [goal_artifactPath, List.mem_singleton] at h
    have hsize := congrArg Array.size h
    simp at hsize

/-! ## The cache below its root -/

/-- The place of a path is that of what stands before the names below it. -/
theorem reached_fore (root : String) :
    Path.reached (Files.start (Path.asFolder root)) (Path.fore root) = Path.goal root := by
  unfold Path.goal Path.fore Path.asFolder
  by_cases hroot : root = ""
  · rw [hroot]
    rfl
  · rw [if_neg hroot]
    split
    · rename_i hend
      obtain ⟨l, hl⟩ := Path.endsWith_iff.mp hend
      have hslash : root = String.ofList l ++ "/" := String.toList_injective (by simp [hl])
      rw [hslash, Path.segments_slash, List.dropLast_concat, Path.reached_append]
      rfl
    · have hstart : Files.start (root ++ "/") = Files.start root := by
        unfold Files.start
        have hcons : root.toList ≠ [] := by simpa using hroot
        obtain ⟨c, rest, hl⟩ := List.exists_cons_of_ne_nil hcons
        have habsolute : Path.isAbsolute (root ++ "/") = Path.isAbsolute root := by
          rw [Bool.eq_iff_iff, Path.isAbsolute_iff, Path.isAbsolute_iff, String.toList_append, hl]
          simp
        rw [habsolute]
      rw [hstart, Path.segments_slash, List.dropLast_concat]

/-- The folder of a version is what its name leads to from the root of the cache. -/
theorem base_eq (root version : String) :
    base root version = Path.onward (Path.goal root) (sanitize version) := by
  have hversion := slash_notMem_sanitize version
  unfold base anchor
  by_cases hempty : sanitize version = ""
  · have hdir : Path.asFolder (versionDir root version) = Path.asFolder root := by
      rw [versionDir_eq, hempty, String.append_empty, Path.asFolder_asFolder]
    have hfore : Path.fore (versionDir root version) = Path.fore root := by
      unfold Path.fore
      rw [hdir]
    rw [hdir, hfore, reached_fore, hempty]
    rfl
  · have hdir : Path.asFolder (versionDir root version) =
        Path.asFolder root ++ sanitize version ++ "/" := by
      rw [versionDir_eq, Path.asFolder_of_name hempty hversion]
    have hfore : Path.fore (versionDir root version) = Path.fore root ++ [sanitize version] := by
      unfold Path.fore
      rw [hdir, Path.segments_slash, List.dropLast_concat, Path.segments_asFolder_append hversion]
      rfl
    have hstart : Files.start (Path.asFolder root ++ sanitize version ++ "/") =
        Files.start (Path.asFolder root) := by
      rw [String.append_assoc]
      refine Path.start_append ?_ _
      rw [Bool.eq_false_iff, Ne, Path.isAbsolute_iff]
      rintro ⟨l, hl⟩
      rw [String.toList_append] at hl
      cases hs : (sanitize version).toList with
      | nil => exact hempty (String.toList_injective hs)
      | cons c rest =>
        rw [hs] at hl hversion
        obtain ⟨rfl, -⟩ := List.cons.inj hl
        exact hversion List.mem_cons_self
    rw [hfore, hdir, hstart, Path.reached_append, reached_fore]
    rfl

/-- Unless the version is called like the folder above, artifacts lie below the root. -/
theorem root_prefix_goal (hversion : sanitize version ≠ "..")
    (e : Environment) (tags : List String) :
    (Path.goal root).toList <+: (Path.goal (artifactPath root version e tags)).toList := by
  have hbase : (Path.goal root).toList <+: (base root version).toList := by
    rw [base_eq]
    unfold Path.onward
    split
    · exact List.prefix_rfl
    · rw [if_neg (by simpa using hversion)]
      simp
  rw [goal_artifactPath]
  refine hbase.trans ?_
  simp

end Cache

end JarDerivation
