-- The folder around a file. Whatever the path of a file looks like, it ends in a name, and what
-- comes before is the path of a folder that is there. So nothing has to be made around a file
-- that is found, and the file can be deleted.
import JarDerivation.Proofs.Artifact.Location
import JarDerivation.Proofs.Files.Leaving

namespace JarDerivation

/-! ## Segments that are joined -/

namespace Path

variable {path folder name : String} {before : List String}

theorem ofSegments_append {a b : List String} (ha : a ≠ []) (hb : b ≠ []) :
    ofSegments (a ++ b) = ofSegments a ++ "/" ++ ofSegments b := by
  induction a with
  | nil => exact absurd rfl ha
  | cons s rest ih =>
    unfold ofSegments at ih ⊢
    cases rest with
    | nil =>
      obtain ⟨t, others, rfl⟩ := List.exists_cons_of_ne_nil hb
      apply String.toList_injective
      simp [String.toList_intercalate]
    | cons t others =>
      have hrest := congrArg String.toList (ih (List.cons_ne_nil _ _))
      apply String.toList_injective
      simp only [String.toList_intercalate, String.toList_append, List.cons_append, List.map_cons,
        List.intercalate_cons_cons] at hrest ⊢
      rw [hrest]
      simp

theorem segments_ofSegments {segs : List String} (hne : segs ≠ [])
    (hslash : ∀ s ∈ segs, '/' ∉ s.toList) : segments (ofSegments segs) = segs := by
  have hlist : (ofSegments segs).toList = ['/'].intercalate (segs.map String.toList) := by
    unfold ofSegments
    rw [String.toList_intercalate]
    rfl
  have hcut : ∀ s ∈ segs, Text.cutEach '/' s.toList = [s.toList] :=
    fun s hs => Text.cutEach_of_notMem (hslash s hs)
  unfold segments Text.splitEach
  rw [hlist, Text.cutEach_intercalate '/' (by simpa using hne), List.flatMap_map,
    List.flatMap_congr hcut, ← List.map_eq_flatMap, List.map_map]
  exact List.map_id'' (fun s => String.ofList_toList) segs

/-- Only segments that name nothing are trimmed. -/
theorem trimEnd_eq (segs : List String) :
    ∃ dropped, segs = trimEnd segs ++ dropped ∧ ∀ s ∈ dropped, s = "" ∨ s = "." := by
  cases segs with
  | nil => exact ⟨[], rfl, nofun⟩
  | cons first rest =>
    refine ⟨(rest.reverse.takeWhile fun t => t == "" || t == ".").reverse, ?_, fun s hs => ?_⟩
    · show first :: rest = first :: ((rest.reverse.dropWhile _).reverse ++ _)
      rw [← List.reverse_append, List.takeWhile_append_dropWhile, List.reverse_reverse]
    · have hs := List.all_eq_true.mp List.all_takeWhile s (List.mem_reverse.mp hs)
      simpa using hs

theorem trimEnd_ne_nil {segs : List String} (h : segs ≠ []) : trimEnd segs ≠ [] := by
  cases segs with
  | nil => exact absurd rfl h
  | cons first rest => exact List.cons_ne_nil _ _

/-! ## Paths that end in a name -/

/-- A path whose last segment is the name of a file. -/
structure EndsIn (path : String) (before : List String) (name : String) : Prop where
  segments : segments path = before ++ [name]
  proper : name ≠ "" ∧ name ≠ "." ∧ name ≠ ".."

theorem EndsIn.named (h : EndsIn path before name) :
    isDotted path = false ∧ wantsFolder path = false := by
  constructor
  · have hlast : lastName path = name := by
      unfold lastName backwards
      rw [h.segments]
      simp [h.proper.1]
    simp [isDotted, hlast, h.proper]
  · rw [wantsFolder, Bool.eq_false_iff, Ne, endsWith_iff]
    rintro ⟨l, hl⟩
    have hslash : path = String.ofList l ++ "/" := String.toList_injective (by simp [hl])
    have hsegments := h.segments
    rw [hslash, segments_slash] at hsegments
    exact h.proper.1 (List.singleton_inj.mp (List.append_inj' hsegments rfl).2).symm

theorem EndsIn.way_eq (h : EndsIn path before name) :
    way path = visited (Files.start path) before := by
  unfold way visited
  rw [h.segments, passed_append]
  rfl

/-- The folder around a path that ends in a name, if the path has more than the name. -/
def folderOf (before : List String) : String :=
  if trimEnd before = [""] then "/" else ofSegments (trimEnd before)

theorem EndsIn.parent?_eq (h : EndsIn path before name) :
    parent? path = some (if before = [] then "" else folderOf before) := by
  unfold parent? folderOf
  rw [h.segments, trimEnd_append h.proper]
  cases before with
  | nil =>
    have hname := h.proper.1
    rw [List.nil_append, if_pos rfl]
    split
    · rename_i heq
      cases heq
    · rename_i heq
      exact absurd (List.singleton_inj.mp heq) hname
    · rfl
    · rename_i hno
      exact absurd rfl (hno name)
  | cons first rest =>
    rw [if_neg (List.cons_ne_nil _ _)]
    split
    · rename_i heq
      cases heq
    · rename_i heq
      simp at heq
    · rename_i heq
      simp at heq
    · rw [List.dropLast_concat]
      split
      · rename_i heq
        rw [if_pos heq]
      · rename_i hno
        rw [if_neg fun heq => hno heq]

theorem onward_nothing {place : Location} {s : String} (h : s = "" ∨ s = ".") :
    onward place s = place := by
  rcases h with rfl | rfl <;> rfl

/-- Segments that name nothing lead nowhere else. -/
theorem visited_trimEnd {place w : Location} (segs : List String)
    (h : w ∈ visited place (trimEnd segs)) : w ∈ visited place segs := by
  obtain ⟨dropped, heq, hnothing⟩ := trimEnd_eq segs
  have hstays : reached place segs = reached place (trimEnd segs) := by
    rw [heq, reached_append, ← heq]
    generalize reached place (trimEnd segs) = there
    clear heq
    induction dropped with
    | nil => rfl
    | cons s rest ih =>
      obtain ⟨hs, hrest⟩ := List.forall_mem_cons.mp hnothing
      show reached (onward there s) rest = there
      rw [onward_nothing hs]
      exact ih hrest
  unfold visited at h ⊢
  rw [hstays]
  rcases List.mem_append.mp h with hpassed | hend
  · rw [heq, passed_append]
    exact List.mem_append_left _ (List.mem_append_left _ hpassed)
  · exact List.mem_append_right _ hend

theorem start_of_append {q : String} (hq : q ≠ "") (r : String) :
    Files.start (q ++ r) = Files.start q := by
  obtain ⟨c, rest, hl⟩ := List.exists_cons_of_ne_nil (show q.toList ≠ [] by simpa using hq)
  have habsolute : isAbsolute (q ++ r) = isAbsolute q := by
    rw [Bool.eq_iff_iff, isAbsolute_iff, isAbsolute_iff, String.toList_append, hl]
    simp
  unfold Files.start
  rw [habsolute]

/-- The folder around a path is not longer than the path, and all places on the way to it are on
the way of the path. -/
theorem EndsIn.around (h : EndsIn path before name) (hbefore : before ≠ []) (hsane : Sane path) :
    Sane (folderOf before) ∧ ∀ w ∈ visits (folderOf before), w.isEmpty ∨ w ∈ way path := by
  unfold folderOf
  split
  · refine ⟨⟨by decide, by decide, by decide, ?_⟩, fun w hw => ?_⟩
    · intro s hs
      exact Or.inl (List.eq_of_mem_replicate (n := 2) hs)
    · have hroot : visits "/" = List.replicate 3 #[] := by decide
      rw [hroot] at hw
      exact Or.inl (by rw [List.eq_of_mem_replicate hw]; rfl)
  · rename_i hroot
    obtain ⟨dropped, heq, -⟩ := trimEnd_eq before
    have hne := trimEnd_ne_nil hbefore
    have hmem : ∀ s ∈ trimEnd before, s ∈ Path.segments path := by
      intro s hs
      rw [h.segments, heq]
      exact List.mem_append_left _ (List.mem_append_left _ hs)
    have hsegments : Path.segments (ofSegments (trimEnd before)) = trimEnd before :=
      segments_ofSegments hne fun s hs => slash_notMem_segments (hmem s hs)
    have hpath : path = ofSegments (trimEnd before) ++ ("/" ++ ofSegments (dropped ++ [name])) := by
      rw [← String.append_assoc, ← ofSegments_append hne (by simp), ← List.append_assoc, ← heq,
        ← h.segments, ofSegments_segments]
    have hnamed : ofSegments (trimEnd before) ≠ "" := by
      intro hempty
      rw [hempty] at hsegments
      exact hroot hsegments.symm
    refine ⟨⟨fun hnul => hsane.text ?_, hnamed, ?_, fun s hs => hsane.fits s (hmem s ?_)⟩,
      fun w hw => Or.inr ?_⟩
    · rw [hpath, String.toList_append]
      exact List.mem_append_left _ hnul
    · have hshort := hsane.short
      rw [hpath, String.utf8ByteSize_append] at hshort
      omega
    · rwa [hsegments] at hs
    · rw [h.way_eq]
      refine visited_trimEnd before ?_
      have hstart : Files.start path = Files.start (ofSegments (trimEnd before)) := by
        conv_lhs => rw [hpath]
        exact start_of_append hnamed _
      rwa [visits, hsegments, ← hstart] at hw

end Path

namespace Files

variable {f g : Files} {path : String} {c : Content}

/-! ## Where a file is found -/

/-- The folder above the one that relative paths start from is there. -/
def Rooted (f : Files) : Prop := f.node? home.pop = some .folder

theorem rooted_empty : empty.Rooted := by
  unfold Rooted
  decide

/-- A place all of whose folders are there, its own included. -/
def Grounded (f : Files) (place : Location) : Prop :=
  ∀ l : Location, l.toList <+: place.toList → f.node? l = some .folder

theorem Grounded.onward {place : Location} (h : f.Grounded place) (segment : String)
    (hnext : f.node? (Path.onward place segment) = some .folder) :
    f.Grounded (Path.onward place segment) := by
  unfold Path.onward at hnext ⊢
  split
  · exact h
  · rename_i hsome
    rw [if_neg hsome] at hnext
    split
    · intro l hl
      rw [Array.toList_pop] at hl
      exact h l (hl.trans (List.dropLast_prefix _))
    · rename_i hname
      rw [if_neg hname] at hnext
      intro l hl
      rw [Array.toList_push] at hl
      rcases List.prefix_concat_iff.mp hl with heq | hprefix
      · rw [← Array.toList_push] at heq
        rwa [Array.toList_inj.mp heq]
      · exact h l hprefix

theorem grounded_of_passed {place : Location} {segments : List String} (h : f.Grounded place)
    (hpassed : ∀ w ∈ Path.passed place segments, f.node? w = some .folder) :
    ∀ w ∈ Path.passed place segments, f.Grounded w := by
  induction segments generalizing place with
  | nil => exact nofun
  | cons segment rest ih =>
    obtain ⟨-, hrest⟩ := List.forall_mem_cons.mp hpassed
    refine List.forall_mem_cons.mpr ⟨h, ?_⟩
    cases rest with
    | nil => exact nofun
    | cons next others =>
      exact ih (h.onward segment (hrest _ List.mem_cons_self)) hrest

theorem grounded_start (hrooted : f.Rooted) (hstart : f.node? (start path) = some .folder) :
    f.Grounded (start path) := by
  intro l hl
  by_cases hroot : l = #[]
  · rw [hroot]
    rfl
  · unfold start at hl hstart
    split at hl
    · exact absurd (Array.toList_inj.mp (List.prefix_nil.mp hl)) hroot
    · rename_i hrelative
      rw [if_neg hrelative] at hstart
      have hl : l.toList <+: ["tmp", "work"] := hl
      rcases List.prefix_concat_iff.mp (show l.toList <+: ["tmp"] ++ ["work"] from hl) with
        heq | hprefix
      · rwa [show l = home from Array.toList_inj.mp heq]
      · rcases List.prefix_concat_iff.mp (show l.toList <+: [] ++ ["tmp"] from hprefix) with
          heq | hempty
        · rw [show l = home.pop from Array.toList_inj.mp heq]
          exact hrooted
        · exact absurd (Array.toList_inj.mp (List.prefix_nil.mp hempty)) hroot

/-- The path of a file ends in a name. -/
theorem endsIn_of_look (hrooted : f.Rooted) (hlook : f.look path = .ok (.file c)) :
    ∃ before name, Path.EndsIn path before name := by
  obtain ⟨-, hway, hgoal⟩ := look_eq_ok.mp hlook
  obtain ⟨before, name, hsegments⟩ :=
    (List.eq_nil_or_concat' (Path.segments path)).resolve_left (Path.segments_ne_nil path)
  unfold Path.way at hway
  rw [hsegments, Path.passed_append] at hway
  unfold Path.goal at hgoal
  rw [hsegments, Path.reached_append] at hgoal
  have hstart : f.node? (start path) = some .folder := by
    refine hway _ ?_
    cases before <;> simp [Path.passed, Path.reached]
  have hlast : Path.reached (start path) before ∈ Path.passed (start path) before ++
      Path.passed (Path.reached (start path) before) [name] := by simp [Path.passed]
  have hgrounded : f.Grounded (Path.reached (start path) before) := by
    rw [← Path.passed_append] at hway hlast
    exact grounded_of_passed (grounded_start hrooted hstart) hway _ hlast
  have hfolder : ∀ l : Location, l.toList <+: (Path.reached (start path) before).toList →
      Path.reached (Path.reached (start path) before) [name] ≠ l := by
    intro l hl heq
    rw [heq, hgrounded l hl] at hgoal
    cases hgoal
  refine ⟨before, name, hsegments, ?_, ?_, ?_⟩
  · rintro rfl
    exact hfolder _ List.prefix_rfl rfl
  · rintro rfl
    exact hfolder _ List.prefix_rfl rfl
  · rintro rfl
    refine hfolder (Path.reached (start path) before).pop ?_ rfl
    rw [Array.toList_pop]
    exact List.dropLast_prefix _

theorem isFile_iff : f.isFile path = true ↔ ∃ c, f.look path = .ok (.file c) := by
  unfold isFile
  rw [Option.isSome_iff_exists]
  exact exists_congr fun c => find?_eq_some

theorem isFile_empty (path : String) : empty.isFile path = false := by
  rw [Bool.eq_false_iff]
  intro hfile
  obtain ⟨c, hlook⟩ := isFile_iff.mp hfile
  have hgoal := (look_eq_ok.mp hlook).2.2
  unfold node? at hgoal
  split at hgoal
  · cases hgoal
  · obtain ⟨before, after, heq, -⟩ := List.lookup_eq_some_iff.mp hgoal
    have hmem : (Path.goal path, FileNode.file c) ∈ empty.nodes :=
      heq ▸ List.mem_append_right before List.mem_cons_self
    simp [empty] at hmem

/-- The folder around a file is there. -/
theorem folder_around_file (hrooted : f.Rooted) (hfile : f.isFile path = true) :
    ∃ folder, Path.parent? path = some folder ∧ (folder = "" ∨
      Path.Sane folder ∧ ∀ w ∈ Path.visits folder, f.node? w = some .folder) := by
  obtain ⟨c, hlook⟩ := isFile_iff.mp hfile
  obtain ⟨before, name, hends⟩ := endsIn_of_look hrooted hlook
  obtain ⟨hsane, hway, -⟩ := look_eq_ok.mp hlook
  refine ⟨_, hends.parent?_eq, ?_⟩
  split
  · exact Or.inl rfl
  · rename_i hbefore
    obtain ⟨hfolder, hvisits⟩ := hends.around hbefore hsane
    refine Or.inr ⟨hfolder, fun w hw => ?_⟩
    rcases hvisits w hw with hempty | hmem
    · rw [node?, if_pos hempty]
    · exact hway w hmem

/-- Discarding touches nothing but the file at its path. -/
theorem discarded_touches (path : String) (left : String → Prop) (f : Files) :
    Leaves (· = path) left f (f.discarded path) := by
  refine leaves_discarded ?_ left f
  rfl

/-- Discarding makes no folder. -/
theorem folder_of_discarded {w : Location} (h : (f.discarded path).node? w = some .folder) :
    f.node? w = some .folder := by
  unfold discarded at h
  cases hremove : f.remove path with
  | error fault =>
    rw [hremove] at h
    exact h
  | ok g =>
    rw [hremove] at h
    obtain ⟨⟨d, hd⟩, rfl⟩ := file_of_remove hremove
    have h : (f.eraseAt (Path.goal path)).node? w = some .folder := h
    by_cases hw : w = Path.goal path
    · have hroot : (Path.goal path).isEmpty = false := by
        rw [Bool.eq_false_iff]
        intro hempty
        rw [fileAt_eq_some, node?, if_pos hempty] at hd
        cases hd
      rw [hw, node?_eraseAt_self hroot] at h
      cases h
    · rwa [node?_eraseAt_of_ne hw] at h

/-- No file is left at a path that is discarded. -/
theorem isFile_discarded (hrooted : f.Rooted) (path : String) :
    (f.discarded path).isFile path = false := by
  rw [Bool.eq_false_iff]
  intro hfile
  obtain ⟨c, hlook⟩ := isFile_iff.mp hfile
  have hleft := discarded_touches path (fun _ => False) f
  obtain ⟨before, name, hends⟩ := endsIn_of_look (hleft.folders _ hrooted) hlook
  obtain ⟨hsane, hway, hgoal⟩ := look_eq_ok.mp hlook
  have hleads : f.Leads path := leads_iff.mpr ⟨hsane, fun w hw => folder_of_discarded (hway w hw)⟩
  have hgone := fileAt_discarded hends.named.1 hends.named.2 hleads
  rw [fileAt_eq_some.mpr hgoal] at hgone
  cases hgone

end Files

/-! ## Making sure of the folder around a file -/

namespace FileWork

variable {f g h : Files} {path : String}

theorem ensureAround_eq {folder : String} (h : Path.parent? path = some folder) :
    ensureAround path = ensureFolder folder := by
  unfold ensureAround
  rw [h]
  rfl

/-- Nothing is made around a file that is there. -/
theorem ensureAround_of_isFile (hrooted : f.Rooted) (hfile : f.isFile path = true) :
    (ensureAround path).exec f = (.ok (), f) := by
  obtain ⟨folder, hparent, hfolder⟩ := Files.folder_around_file hrooted hfile
  rw [ensureAround_eq hparent]
  unfold ensureFolder
  split
  · rfl
  · rename_i hne
    obtain ⟨hsane, hvisits⟩ := hfolder.resolve_left hne
    have hlook : f.look folder = .ok .folder := by
      refine Files.look_eq_ok.mpr ⟨hsane, fun w hw => hvisits w (List.mem_append_left _ hw),
        hvisits _ (List.mem_append_right _ (List.mem_singleton_self _))⟩
    rw [exec_get_bind, hlook]
    rfl

/-- If the folder around a path cannot be made, no file is found at the path. -/
theorem isFile_of_ensureAround_error {fault : IoFault} (hrooted : f.Rooted)
    (herror : (ensureAround path).exec f = (.error fault, g)) : g.isFile path = false := by
  rw [Bool.eq_false_iff]
  intro hfile
  have hleft := leaves_ensureAround (fun _ => False) (fun _ => False) path f
  rw [herror] at hleft
  obtain ⟨folder, hparent, hfolder⟩ := Files.folder_around_file (hleft.folders _ hrooted) hfile
  have hensure : (ensureFolder folder).exec f = (.error fault, g) := by
    rwa [ensureAround_eq hparent] at herror
  by_cases hne : folder = ""
  · unfold ensureFolder at hensure
    rw [if_pos hne] at hensure
    cases hensure
  · obtain ⟨hsane, hvisits⟩ := hfolder.resolve_left hne
    have hensured := ensured (f := f) hne
    rw [hensure] at hensured
    have hok := hensured.free hsane ?_ fun w hw c hc => ?_
    · cases hok
    · rw [← hensured.anchored]
      exact hvisits _ (Path.start_mem_visits folder)
    · have hkept := hensured.grown.stays hc
      rw [hvisits w hw] at hkept
      cases hkept

/-- Once the folder around a path was made sure of, it can be made sure of as long as no folder
goes away. -/
theorem ensureAround_again (hok : (ensureAround path).exec f = (.ok (), g))
    (hfolders : ∀ l, g.node? l = some .folder → h.node? l = some .folder) :
    ((ensureAround path).exec h).1 = .ok () := by
  cases hparent : Path.parent? path with
  | none =>
    unfold ensureAround
    rw [hparent]
    rfl
  | some folder =>
    rw [ensureAround_eq hparent] at hok ⊢
    by_cases hne : folder = ""
    · unfold ensureFolder
      rw [if_pos hne]
      rfl
    · have hensured := ensured (f := f) hne
      rw [hok] at hensured
      obtain ⟨n, hn⟩ := hensured.done rfl
      obtain ⟨hsane, hway, -⟩ := Files.look_eq_ok.mp hn
      have hway : ∀ w ∈ Path.way folder, h.node? w = some .folder :=
        fun w hw => hfolders w (hway w hw)
      cases hgoal : h.node? (Path.goal folder) with
      | some found =>
        unfold ensureFolder
        rw [if_neg hne, exec_get_bind, Files.look_eq_ok.mpr ⟨hsane, hway, hgoal⟩]
        rfl
      | none =>
        refine (ensured (f := h) hne).free hsane (hway _ ?_) fun w hw c hc => ?_
        · obtain ⟨s, rest, hsegments⟩ :=
            List.exists_cons_of_ne_nil (Path.segments_ne_nil folder)
          unfold Path.way
          rw [hsegments]
          exact List.mem_cons_self
        · rcases List.mem_append.mp hw with hw | hw
          · rw [hway w hw] at hc
            cases hc
          · rw [List.mem_singleton.mp hw] at hc
            rw [show Path.reached (Files.start folder) (Path.segments folder) = Path.goal folder
              from rfl, hgoal] at hc
            cases hc

end FileWork

end JarDerivation
