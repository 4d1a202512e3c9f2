-- A file that is written is found again: what is put at the place that a path
-- stands for is what the path leads to afterwards, since the folders on the way
-- to it stay as they were.
import JarDerivation.Files.Change
import JarDerivation.Proofs.Outcome
import JarDerivation.Proofs.Text.Ending

namespace JarDerivation

/-! ## The last name of a path -/

namespace Path

/-- A path that names a file is the way to the folder around it and its last name. -/
theorem segments_eq {p : String} (hdots : isDotted p = false) (hslash : wantsFolder p = false) :
    segments p = around p ++ [lastName p] := by
  have hne : p.toList ≠ [] := by
    intro hp
    have hempty : p = "" := String.toList_injective hp
    rw [hempty] at hdots
    exact absurd hdots (by decide)
  obtain ⟨l, d, hl⟩ := (List.eq_nil_or_concat' p.toList).resolve_left hne
  have hd : d ≠ '/' := by
    rintro rfl
    have hp : p = String.ofList l ++ "/" := String.toList_injective (by simp [hl])
    rw [wantsFolder, hp, Text.endsWith_append] at hslash
    cases hslash
  -- the text ends in a character that is no slash, so its last segment is not empty
  obtain ⟨parts, part, hcut⟩ := Text.cutEach_append_of_ne hd l
  have hsegs : segments p = parts.map String.ofList ++ [String.ofList (part ++ [d])] := by
    unfold segments Text.splitEach
    rw [hl, hcut]
    simp
  have hback : backwards p = String.ofList (part ++ [d]) :: (parts.map String.ofList).reverse := by
    unfold backwards
    rw [hsegs]
    simp
  rw [around, lastName, hback, hsegs]
  simp

end Path

namespace Files

variable {f : Files} {place : Location} {n : FileNode}

/-! ## What is at a place -/

theorem lookup_eraseAt {other : Location} (h : other ≠ place) :
    List.lookup other (f.eraseAt place).nodes = List.lookup other f.nodes := by
  unfold eraseAt
  induction f.nodes with
  | nil => rfl
  | cons node rest ih =>
    by_cases hplace : node.1 = place
    · have hother : (other == node.1) = false := by simpa [hplace] using h
      rw [List.filter_cons_of_neg (by simpa using hplace), List.lookup_cons, hother, ih]
    · rw [List.filter_cons_of_pos (by simpa using hplace), List.lookup_cons, List.lookup_cons, ih]

theorem node?_putAt_self (h : place.isEmpty = false) : (f.putAt place n).node? place = some n := by
  simp [node?, putAt, h]

theorem node?_putAt_of_ne {other : Location} (h : other ≠ place) :
    (f.putAt place n).node? other = f.node? other := by
  unfold node? putAt
  rw [List.lookup_cons, beq_eq_false_iff_ne.mpr h, lookup_eraseAt h]

/-! ## The way to a place -/

theorem folder_of_step {start next : Location} {segment : String}
    (h : f.step start segment = .ok next) : f.node? start = some .folder := by
  unfold step at h
  split at h
  · cases h
  · cases h
  · assumption

/-- A step that was possible stays so when something is put where no folder is. -/
theorem step_putAt {start next : Location} {segment : String}
    (hplace : f.node? place ≠ some .folder) (h : f.step start segment = .ok next) :
    (f.putAt place n).step start segment = .ok next := by
  have hstart : start ≠ place := by
    rintro rfl
    exact hplace (folder_of_step h)
  unfold step at h ⊢
  rwa [node?_putAt_of_ne hstart]

theorem foldlM_step_putAt {segments : List String} {start next : Location}
    (hplace : f.node? place ≠ some .folder) (h : segments.foldlM f.step start = .ok next) :
    segments.foldlM (f.putAt place n).step start = .ok next := by
  induction segments generalizing start with
  | nil => exact h
  | cons segment rest ih =>
    rw [List.foldlM_cons] at h ⊢
    cases hstep : f.step start segment with
    | error fault =>
      rw [hstep] at h
      cases h
    | ok mid =>
      rw [hstep] at h
      rw [step_putAt hplace hstep]
      exact ih h

/-- Whether a path can be followed at all depends on its text alone. -/
theorem follow_of_ok {path : String} {segments : List String}
    (h : f.follow path segments = .ok place) (g : Files) (segments' : List String) :
    g.follow path segments' = segments'.foldlM g.step (start path) := by
  unfold follow at h ⊢
  split at h
  · cases h
  rw [if_neg ‹_›]
  split at h
  · cases h
  rw [if_neg ‹_›]
  split at h
  · cases h
  rw [if_neg ‹_›]

theorem step_dot {start next : Location} (h : f.step start "." = .ok next) : next = start := by
  unfold step at h
  rw [folder_of_step h] at h
  cases h
  rfl

theorem step_name {start next : Location} {segment : String} (hempty : segment ≠ "")
    (hdot : segment ≠ ".") (hdots : segment ≠ "..") (h : f.step start segment = .ok next) :
    next = start.push segment := by
  unfold step at h
  rw [folder_of_step h] at h
  simp only [beq_eq_false_iff_ne.mpr hempty, beq_eq_false_iff_ne.mpr hdot,
    beq_eq_false_iff_ne.mpr hdots, Bool.or_self, Bool.false_eq_true, if_false] at h
  split at h
  · cases h
  · cases h
    rfl

/-- A place for a file: a path leads there, and it is neither the root nor a folder. -/
structure Places (f : Files) (path : String) (place : Location) : Prop where
  located : f.locate path = .ok place
  free : f.node? place ≠ some .folder
  below : place.isEmpty = false

theorem places_of_target {path : String} (h : f.target path = .ok place) : f.Places path place := by
  unfold target folderAround at h
  obtain ⟨folder, hfolder, h⟩ := ok_of_bind h
  obtain ⟨before, hbefore, hdot⟩ := ok_of_bind hfolder
  split at h
  · cases h
  rename_i hnamed
  obtain ⟨last, hlast, h⟩ := ok_of_bind (x := f.step folder (Path.lastName path)) h
  split at h
  · cases h
  rename_i hfree
  cases h
  obtain ⟨hdots, hslash⟩ : Path.isDotted path = false ∧ Path.wantsFolder path = false := by
    simpa using hnamed
  rw [step_dot hdot] at hlast
  refine ⟨?_, hfree, ?_⟩
  · unfold locate
    have hway := hbefore
    rw [follow_of_ok hbefore] at hway ⊢
    rw [Path.segments_eq hdots hslash, List.foldlM_append, hway]
    simp only [List.foldlM_cons, List.foldlM_nil, bind_pure]
    exact hlast
  · have hname : Path.lastName path ≠ "" ∧ Path.lastName path ≠ "." ∧
        Path.lastName path ≠ ".." := by
      simpa [Path.isDotted, and_assoc] using hdots
    rw [step_name hname.1 hname.2.1 hname.2.2 hlast]
    simp

theorem look_eq {path : String} (hplace : f.locate path = .ok place) (h : f.node? place = some n) :
    f.look path = .ok n := by
  unfold look
  rw [hplace]
  simp only [bind, Except.bind, h]
  rfl

/-- What is put at the place of a path is what the path leads to. -/
theorem look_putAt {path : String} (h : f.Places path place) :
    (f.putAt place n).look path = .ok n := by
  apply look_eq _ (node?_putAt_self h.below)
  have hway := h.located
  unfold locate at hway ⊢
  rw [follow_of_ok h.located] at hway ⊢
  exact foldlM_step_putAt h.free hway

/-! ## Plain names

A plain name stands for a file in the folder that relative paths start from. -/

/-- One name that is no dots and not too long. -/
structure PlainName (name : String) : Prop where
  text : name.contains '\x00' = false
  short : name.utf8ByteSize ≤ Path.longestName
  single : Path.segments name = [name]
  relative : Path.isAbsolute name = false
  undotted : Path.isDotted name = false
  unslashed : Path.wantsFolder name = false

variable {name : String}

theorem PlainName.around_and_last (hname : PlainName name) :
    Path.around name = [] ∧ Path.lastName name = name := by
  have hway := Path.segments_eq hname.undotted hname.unslashed
  rw [hname.single] at hway
  cases haround : Path.around name with
  | nil =>
    rw [haround] at hway
    exact ⟨rfl, (List.singleton_inj.mp hway).symm⟩
  | cons first rest => simp [haround] at hway

theorem PlainName.ne_dots (hname : PlainName name) : name ≠ "" ∧ name ≠ "." ∧ name ≠ ".." := by
  have hdots := hname.undotted
  unfold Path.isDotted at hdots
  rw [hname.around_and_last.2] at hdots
  simpa [and_assoc] using hdots

theorem follow_of_plain (hname : PlainName name) (segments : List String) :
    f.follow name segments = segments.foldlM f.step home := by
  have hshort : ¬ name.utf8ByteSize > Path.longestPath :=
    Nat.not_lt.mpr (Nat.le_trans hname.short (by decide))
  have htext : ¬ name.toList.contains '\x00' = true := by
    simpa [String.contains_char_eq] using hname.text
  unfold follow start
  rw [if_neg htext, if_neg hname.ne_dots.1, if_neg hshort, hname.relative]
  rfl

theorem step_of_plain (hname : PlainName name) {folder : Location}
    (hfolder : f.node? folder = some .folder) : f.step folder name = .ok (folder.push name) := by
  obtain ⟨hempty, hdot, hdots⟩ := hname.ne_dots
  have hshort := hname.short
  unfold step
  rw [hfolder]
  simp [hempty, hdot, hdots, hshort]

theorem locate_of_plain (hname : PlainName name) (hhome : f.node? home = some .folder) :
    f.locate name = .ok (home.push name) := by
  unfold locate
  rw [follow_of_plain hname, hname.single, List.foldlM_cons, step_of_plain hname hhome]
  rfl

theorem folderAround_of_plain (hname : PlainName name) (hhome : f.node? home = some .folder) :
    f.folderAround name = .ok home := by
  unfold folderAround
  rw [follow_of_plain hname, hname.around_and_last.1]
  show f.step home "." = _
  unfold step
  rw [hhome]
  rfl

theorem target_of_plain (hname : PlainName name) (hhome : f.node? home = some .folder)
    (hfree : f.node? (home.push name) ≠ some .folder) : f.target name = .ok (home.push name) := by
  unfold target
  rw [folderAround_of_plain hname hhome, hname.undotted, hname.unslashed, hname.around_and_last.2]
  show (do let place ← f.step home name; _) = _
  rw [step_of_plain hname hhome]
  show (if _ then _ else _) = _
  rw [if_neg hfree]
  rfl

theorem exists?_of_plain (hname : PlainName name) (hhome : f.node? home = some .folder)
    (hfree : f.node? (home.push name) = none) : f.exists? name = false := by
  have hlook : f.look name = .error .notFound := by
    unfold look
    rw [locate_of_plain hname hhome]
    simp only [bind, Except.bind, hfree]
    rfl
  simp [exists?, isFile, isFolder, find?, hlook]

theorem openJar_of_plain {j : Jar} (hname : PlainName name) (hhome : f.node? home = some .folder)
    (hjar : f.node? (home.push name) = some (.file (.jar j))) : f.openJar name = .ok j := by
  unfold openJar
  rw [look_eq (locate_of_plain hname hhome) hjar]

end Files

theorem Path.parent?_of_plain {name : String} (hname : Files.PlainName name) :
    parent? name = some "" := by
  unfold parent?
  rw [hname.single]
  simp only [trimEnd, List.reverse_nil, List.dropWhile_nil]
  split
  · contradiction
  · rename_i heq
    exact absurd (List.singleton_inj.mp heq) hname.ne_dots.1
  · rfl
  · rename_i hlong
    exact absurd rfl (hlong name)

theorem FileWork.clear_of_plain {f : Files} {name : String} (hname : Files.PlainName name)
    (hhome : f.node? Files.home = some .folder) (hfree : f.node? (Files.home.push name) = none) :
    (FileWork.clear name).run.run f = (.ok (), f) := by
  have hexists := Files.exists?_of_plain hname hhome hfree
  unfold clear ensureAround
  rw [Path.parent?_of_plain hname]
  show (if f.exists? name then change (·.remove name) else pure () : FileWork Unit).run.run f = _
  rw [if_neg (by simp [hexists])]
  rfl

end JarDerivation
