-- Where a path leads by its text alone: the places that it passes, and the place
-- that it ends at. What is found there depends on nothing else, so a path is
-- followed just when all places that it passes are folders. And it is made sure of
-- just when no file is in the way.
import JarDerivation.Proofs.Files.Written
import JarDerivation.Proofs.Text.Split

namespace JarDerivation

namespace Path

/-! ## The places of a path -/

/-- Whether a segment is short enough for a name, or no name at all. -/
def Fits (segment : String) : Prop :=
  segment = "" ∨ segment = "." ∨ segment = ".." ∨ segment.utf8ByteSize ≤ longestName

/-- The place that a segment leads to. -/
def onward (place : Location) (segment : String) : Location :=
  if segment == "" || segment == "." then place
  else if segment == ".." then place.pop
  else place.push segment

/-- The places that segments pass before they end. -/
def passed : Location → List String → List Location
  | _, [] => []
  | place, segment :: rest => place :: passed (onward place segment) rest

/-- The place that segments end at. -/
def reached (place : Location) (segments : List String) : Location := segments.foldl onward place

/-- All places that segments lead to, the last one included. -/
def visited (place : Location) (segments : List String) : List Location :=
  passed place segments ++ [reached place segments]

/-- The places that a path passes. -/
def way (path : String) : List Location := passed (Files.start path) (segments path)

/-- The place that a path ends at. -/
def goal (path : String) : Location := reached (Files.start path) (segments path)

/-- A path that can be followed, as far as its text goes. -/
structure Sane (path : String) : Prop where
  text : '\x00' ∉ path.toList
  named : path ≠ ""
  short : path.utf8ByteSize ≤ longestPath
  fits : ∀ segment ∈ segments path, Fits segment

theorem passed_append (place : Location) (segments segments' : List String) :
    passed place (segments ++ segments') =
      passed place segments ++ passed (reached place segments) segments' := by
  induction segments generalizing place with
  | nil => rfl
  | cons segment rest ih =>
    rw [List.cons_append, passed, passed, ih, List.cons_append]
    rfl

theorem reached_append (place : Location) (segments segments' : List String) :
    reached place (segments ++ segments') = reached (reached place segments) segments' :=
  List.foldl_append

theorem onward_name {segment : String} (place : Location) (hempty : segment ≠ "")
    (hdot : segment ≠ ".") (hdots : segment ≠ "..") : onward place segment = place.push segment := by
  simp [onward, hempty, hdot, hdots]

theorem segments_ne_nil (path : String) : segments path ≠ [] := by
  simp [segments, Text.splitEach, Text.cutEach_ne_nil]

/-! ## Paths with the same parts -/

theorem slash_notMem_segments {p segment : String} (h : segment ∈ segments p) :
    '/' ∉ segment.toList := by
  obtain ⟨part, hpart, rfl⟩ := List.mem_map.mp h
  simpa using Text.notMem_of_mem_cutEach hpart

theorem onward_of_not_isNamed {segment : String} (h : isNamed segment = false) (place : Location) :
    onward place segment = place := by
  have hnothing : (segment == "" || segment == ".") = true := by
    rw [← Bool.not_eq_false', Bool.not_or]
    exact h
  rw [onward, if_pos hnothing]

theorem reached_filter (place : Location) (segments : List String) :
    reached place (segments.filter isNamed) = reached place segments := by
  induction segments generalizing place with
  | nil => rfl
  | cons segment rest ih =>
    cases hnamed : isNamed segment with
    | true =>
      rw [List.filter_cons_of_pos hnamed]
      exact ih (onward place segment)
    | false =>
      rw [List.filter_cons_of_neg (by simp [hnamed]), ih]
      exact congrArg (reached · rest) (onward_of_not_isNamed hnamed place).symm

/-- The parts of a path say whether it is absolute, -/
theorem slash_mem_components {path : String} : "/" ∈ components path ↔ isAbsolute path = true := by
  have hsegments : "/" ∉ (segments path).filter isNamed := fun h =>
    absurd (slash_notMem_segments (List.mem_filter.mp h).1) (by decide)
  unfold components
  cases isAbsolute path with
  | true => simp
  | false =>
    simp only [Bool.false_eq_true, if_false, iff_false]
    split
    · exact List.not_mem_cons_of_ne_of_not_mem (by decide) hsegments
    · exact hsegments

/-- and what its segments name. -/
theorem filter_components (path : String) :
    (components path).filter (fun part => part != "/" && isNamed part) =
      (segments path).filter isNamed := by
  have hsegments : ((segments path).filter isNamed).filter (fun part => part != "/" && isNamed part) =
      (segments path).filter isNamed := by
    refine List.filter_eq_self.mpr fun part hpart => ?_
    obtain ⟨hmem, hnamed⟩ := List.mem_filter.mp hpart
    have hslash : part ≠ "/" := by
      rintro rfl
      exact absurd (slash_notMem_segments hmem) (by decide)
    simp [hslash, hnamed]
  unfold components
  dsimp only
  split
  · rw [List.filter_cons_of_neg (by decide), hsegments]
  · split
    · rw [List.filter_cons_of_neg (by decide), hsegments]
    · exact hsegments

/-- Paths with the same parts lead to the same place. -/
theorem goal_of_components {p q : String} (h : components p = components q) : goal p = goal q := by
  have habsolute : isAbsolute p = isAbsolute q := by
    rw [Bool.eq_iff_iff, ← slash_mem_components, ← slash_mem_components, h]
  have hstart : Files.start p = Files.start q := by
    unfold Files.start
    rw [habsolute]
  rw [goal, goal, hstart, ← reached_filter, ← filter_components p, h, filter_components,
    reached_filter]

end Path

namespace Files

variable {f g : Files} {place : Location}

/-! ## Following by places -/

theorem step_eq_ok {segment : String} {next : Location} :
    f.step place segment = .ok next ↔
      f.node? place = some .folder ∧ Path.Fits segment ∧ next = Path.onward place segment := by
  unfold step Path.Fits Path.onward
  cases hnode : f.node? place with
  | none => simp
  | some n =>
    cases n with
    | file c => simp
    | folder =>
      have hsymm : ∀ a : Location, (Except.ok a : Except IoFault Location) = .ok next ↔ next = a :=
        fun a => by rw [Except.ok.injEq, eq_comm]
      by_cases hempty : segment = ""
      · simp [hempty, hsymm]
      · by_cases hdot : segment = "."
        · simp [hdot, hsymm]
        · by_cases hdots : segment = ".."
          · simp [hdots, hsymm]
          · by_cases hlong : segment.utf8ByteSize ≤ Path.longestName
            · simp [hempty, hdot, hdots, hlong, Nat.not_lt.mpr hlong, hsymm]
            · simp [hempty, hdot, hdots, hlong, Nat.not_le.mp hlong]

theorem foldlM_step_eq_ok {segments : List String} {next : Location} :
    segments.foldlM f.step place = .ok next ↔
      (∀ w ∈ Path.passed place segments, f.node? w = some .folder) ∧
        (∀ segment ∈ segments, Path.Fits segment) ∧ next = Path.reached place segments := by
  induction segments generalizing place with
  | nil => simp [Path.passed, Path.reached, pure, Except.pure, eq_comm]
  | cons segment rest ih =>
    rw [List.foldlM_cons]
    constructor
    · intro h
      obtain ⟨mid, hstep, hrest⟩ := ok_of_bind h
      obtain ⟨hfolder, hfits, rfl⟩ := step_eq_ok.mp hstep
      obtain ⟨hpassed, hall, rfl⟩ := ih.mp hrest
      exact ⟨List.forall_mem_cons.mpr ⟨hfolder, hpassed⟩,
        List.forall_mem_cons.mpr ⟨hfits, hall⟩, rfl⟩
    · rintro ⟨hpassed, hall, rfl⟩
      obtain ⟨hfolder, hpassed⟩ := List.forall_mem_cons.mp hpassed
      obtain ⟨hfits, hall⟩ := List.forall_mem_cons.mp hall
      rw [step_eq_ok.mpr ⟨hfolder, hfits, rfl⟩]
      exact ih.mpr ⟨hpassed, hall, rfl⟩

/-- Which part of a path is followed has no effect on whether its text is sane. -/
theorem follow_eq_ok {path : String} {segments : List String} :
    f.follow path segments = .ok place ↔
      '\x00' ∉ path.toList ∧ path ≠ "" ∧ path.utf8ByteSize ≤ Path.longestPath ∧
        segments.foldlM f.step (start path) = .ok place := by
  unfold follow
  by_cases htext : '\x00' ∈ path.toList
  · simp [htext]
  · by_cases hnamed : path = ""
    · simp [hnamed]
    · by_cases hshort : path.utf8ByteSize ≤ Path.longestPath
      · simp [htext, hnamed, hshort, Nat.not_lt.mpr hshort]
      · simp [htext, hnamed, hshort, Nat.not_le.mp hshort]

theorem locate_eq_ok {path : String} :
    f.locate path = .ok place ↔
      Path.Sane path ∧ (∀ w ∈ Path.way path, f.node? w = some .folder) ∧
        place = Path.goal path := by
  unfold locate
  rw [follow_eq_ok, foldlM_step_eq_ok]
  constructor
  · rintro ⟨htext, hnamed, hshort, hway, hfits, hgoal⟩
    exact ⟨⟨htext, hnamed, hshort, hfits⟩, hway, hgoal⟩
  · rintro ⟨hsane, hway, hgoal⟩
    exact ⟨hsane.text, hsane.named, hsane.short, hway, hsane.fits, hgoal⟩

/-- What a path leads to is what is at its end, if only folders are on its way. -/
theorem look_eq_ok {path : String} {n : FileNode} :
    f.look path = .ok n ↔
      Path.Sane path ∧ (∀ w ∈ Path.way path, f.node? w = some .folder) ∧
        f.node? (Path.goal path) = some n := by
  unfold look
  constructor
  · intro h
    obtain ⟨place, hplace, h⟩ := ok_of_bind h
    obtain ⟨hsane, hway, rfl⟩ := locate_eq_ok.mp hplace
    cases hnode : f.node? (Path.goal path) with
    | none =>
      rw [hnode] at h
      cases h
    | some found =>
      rw [hnode] at h
      cases h
      exact ⟨hsane, hway, rfl⟩
  · rintro ⟨hsane, hway, hnode⟩
    rw [locate_eq_ok.mpr ⟨hsane, hway, rfl⟩]
    simp only [bind, Except.bind, hnode]
    rfl

/-- Steps that no file is in the way of fail only where something is missing. -/
theorem foldlM_step_eq_error {segments : List String} {start : Location} {fault : IoFault}
    (hfits : ∀ segment ∈ segments, Path.Fits segment)
    (hfree : ∀ w ∈ Path.passed start segments, ∀ c, f.node? w ≠ some (.file c))
    (h : segments.foldlM f.step start = .error fault) : fault = .notFound := by
  induction segments generalizing start with
  | nil => cases h
  | cons segment rest ih =>
    obtain ⟨hfit, hfits⟩ := List.forall_mem_cons.mp hfits
    obtain ⟨hstart, hfree⟩ := List.forall_mem_cons.mp hfree
    rw [List.foldlM_cons] at h
    cases hnode : f.node? start with
    | none =>
      have hstep : f.step start segment = .error .notFound := by
        unfold step
        rw [hnode]
      rw [hstep] at h
      cases h
      rfl
    | some n =>
      cases n with
      | file c => exact absurd hnode (hstart c)
      | folder =>
        rw [step_eq_ok.mpr ⟨hnode, hfit, rfl⟩] at h
        exact ih hfits hfree h

/-- If a path is sane and no file is on its way, the only fault is that something is missing. -/
theorem fault_of_free {path : String} {fault : IoFault} (hsane : Path.Sane path)
    (hfree : ∀ w ∈ Path.way path, ∀ c, f.node? w ≠ some (.file c))
    (h : f.look path = .error fault) : fault = .notFound := by
  have hlocate : f.locate path = (Path.segments path).foldlM f.step (start path) := by
    unfold locate follow
    rw [if_neg (by simpa using hsane.text), if_neg hsane.named,
      if_neg (Nat.not_lt.mpr hsane.short)]
  unfold look at h
  rw [hlocate] at h
  cases hplace : (Path.segments path).foldlM f.step (start path) with
  | error other =>
    rw [hplace] at h
    cases h
    exact foldlM_step_eq_error hsane.fits hfree hplace
  | ok place =>
    rw [hplace] at h
    simp only [bind, Except.bind] at h
    split at h
    · cases h
    · cases h
      rfl

theorem text_of_notFound {path : String} (hnamed : path ≠ "")
    (h : f.look path = .error .notFound) :
    '\x00' ∉ path.toList ∧ path.utf8ByteSize ≤ Path.longestPath := by
  unfold look locate follow at h
  by_cases htext : '\x00' ∈ path.toList
  · rw [if_pos (by simpa using htext)] at h
    cases h
  · by_cases hshort : path.utf8ByteSize > Path.longestPath
    · rw [if_neg (by simpa using htext), if_neg hnamed, if_pos hshort] at h
      cases h
    · exact ⟨htext, Nat.not_lt.mp hshort⟩

theorem find?_eq_some {path : String} {c : Content} :
    f.find? path = some c ↔ f.look path = .ok (.file c) := by
  unfold find?
  split <;> simp_all

/-! ## Reading jars -/

/-- The jar at a path, if there is one. -/
def jar? (f : Files) (path : String) : Option Jar := (f.openJar path).toOption

theorem jar?_eq (f : Files) (path : String) :
    f.jar? path = (f.find? path).bind fun c => match c with
      | .jar j => some j
      | .raw _ => none := by
  unfold jar? openJar find?
  cases f.look path with
  | error fault => rfl
  | ok n =>
    cases n with
    | folder => rfl
    | file c => cases c <;> rfl

theorem jar?_congr (h : g.find? path = f.find? path) : g.jar? path = f.jar? path := by
  rw [jar?_eq, jar?_eq, h]

theorem jar?_of_find? {j : Jar} (h : f.find? path = some (.jar j)) : f.jar? path = some j := by
  rw [jar?_eq, h]
  rfl

theorem isFile_of_jar? {j : Jar} (h : f.jar? path = some j) : f.isFile path = true := by
  rw [jar?_eq] at h
  obtain ⟨c, hc, -⟩ := Option.bind_eq_some_iff.mp h
  simp [isFile, hc]

theorem openJar_of_jar? {j : Jar} (h : f.jar? path = some j) : f.openJar path = .ok j := by
  unfold jar? at h
  cases hopen : f.openJar path with
  | error e => simp [hopen, Except.toOption] at h
  | ok found =>
    rw [hopen] at h
    exact congrArg _ (Option.some.inj h)

/-! ## Folders that are added -/

/-- Nothing has changed, but that there are new folders at some of these places. -/
def Grown (places : Location → Prop) (f g : Files) : Prop :=
  ∀ w, g.node? w = f.node? w ∨ (places w ∧ f.node? w = none ∧ g.node? w = some .folder)

variable {places : Location → Prop}

theorem Grown.refl (places : Location → Prop) (f : Files) : f.Grown places f := fun _ => .inl rfl

theorem Grown.trans {h : Files} (hf : f.Grown places g) (hg : g.Grown places h) :
    f.Grown places h := by
  intro w
  rcases hg w with hg | ⟨hw, hnone, hfolder⟩
  · rw [hg]
    exact hf w
  · rcases hf w with hf | ⟨_, _, hsome⟩
    · exact .inr ⟨hw, by rw [← hf, hnone], hfolder⟩
    · rw [hsome] at hnone
      cases hnone

theorem Grown.mono {places' : Location → Prop} (h : f.Grown places g)
    (hplaces : ∀ w, places w → places' w) : f.Grown places' g := fun w =>
  (h w).imp_right fun ⟨hw, hrest⟩ => ⟨hplaces w hw, hrest⟩

/-- What is there stays. -/
theorem Grown.stays {w : Location} {n : FileNode} (h : f.Grown places g)
    (hn : f.node? w = some n) : g.node? w = some n := by
  rcases h w with hg | ⟨_, hnone, _⟩
  · rw [hg, hn]
  · rw [hnone] at hn
    cases hn

theorem Grown.look {path : String} {n : FileNode} (h : f.Grown places g)
    (hlook : f.look path = .ok n) : g.look path = .ok n := by
  obtain ⟨hsane, hway, hnode⟩ := look_eq_ok.mp hlook
  exact look_eq_ok.mpr ⟨hsane, fun w hw => h.stays (hway w hw), h.stays hnode⟩

/-- No file has appeared. -/
theorem Grown.file {w : Location} {c : Content} (h : f.Grown places g)
    (hc : g.node? w = some (.file c)) : f.node? w = some (.file c) := by
  rcases h w with hg | ⟨_, _, hfolder⟩
  · rw [← hg, hc]
  · rw [hfolder] at hc
    cases hc

theorem grown_putAt (hplace : place.isEmpty = false) (hfree : f.node? place = none) :
    f.Grown (· = place) (f.putAt place .folder) := by
  intro w
  by_cases hw : w = place
  · subst hw
    exact .inr ⟨rfl, hfree, node?_putAt_self hplace⟩
  · exact .inl (node?_putAt_of_ne hw)

end Files

/-! ## Making sure of a folder -/

namespace FileWork

/-- What a piece of work gives, and the files that it leaves. -/
abbrev exec {α : Type} (x : FileWork α) (f : Files) : Except IoFault α × Files := x.run.run f

variable {f g : Files}

theorem exec_bind {α β : Type} (x : FileWork α) (k : α → FileWork β) :
    (x >>= k).exec f = match x.exec f with
      | (.ok a, g) => (k a).exec g
      | (.error e, g) => (.error e, g) := by
  unfold exec
  rw [ExceptT.run_bind, StateT.run_bind]
  cases x.run.run f with
  | mk r g => cases r <;> rfl

theorem exec_get_bind {β : Type} (k : Files → FileWork β) : (get >>= k).exec f = (k f).exec f :=
  rfl

theorem exec_change_ok {op : Files → Except IoFault Files} (h : op f = .ok g) :
    (change op).exec f = (.ok (), g) := by
  unfold change
  rw [exec_get_bind, h]
  rfl

theorem exec_change_error {op : Files → Except IoFault Files} {fault : IoFault}
    (h : op f = .error fault) : (change op).exec f = (.error fault, f) := by
  unfold change
  rw [exec_get_bind, h]
  rfl

theorem exec_discard {α : Type} (x : FileWork α) :
    (discard x).exec f = match x.exec f with
      | (.ok _, g) => (.ok (), g)
      | (.error e, g) => (.error e, g) := by
  show StateT.run (ExceptT.run (Function.const α () <$> x)) f = _
  unfold exec
  rw [ExceptT.run_map, StateT.run_map]
  cases x.run.run f with
  | mk r g => cases r <;> rfl

/-- What making sure of folders one after the other has done, whether it succeeded or not: there
are new folders at places that were visited, and nothing else is new. -/
structure Walked (start : Location) (segments : List String) (f : Files)
    (r : Except IoFault Location) (g : Files) : Prop where
  grown : f.Grown (· ∈ Path.visited start segments) g
  anchored : g.node? start = f.node? start
  done : ∀ place, r = .ok place → place = Path.reached start segments ∧
    (∀ segment ∈ segments, Path.Fits segment) ∧
      (∀ w ∈ Path.passed start segments, g.node? w = some .folder) ∧
        (segments ≠ [] → g.node? place = some .folder)
  free : f.node? start = some .folder → (∀ segment ∈ segments, Path.Fits segment) →
    (∀ w ∈ Path.visited start segments, ∀ c, f.node? w ≠ some (.file c)) → ∃ place, r = .ok place

theorem exec_enter (place : Location) (segment : String) :
    (enter place segment).exec f = match f.step place segment with
      | .error fault => (.error fault, f)
      | .ok next =>
        match f.node? next with
        | some .folder => (.ok next, f)
        | some (.file _) => (.error .alreadyExists, f)
        | none => (.ok next, f.putAt next .folder) := by
  unfold enter
  rw [exec_bind]
  show ((ExceptT.mk (pure (f.step place segment)) >>= _ : FileWork Location)).exec f = _
  rw [exec_bind]
  cases hstep : f.step place segment with
  | error fault => rfl
  | ok next =>
    show (match f.node? next with
      | some .folder => pure next
      | some (.file _) => throw .alreadyExists
      | none => _ : FileWork Location).exec f = _
    dsimp only
    cases f.node? next with
    | none => rfl
    | some n => cases n <;> rfl

theorem walked_enter (place : Location) (segment : String) :
    Walked place [segment] f ((enter place segment).exec f).1 ((enter place segment).exec f).2 := by
  rw [exec_enter]
  have hvisited : Path.visited place [segment] = [place, Path.onward place segment] := rfl
  cases hstep : f.step place segment with
  | error fault =>
    refine ⟨.refl _ f, rfl, fun _ h => (by cases h), fun hfolder hfits _ => ?_⟩
    rw [Files.step_eq_ok.mpr ⟨hfolder, hfits segment (by simp), rfl⟩] at hstep
    cases hstep
  | ok next =>
    obtain ⟨hfolder, hfits, rfl⟩ := Files.step_eq_ok.mp hstep
    dsimp only
    cases hnode : f.node? (Path.onward place segment) with
    | none =>
      have hne : place ≠ Path.onward place segment := by
        intro h
        rw [← h, hfolder] at hnode
        cases hnode
      have hempty : (Path.onward place segment).isEmpty = false := by
        by_contra hroot
        rw [Files.node?, if_pos (by simpa using hroot)] at hnode
        cases hnode
      refine ⟨(Files.grown_putAt hempty hnode).mono fun w hw => by simp [hvisited, hw],
        Files.node?_putAt_of_ne hne, ?_, fun _ _ _ => ⟨_, rfl⟩⟩
      rintro _ ⟨⟩
      refine ⟨rfl, by simpa using hfits, ?_, fun _ => Files.node?_putAt_self hempty⟩
      simpa [Path.passed] using (Files.node?_putAt_of_ne hne).trans hfolder
    | some n =>
      cases n with
      | folder =>
        refine ⟨.refl _ f, rfl, ?_, fun _ _ _ => ⟨_, rfl⟩⟩
        rintro _ ⟨⟩
        exact ⟨rfl, by simpa using hfits, by simpa [Path.passed] using hfolder, fun _ => hnode⟩
      | file c =>
        refine ⟨.refl _ f, rfl, fun place h => (by cases h), fun _ _ hfree => ?_⟩
        exact absurd hnode (hfree _ (by simp [hvisited]) c)

/-- A walk that goes on from the place of its first segment. -/
theorem Walked.cons {h : Files} {start mid : Location} {segment : String} {rest : List String}
    {r : Except IoFault Location} (hfirst : Walked start [segment] f (.ok mid) g)
    (hrest : Walked mid rest g r h) : Walked start (segment :: rest) f r h := by
  obtain ⟨rfl, hfits, hpassed, hmid⟩ := hfirst.done mid rfl
  have hstart : g.node? start = some .folder := hpassed start (by simp [Path.passed])
  have hvisited : Path.visited start (segment :: rest) =
      start :: Path.visited (Path.reached start [segment]) rest := rfl
  have hhead : Path.reached start [segment] ∈ Path.visited (Path.reached start [segment]) rest := by
    cases rest <;> simp [Path.visited, Path.passed, Path.reached]
  refine ⟨.trans (hfirst.grown.mono fun w hw => ?_) (hrest.grown.mono fun w hw => ?_), ?_, ?_, ?_⟩
  · have hw : w = start ∨ w = Path.reached start [segment] := by
      simpa [Path.visited, Path.passed] using hw
    rcases hw with rfl | rfl
    · simp [hvisited]
    · simp [hvisited, hhead]
  · simp [hvisited, hw]
  · rw [hrest.grown.stays hstart, ← hstart, hfirst.anchored]
  · rintro place rfl
    obtain ⟨hplace, hfitsRest, hpassedRest, hfolder⟩ := hrest.done place rfl
    refine ⟨hplace, List.forall_mem_cons.mpr ⟨hfits segment (by simp), hfitsRest⟩,
      List.forall_mem_cons.mpr ⟨hrest.grown.stays hstart, hpassedRest⟩, fun _ => ?_⟩
    cases rest with
    | nil => exact hplace ▸ hrest.grown.stays (hmid (by simp))
    | cons next others => exact hfolder (by simp)
  · intro _ hall hfree
    refine hrest.free (hmid (by simp)) (List.forall_mem_cons.mp hall).2 fun w hw c hc => ?_
    exact hfree w (by simp [hvisited, hw]) c (hfirst.grown.file hc)

theorem Walked.stopped {start : Location} {segment : String} {rest : List String} {fault : IoFault}
    (hfirst : Walked start [segment] f (.error fault) g) :
    Walked start (segment :: rest) f (.error fault) g := by
  have hsub : ∀ w ∈ Path.visited start [segment], w ∈ Path.visited start (segment :: rest) := by
    intro w hw
    have hw : w = start ∨ w = Path.onward start segment := by
      simpa [Path.visited, Path.passed, Path.reached] using hw
    rcases hw with rfl | rfl
    · simp [Path.visited, Path.passed]
    · cases rest <;> simp [Path.visited, Path.passed, Path.reached]
  refine ⟨hfirst.grown.mono hsub, hfirst.anchored, fun _ h => (by cases h), ?_⟩
  intro hfolder hall hfree
  exact hfirst.free hfolder (by simpa using hall segment (by simp))
    fun w hw => hfree w (hsub w hw)

theorem walked_foldlM (segments : List String) (start : Location) (f : Files) :
    Walked start segments f ((segments.foldlM enter start : FileWork Location).exec f).1
      ((segments.foldlM enter start : FileWork Location).exec f).2 := by
  induction segments generalizing start f with
  | nil =>
    refine ⟨.refl _ f, rfl, ?_, fun _ _ _ => ⟨_, rfl⟩⟩
    rintro _ ⟨⟩
    exact ⟨rfl, by simp, by simp [Path.passed], fun h => absurd rfl h⟩
  | cons segment rest ih =>
    have hfirst := walked_enter start segment (f := f)
    rw [List.foldlM_cons, exec_bind]
    cases henter : (enter start segment).exec f with
    | mk r g =>
      rw [henter] at hfirst
      cases r with
      | error fault => exact hfirst.stopped
      | ok mid => exact hfirst.cons (ih mid g)

/-! ## Making sure of a path -/

/-- What making sure of a path has done. If it succeeded, something is at the path, and only
folders are on the way; and it succeeds if the path is sane and no file is in the way. -/
structure Ensured (path : String) (f : Files) (r : Except IoFault Unit) (g : Files) : Prop where
  grown : f.Grown (· ∈ Path.visited (Files.start path) (Path.segments path)) g
  anchored : g.node? (Files.start path) = f.node? (Files.start path)
  done : r = .ok () → ∃ n, g.look path = .ok n
  free : Path.Sane path → f.node? (Files.start path) = some .folder →
    (∀ w ∈ Path.visited (Files.start path) (Path.segments path), ∀ c,
      f.node? w ≠ some (.file c)) → r = .ok ()

theorem ensured {path : String} (hpath : path ≠ "") :
    Ensured path f ((ensureFolder path).exec f).1 ((ensureFolder path).exec f).2 := by
  have hstays : ∀ r : Except IoFault Unit, (r = .ok () → ∃ n, f.look path = .ok n) →
      (Path.Sane path → (∀ w ∈ Path.way path, ∀ c, f.node? w ≠ some (.file c)) → r = .ok ()) →
      Ensured path f r f := fun r hdone hfree =>
    ⟨.refl _ f, rfl, hdone, fun hsane _ hnot =>
      hfree hsane fun w hw => hnot w (List.mem_append_left _ hw)⟩
  unfold ensureFolder
  rw [if_neg hpath, exec_get_bind]
  split
  next n hlook => exact hstays _ (fun _ => ⟨n, hlook⟩) (fun _ _ => rfl)
  next hlook =>
    obtain ⟨htext, hshort⟩ := Files.text_of_notFound hpath hlook
    have hwalked := walked_foldlM (Path.segments path) (Files.start path) f
    rw [exec_discard]
    cases hr : ((Path.segments path).foldlM enter (Files.start path)).exec f with
    | mk r g =>
      rw [hr] at hwalked
      cases r with
      | ok place =>
        obtain ⟨rfl, hfits, hway, hfolder⟩ := hwalked.done place rfl
        refine ⟨hwalked.grown, hwalked.anchored, fun _ => ⟨.folder, ?_⟩, fun _ _ _ => rfl⟩
        exact Files.look_eq_ok.mpr
          ⟨⟨htext, hpath, hshort, hfits⟩, hway, hfolder (Path.segments_ne_nil path)⟩
      | error fault =>
        refine ⟨hwalked.grown, hwalked.anchored, fun h => (by cases h), ?_⟩
        intro hsane hstart hnot
        obtain ⟨place, h⟩ := hwalked.free hstart hsane.fits hnot
        cases h
  next fault hfault hlook =>
    refine hstays _ (fun h => (by cases h)) fun hsane hnot => ?_
    exact absurd (Files.fault_of_free hsane hnot hlook) hfault

end FileWork

end JarDerivation
