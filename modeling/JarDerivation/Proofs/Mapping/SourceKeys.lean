-- A tree by its source names. Files that are joined on the source column find a class
-- by its source name, and a member with a descriptor by its source name and that. What
-- such a join does to a column can be told by these keys alone, whatever rows they have.
import JarDerivation.Proofs.Mapping.ClassJoin
import JarDerivation.Proofs.Mapping.FileJoin
import JarDerivation.Proofs.Mapping.UniqueNames

namespace JarDerivation

/-! ## The plan -/

namespace JoinPlan

/-- The plan of a file that is joined on its first column to the source column, without
conditions. -/
structure OnSource (p : JoinPlan) : Prop where
  keyCol : p.keyCol = 0
  keyFileCol : p.keyFileCol = 0
  noSkip : p.skipCols = []
  unfiltered : p.filtered = false
  others : ∀ j col, (j, col) ∈ p.columns → col ≠ 0

/-- The columns of the file that are written to a column of the tree. -/
def into (p : JoinPlan) (col : Nat) : List Nat := (p.columns.filter (·.2 == col)).map (·.1)

theorem mem_into {p : JoinPlan} {j col : Nat} : j ∈ p.into col ↔ (j, col) ∈ p.columns := by
  unfold into
  simp

theorem cell_eq_foldl (p : JoinPlan) (names : Names) (col : Nat) (old : Option String) :
    p.cell names col old = (p.into col).foldl (fun old j => (names.at? j).or old) old := by
  unfold cell into
  generalize p.columns = cols
  induction cols generalizing old with
  | nil => rfl
  | cons c rest ih =>
    obtain ⟨j, k⟩ := c
    rw [List.foldl_cons]
    by_cases hk : k = col
    · simp only [if_pos hk]
      rw [ih, List.filter_cons_of_pos (by simpa using hk), List.map_cons, List.foldl_cons]
    · simp only [if_neg hk]
      rw [ih, List.filter_cons_of_neg (by simpa using hk)]

end JoinPlan

namespace MappingTree

/-! ## Classes by their source names -/

/-- The name in a column of the class with a source name. -/
def nameOf (t : MappingTree) (col : Nat) (source : String) : Option String :=
  (t.findClass source 0).bind (t.className · col)

/-- The members of the class with a source name. -/
def membersOf (t : MappingTree) (source : String) (kind : MemberKind) : List MemberRow :=
  ((t.findClass source 0).bind (membersIn t.classes · kind)).getD []

/-- Each class has a source name of its own. -/
structure Anchored (t : MappingTree) : Prop where
  unshared : t.Unshared 0
  sourced : ∀ row < t.classes.length, ∃ source, t.className row 0 = some source

variable {t t' : MappingTree} {p : JoinPlan} {row col : Nat} {source : String}

theorem anchored_empty : empty.Anchored := ⟨unshared_empty 0, nofun⟩

theorem Anchored.findClass_eq_some (h : t.Anchored) :
    t.findClass source 0 = some row ↔ t.className row 0 = some source := by
  refine ⟨fun hfind => ?_, h.unshared.findClass⟩
  rw [h.unshared.indexed] at hfind
  exact (firstHolder_eq_some.mp hfind).1

theorem Anchored.congr (h : t.Anchored) (hindexed : t'.Indexed)
    (hlen : t'.classes.length ≤ t.classes.length)
    (hnames : ∀ row, t'.className row 0 = t.className row 0) : t'.Anchored := by
  refine ⟨h.unshared.congr hindexed hnames, fun row hrow => ?_⟩
  rw [hnames]
  exact h.sourced row (by omega)

theorem isSome_membersIn (t : MappingTree) (row : Nat) (kind : MemberKind) :
    (membersIn t.classes row kind).isSome ↔ row < t.classes.length := by
  unfold membersIn
  rw [Option.isSome_map, isSome_getElem?]

/-- Trees with the same names in a column have the same look-ups in it. -/
theorem findClass_congr (h : t.Indexed) (h' : t'.Indexed)
    (hnames : ∀ row, t'.className row col = t.className row col) (name : String) :
    t'.findClass name col = t.findClass name col := by
  rw [h, h']
  exact firstHolder_congr hnames name

/-! ## A new class -/

/-- A class with a source name is at a row; it is new there, or was there before. -/
structure Enters (t : MappingTree) (source : String) (row : Nat) (t' : MappingTree) : Prop where
  anchored : t'.Anchored
  finds : ∀ other, t'.findClass other 0 = if other = source then some row else t.findClass other 0
  fresh : ∀ old, t.findClass source 0 = some old → old = row
  members : ∀ other kind, t'.membersOf other kind = t.membersOf other kind

/-- A source name that is new gets a row, and the others keep theirs. -/
theorem Anchored.addClass_new (h : t.Anchored) (hf : t.findClass source 0 = none) :
    (t.addClass source).2.Anchored ∧ ∀ other, (t.addClass source).2.findClass other 0 =
      if other = source then some t.classes.length else t.findClass other 0 := by
  obtain ⟨_, _, hlen, hnames, _⟩ := MappingTree.addClass_new hf
  have hanchored : (t.addClass source).2.Anchored := by
    refine ⟨h.unshared.addClass source, fun row hlt => ?_⟩
    rw [className_eq_nameIn, hnames]
    split
    · exact ⟨source, rfl⟩
    · exact h.sourced row (by omega)
  refine ⟨hanchored, fun other => ?_⟩
  split
  · rename_i hother
    rw [hanchored.findClass_eq_some, className_eq_nameIn, hnames, hother, if_pos ⟨rfl, rfl⟩]
  · rename_i hother
    refine Option.ext fun row => ?_
    rw [hanchored.findClass_eq_some, h.findClass_eq_some, className_eq_nameIn, hnames]
    split
    · rename_i hnew
      rw [hnew.1, className_eq_nameIn, nameIn_eq_none (Nat.le_refl _)]
      simp [Ne.symm hother]
    · rfl

theorem Anchored.addClass (h : t.Anchored) (source : String) :
    Enters t source (t.addClass source).1 (t.addClass source).2 ∧
      ∀ col ≠ 0, (t.addClass source).2.nameOf col = t.nameOf col := by
  cases hf : t.findClass source 0 with
  | some row =>
    have hadd : t.addClass source = (row, t) := by
      unfold MappingTree.addClass
      rw [hf]
    rw [hadd]
    refine ⟨⟨h, fun other => ?_, fun old hold => ?_, fun _ _ => rfl⟩, fun _ _ => rfl⟩
    · split
      · rename_i hother
        rw [hother, hf]
      · rfl
    · rw [hf] at hold
      exact (Option.some.inj hold).symm
  | none =>
    obtain ⟨hrow, _, _, hnames, hmembers⟩ := MappingTree.addClass_new hf
    obtain ⟨hanchored, hfinds⟩ := h.addClass_new hf
    rw [hrow]
    refine ⟨⟨hanchored, hfinds, fun old hold => ?_, fun other kind => ?_⟩, fun col hcol => ?_⟩
    · rw [hf] at hold
      cases hold
    · unfold membersOf
      rw [hfinds]
      split
      · rename_i hother
        rw [hother, hf, Option.bind_some, hmembers, if_pos rfl]
        rfl
      · congr 1
        refine Option.bind_congr fun row hfound => ?_
        rw [hmembers, if_neg]
        exact Nat.ne_of_lt (lt_of_className (h.findClass_eq_some.mp hfound))
    · funext other
      unfold nameOf
      rw [hfinds]
      split
      · rename_i hother
        rw [hother, hf, Option.bind_some, className_eq_nameIn, hnames,
          if_neg fun heq => hcol heq.2, nameIn_eq_none (Nat.le_refl _)]
        rfl
      · simp only [className_eq_nameIn, hnames, hcol, and_false, if_false]

/-! ## The names that classes claim -/

/-- A class may take a name if names may be shared or no other class has it. -/
def Free (shared : Bool) (names : String → Option String) (source name : String) : Prop :=
  shared = true ∨ ∀ other, names other = some name → other = source

open Classical in
/-- The names of a column, by source names, after a class has claimed one. -/
noncomputable def claim (shared : Bool) (names : String → Option String) (source name : String) :
    String → Option String :=
  if Free shared names source name then Function.update names source (some name) else names

/-- The names of a column after an entry has claimed those that it has in columns of the file. -/
noncomputable def claimAll (shared : Bool) (js : List Nat) (names : String → Option String)
    (e : ClassEntry) : String → Option String :=
  match e.names.at? 0 with
  | none => names
  | some source => js.foldl (fun names j =>
      match e.names.at? j with
      | some name => claim shared names source name
      | none => names) names

/-- Entries claim no names in a column that they have no columns for. -/
theorem foldl_claimAll_nil (shared : Bool) (es : List ClassEntry)
    (names : String → Option String) : es.foldl (claimAll shared []) names = names := by
  refine List.foldlRecOn (motive := (· = names)) es _ rfl fun before hbefore e _ => ?_
  rw [← hbefore]
  unfold claimAll
  cases e.names.at? 0 <;> rfl

theorem Anchored.renameClass (h : t.Anchored) (row : Nat) (hcol : col ≠ 0) (name : Option String)
    (shared : Bool) :
    (t.renameClass row col name shared).2.Anchored ∧
      ∀ other, (t.renameClass row col name shared).2.findClass other 0 = t.findClass other 0 := by
  have hindexed := indexed_renameClass h.unshared.indexed row col name shared
  have hnames : ∀ k, (t.renameClass row col name shared).2.className k 0 = t.className k 0 := by
    intro k
    rw [className_eq_nameIn, nameIn_renameClass, if_neg fun heq => hcol heq.2.2.symm]
    rfl
  exact ⟨h.congr hindexed (Nat.le_of_eq (frame_renameClass t row col name shared).2.1) hnames,
    findClass_congr h.unshared.indexed hindexed hnames⟩

/-- A name is set just when the class may take it. -/
theorem Anchored.renameClass_iff (h : t.Anchored) {shared : Bool}
    (hrow : t.findClass source 0 = some row) (hcol : shared = false → t.Unshared col)
    (name : String) :
    (t.renameClass row col (some name) shared).1 = true ↔
      Free shared (t.nameOf col) source name := by
  rcases renameClass_cases t row col (some name) shared with
    ⟨hnone, _⟩ | ⟨_, n, owner, _, hshared, hn, howner, hne, heq⟩ | ⟨_, _, hfree, heq⟩
  · have hlt := lt_of_className (h.findClass_eq_some.mp hrow)
    exact absurd (List.getElem?_eq_none_iff.mp hnone) (by omega)
  · cases hn
    rw [heq]
    refine ⟨nofun, ?_⟩
    rintro (hshared' | hfree)
    · rw [hshared] at hshared'
      cases hshared'
    · rw [h.unshared.indexed] at howner
      have hheld : t.className owner col = some name := (firstHolder_eq_some.mp howner).1
      obtain ⟨other, hother⟩ := h.sourced owner (lt_of_className hheld)
      have hfound := h.findClass_eq_some.mpr hother
      have hsame : other = source := hfree other <| by
        unfold nameOf
        rw [hfound]
        exact hheld
      rw [hsame, hrow] at hfound
      exact absurd (Option.some.inj hfound).symm hne
  · rw [heq]
    refine ⟨fun _ => ?_, fun _ => rfl⟩
    cases shared with
    | true => exact Or.inl rfl
    | false =>
      refine Or.inr fun other hother => ?_
      obtain ⟨k, hk, hname⟩ := Option.bind_eq_some_iff.mp hother
      obtain rfl := hfree rfl name k rfl ((hcol rfl).findClass hname)
      rw [h.findClass_eq_some] at hk hrow
      exact Option.some.inj (hk.symm.trans hrow)

theorem Anchored.nameOf_renameClass (h : t.Anchored) {shared : Bool}
    (hrow : t.findClass source 0 = some row) (hcol : col ≠ 0)
    (hunshared : shared = false → t.Unshared col) (name : String) :
    (t.renameClass row col (some name) shared).2.nameOf col =
      claim shared (t.nameOf col) source name := by
  have hiff := h.renameClass_iff hrow hunshared name
  have hfinds := (h.renameClass row hcol (some name) shared).2
  have hcells : ∀ k, (t.renameClass row col (some name) shared).2.className k col =
      if (t.renameClass row col (some name) shared).1 = true ∧ k = row then some name
      else t.className k col := by
    intro k
    rw [className_eq_nameIn, nameIn_renameClass]
    simp only [and_true]
    rfl
  funext other
  unfold claim
  by_cases hfree : Free shared (t.nameOf col) source name
  · rw [if_pos hfree, Function.update_apply]
    unfold nameOf
    rw [hfinds]
    split
    · rename_i hother
      rw [hother, hrow, Option.bind_some, hcells, if_pos ⟨hiff.mpr hfree, rfl⟩]
    · rename_i hother
      refine Option.bind_congr fun k hk => ?_
      rw [hcells, if_neg]
      rintro ⟨_, rfl⟩
      rw [h.findClass_eq_some] at hk hrow
      exact hother (Option.some.inj (hk.symm.trans hrow))
  · rw [if_neg hfree]
    unfold nameOf
    rw [hfinds]
    refine Option.bind_congr fun k _ => ?_
    rw [hcells, if_neg fun heq => hfree (hiff.mp heq.1)]

/-! ## Joining classes -/

/-- Writing the names of an entry leaves source names and members as they are. -/
theorem Enters.nameClass {s : MappingTree} (h : Enters t source row s) (hp : p.OnSource) (k : Nat)
    (e : ClassEntry) : Enters t source row (s.nameClass p k e) := by
  refine nameClass_induction h fun u j col name hmem hu => ?_
  obtain ⟨hanchored, hfinds⟩ :=
    hu.anchored.renameClass k (hp.others j col hmem) (some name) p.allowDuplicates
  refine ⟨hanchored, fun other => (hfinds other).trans (hu.finds other), hu.fresh,
    fun other kind => ?_⟩
  rw [← hu.members]
  unfold membersOf
  rw [hfinds]
  simp only [(frame_renameClass u k col (some name) p.allowDuplicates).2.2]

theorem Anchored.nameOf_nameClass (h : t.Anchored) (hp : p.OnSource) {e : ClassEntry}
    (hsource : e.names.at? 0 = some source) (hrow : t.findClass source 0 = some row)
    (hcol : col ≠ 0)
    (hunshared : p.into col ≠ [] → p.allowDuplicates = false → t.Unshared col) :
    (t.nameClass p row e).nameOf col =
      claimAll p.allowDuplicates (p.into col) (t.nameOf col) e := by
  have hothers := hp.others
  unfold nameClass claimAll
  unfold JoinPlan.into at hunshared ⊢
  simp only [hsource]
  generalize p.columns = cols at hothers hunshared
  induction cols generalizing t with
  | nil => rfl
  | cons c rest ih =>
    obtain ⟨j, k⟩ := c
    have hrest := fun i k' hmem => hothers i k' (List.mem_cons_of_mem _ hmem)
    have hk := hothers j k List.mem_cons_self
    rw [List.foldl_cons]
    by_cases hsame : k = col
    · subst hsame
      rw [List.filter_cons_of_pos (by simp), List.map_cons] at hunshared ⊢
      have hnow := hunshared (List.cons_ne_nil _ _)
      simp only [List.foldl_cons]
      cases hname : e.names.at? j with
      | none => exact ih h hrow hrest fun _ => hnow
      | some name =>
        simp only
        obtain ⟨hanchored, hfinds⟩ := h.renameClass row hk (some name) p.allowDuplicates
        rw [← h.nameOf_renameClass hrow hk hnow]
        exact ih hanchored ((hfinds source).trans hrow) hrest
          fun _ hshared => (hnow hshared).renameClass row k _ fun _ => hshared
    · rw [List.filter_cons_of_neg (by simpa using hsame)] at hunshared ⊢
      cases hname : e.names.at? j with
      | none => exact ih h hrow hrest hunshared
      | some name =>
        simp only
        obtain ⟨hanchored, hfinds⟩ := h.renameClass row hk (some name) p.allowDuplicates
        have hother : (t.renameClass row k (some name) p.allowDuplicates).2.nameOf col =
            t.nameOf col := by
          funext other
          unfold nameOf
          rw [hfinds]
          simp only [className_eq_nameIn, nameIn_renameClass, Ne.symm hsame, and_false, if_false]
        rw [← hother]
        exact ih hanchored ((hfinds source).trans hrow) hrest
          fun hne hshared => (hunshared hne hshared).renameClass row k _ fun heq => absurd heq hsame

/-- An entry goes to the row of its source name, which is added if need be. -/
theorem joinClass_onSource (hp : p.OnSource) {e : ClassEntry}
    (hsource : e.names.at? 0 = some source) (t : MappingTree) :
    t.joinClass p e = (some (t.addClass source).1,
      (t.addClass source).2.nameClass p (t.addClass source).1 e) := by
  have hplace : t.placeClass p e = some (t.addClass source) := by
    unfold placeClass
    rw [hp.keyFileCol, hsource, hp.keyCol, hp.unfiltered]
    simp only [Option.bind_eq_bind, Option.bind_some, Bool.false_eq_true, if_false, if_true]
    cases hf : t.findClass source 0 with
    | some row =>
      unfold addClass
      rw [hf]
      rfl
    | none => rfl
  unfold joinClass
  rw [hplace, hp.noSkip]
  rfl

/-- An entry without a source name is passed over. -/
theorem joinClass_unnamed (hp : p.OnSource) {e : ClassEntry} (hsource : e.names.at? 0 = none)
    (t : MappingTree) : t.joinClass p e = (none, t) := by
  have hplace : t.placeClass p e = none := by
    unfold placeClass
    rw [hp.keyFileCol, hsource]
    rfl
  unfold joinClass
  rw [hplace]

theorem Anchored.nameOf_joinClass (h : t.Anchored) (hp : p.OnSource) (hcol : col ≠ 0)
    (hunshared : p.into col ≠ [] → p.allowDuplicates = false → t.Unshared col) (e : ClassEntry) :
    (t.joinClass p e).2.nameOf col =
      claimAll p.allowDuplicates (p.into col) (t.nameOf col) e := by
  cases hsource : e.names.at? 0 with
  | none =>
    rw [joinClass_unnamed hp hsource]
    unfold claimAll
    rw [hsource]
  | some source =>
    obtain ⟨hadded, hnames⟩ := h.addClass source
    rw [joinClass_onSource hp hsource, ← hnames col hcol]
    refine hadded.anchored.nameOf_nameClass hp hsource ?_ hcol
      fun hne hshared => (hunshared hne hshared).addClass source
    rw [hadded.finds, if_pos rfl]

/-- The row of an entry, by its source name. -/
def rowFor (t : MappingTree) (e : ClassEntry) : Option Nat :=
  (e.names.at? 0).bind (t.findClass · 0)

/-- Class entries have been joined: each source name has a row, and no members have come. -/
structure Listed (t : MappingTree) (es : List ClassEntry) (s : ClassJoin) : Prop where
  anchored : s.tree.Anchored
  keeps : ∀ source row, t.findClass source 0 = some row → s.tree.findClass source 0 = some row
  finds : ∀ source, (s.tree.findClass source 0).isSome ↔
    (t.findClass source 0).isSome ∨ ∃ e ∈ es, e.names.at? 0 = some source
  rows : s.rows = es.map s.tree.rowFor
  members : ∀ source kind, s.tree.membersOf source kind = t.membersOf source kind

theorem joinClasses_concat (t : MappingTree) (p : JoinPlan) (es : List ClassEntry)
    (e : ClassEntry) : t.joinClasses p (es ++ [e]) = joinNextClass p (t.joinClasses p es) e := by
  unfold joinClasses
  rw [List.foldl_append]
  rfl

theorem Anchored.joinClasses (h : t.Anchored) (hp : p.OnSource) (es : List ClassEntry) :
    Listed t es (t.joinClasses p es) := by
  induction es using List.reverseRecOn with
  | nil => exact ⟨h, fun _ _ => id, fun _ => by simp [MappingTree.joinClasses], rfl, fun _ _ => rfl⟩
  | append_singleton es e ih =>
    rw [joinClasses_concat]
    unfold joinNextClass
    generalize t.joinClasses p es = s at ih
    cases hsource : e.names.at? 0 with
    | none =>
      rw [joinClass_unnamed hp hsource]
      refine ⟨ih.anchored, ih.keeps, fun source => ?_, ?_, ih.members⟩
      · rw [ih.finds]
        simp [or_and_right, exists_or, hsource]
      · simp [ih.rows, rowFor, hsource]
    | some source =>
      obtain ⟨hadded, _⟩ := ih.anchored.addClass source
      rw [joinClass_onSource hp hsource]
      have hnext := hadded.nameClass hp (s.tree.addClass source).1 e
      generalize (s.tree.addClass source).2.nameClass p (s.tree.addClass source).1 e = u at hnext
      generalize (s.tree.addClass source).1 = row at hnext
      -- A source name that had a row keeps it.
      have hkeeps : ∀ other k, s.tree.findClass other 0 = some k →
          u.findClass other 0 = some k := by
        intro other k hk
        rw [hnext.finds]
        split
        · rename_i hother
          rw [hnext.fresh k (hother ▸ hk)]
        · exact hk
      refine ⟨hnext.anchored, fun other k hk => hkeeps other k (ih.keeps other k hk),
        fun other => ?_, ?_,
        fun other kind => (hnext.members other kind).trans (ih.members other kind)⟩
      · rw [hnext.finds]
        by_cases hother : other = source
        · simp [hother, hsource]
        · simp [hother, Ne.symm hother, ih.finds, or_and_right, exists_or, hsource]
      · have hbefore : es.map s.tree.rowFor = es.map u.rowFor := by
          refine List.map_congr_left fun e' he' => ?_
          unfold rowFor
          refine Option.bind_congr fun other hother => ?_
          obtain ⟨k, hk⟩ :=
            Option.isSome_iff_exists.mp ((ih.finds other).mpr (Or.inr ⟨e', he', hother⟩))
          rw [hk, hkeeps other k hk]
        have hlast : u.rowFor e = some row := by
          unfold rowFor
          rw [hsource, Option.bind_some, hnext.finds, if_pos rfl]
        simp only [ih.rows, hbefore, List.map_append, List.map_singleton, hlast]

/-- A column has the names that the entries claim one after the other. -/
theorem Anchored.nameOf_joinClasses (h : t.Anchored) (hp : p.OnSource) (hcol : col ≠ 0)
    (hunshared : p.into col ≠ [] → p.allowDuplicates = false → t.Unshared col)
    (es : List ClassEntry) :
    (t.joinClasses p es).tree.nameOf col =
      es.foldl (claimAll p.allowDuplicates (p.into col)) (t.nameOf col) := by
  induction es using List.reverseRecOn with
  | nil => rfl
  | append_singleton es e ih =>
    rw [joinClasses_concat, List.foldl_append, List.foldl_cons, List.foldl_nil, ← ih]
    refine (h.joinClasses hp es).anchored.nameOf_joinClass hp hcol (fun hne hshared => ?_) e
    exact (hunshared hne hshared).joinClasses (fun _ _ => hshared) es

/-! ## Members by their source names and descriptors -/

/-- Every member of a list has a descriptor. -/
def Described (ms : List MemberRow) : Prop := ∀ r ∈ ms, ∃ desc, r.srcDesc = some desc

/-- The name in a column of the member with a source name and a descriptor. -/
def lookIn (ms : List MemberRow) (name desc : String) (col : Nat) : Option String :=
  (findIn ms name 0 (some desc)).bind fun idx => (ms[idx]?).bind (·.name col)

variable {ms : List MemberRow} {m : MemberEntry} {name desc : String} {width : Nat}

theorem answersTo_some {r : MemberRow} {known : String} (hknown : r.srcDesc = some known) :
    AnswersTo r name 0 (some desc) ↔ r.name 0 = some name ∧ known = desc := by
  unfold AnswersTo
  rw [hknown]
  show _ ∧ (desc == known) = true ↔ _
  rw [beq_iff_eq, @eq_comm _ desc]

/-- A member is found at one place under one name and descriptor only. -/
theorem Described.findIn_inj (h : Described ms) {name' desc' : String} {idx : Nat}
    (hfind : findIn ms name 0 (some desc) = some idx)
    (hfind' : findIn ms name' 0 (some desc') = some idx) : name = name' ∧ desc = desc' := by
  obtain ⟨⟨r, hr, hanswers⟩, _⟩ := findIn_eq_some.mp hfind
  obtain ⟨⟨r', hr', hanswers'⟩, _⟩ := findIn_eq_some.mp hfind'
  rw [hr] at hr'
  cases hr'
  obtain ⟨known, hknown⟩ := h r (List.mem_of_getElem? hr)
  obtain ⟨hname, rfl⟩ := (answersTo_some hknown).mp hanswers
  obtain ⟨hname', rfl⟩ := (answersTo_some hknown).mp hanswers'
  exact ⟨Option.some.inj (hname.symm.trans hname'), rfl⟩

theorem findIn_modify {f : MemberRow → MemberRow} (hname : ∀ r, (f r).name 0 = r.name 0)
    (hdesc : ∀ r, (f r).srcDesc = r.srcDesc) (ms : List MemberRow) (idx : Nat) (name : String)
    (srcDesc : Option String) :
    findIn (ms.modify idx f) name 0 srcDesc = findIn ms name 0 srcDesc := by
  unfold findIn
  induction ms generalizing idx with
  | nil => simp
  | cons r rest ih =>
    cases idx with
    | zero => rw [List.modify_zero_cons, List.findIdx?_cons, List.findIdx?_cons, hname, hdesc]
    | succ idx => rw [List.modify_succ_cons, List.findIdx?_cons, List.findIdx?_cons, ih]

theorem findIn_concat (ms : List MemberRow) (r : MemberRow) (name : String)
    (srcDesc : Option String) :
    findIn (ms ++ [r]) name 0 srcDesc = (findIn ms name 0 srcDesc).or
      (if r.name 0 == some name && descAgrees srcDesc r.srcDesc then some ms.length else none) := by
  unfold findIn
  rw [List.findIdx?_append, List.findIdx?_singleton]
  split <;> simp

/-- What an entry does to the name of a member: it brings its names from columns of the file,
if it has the source name and the descriptor. -/
def bring (js : List Nat) (name desc : String) (old : Option String) (m : MemberEntry) :
    Option String :=
  if m.names.at? 0 = some name ∧ m.desc = some desc then
    js.foldl (fun old j => (m.names.at? j).or old) old
  else old

theorem foldl_bring_nil (name desc : String) (es : List MemberEntry) (old : Option String) :
    es.foldl (bring [] name desc) old = old :=
  List.foldlRecOn (motive := (· = old)) es _ rfl fun _ hbefore _ _ => (ite_self _).trans hbefore

/-- An entry changes the first member with its source name and its descriptor, or adds one. -/
theorem joinIn_onSource (hp : p.OnSource) {key : String} (hkey : m.names.at? 0 = some key)
    (srcDesc : Option String) :
    (∃ idx, findIn ms key 0 srcDesc = some idx ∧
        joinIn p width ms m srcDesc = ms.modify idx (nameMember p m)) ∨
      (findIn ms key 0 srcDesc = none ∧
        joinIn p width ms m srcDesc = ms ++ [nameMember p m (memberRow width key srcDesc)]) := by
  cases hfind : findIn ms key 0 srcDesc with
  | some idx =>
    have hplace : placeIn p width ms m srcDesc = some (idx, ms) := by
      unfold placeIn
      rw [hp.keyFileCol, hkey, hp.keyCol]
      simp [hfind]
    obtain ⟨⟨r, hr, _⟩, _⟩ := findIn_eq_some.mp hfind
    refine Or.inl ⟨idx, rfl, ?_⟩
    unfold joinIn
    rw [hplace]
    simp only [hr, hp.noSkip, List.any_nil, Bool.false_eq_true, if_false]
  | none =>
    have hplace : placeIn p width ms m srcDesc =
        some (ms.length, ms ++ [memberRow width key srcDesc]) := by
      unfold placeIn addIn
      rw [hp.keyFileCol, hkey, hp.keyCol, hp.unfiltered]
      simp [hfind]
    refine Or.inr ⟨rfl, ?_⟩
    unfold joinIn
    rw [hplace]
    simp only [List.getElem?_concat_length, hp.noSkip, List.any_nil, Bool.false_eq_true, if_false]
    rw [modify_concat]

/-- An entry without a source name is passed over. -/
theorem joinIn_unnamed (hp : p.OnSource) (hkey : m.names.at? 0 = none) (srcDesc : Option String) :
    joinIn p width ms m srcDesc = ms := by
  unfold joinIn placeIn
  rw [hp.keyFileCol, hkey]
  rfl

/-- Entries have been joined to a list of members that are known by source name and descriptor. -/
structure Filled (p : JoinPlan) (ms : List MemberRow) (es : List MemberEntry)
    (ms' : List MemberRow) : Prop where
  described : Described ms'
  finds : ∀ name desc, (findIn ms' name 0 (some desc)).isSome ↔
    (findIn ms name 0 (some desc)).isSome ∨
      ∃ m ∈ es, m.names.at? 0 = some name ∧ m.desc = some desc
  names : ∀ name desc, ∀ col ≠ 0, lookIn ms' name desc col =
    es.foldl (bring (p.into col) name desc) (lookIn ms name desc col)

/-- An entry leaves the source name of a member as it is. -/
theorem nameMember_zero (hp : p.OnSource) (m : MemberEntry) (r : MemberRow) :
    (nameMember p m r).name 0 = r.name 0 :=
  nameMember_name_ne (fun j hmem => hp.others j 0 hmem rfl) m r

theorem name_nameMember_into (m : MemberEntry) (r : MemberRow) (col : Nat) :
    (nameMember p m r).name col =
      (p.into col).foldl (fun old j => (m.names.at? j).or old) (r.name col) := by
  rw [name_nameMember_cell, JoinPlan.cell_eq_foldl]

section Entry

variable {key known : String} (hkey : m.names.at? 0 = some key) (hknown : m.desc = some known)
include hkey hknown

theorem own_iff : m.names.at? 0 = some name ∧ m.desc = some desc ↔ key = name ∧ known = desc := by
  rw [hkey, hknown, Option.some.injEq, Option.some.injEq]

/-- An entry whose member is there changes that member. -/
theorem Described.filled_modify (h : Described ms) (hp : p.OnSource) {idx : Nat}
    (hfind : findIn ms key 0 (some known) = some idx) :
    Filled p ms [m] (ms.modify idx (nameMember p m)) := by
  have hsame := findIn_modify (nameMember_zero hp m) (nameMember_srcDesc p m) ms idx
  refine ⟨fun r hr => ?_, fun name desc => ?_, fun name desc col _ => ?_⟩
  · obtain ⟨k, hk⟩ := List.mem_iff_getElem?.mp hr
    rw [List.getElem?_modify] at hk
    obtain ⟨old, hold, rfl⟩ := Option.map_eq_some_iff.mp hk
    obtain ⟨desc, hdesc⟩ := h old (List.mem_of_getElem? hold)
    refine ⟨desc, ?_⟩
    split
    · rw [nameMember_srcDesc, hdesc]
    · exact hdesc
  · rw [hsame]
    simp only [List.mem_singleton, exists_eq_left, own_iff hkey hknown]
    refine ⟨Or.inl, ?_⟩
    rintro (hfound | ⟨rfl, rfl⟩)
    · exact hfound
    · rw [hfind]
      rfl
  · rw [List.foldl_cons, List.foldl_nil]
    unfold bring lookIn
    rw [hsame]
    simp only [own_iff hkey hknown, List.getElem?_modify]
    split
    · rename_i hown
      rw [← hown.1, ← hown.2, hfind]
      obtain ⟨⟨r, hr, _⟩, _⟩ := findIn_eq_some.mp hfind
      simp [hr, name_nameMember_into]
    · rename_i hother
      refine Option.bind_congr fun k hk => ?_
      have hne : idx ≠ k := by
        rintro rfl
        exact hother (h.findIn_inj hfind hk)
      simp [hne]

/-- An entry whose member is not there yet adds it at the end. -/
theorem Described.filled_concat (h : Described ms) (hp : p.OnSource) (width : Nat)
    (hfind : findIn ms key 0 (some known) = none) :
    Filled p ms [m] (ms ++ [nameMember p m (memberRow width key (some known))]) := by
  have hrow : (nameMember p m (memberRow width key (some known))).srcDesc = some known :=
    nameMember_srcDesc p m _
  have hname : (nameMember p m (memberRow width key (some known))).name 0 = some key := by
    rw [nameMember_zero hp, name_memberRow, if_pos rfl]
  have hlast : ∀ name desc, findIn (ms ++ [nameMember p m (memberRow width key (some known))])
      name 0 (some desc) = (findIn ms name 0 (some desc)).or
        (if key = name ∧ known = desc then some ms.length else none) := by
    intro name desc
    rw [findIn_concat, hname, hrow]
    simp [descAgrees, @eq_comm _ desc]
  refine ⟨fun r hr => ?_, fun name desc => ?_, fun name desc col hcol => ?_⟩
  · rcases List.mem_append.mp hr with hr | hr
    · exact h r hr
    · rw [List.mem_singleton.mp hr]
      exact ⟨known, hrow⟩
  · rw [hlast, Option.isSome_or]
    simp only [List.mem_singleton, exists_eq_left, own_iff hkey hknown]
    split <;> simp [*]
  · rw [List.foldl_cons, List.foldl_nil]
    unfold bring lookIn
    rw [hlast]
    simp only [own_iff hkey hknown]
    split
    · rename_i hown
      rw [← hown.1, ← hown.2, hfind, Option.none_or, Option.bind_some,
        List.getElem?_concat_length, Option.bind_some, name_nameMember_into, name_memberRow,
        if_neg hcol]
      rfl
    · rw [Option.or_none]
      refine Option.bind_congr fun k hk => ?_
      obtain ⟨⟨r, hr, _⟩, _⟩ := findIn_eq_some.mp hk
      rw [List.getElem?_append_left (List.getElem?_eq_some_iff.mp hr).1]

end Entry

theorem Described.joinIn (h : Described ms) (hp : p.OnSource) (hdesc : ∃ desc, m.desc = some desc)
    (width : Nat) : Filled p ms [m] (joinIn p width ms m m.desc) := by
  obtain ⟨known, hknown⟩ := hdesc
  cases hkey : m.names.at? 0 with
  | none =>
    rw [joinIn_unnamed hp hkey]
    refine ⟨h, fun name desc => by simp [hkey], fun name desc col _ => ?_⟩
    rw [List.foldl_cons, List.foldl_nil]
    unfold bring
    rw [hkey, if_neg nofun]
  | some key =>
    rcases joinIn_onSource hp hkey m.desc with ⟨idx, hfind, heq⟩ | ⟨hfind, heq⟩
    · rw [heq]
      rw [hknown] at hfind
      exact h.filled_modify hkey hknown hp hfind
    · rw [heq]
      rw [hknown] at hfind ⊢
      exact h.filled_concat hkey hknown hp width hfind

theorem Described.joinList (h : Described ms) (hp : p.OnSource) (width : Nat)
    (es : List MemberEntry) (hdesc : ∀ m ∈ es, ∃ desc, m.desc = some desc) :
    Filled p ms es (joinList p none width ms es) := by
  induction es generalizing ms with
  | nil => exact ⟨h, fun _ _ => by simp [MappingTree.joinList], fun _ _ _ _ => rfl⟩
  | cons m rest ih =>
    have hfirst := h.joinIn hp (hdesc m List.mem_cons_self) width
    have hrest := ih hfirst.described fun m' hm' => hdesc m' (List.mem_cons_of_mem _ hm')
    have hstep : MappingTree.joinList p none width ms (m :: rest) =
        MappingTree.joinList p none width (MappingTree.joinIn p width ms m m.desc) rest := by
      unfold MappingTree.joinList
      rw [List.foldl_cons]
      cases m.desc <;> rfl
    rw [hstep]
    refine ⟨hrest.described, fun name desc => ?_, fun name desc col hcol => ?_⟩
    · rw [hrest.finds, hfirst.finds, or_assoc]
      simp
    · rw [hrest.names name desc col hcol, hfirst.names name desc col hcol]
      rfl

/-! ## A join -/

/-- The member entries of the rows of a join are those of the entries with their source names. -/
theorem Anchored.entriesOf_rows (h : t.Anchored) (hrow : t.findClass source 0 = some row)
    (es : List ClassEntry) (kind : MemberKind) :
    entriesOf (es.zip (es.map t.rowFor)) row kind = entriesFor 0 source kind es := by
  have howner : ∀ e : ClassEntry, t.rowFor e = some row ↔ e.names.at? 0 = some source := by
    intro e
    unfold rowFor
    rw [Option.bind_eq_some_iff]
    constructor
    · rintro ⟨other, hother, hfound⟩
      rw [h.findClass_eq_some] at hfound hrow
      rw [hother, ← hfound, hrow]
    · exact fun hsource => ⟨source, hsource, hrow⟩
  unfold entriesOf entriesFor
  induction es with
  | nil => rfl
  | cons e rest ih =>
    rw [List.map_cons, List.zip_cons_cons, List.flatMap_cons, List.flatMap_cons, ih]
    simp only [howner]

/-- A join has given the classes and members of a tree the names of entries, by their
source names. -/
structure Receives (p : JoinPlan) (t : MappingTree) (es : List ClassEntry) (t' : MappingTree) :
    Prop where
  anchored : t'.Anchored
  classes : ∀ source, (t'.findClass source 0).isSome ↔
    (t.findClass source 0).isSome ∨ ∃ e ∈ es, e.names.at? 0 = some source
  names : ∀ col ≠ 0, (p.into col ≠ [] → p.allowDuplicates = false → t.Unshared col) →
    t'.nameOf col = es.foldl (claimAll p.allowDuplicates (p.into col)) (t.nameOf col)
  members : ∀ source kind,
    Filled p (t.membersOf source kind) (entriesFor 0 source kind es) (t'.membersOf source kind)

/-- What a join on the source column does, told by source names. -/
theorem Anchored.receives (h : t.Anchored) (hp : p.OnSource) (es : List ClassEntry)
    (hms : ∀ source kind, Described (t.membersOf source kind))
    (hdesc : ∀ e ∈ es, ∀ kind, ∀ m ∈ e.members kind, ∃ desc, m.desc = some desc)
    (hindexed : ((t.joinClasses p es).tree.joinAllMembers p none
      (es.zip (t.joinClasses p es).rows)).Indexed) :
    Receives p t es ((t.joinClasses p es).tree.joinAllMembers p none
      (es.zip (t.joinClasses p es).rows)) := by
  have hlisted := h.joinClasses hp es
  have hnames : ∀ col ≠ 0, (p.into col ≠ [] → p.allowDuplicates = false → t.Unshared col) →
      (t.joinClasses p es).tree.nameOf col =
        es.foldl (claimAll p.allowDuplicates (p.into col)) (t.nameOf col) :=
    fun col hcol hunshared => h.nameOf_joinClasses hp hcol hunshared es
  generalize t.joinClasses p es = s at hlisted hnames hindexed
  have hjoined := joined_joinAllMembers p none s.tree (es.zip s.rows)
  generalize s.tree.joinAllMembers p none (es.zip s.rows) = t' at hjoined hindexed
  have hcells : ∀ col row, t'.className row col = s.tree.className row col :=
    fun col row => hjoined.classNames col row
  have hfinds : ∀ source, t'.findClass source 0 = s.tree.findClass source 0 :=
    findClass_congr hlisted.anchored.unshared.indexed hindexed (hcells 0)
  refine ⟨?_, fun source => ?_, fun col hcol hunshared => ?_, fun source kind => ?_⟩
  · refine hlisted.anchored.congr hindexed ?_ (hcells 0)
    by_contra hlonger
    have hmore := (isSome_membersIn t' s.tree.classes.length .field).mpr (by omega)
    rw [hjoined.members, Option.isSome_map, isSome_membersIn] at hmore
    exact Nat.lt_irrefl _ hmore
  · rw [hfinds, hlisted.finds]
  · rw [← hnames col hcol hunshared]
    funext source
    unfold nameOf
    rw [hfinds]
    simp only [hcells]
  · have hlist : t'.membersOf source kind = joinList p none s.tree.namespaces.length
        (t.membersOf source kind) (entriesFor 0 source kind es) := by
      rw [← hlisted.members]
      unfold membersOf
      rw [hfinds]
      cases hrow : s.tree.findClass source 0 with
      | none =>
        have hnone : entriesFor 0 source kind es = [] := by
          refine List.flatMap_eq_nil_iff.mpr fun e he => if_neg fun hsource => ?_
          have hsome := (hlisted.finds source).mpr (Or.inr ⟨e, he, hsource⟩)
          rw [hrow] at hsome
          cases hsome
        rw [hnone]
        rfl
      | some row =>
        have hlt := lt_of_className (hlisted.anchored.findClass_eq_some.mp hrow)
        obtain ⟨ms, hms⟩ := Option.isSome_iff_exists.mp ((isSome_membersIn s.tree row kind).mpr hlt)
        rw [Option.bind_some, Option.bind_some, hjoined.members, hms, hlisted.rows,
          hlisted.anchored.entriesOf_rows hrow]
        rfl
    rw [hlist]
    refine (hms source kind).joinList hp _ _ fun m hm => ?_
    obtain ⟨e, he, hm⟩ := List.mem_flatMap.mp hm
    split at hm
    · exact hdesc e he kind m hm
    · cases hm

end MappingTree

end JarDerivation
