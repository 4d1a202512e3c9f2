-- A file joined to an empty tree. Its entries never meet a row with a name of theirs,
-- so each class gets a row of its own, each member a row in its class, and the rows
-- carry the names of the file in the columns that the plan takes in.
import JarDerivation.Proofs.Mapping.MemberJoin
import Mathlib.Data.List.Induction

namespace JarDerivation

namespace JoinPlan

/-! ## The names of an entry in the tree -/

/-- What is left of a cell when the names of an entry have been written. -/
def cell (p : JoinPlan) (names : Names) (col : Nat) (old : Option String) : Option String :=
  p.columns.foldl (fun old (j, k) => if k = col then (names.at? j).or old else old) old

/-- A column of the file that goes into a column of the tree. -/
def Takes (p : JoinPlan) (j col : Nat) : Prop := (j = 0 ∧ col = 0) ∨ (j, col) ∈ p.columns

/-- The plan of a file that is joined to an empty tree on its first column. -/
structure First (p : JoinPlan) (width : Nat) : Prop where
  keyCol : p.keyCol = 0
  keyFileCol : p.keyFileCol = 0
  noSkip : p.skipCols = []
  unfiltered : p.filtered = false
  others : ∀ j col, (j, col) ∈ p.columns → col ≠ 0
  inFile : ∀ j col, (j, col) ∈ p.columns → j < width
  apart : ∀ j j' col, (j, col) ∈ p.columns → (j', col) ∈ p.columns → j' = j

/-- The name of an entry in a column of the tree. -/
def nameAt (p : JoinPlan) (names : Names) (col : Nat) : Option String :=
  p.cell names col (if col = 0 then names.at? 0 else none)

variable {p : JoinPlan} {width : Nat} {names : Names} {j col : Nat}

theorem foldl_cell_of_notMem {cols : List (Nat × Nat)} (h : ∀ j, (j, col) ∉ cols)
    (old : Option String) :
    cols.foldl (fun old (j, k) => if k = col then (names.at? j).or old else old) old = old := by
  induction cols generalizing old with
  | nil => rfl
  | cons c rest ih =>
    obtain ⟨j', k⟩ := c
    have hk : k ≠ col := fun heq => h j' (heq ▸ List.mem_cons_self)
    rw [List.foldl_cons]
    simp only [if_neg hk]
    exact ih (fun j hj => h j (List.mem_cons_of_mem _ hj)) old

/-- A column that takes its names from one column of the file alone has its name. -/
theorem foldl_cell_of_mem {cols : List (Nat × Nat)} (hmem : (j, col) ∈ cols)
    (hone : ∀ j', (j', col) ∈ cols → j' = j) {old : Option String}
    (hold : old = none ∨ old = names.at? j) :
    cols.foldl (fun old (j, k) => if k = col then (names.at? j).or old else old) old =
      names.at? j := by
  induction cols generalizing old with
  | nil => cases hmem
  | cons c rest ih =>
    obtain ⟨j', k⟩ := c
    rw [List.foldl_cons]
    by_cases hk : k = col
    · have hj : j' = j := hone j' (hk ▸ List.mem_cons_self)
      have hcell : (names.at? j).or old = names.at? j := by
        rcases hold with rfl | rfl
        · exact Option.or_none
        · exact Option.or_self
      simp only [if_pos hk, hj, hcell]
      by_cases hrest : (j, col) ∈ rest
      · exact ih hrest (fun i hi => hone i (List.mem_cons_of_mem _ hi)) (Or.inr rfl)
      · refine foldl_cell_of_notMem (fun i hi => hrest ?_) _
        rw [← hone i (List.mem_cons_of_mem _ hi)]
        exact hi
    · simp only [if_neg hk]
      have hrest : (j, col) ∈ rest := by
        rcases List.mem_cons.mp hmem with heq | hrest
        · cases heq
          exact absurd rfl hk
        · exact hrest
      exact ih hrest (fun i hi => hone i (List.mem_cons_of_mem _ hi)) hold

theorem First.nameAt_of_takes (hp : p.First width) (h : p.Takes j col) :
    p.nameAt names col = names.at? j := by
  unfold nameAt cell
  rcases h with ⟨rfl, rfl⟩ | hmem
  · rw [if_pos rfl]
    exact foldl_cell_of_notMem (fun j hj => hp.others j 0 hj rfl) _
  · rw [if_neg (hp.others j col hmem)]
    exact foldl_cell_of_mem hmem (fun j' hj' => hp.apart j j' col hmem hj') (Or.inl rfl)

theorem First.lt_of_takes (hp : p.First width) (hwidth : 0 < width) (h : p.Takes j col) :
    j < width := by
  rcases h with ⟨rfl, _⟩ | hmem
  · exact hwidth
  · exact hp.inFile j col hmem

end JoinPlan

namespace MappingTree

variable {p : JoinPlan} {width : Nat} {t : MappingTree}

/-! ## Classes -/

/-- Two entries share no name in any column of the file. -/
def NamesApart (width : Nat) (names names' : Names) : Prop :=
  ∀ j < width, names.at? j ≠ none → names.at? j ≠ names'.at? j

/-- Names that no other row has are written to their row, and nothing else happens. -/
theorem className_nameClass {row : Nat} {e : ClassEntry} (ht : t.Indexed)
    (hrow : row < t.classes.length)
    (hfree : ∀ j col name, (j, col) ∈ p.columns → e.names.at? j = some name →
      ∀ other ≠ row, t.className other col ≠ some name) :
    (t.nameClass p row e).Indexed ∧
      (t.nameClass p row e).namespaces = t.namespaces ∧
      (t.nameClass p row e).classes.length = t.classes.length ∧
      (∀ k kind, membersIn (t.nameClass p row e).classes k kind = membersIn t.classes k kind) ∧
      ∀ k col, (t.nameClass p row e).className k col =
        if k = row then p.cell e.names col (t.className row col) else t.className k col := by
  unfold nameClass JoinPlan.cell
  generalize p.columns = cols at hfree
  induction cols generalizing t with
  | nil => exact ⟨ht, rfl, rfl, fun _ _ => rfl, fun k col => by split <;> simp [*]⟩
  | cons c rest ih =>
    obtain ⟨j, dst⟩ := c
    simp only [List.foldl_cons]
    cases hname : e.names.at? j with
    | none =>
      obtain ⟨hindexed, hns, hlen, hmembers, hcells⟩ :=
        ih ht hrow fun i col name hmem => hfree i col name (List.mem_cons_of_mem _ hmem)
      refine ⟨hindexed, hns, hlen, hmembers, fun k col => ?_⟩
      simp only [hcells, Option.none_or, ite_self]
    | some name =>
      have hset : (t.renameClass row dst (some name) p.allowDuplicates).1 = true := by
        rcases renameClass_cases t row dst (some name) p.allowDuplicates with
          ⟨hnone, _⟩ | ⟨_, _, owner, _, _, hn, howner, hne, _⟩ | ⟨_, _, _, heq⟩
        · exact absurd (List.getElem?_eq_none_iff.mp hnone) (by omega)
        · cases hn
          rw [ht, firstHolder_eq_some] at howner
          exact absurd howner.1 (hfree j dst name List.mem_cons_self hname owner hne)
        · rw [heq]
      obtain ⟨hns, hlen, hmembers⟩ := frame_renameClass t row dst (some name) p.allowDuplicates
      have hcells := nameIn_renameClass t row dst (some name) p.allowDuplicates
      simp only [hset, true_and] at hcells
      have hnext := ih (t := (t.renameClass row dst (some name) p.allowDuplicates).2)
        (indexed_renameClass ht _ _ _ _) (by omega) ?_
      · obtain ⟨hindexed, hns', hlen', hmembers', hcells'⟩ := hnext
        refine ⟨hindexed, hns'.trans hns, hlen'.trans hlen,
          fun k kind => (hmembers' k kind).trans (hmembers k kind), fun k col => ?_⟩
        refine (hcells' k col).trans ?_
        simp only [className_eq_nameIn, hcells]
        by_cases hk : k = row
        · subst hk
          by_cases hcol : dst = col
          · simp [hcol]
          · simp [hcol, Ne.symm hcol]
        · simp [hk]
      · intro i col name' hmem hname' other hne
        rw [className_eq_nameIn, hcells, if_neg fun heq => hne heq.1]
        exact hfree i col name' (List.mem_cons_of_mem _ hmem) hname' other hne

/-- A tree with a row for each class entry, in their order and without members. -/
structure Mirrors (p : JoinPlan) (es : List ClassEntry) (t : MappingTree) : Prop where
  indexed : t.Indexed
  size : t.classes.length = es.length
  names : ∀ k e, es[k]? = some e → ∀ col, t.className k col = p.nameAt e.names col
  members : ∀ k < es.length, ∀ kind, membersIn t.classes k kind = some []

theorem Mirrors.className_eq_some {es : List ClassEntry} (h : Mirrors p es t) {k col : Nat}
    {name : String} (hname : t.className k col = some name) :
    ∃ e, es[k]? = some e ∧ p.nameAt e.names col = some name := by
  cases he : es[k]? with
  | none =>
    have hlen := List.getElem?_eq_none_iff.mp he
    rw [className_eq_nameIn, nameIn_eq_none (by rw [h.size]; exact hlen)] at hname
    cases hname
  | some e => exact ⟨e, rfl, (h.names k e he col).symm.trans hname⟩

/-- No row has a name of an entry that shares none with those before it. -/
theorem Mirrors.free {es : List ClassEntry} (h : Mirrors p es t) (hp : p.First width)
    (hwidth : 0 < width) {e : ClassEntry}
    (hapart : ∀ e' ∈ es, NamesApart width e'.names e.names) {j col : Nat} {name : String}
    (hj : p.Takes j col) (hname : e.names.at? j = some name) (k : Nat) :
    t.className k col ≠ some name := by
  intro hk
  obtain ⟨e', he', hname'⟩ := h.className_eq_some hk
  rw [hp.nameAt_of_takes hj] at hname'
  refine hapart e' (List.mem_of_getElem? he') j (hp.lt_of_takes hwidth hj) ?_
    (hname'.trans hname.symm)
  rw [hname']
  exact Option.some_ne_none name

/-- An entry gets a row of its own if its first name is not there yet. -/
theorem placeClass_new (hp : p.First width) {e : ClassEntry} {key : String}
    (hkey : e.names.at? 0 = some key) (hnew : t.findClass key 0 = none) :
    t.placeClass p e = some (t.classes.length, (t.addClass key).2) := by
  unfold placeClass
  rw [hp.keyFileCol, hkey, hp.keyCol, hp.unfiltered]
  simp only [Option.bind_eq_bind, Option.bind_some, hnew, Bool.false_eq_true, if_false, if_true]
  rw [← (addClass_new hnew).1]
  rfl

/-- An entry that shares no name with those before it gets a row of its own at the end. -/
theorem Mirrors.joinClass {es : List ClassEntry} (h : Mirrors p es t) (hp : p.First width)
    {e : ClassEntry} {key : String} (hwidth : 0 < width) (hkey : e.names.at? 0 = some key)
    (hapart : ∀ e' ∈ es, NamesApart width e'.names e.names) :
    (t.joinClass p e).1 = some es.length ∧
      (t.joinClass p e).2.namespaces = t.namespaces ∧
      Mirrors p (es ++ [e]) (t.joinClass p e).2 := by
  have hnew : t.findClass key 0 = none := by
    rw [h.indexed, firstHolder_eq_none]
    exact h.free hp hwidth hapart (Or.inl ⟨rfl, rfl⟩) hkey
  obtain ⟨_, hns, hlen, hcells, hmembers⟩ := addClass_new hnew
  have hplace := placeClass_new hp hkey hnew
  rw [h.size] at hlen hplace
  have hfreeAfter : ∀ j col name, (j, col) ∈ p.columns → e.names.at? j = some name →
      ∀ other ≠ es.length, (t.addClass key).2.className other col ≠ some name := by
    intro j col name hmem hname other _
    rw [className_eq_nameIn, hcells, if_neg fun heq => hp.others j col hmem heq.2]
    exact h.free hp hwidth hapart (Or.inr hmem) hname other
  obtain ⟨hindexed, hns', hlen', hmembers', hcells'⟩ :=
    className_nameClass (indexed_addClass h.indexed key) (by omega) hfreeAfter
  have hjoin : t.joinClass p e =
      (some es.length, (t.addClass key).2.nameClass p es.length e) := by
    unfold MappingTree.joinClass
    rw [hplace]
    simp [hp.noSkip]
  rw [hjoin]
  refine ⟨rfl, hns'.trans hns, hindexed, ?_, ?_, ?_⟩
  · rw [hlen', hlen, List.length_append, List.length_singleton]
  · intro k e' hk col
    rw [hcells']
    have hold : nameIn t.classes col es.length = none := nameIn_eq_none (Nat.le_of_eq h.size) col
    by_cases hlast : k = es.length
    · subst hlast
      rw [List.getElem?_concat_length] at hk
      cases hk
      rw [if_pos rfl, className_eq_nameIn, hcells, h.size, hold]
      unfold JoinPlan.nameAt
      rw [hkey]
      simp only [true_and]
    · have hlt : k < es.length := by
        have := (List.getElem?_eq_some_iff.mp hk).1
        rw [List.length_append, List.length_singleton] at this
        omega
      rw [List.getElem?_append_left hlt] at hk
      rw [if_neg hlast, className_eq_nameIn, hcells, if_neg fun heq => hlast (heq.1.trans h.size)]
      exact h.names k e' hk col
  · intro k hk kind
    rw [hmembers', hmembers, h.size]
    split
    · rfl
    · rw [List.length_append, List.length_singleton] at hk
      exact h.members k (by omega) kind

/-- All entries of a file without shared names get a row each, in their order. -/
theorem mirrors_joinClasses {es : List ClassEntry} (hp : p.First width) (hwidth : 0 < width)
    (ht : t.Indexed) (hempty : t.classes = [])
    (hnamed : ∀ e ∈ es, ∃ key, e.names.at? 0 = some key)
    (hapart : es.Pairwise fun e e' => NamesApart width e.names e'.names) :
    (t.joinClasses p es).rows = (List.range es.length).map some ∧
      (t.joinClasses p es).tree.namespaces = t.namespaces ∧
      Mirrors p es (t.joinClasses p es).tree := by
  induction es using List.reverseRecOn with
  | nil => exact ⟨rfl, rfl, ht, by simp [joinClasses, hempty], nofun, nofun⟩
  | append_singleton es e ih =>
    rw [List.pairwise_append] at hapart
    obtain ⟨hbefore, _, hlast⟩ := hapart
    obtain ⟨hrows, hns, hmirrors⟩ :=
      ih (fun e' he' => hnamed e' (List.mem_append_left _ he')) hbefore
    obtain ⟨key, hkey⟩ := hnamed e (List.mem_append_right _ List.mem_cons_self)
    obtain ⟨hrow, hns', hmirrors'⟩ := hmirrors.joinClass hp hwidth hkey
      fun e' he' => hlast e' he' e List.mem_cons_self
    have hstep : t.joinClasses p (es ++ [e]) = joinNextClass p (t.joinClasses p es) e := by
      unfold joinClasses
      rw [List.foldl_append]
      rfl
    rw [hstep]
    refine ⟨?_, hns'.trans hns, hmirrors'⟩
    show (t.joinClasses p es).rows ++ [((t.joinClasses p es).tree.joinClass p e).1] = _
    rw [hrows, hrow, List.length_append, List.length_singleton, List.range_succ, List.map_append]
    rfl

/-! ## Members -/

/-- The row of a member entry. -/
def rowOf (p : JoinPlan) (width : Nat) (m : MemberEntry) : MemberRow :=
  nameMember p m (memberRow width ((m.names.at? 0).getD "") m.desc)

theorem name_nameMember_cell (m : MemberEntry) (r : MemberRow) (col : Nat) :
    (nameMember p m r).name col = p.cell m.names col (r.name col) := by
  unfold nameMember JoinPlan.cell
  induction p.columns generalizing r with
  | nil => rfl
  | cons c rest ih =>
    obtain ⟨j, dst⟩ := c
    rw [List.foldl_cons, List.foldl_cons, ih]
    congr 1
    cases hname : m.names.at? j with
    | none => simp [hname]
    | some name =>
      simp only [hname, MemberRow.name_setName, Option.some_or]
      by_cases hcol : dst = col
      · rw [if_pos hcol, if_pos hcol.symm]
      · rw [if_neg hcol, if_neg (Ne.symm hcol)]

theorem name_rowOf (tw : Nat) {m : MemberEntry} {key : String} (hkey : m.names.at? 0 = some key)
    (col : Nat) : (rowOf p tw m).name col = p.nameAt m.names col := by
  unfold rowOf JoinPlan.nameAt
  rw [name_nameMember_cell, name_memberRow, hkey]
  rfl

theorem srcDesc_rowOf (tw : Nat) (m : MemberEntry) : (rowOf p tw m).srcDesc = m.desc :=
  nameMember_srcDesc p m _

/-- Two members of one class differ in their first name or in their descriptor. -/
def MembersApart (m m' : MemberEntry) : Prop :=
  m.names.at? 0 = m'.names.at? 0 → m.desc ≠ m'.desc

theorem modify_concat {α : Type} (l : List α) (a : α) (f : α → α) :
    (l ++ [a]).modify l.length f = l ++ [f a] := by
  induction l with
  | nil => rfl
  | cons b rest ih =>
    rw [List.cons_append, List.length_cons, List.modify_succ_cons, ih]
    rfl

/-- The row of a member is not found under the name and the descriptor of one apart from it. -/
theorem findIn_rows_eq_none {ms : List MemberEntry} (hp : p.First width) (tw : Nat)
    (hnamed : ∀ m ∈ ms, ∃ key, m.names.at? 0 = some key)
    (hdesc : ∀ m ∈ ms, ∃ desc, m.desc = some desc) {m : MemberEntry} {key desc : String}
    (hkey : m.names.at? 0 = some key) (hd : m.desc = some desc)
    (hapart : ∀ m' ∈ ms, MembersApart m' m) :
    findIn (ms.map (rowOf p tw)) key 0 (some desc) = none := by
  unfold findIn
  rw [List.findIdx?_eq_none_iff]
  intro r hr
  obtain ⟨m', hm', rfl⟩ := List.mem_map.mp hr
  obtain ⟨key', hkey'⟩ := hnamed m' hm'
  obtain ⟨desc', hd'⟩ := hdesc m' hm'
  rw [name_rowOf tw hkey', hp.nameAt_of_takes (Or.inl ⟨rfl, rfl⟩), srcDesc_rowOf, hkey', hd']
  have hne := hapart m' hm'
  unfold MembersApart at hne
  rw [hkey', hkey, hd', hd] at hne
  by_cases hsame : key' = key
  · have hdiffer : desc ≠ desc' := fun heq => hne (congrArg some hsame) (congrArg some heq.symm)
    simp [descAgrees, hdiffer]
  · simp [hsame]

/-- A member that is not there yet gets a row at the end. -/
theorem joinIn_new (hp : p.First width) (tw : Nat) {rows : List MemberRow} {m : MemberEntry}
    {key : String} (hkey : m.names.at? 0 = some key)
    (hfree : findIn rows key 0 m.desc = none) :
    joinIn p tw rows m m.desc = rows ++ [rowOf p tw m] := by
  have hadd : addIn tw rows key m.desc =
      (rows.length, rows ++ [memberRow tw key m.desc]) := by
    unfold addIn
    rw [hfree]
  have hplace : placeIn p tw rows m m.desc =
      some (rows.length, rows ++ [memberRow tw key m.desc]) := by
    unfold placeIn
    rw [hp.keyFileCol, hkey, hp.keyCol, hp.unfiltered]
    simp only [Option.bind_eq_bind, Option.bind_some, hfree, Bool.false_eq_true, if_false, if_true,
      hadd]
    rfl
  unfold joinIn
  rw [hplace]
  simp only [List.getElem?_concat_length, hp.noSkip, List.any_nil, Bool.false_eq_true, if_false]
  rw [modify_concat]
  unfold rowOf
  rw [hkey, Option.getD_some]

/-- Members without a likeness get a row each, in their order. -/
theorem joinList_new {ms : List MemberEntry} (hp : p.First width) (tw : Nat)
    (hnamed : ∀ m ∈ ms, ∃ key, m.names.at? 0 = some key)
    (hdesc : ∀ m ∈ ms, ∃ desc, m.desc = some desc) (hapart : ms.Pairwise MembersApart) :
    joinList p none tw [] ms = ms.map (rowOf p tw) := by
  induction ms using List.reverseRecOn with
  | nil => rfl
  | append_singleton ms m ih =>
    rw [List.pairwise_append] at hapart
    obtain ⟨hbefore, _, hlast⟩ := hapart
    have hrest : ∀ m' ∈ ms, m' ∈ ms ++ [m] := fun m' => List.mem_append_left _
    obtain ⟨key, hkey⟩ := hnamed m (List.mem_append_right _ List.mem_cons_self)
    obtain ⟨desc, hd⟩ := hdesc m (List.mem_append_right _ List.mem_cons_self)
    have hrows := ih (fun m' hm' => hnamed m' (hrest m' hm'))
      (fun m' hm' => hdesc m' (hrest m' hm')) hbefore
    have hfree := findIn_rows_eq_none hp tw (fun m' hm' => hnamed m' (hrest m' hm'))
      (fun m' hm' => hdesc m' (hrest m' hm')) hkey hd
      fun m' hm' => hlast m' hm' m List.mem_cons_self
    have hstep : joinList p none tw [] (ms ++ [m]) =
        joinIn p tw (ms.map (rowOf p tw)) m m.desc := by
      unfold joinList at hrows ⊢
      rw [List.foldl_append, hrows, List.foldl_cons, List.foldl_nil]
      cases m.desc <;> rfl
    rw [hstep, joinIn_new hp tw hkey (by rw [hd]; exact hfree), List.map_append, List.map_singleton]

theorem entriesOf_cons (e : ClassEntry) (place : Option Nat) (es : List (ClassEntry × Option Nat))
    (row : Nat) (kind : MemberKind) : entriesOf ((e, place) :: es) row kind =
      (if place = some row then e.members kind else []) ++ entriesOf es row kind :=
  List.flatMap_cons

/-- The entries of a class go to the row that was added for it. -/
theorem entriesOf_zip (es : List ClassEntry) (first row : Nat) (kind : MemberKind) :
    entriesOf (es.zip ((List.range' first es.length).map some)) (first + row) kind =
      ((es[row]?).map (·.members kind)).getD [] := by
  induction es generalizing first row with
  | nil => rfl
  | cons e rest ih =>
    rw [List.length_cons, List.range'_succ, List.map_cons, List.zip_cons_cons, entriesOf_cons]
    simp only [Option.some.injEq]
    cases row with
    | zero =>
      have hothers : entriesOf (rest.zip ((List.range' (first + 1) rest.length).map some))
          (first + 0) kind = [] := by
        unfold entriesOf
        rw [List.flatMap_eq_nil_iff]
        rintro ⟨e', row'⟩ hmem
        obtain ⟨k, hk, rfl⟩ := List.mem_map.mp (List.of_mem_zip hmem).2
        have hle := (List.mem_range'_1.mp hk).1
        simp only [Option.some.injEq]
        rw [if_neg (by omega)]
      rw [hothers]
      simp
    | succ row =>
      rw [if_neg (by omega), List.nil_append, show first + (row + 1) = first + 1 + row by omega, ih]
      simp

end MappingTree

end JarDerivation
