-- The laws of the class index. In every tree that its operations build, a look-up
-- of a class name gives the first row that holds the name, also when rows share
-- it, pass it on or are named anew.
import JarDerivation.Mapping.Tree
import JarDerivation.Proofs.Text.Ascending

namespace JarDerivation

/-! ## Cells -/

theorem Names.at?_put (names : Names) (col j : Nat) (name : Option String) :
    (names.put col name).at? j = if j = col then name else names.at? j := by
  unfold Names.put Names.at?
  rw [List.getElem?_set]
  by_cases hj : col = j
  · subst hj
    have hlt : col < (names ++ List.replicate (col + 1 - names.length) none).length := by
      rw [List.length_append, List.length_replicate]
      omega
    rw [if_pos rfl, if_pos hlt, if_pos rfl, Option.join_some]
  · rw [if_neg hj, if_neg (Ne.symm hj), List.getElem?_append]
    split
    · rfl
    · rename_i hge
      rw [List.getElem?_replicate, List.getElem?_eq_none (Nat.le_of_not_lt hge)]
      split <;> rfl

@[simp] theorem ClassRow.name_setName (c : ClassRow) (col j : Nat) (name : Option String) :
    (c.setName col name).name j = if j = col then name else c.name j :=
  Names.at?_put c.names col j name

@[simp] theorem ClassRow.members_setName (c : ClassRow) (col : Nat) (name : Option String)
    (kind : MemberKind) : (c.setName col name).members kind = c.members kind := by
  cases kind <;> rfl

@[simp] theorem ClassRow.name_setMembers (c : ClassRow) (kind : MemberKind) (ms : List MemberRow)
    (col : Nat) : (c.setMembers kind ms).name col = c.name col := by
  cases kind <;> rfl

@[simp] theorem MemberRow.name_setName (m : MemberRow) (col j : Nat) (name : Option String) :
    (m.setName col name).name j = if j = col then name else m.name j :=
  Names.at?_put m.names col j name

/-! ## The index of one column -/

namespace NameIndex

theorem find?_cons (entry : String × Nat) (rest : NameIndex) (name : String) :
    find? (entry :: rest) name = if name = entry.1 then some entry.2 else find? rest name :=
  lookup_cons_ite entry.1 name entry.2 rest

theorem find?_erase (ix : NameIndex) (a b : String) :
    (ix.erase a).find? b = if b = a then none else ix.find? b := by
  unfold erase
  induction ix with
  | nil => simp [find?]
  | cons entry rest ih =>
    by_cases hname : entry.1 = a
    · rw [List.filter_cons_of_neg (by simp [hname]), ih, find?_cons, hname]
      by_cases hb : b = a
      · rw [if_pos hb, if_pos hb]
      · rw [if_neg hb, if_neg hb, if_neg hb]
    · rw [List.filter_cons_of_pos (by simp [hname]), find?_cons, find?_cons, ih]
      by_cases hb : b = entry.1
      · rw [if_pos hb, if_pos hb, if_neg (hb ▸ hname)]
      · rw [if_neg hb, if_neg hb]

theorem find?_insert (ix : NameIndex) (a b : String) (row : Nat) :
    (ix.insert a row).find? b = if b = a then some row else ix.find? b := by
  unfold insert
  rw [find?_cons, find?_erase]
  by_cases hb : b = a
  · rw [if_pos hb, if_pos hb]
  · rw [if_neg hb, if_neg hb, if_neg hb]

/-- The earlier of a new holder and the one that was there. -/
theorem find?_addHolder (ix : NameIndex) (a b : String) (row : Nat) :
    (ix.addHolder a row).find? b =
      if b = a then some (min row ((ix.find? a).getD row)) else ix.find? b := by
  unfold addHolder
  cases h : ix.find? a with
  | none => simp [find?_insert]
  | some owner =>
    simp only
    split
    · rename_i hlt
      rw [find?_insert, Option.getD_some, Nat.min_eq_left (Nat.le_of_lt hlt)]
    · rename_i hlt
      by_cases hb : b = a
      · rw [if_pos hb, hb, h, Option.getD_some, Nat.min_eq_right (by omega)]
      · rw [if_neg hb]

end NameIndex

namespace MappingTree

/-! ## The first holder of a name -/

/-- The name of a row in a list of rows. -/
def nameIn (classes : List ClassRow) (col row : Nat) : Option String :=
  (classes[row]?).bind (·.name col)

/-- The members of a row in a list of rows. -/
def membersIn (classes : List ClassRow) (row : Nat) (kind : MemberKind) : Option (List MemberRow) :=
  (classes[row]?).map (·.members kind)

theorem className_eq_nameIn (t : MappingTree) (row col : Nat) :
    t.className row col = nameIn t.classes col row := rfl

theorem firstHolder_eq_some {classes : List ClassRow} {col row : Nat} {name : String} :
    firstHolder classes col name = some row ↔ nameIn classes col row = some name ∧
      ∀ earlier < row, nameIn classes col earlier ≠ some name := by
  unfold firstHolder nameIn
  rw [List.findIdx?_eq_some_iff_getElem]
  constructor
  · rintro ⟨hlt, hname, hfirst⟩
    refine ⟨by simpa [List.getElem?_eq_getElem hlt] using hname, ?_⟩
    intro earlier he
    have hne := hfirst earlier he
    rw [List.getElem?_eq_getElem (Nat.lt_trans he hlt)]
    simpa using hne
  · rintro ⟨hname, hfirst⟩
    have hlt : row < classes.length := by
      rcases Nat.lt_or_ge row classes.length with hlt | hge
      · exact hlt
      · simp [List.getElem?_eq_none hge] at hname
    refine ⟨hlt, by simpa [List.getElem?_eq_getElem hlt] using hname, ?_⟩
    intro earlier he
    have hne := hfirst earlier he
    rw [List.getElem?_eq_getElem (Nat.lt_trans he hlt)] at hne
    simpa using hne

theorem firstHolder_eq_none {classes : List ClassRow} {col : Nat} {name : String} :
    firstHolder classes col name = none ↔ ∀ row, nameIn classes col row ≠ some name := by
  unfold firstHolder nameIn
  rw [List.findIdx?_eq_none_iff]
  constructor
  · intro h row hrow
    obtain ⟨c, hc, hname⟩ := Option.bind_eq_some_iff.mp hrow
    have hne := h c (List.mem_of_getElem? hc)
    simp [hname] at hne
  · intro h c hc
    obtain ⟨row, hlt, rfl⟩ := List.getElem_of_mem hc
    have hne := h row
    rw [List.getElem?_eq_getElem hlt] at hne
    simpa using hne

/-- Rows with the same names in a column have the same first holders in it. -/
theorem firstHolder_congr {classes classes' : List ClassRow} {col : Nat}
    (h : ∀ row, nameIn classes' col row = nameIn classes col row) (name : String) :
    firstHolder classes' col name = firstHolder classes col name := by
  cases hf : firstHolder classes col name with
  | none =>
    rw [firstHolder_eq_none] at hf ⊢
    intro row
    rw [h]
    exact hf row
  | some row =>
    rw [firstHolder_eq_some] at hf ⊢
    refine ⟨by rw [h]; exact hf.1, ?_⟩
    intro earlier he
    rw [h]
    exact hf.2 earlier he

theorem nameIn_set {classes : List ClassRow} {row : Nat} {c : ClassRow} (hrow : row < classes.length)
    (col j : Nat) :
    nameIn (classes.set row c) col j = if j = row then c.name col else nameIn classes col j := by
  unfold nameIn
  rw [List.getElem?_set]
  by_cases hj : row = j
  · simp [hj, hj ▸ hrow]
  · simp [hj, Ne.symm hj]

/-- A row that neither takes a name nor was its first holder leaves the first
holder as it is. -/
theorem firstHolder_set_ne {classes : List ClassRow} {row col : Nat} {c : ClassRow} {name : String}
    (hrow : row < classes.length) (hnew : c.name col ≠ some name)
    (hold : firstHolder classes col name ≠ some row) :
    firstHolder (classes.set row c) col name = firstHolder classes col name := by
  have hset := nameIn_set (c := c) hrow col
  cases hf : firstHolder classes col name with
  | none =>
    rw [firstHolder_eq_none] at hf ⊢
    intro j
    rw [hset]
    split
    · exact hnew
    · exact hf j
  | some first =>
    have hne : first ≠ row := fun h => hold (h ▸ hf)
    rw [firstHolder_eq_some] at hf ⊢
    refine ⟨by rw [hset, if_neg hne]; exact hf.1, ?_⟩
    intro earlier he
    rw [hset]
    split
    · exact hnew
    · exact hf.2 earlier he

/-- A row that takes a name is its first holder unless an earlier row is. -/
theorem firstHolder_set_self {classes : List ClassRow} {row col : Nat} {c : ClassRow}
    {name : String} (hrow : row < classes.length) (hnew : c.name col = some name) :
    firstHolder (classes.set row c) col name =
      some (min row ((firstHolder classes col name).getD row)) := by
  have hset := nameIn_set (c := c) hrow col
  rw [firstHolder_eq_some]
  cases hf : firstHolder classes col name with
  | none =>
    rw [firstHolder_eq_none] at hf
    rw [Option.getD_none, Nat.min_self]
    refine ⟨by rw [hset, if_pos rfl, hnew], ?_⟩
    intro earlier he
    rw [hset, if_neg (by omega)]
    exact hf earlier
  | some first =>
    rw [firstHolder_eq_some] at hf
    rw [Option.getD_some]
    rcases Nat.lt_or_ge first row with hlt | hge
    · rw [Nat.min_eq_right (Nat.le_of_lt hlt)]
      refine ⟨by rw [hset, if_neg (by omega)]; exact hf.1, ?_⟩
      intro earlier he
      rw [hset, if_neg (by omega)]
      exact hf.2 earlier he
    · rw [Nat.min_eq_left hge]
      refine ⟨by rw [hset, if_pos rfl, hnew], ?_⟩
      intro earlier he
      rw [hset, if_neg (by omega)]
      exact hf.2 earlier (by omega)

/-! ## The invariant -/

/-- The index of a column; a column that it does not reach is empty. -/
def column (index : List NameIndex) (col : Nat) : NameIndex := (index[col]?).getD []

theorem findClass_eq_column (t : MappingTree) (name : String) (col : Nat) :
    t.findClass name col = (column t.index col).find? name := by
  unfold findClass column
  cases t.index[col]? <;> rfl

theorem column_widenIndex (index : List NameIndex) (n col : Nat) :
    column (widenIndex index n) col = column index col := by
  unfold column widenIndex
  rw [List.getElem?_append]
  split
  · rfl
  · rename_i hge
    rw [List.getElem?_replicate, List.getElem?_eq_none (Nat.le_of_not_lt hge)]
    split <;> rfl

theorem column_set (index : List NameIndex) (col j : Nat) (ix : NameIndex) :
    column ((widenIndex index (col + 1)).set col ix) j = if j = col then ix else column index j := by
  have hlen : col < (widenIndex index (col + 1)).length := by
    unfold widenIndex
    rw [List.length_append, List.length_replicate]
    omega
  by_cases hj : j = col
  · subst hj
    unfold column
    rw [if_pos rfl, List.getElem?_set_self hlen, Option.getD_some]
  · rw [if_neg hj, ← column_widenIndex index (col + 1) j]
    unfold column
    rw [List.getElem?_set_ne (Ne.symm hj)]

/-- A look-up in any column gives the first row that holds the name. -/
def Indexed (t : MappingTree) : Prop :=
  ∀ col name, t.findClass name col = firstHolder t.classes col name

theorem indexed_empty : empty.Indexed := fun _ _ => rfl

/-! ## A change of one cell -/

/-- The index of a column after a row has given up the name `old`. -/
def columnWithout (ix : NameIndex) (classes : List ClassRow) (row col : Nat) (old : Option String) :
    NameIndex :=
  match old with
  | some old => handOver ix classes row col old
  | none => ix

/-- The index of a column after a row has given up the name `old` for `new`. -/
def columnAfter (ix : NameIndex) (classes : List ClassRow) (row col : Nat) (old new : Option String) :
    NameIndex :=
  match new with
  | some new => (columnWithout ix classes row col old).addHolder new row
  | none => columnWithout ix classes row col old

/-- All that setting a name can do. -/
theorem renameClass_cases (t : MappingTree) (row col : Nat) (name : Option String) (shared : Bool) :
    (t.classes[row]? = none ∧ t.renameClass row col name shared = (false, t)) ∨
      (∃ c n owner, t.classes[row]? = some c ∧ shared = false ∧ name = some n ∧
        t.findClass n col = some owner ∧ owner ≠ row ∧
        t.renameClass row col name shared =
          (false, { t with index := widenIndex t.index (col + 1) })) ∨
      ∃ c, t.classes[row]? = some c ∧
        (shared = false → ∀ n owner, name = some n → t.findClass n col = some owner → owner = row) ∧
        t.renameClass row col name shared =
          (true, { t with
            classes := t.classes.set row (c.setName col name)
            index := (widenIndex t.index (col + 1)).set col
              (columnAfter (column t.index col) (t.classes.set row (c.setName col name)) row col
                (c.name col) name) }) := by
  have hcol : ((widenIndex t.index (col + 1))[col]?).getD [] = column t.index col :=
    column_widenIndex t.index (col + 1) col
  unfold renameClass
  cases hc : t.classes[row]? with
  | none => exact Or.inl ⟨rfl, rfl⟩
  | some c =>
    simp only [hcol]
    right
    by_cases hrefused :
        (!shared && (name.bind (column t.index col).find?).any (· != row)) = true
    · left
      rw [if_pos hrefused]
      simp only [Bool.and_eq_true, Bool.not_eq_true', Option.any_eq_true, Option.bind_eq_some_iff,
        bne_iff_ne] at hrefused
      obtain ⟨hshared, owner, ⟨n, hn, hfind⟩, hne⟩ := hrefused
      rw [← findClass_eq_column] at hfind
      exact ⟨c, n, owner, rfl, hshared, hn, hfind, hne, rfl⟩
    · right
      rw [if_neg hrefused]
      refine ⟨c, rfl, ?_, rfl⟩
      intro hshared n owner hn hfind
      rw [findClass_eq_column] at hfind
      simpa [hshared, hn, hfind] using hrefused

theorem find?_columnWithout (ix : NameIndex) (classes : List ClassRow) (row col : Nat)
    (old : Option String) (name : String) :
    (columnWithout ix classes row col old).find? name =
      if old = some name ∧ ix.find? name = some row then firstHolder classes col name
      else ix.find? name := by
  cases old with
  | none => simp [columnWithout]
  | some old =>
    simp only [columnWithout, Option.some.injEq]
    unfold handOver
    by_cases howner : ix.find? old = some row
    · rw [if_pos howner]
      by_cases hname : old = name
      · subst hname
        rw [if_pos ⟨rfl, howner⟩]
        cases firstHolder classes col old with
        | some next => simp [NameIndex.find?_insert]
        | none => simp [NameIndex.find?_erase]
      · rw [if_neg fun h => hname h.1]
        cases firstHolder classes col old with
        | some next => simp [NameIndex.find?_insert, Ne.symm hname]
        | none => simp [NameIndex.find?_erase, Ne.symm hname]
    · rw [if_neg howner, if_neg]
      rintro ⟨rfl, h⟩
      exact howner h

/-- The index of a column keeps up with a change of one of its names. -/
theorem find?_columnAfter {classes : List ClassRow} {row col : Nat} {c : ClassRow}
    {ix : NameIndex} (hc : classes[row]? = some c) (new : Option String)
    (hix : ∀ name, ix.find? name = firstHolder classes col name) (name : String) :
    (columnAfter ix (classes.set row (c.setName col new)) row col (c.name col) new).find? name =
      firstHolder (classes.set row (c.setName col new)) col name := by
  have hrow : row < classes.length := (List.getElem?_eq_some_iff.mp hc).1
  have hcell : (c.setName col new).name col = new := by simp
  have hold : nameIn classes col row = c.name col := by
    unfold nameIn
    rw [hc]
    rfl
  by_cases hnew : new = some name
  · subst hnew
    rw [firstHolder_set_self hrow hcell]
    simp only [columnAfter]
    rw [NameIndex.find?_addHolder, if_pos rfl, find?_columnWithout]
    split
    · rename_i howner
      rw [firstHolder_set_self hrow hcell, ← hix, howner.2]
      simp
    · rw [hix]
  · have hkeep : (columnAfter ix (classes.set row (c.setName col new)) row col (c.name col)
        new).find? name =
        (columnWithout ix (classes.set row (c.setName col new)) row col (c.name col)).find? name := by
      cases new with
      | none => rfl
      | some new =>
        simp only [columnAfter]
        rw [NameIndex.find?_addHolder, if_neg]
        rintro rfl
        exact hnew rfl
    rw [hkeep, find?_columnWithout]
    split
    · rfl
    · rename_i howner
      rw [hix, firstHolder_set_ne hrow (by rwa [hcell])]
      intro hfirst
      refine howner ⟨?_, by rw [hix, hfirst]⟩
      rw [← hold]
      exact (firstHolder_eq_some.mp hfirst).1

theorem indexed_renameClass {t : MappingTree} (h : t.Indexed) (row col : Nat)
    (name : Option String) (shared : Bool) : (t.renameClass row col name shared).2.Indexed := by
  intro j n
  rw [findClass_eq_column]
  have hcolumn : ∀ j n, (column t.index j).find? n = firstHolder t.classes j n := by
    intro j n
    rw [← findClass_eq_column, h]
  rcases renameClass_cases t row col name shared with
    ⟨_, heq⟩ | ⟨c, m, owner, _, _, _, _, _, heq⟩ | ⟨c, hc, _, heq⟩
  · rw [heq]
    exact hcolumn j n
  · rw [heq]
    simp only [column_widenIndex]
    exact hcolumn j n
  · rw [heq]
    simp only [column_set]
    by_cases hj : j = col
    · subst hj
      rw [if_pos rfl]
      exact find?_columnAfter hc name (hcolumn j) n
    · rw [if_neg hj, hcolumn]
      apply (firstHolder_congr _ n).symm
      intro row'
      rw [nameIn_set (List.getElem?_eq_some_iff.mp hc).1]
      split
      · rename_i hrow
        subst hrow
        rw [ClassRow.name_setName, if_neg hj]
        unfold nameIn
        rw [hc]
        rfl
      · rfl

/-- Setting a name writes one cell, or none if it is refused. -/
theorem nameIn_renameClass (t : MappingTree) (row col : Nat) (name : Option String) (shared : Bool)
    (j k : Nat) :
    nameIn (t.renameClass row col name shared).2.classes k j =
      if (t.renameClass row col name shared).1 = true ∧ j = row ∧ k = col then name
      else nameIn t.classes k j := by
  rcases renameClass_cases t row col name shared with
    ⟨_, heq⟩ | ⟨c, m, owner, _, _, _, _, _, heq⟩ | ⟨c, hc, _, heq⟩
  · simp [heq]
  · simp [heq]
  · rw [heq]
    simp only [true_and]
    rw [nameIn_set (List.getElem?_eq_some_iff.mp hc).1]
    by_cases hj : j = row
    · subst hj
      rw [if_pos rfl, ClassRow.name_setName]
      by_cases hk : k = col
      · rw [if_pos hk, if_pos ⟨rfl, hk⟩]
      · rw [if_neg hk, if_neg fun h => hk h.2]
        unfold nameIn
        rw [hc]
        rfl
    · rw [if_neg hj, if_neg fun h => hj h.1]

/-- Setting a name leaves the columns, the number of rows and all members as they are. -/
theorem frame_renameClass (t : MappingTree) (row col : Nat) (name : Option String) (shared : Bool) :
    (t.renameClass row col name shared).2.namespaces = t.namespaces ∧
      (t.renameClass row col name shared).2.classes.length = t.classes.length ∧
      ∀ j kind, membersIn (t.renameClass row col name shared).2.classes j kind =
        membersIn t.classes j kind := by
  rcases renameClass_cases t row col name shared with
    ⟨_, heq⟩ | ⟨c, m, owner, _, _, _, _, _, heq⟩ | ⟨c, hc, _, heq⟩
  · simp [heq]
  · simp [heq]
  · rw [heq]
    refine ⟨rfl, List.length_set, ?_⟩
    intro j kind
    unfold membersIn
    rw [List.getElem?_set]
    by_cases hj : row = j
    · subst hj
      rw [if_pos rfl, if_pos (List.getElem?_eq_some_iff.mp hc).1, hc]
      simp
    · rw [if_neg hj]

/-! ## The other operations -/

/-- Rows with the same names keep an index right. -/
theorem indexed_of_names {t t' : MappingTree} (h : t.Indexed) (hindex : t'.index = t.index)
    (hnames : ∀ col row, nameIn t'.classes col row = nameIn t.classes col row) : t'.Indexed := by
  intro col name
  rw [findClass_eq_column, hindex, ← findClass_eq_column, h]
  exact (firstHolder_congr (hnames col) name).symm

theorem indexed_addNamespace {t : MappingTree} (h : t.Indexed) (name : String) :
    (t.addNamespace name).2.Indexed := by
  unfold addNamespace
  cases t.namespaceId? name with
  | some col => exact h
  | none =>
    intro col n
    rw [findClass_eq_column, column_widenIndex, ← findClass_eq_column]
    exact h col n

/-- A class row without names. -/
def blankRow (width : Nat) : ClassRow := ⟨List.replicate width none, [], []⟩

@[simp] theorem name_blankRow (width col : Nat) : (blankRow width).name col = none := by
  unfold blankRow ClassRow.name Names.at?
  rw [List.getElem?_replicate]
  split <;> rfl

theorem nameIn_append_blank (classes : List ClassRow) (width col row : Nat) :
    nameIn (classes ++ [blankRow width]) col row = nameIn classes col row := by
  unfold nameIn
  rw [List.getElem?_append]
  split
  · rfl
  · rename_i hge
    rw [List.getElem?_eq_none (Nat.le_of_not_lt hge)]
    cases h : row - classes.length with
    | zero => simp
    | succ k => simp

/-- The tree with one more row, which has no names yet. -/
def appendRow (t : MappingTree) : MappingTree :=
  { t with classes := t.classes ++ [blankRow (max t.namespaces.length 1)] }

/-- Adding a class finds its row, or names a new one. -/
theorem addClass_cases (t : MappingTree) (srcName : String) :
    (∃ row, t.findClass srcName 0 = some row ∧ t.addClass srcName = (row, t)) ∨
      (t.findClass srcName 0 = none ∧ t.addClass srcName = (t.classes.length,
        (t.appendRow.renameClass t.classes.length 0 (some srcName) false).2)) := by
  unfold addClass
  cases h : t.findClass srcName 0 with
  | some row => exact Or.inl ⟨row, rfl, rfl⟩
  | none => exact Or.inr ⟨rfl, rfl⟩

theorem indexed_appendRow {t : MappingTree} (h : t.Indexed) : t.appendRow.Indexed :=
  indexed_of_names h rfl (nameIn_append_blank t.classes _)

theorem indexed_addClass {t : MappingTree} (h : t.Indexed) (srcName : String) :
    (t.addClass srcName).2.Indexed := by
  rcases addClass_cases t srcName with ⟨row, _, heq⟩ | ⟨_, heq⟩
  · rw [heq]
    exact h
  · rw [heq]
    exact indexed_renameClass (indexed_appendRow h) _ _ _ _

/-- A row with the same names in the place of another leaves every class name as it is. -/
theorem nameIn_setClass (t : MappingTree) {row : Nat} {c c' : ClassRow}
    (hc : t.classes[row]? = some c) (hnames : ∀ col, c'.name col = c.name col) (col j : Nat) :
    nameIn (t.setClass row c').classes col j = nameIn t.classes col j := by
  unfold setClass
  rw [nameIn_set (List.getElem?_eq_some_iff.mp hc).1]
  split
  · rename_i hj
    subst hj
    rw [hnames]
    unfold nameIn
    rw [hc]
    rfl
  · rfl

theorem nameIn_setMembers (t : MappingTree) {row : Nat} {c : ClassRow} (hc : t.classes[row]? = some c)
    (kind : MemberKind) (ms : List MemberRow) (col j : Nat) :
    nameIn (t.setClass row (c.setMembers kind ms)).classes col j = nameIn t.classes col j :=
  nameIn_setClass t hc (fun col => ClassRow.name_setMembers c kind ms col) col j

/-- Adding a member finds its row or appends one. There is none without the class row. -/
theorem addMember_cases (t : MappingTree) (row : Nat) (kind : MemberKind) (srcName : String)
    (srcDesc : Option String) :
    (∃ idx, t.findMember row kind srcName 0 srcDesc = some idx ∧
        t.addMember row kind srcName srcDesc = some (idx, t)) ∨
      (t.classes[row]? = none ∧ t.addMember row kind srcName srcDesc = none) ∨
      ∃ c names, t.classes[row]? = some c ∧ t.findMember row kind srcName 0 srcDesc = none ∧
        names = (List.replicate (max t.namespaces.length 1) none).set 0 (some srcName) ∧
        t.addMember row kind srcName srcDesc = some ((c.members kind).length,
          t.setClass row (c.setMembers kind (c.members kind ++ [⟨names, srcDesc⟩]))) := by
  unfold addMember
  cases hf : t.findMember row kind srcName 0 srcDesc with
  | some idx => exact Or.inl ⟨idx, rfl, rfl⟩
  | none =>
    cases hc : t.classes[row]? with
    | none => exact Or.inr (Or.inl ⟨rfl, rfl⟩)
    | some c => exact Or.inr (Or.inr ⟨c, _, rfl, rfl, rfl, rfl⟩)

theorem indexed_addMember {t t' : MappingTree} (h : t.Indexed) {row idx : Nat} {kind : MemberKind}
    {srcName : String} {srcDesc : Option String}
    (ht : t.addMember row kind srcName srcDesc = some (idx, t')) : t'.Indexed := by
  rcases addMember_cases t row kind srcName srcDesc with
    ⟨_, _, heq⟩ | ⟨_, heq⟩ | ⟨c, names, hc, _, _, heq⟩
  · rw [heq] at ht
    cases ht
    exact h
  · rw [heq] at ht
    cases ht
  · rw [heq] at ht
    cases ht
    exact indexed_of_names h rfl (nameIn_setMembers t hc kind _)

theorem find?_columnIndex (col row : Nat) (classes : List ClassRow) (name : String) :
    (columnIndex col row classes).find? name = (firstHolder classes col name).map (· + row) := by
  induction classes generalizing row with
  | nil => rfl
  | cons c rest ih =>
    unfold columnIndex firstHolder
    rw [List.findIdx?_cons]
    have hrest := ih (row + 1)
    unfold firstHolder at hrest
    have hshift : ∀ o : Option Nat,
        o.map (· + (row + 1)) = (o.map (· + 1)).map (· + row) := by
      intro o
      cases o with
      | none => rfl
      | some k => simp; omega
    cases hc : c.name col with
    | none =>
      simp only
      rw [hrest, hshift]
      simp
    | some held =>
      simp only
      rw [NameIndex.find?_insert, hrest, hshift]
      by_cases hname : name = held
      · simp [hname]
      · simp [hname, Ne.symm hname]

/-- No row has a name in a column without a namespace. -/
def Narrow (t : MappingTree) : Prop :=
  ∀ row col, t.namespaces.length ≤ col → nameIn t.classes col row = none

theorem indexed_rebuildIndex {t : MappingTree} (h : t.Narrow) : t.rebuildIndex.Indexed := by
  intro col name
  rw [findClass_eq_column]
  unfold rebuildIndex column
  simp only [List.getElem?_map]
  rcases Nat.lt_or_ge col t.namespaces.length with hlt | hge
  · rw [List.getElem?_range hlt, Option.map_some, Option.getD_some, find?_columnIndex]
    cases firstHolder t.classes col name <;> rfl
  · rw [List.getElem?_eq_none (by simpa using hge)]
    symm
    apply firstHolder_eq_none.mpr
    intro row
    rw [h row col hge]
    simp

end MappingTree

end JarDerivation
