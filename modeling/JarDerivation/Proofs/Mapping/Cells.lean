-- The rows of a tree, cell by cell. Each operation is described by the class
-- names and the member lists that it leaves.
import JarDerivation.Proofs.Mapping.ClassIndex

namespace JarDerivation

namespace MappingTree

theorem nameIn_eq_none {classes : List ClassRow} {row : Nat} (h : classes.length ≤ row) (col : Nat) :
    nameIn classes col row = none := by
  unfold nameIn
  rw [List.getElem?_eq_none h]
  rfl

theorem lt_of_className {t : MappingTree} {row col : Nat} {name : String}
    (h : t.className row col = some name) : row < t.classes.length := by
  rcases Nat.lt_or_ge row t.classes.length with hlt | hge
  · exact hlt
  · rw [className_eq_nameIn, nameIn_eq_none hge] at h
    cases h

/-! ## Columns -/

theorem classes_addNamespace (t : MappingTree) (name : String) :
    (t.addNamespace name).2.classes = t.classes := by
  unfold addNamespace
  cases t.namespaceId? name <;> rfl

theorem findClass_addNamespace (t : MappingTree) (name n : String) (col : Nat) :
    (t.addNamespace name).2.findClass n col = t.findClass n col := by
  unfold addNamespace
  cases t.namespaceId? name with
  | some _ => rfl
  | none => rw [findClass_eq_column, column_widenIndex, ← findClass_eq_column]

/-! ## Classes -/

/-- Another row holds the name. -/
def HeldElsewhere (t : MappingTree) (row col : Nat) (name : String) : Prop :=
  ∃ other, other ≠ row ∧ t.className other col = some name

/-- A row is refused a name that it does not have just when the name must not be shared and
another row holds it. -/
theorem renameClass_refused_iff {t : MappingTree} (ht : t.Indexed) {row col : Nat} {name : String}
    (hrow : row < t.classes.length) (hown : t.className row col ≠ some name) (shared : Bool) :
    (t.renameClass row col (some name) shared).1 = false ↔
      shared = false ∧ t.HeldElsewhere row col name := by
  rcases renameClass_cases t row col (some name) shared with
    ⟨hnone, _⟩ | ⟨_, _, owner, _, hshared, hn, hfind, hne, heq⟩ | ⟨_, _, hfree, heq⟩
  · rw [List.getElem?_eq_getElem hrow] at hnone
    cases hnone
  · cases hn
    rw [ht, firstHolder_eq_some] at hfind
    rw [heq]
    exact ⟨fun _ => ⟨hshared, owner, hne, hfind.1⟩, fun _ => rfl⟩
  · rw [heq]
    refine ⟨nofun, ?_⟩
    rintro ⟨hshared, other, _, hheld⟩
    -- The first row with the name is this one, which does not have it.
    cases hfirst : firstHolder t.classes col name with
    | none => exact absurd hheld (firstHolder_eq_none.mp hfirst other)
    | some first =>
      have howner : first = row := hfree hshared name first rfl ((ht col name).trans hfirst)
      exact absurd (howner ▸ (firstHolder_eq_some.mp hfirst).1) hown

theorem membersIn_appendRow (t : MappingTree) (j : Nat) (kind : MemberKind) :
    membersIn t.appendRow.classes j kind =
      if j = t.classes.length then some [] else membersIn t.classes j kind := by
  unfold membersIn appendRow
  simp only
  rw [List.getElem?_append]
  by_cases hlt : j < t.classes.length
  · rw [if_pos hlt, if_neg (by omega)]
  · rw [if_neg hlt]
    by_cases hj : j = t.classes.length
    · subst hj
      cases kind <;> simp [blankRow, ClassRow.members]
    · rw [if_neg hj, List.getElem?_eq_none (by simp; omega), List.getElem?_eq_none (by omega)]

/-- A class that is not there gets a row at the end with its source name and without members. -/
theorem addClass_new {t : MappingTree} {srcName : String} (h : t.findClass srcName 0 = none) :
    (t.addClass srcName).1 = t.classes.length ∧
      (t.addClass srcName).2.namespaces = t.namespaces ∧
      (t.addClass srcName).2.classes.length = t.classes.length + 1 ∧
      (∀ j k, nameIn (t.addClass srcName).2.classes k j =
        if j = t.classes.length ∧ k = 0 then some srcName else nameIn t.classes k j) ∧
      ∀ j kind, membersIn (t.addClass srcName).2.classes j kind =
        if j = t.classes.length then some [] else membersIn t.classes j kind := by
  rcases addClass_cases t srcName with ⟨row, hrow, _⟩ | ⟨_, heq⟩
  · rw [h] at hrow
    cases hrow
  · obtain ⟨hns, hlen, hmembers⟩ :=
      frame_renameClass t.appendRow t.classes.length 0 (some srcName) false
    have hset : (t.appendRow.renameClass t.classes.length 0 (some srcName) false).1 = true := by
      rcases renameClass_cases t.appendRow t.classes.length 0 (some srcName) false with
        ⟨hnone, _⟩ | ⟨_, n, owner, _, _, hn, hfind, _, _⟩ | ⟨_, _, _, hok⟩
      · simp [appendRow] at hnone
      · cases hn
        have hsame : t.appendRow.findClass srcName 0 = t.findClass srcName 0 := rfl
        rw [hsame, h] at hfind
        cases hfind
      · rw [hok]
    rw [heq]
    refine ⟨rfl, hns, by rw [hlen]; simp [appendRow], ?_, ?_⟩
    · intro j k
      rw [nameIn_renameClass, hset]
      simp only [true_and]
      rw [show nameIn t.appendRow.classes k j = nameIn t.classes k j from
        nameIn_append_blank t.classes _ k j]
    · intro j kind
      rw [hmembers, membersIn_appendRow]

/-! ## Members -/

theorem membersIn_setClass (t : MappingTree) {row : Nat} {c : ClassRow}
    (hc : t.classes[row]? = some c) (c' : ClassRow) (j : Nat) (kind : MemberKind) :
    membersIn (t.setClass row c').classes j kind =
      if j = row then some (c'.members kind) else membersIn t.classes j kind := by
  unfold setClass membersIn
  rw [List.getElem?_set]
  by_cases hj : row = j
  · subst hj
    rw [if_pos rfl, if_pos (List.getElem?_eq_some_iff.mp hc).1, if_pos rfl]
    rfl
  · rw [if_neg hj, if_neg (Ne.symm hj)]

theorem membersIn_setMembers (t : MappingTree) {row : Nat} {c : ClassRow}
    (hc : t.classes[row]? = some c) (kind : MemberKind) (ms : List MemberRow) (j : Nat)
    (k : MemberKind) :
    membersIn (t.setClass row (c.setMembers kind ms)).classes j k =
      if j = row ∧ k = kind then some ms else membersIn t.classes j k := by
  rw [membersIn_setClass t hc]
  by_cases hj : j = row
  · subst hj
    unfold membersIn
    rw [hc]
    cases kind <;> cases k <;> simp [ClassRow.members, ClassRow.setMembers]
  · rw [if_neg hj, if_neg fun h => hj h.1]

theorem frame_modifyMember (t : MappingTree) (row : Nat) (kind : MemberKind) (idx : Nat)
    (f : MemberRow → MemberRow) :
    (t.modifyMember row kind idx f).namespaces = t.namespaces ∧
      (t.modifyMember row kind idx f).index = t.index ∧
      (t.modifyMember row kind idx f).classes.length = t.classes.length := by
  unfold modifyMember
  cases t.classes[row]? with
  | none => exact ⟨rfl, rfl, rfl⟩
  | some c => exact ⟨rfl, rfl, List.length_set⟩

theorem nameIn_modifyMember (t : MappingTree) (row : Nat) (kind : MemberKind) (idx : Nat)
    (f : MemberRow → MemberRow) (col j : Nat) :
    nameIn (t.modifyMember row kind idx f).classes col j = nameIn t.classes col j := by
  unfold modifyMember
  cases hc : t.classes[row]? with
  | none => rfl
  | some c => exact nameIn_setMembers t hc kind _ col j

theorem membersIn_modifyMember (t : MappingTree) (row : Nat) (kind : MemberKind) (idx : Nat)
    (f : MemberRow → MemberRow) (j : Nat) (k : MemberKind) :
    membersIn (t.modifyMember row kind idx f).classes j k =
      if j = row ∧ k = kind then (membersIn t.classes j k).map (·.modify idx f)
      else membersIn t.classes j k := by
  unfold modifyMember
  cases hc : t.classes[row]? with
  | none =>
    simp only
    split
    · rename_i hj
      rw [hj.1]
      unfold membersIn
      rw [hc]
      rfl
    · rfl
  | some c =>
    simp only
    rw [membersIn_setMembers t hc]
    split
    · rename_i hj
      rw [hj.1, hj.2]
      unfold membersIn
      rw [hc]
      rfl
    · rfl

theorem indexed_modifyMember {t : MappingTree} (h : t.Indexed) (row : Nat) (kind : MemberKind)
    (idx : Nat) (f : MemberRow → MemberRow) : (t.modifyMember row kind idx f).Indexed :=
  indexed_of_names h (frame_modifyMember t row kind idx f).2.1
    (nameIn_modifyMember t row kind idx f)

theorem descAgrees_eq_false {want known : Option String} :
    descAgrees want known = false ↔ ∃ a b, want = some a ∧ known = some b ∧ a ≠ b := by
  cases want <;> cases known <;> simp [descAgrees]

theorem findMember_eq (t : MappingTree) (row : Nat) (kind : MemberKind) (name : String) (col : Nat)
    (srcDesc : Option String) :
    t.findMember row kind name col srcDesc = (membersIn t.classes row kind).bind
      (·.findIdx? fun m => m.name col == some name && descAgrees srcDesc m.srcDesc) := by
  unfold findMember membersIn
  cases t.classes[row]? <;> rfl

theorem member?_eq (t : MappingTree) (row : Nat) (kind : MemberKind) (idx : Nat) :
    t.member? row kind idx = (membersIn t.classes row kind).bind (·[idx]?) := by
  unfold member? membersIn
  cases t.classes[row]? <;> rfl

/-- The row of a new member. -/
def memberRow (width : Nat) (srcName : String) (srcDesc : Option String) : MemberRow :=
  ⟨(List.replicate (max width 1) none).set 0 (some srcName), srcDesc⟩

theorem name_memberRow (width : Nat) (srcName : String) (srcDesc : Option String) (col : Nat) :
    (memberRow width srcName srcDesc).name col = if col = 0 then some srcName else none := by
  unfold memberRow MemberRow.name Names.at?
  simp only
  rw [List.getElem?_set, List.length_replicate]
  by_cases hcol : col = 0
  · subst hcol
    rw [if_pos rfl, if_pos (by omega), if_pos rfl, Option.join_some]
  · rw [if_neg (Ne.symm hcol), if_neg hcol, List.getElem?_replicate]
    split <;> rfl

/-- A member that is not there gets a row at the end of its list. -/
theorem addMember_new {t t' : MappingTree} {row idx : Nat} {kind : MemberKind} {srcName : String}
    {srcDesc : Option String} (hnone : t.findMember row kind srcName 0 srcDesc = none)
    (h : t.addMember row kind srcName srcDesc = some (idx, t')) :
    ∃ ms, membersIn t.classes row kind = some ms ∧ idx = ms.length ∧
      t'.namespaces = t.namespaces ∧ t'.classes.length = t.classes.length ∧
      (∀ col j, nameIn t'.classes col j = nameIn t.classes col j) ∧
      ∀ j k, membersIn t'.classes j k = if j = row ∧ k = kind then
        some (ms ++ [memberRow t.namespaces.length srcName srcDesc]) else membersIn t.classes j k := by
  rcases addMember_cases t row kind srcName srcDesc with
    ⟨_, hfound, _⟩ | ⟨_, heq⟩ | ⟨c, names, hc, _, hnames, heq⟩
  · rw [hnone] at hfound
    cases hfound
  · rw [heq] at h
    cases h
  · rw [heq] at h
    cases h
    subst hnames
    refine ⟨c.members kind, ?_, rfl, rfl, List.length_set, ?_, ?_⟩
    · unfold membersIn
      rw [hc]
      rfl
    · exact fun col j => nameIn_setMembers t hc kind _ col j
    · exact fun j k => membersIn_setMembers t hc kind _ j k

end MappingTree

end JarDerivation
