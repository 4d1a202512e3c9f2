-- Filling in missing names. A walk over the classes gives each class and member without a
-- name in one column the name that it has in another. A class name that must not be shared
-- is refused if another row holds it by then, and no row lets go of a name, so a second walk
-- finds nothing to do.
import JarDerivation.Proofs.Mapping.TreeSession
import JarDerivation.Proofs.Mapping.UniqueNames
import Mathlib.Data.List.Forall2

namespace JarDerivation

/-! ## Members -/

theorem Names.put_put (names : Names) (col : Nat) (a b : Option String) :
    (names.put col a).put col b = names.put col b := by
  have hlen : col + 1 - (names.put col a).length = 0 := by
    unfold Names.put
    rw [List.length_set, List.length_append, List.length_replicate]
    omega
  rw [Names.put, hlen, List.replicate_zero, List.append_nil]
  unfold Names.put
  rw [List.set_set]

namespace MappingTree

theorem name_fillMember (p : PassColumns) (m : MemberRow) (col : Nat) :
    (fillMember p m).name col =
      if col = p.dst then (m.name p.dst).or (m.name p.src) else m.name col := by
  unfold fillMember
  cases hdst : m.name p.dst with
  | none =>
    rw [if_pos Option.isNone_none, MemberRow.name_setName]
    rfl
  | some name =>
    rw [if_neg (by simp)]
    split
    · rename_i hcol
      rw [hcol, hdst]
      rfl
    · rfl

theorem srcDesc_fillMember (p : PassColumns) (m : MemberRow) :
    (fillMember p m).srcDesc = m.srcDesc := by
  unfold fillMember
  split <;> rfl

/-- A member that still has no name has nothing to be filled in. -/
theorem fillMember_fillMember {p : PassColumns} (hcols : p.src ≠ p.dst) (m : MemberRow) :
    fillMember p (fillMember p m) = fillMember p m := by
  have hsrc : (fillMember p m).name p.src = m.name p.src := by
    rw [name_fillMember, if_neg hcols]
  have hdst : (fillMember p m).name p.dst = (m.name p.dst).or (m.name p.src) := by
    rw [name_fillMember, if_pos rfl]
  rw [fillMember, hdst, hsrc]
  split
  · rename_i hnone
    obtain ⟨hmdst, hmsrc⟩ := Option.or_eq_none_iff.mp (Option.isNone_iff_eq_none.mp hnone)
    rw [hmsrc]
    unfold fillMember
    rw [hmdst, if_pos Option.isNone_none, hmsrc]
    unfold MemberRow.setName
    rw [Names.put_put]
  · rfl

variable {p : PassColumns} {t s : MappingTree}

/-! ## The name of one class -/

/-- All that the first half of a visit can do: nothing, unless the class has only a name to be
filled in, and nothing to its rows, if that name is refused. -/
theorem fillName_cases (p : PassColumns) (ht : t.Indexed) (row : Nat) :
    ((t.className row p.dst = none → t.className row p.src = none) ∧ fillName p t row = t) ∨
      ∃ name, t.className row p.dst = none ∧ t.className row p.src = some name ∧
        fillName p t row = (t.renameClass row p.dst (some name) p.shared).2 ∧
        ((t.renameClass row p.dst (some name) p.shared).1 = false ↔
          p.shared = false ∧ t.HeldElsewhere row p.dst name) := by
  unfold fillName
  cases hdst : t.className row p.dst with
  | some name => exact Or.inl ⟨nofun, rfl⟩
  | none =>
    cases hsrc : t.className row p.src with
    | none => exact Or.inl ⟨fun _ => rfl, rfl⟩
    | some name =>
      exact Or.inr ⟨name, rfl, rfl, rfl,
        renameClass_refused_iff ht (lt_of_className hsrc) (by simp [hdst]) _⟩

/-! ## A walk -/

/-- A name that a class is to get goes to another row: it must not be shared, and another row
has it from the start, or comes earlier and is to get it too. -/
def TakenElsewhere (t : MappingTree) (p : PassColumns) (row : Nat) (name : String) : Prop :=
  p.shared = false ∧ ∃ other, other ≠ row ∧
    (t.className other p.dst = some name ∨
      other < row ∧ t.className other p.dst = none ∧ t.className other p.src = some name)

/-- What a class row is called after the missing names have been filled in. -/
inductive FilledName (t : MappingTree) (p : PassColumns) (row : Nat) : Option String → Prop where
  | kept {name : String} (hdst : t.className row p.dst = some name) : FilledName t p row (some name)
  | nameless (hdst : t.className row p.dst = none) (hsrc : t.className row p.src = none) :
      FilledName t p row none
  | filled {name : String} (hdst : t.className row p.dst = none)
      (hsrc : t.className row p.src = some name) (hfree : ¬ t.TakenElsewhere p row name) :
      FilledName t p row (some name)
  | refused {name : String} (hdst : t.className row p.dst = none)
      (hsrc : t.className row p.src = some name) (htaken : t.TakenElsewhere p row name) :
      FilledName t p row none

theorem FilledName.eq_of_named {row : Nat} {name : String} {after : Option String}
    (h : t.FilledName p row after) (hname : t.className row p.dst = some name) :
    after = some name := by
  cases h with
  | kept hdst => exact hdst.symm.trans hname
  | nameless hdst _ => exact hdst.symm.trans hname
  | filled hdst _ _ => cases hdst.symm.trans hname
  | refused hdst _ _ => exact hdst.symm.trans hname

/-- The rows of `t` before `next` have been visited. -/
structure FilledSoFar (p : PassColumns) (t : MappingTree) (next : Nat) (s : MappingTree) :
    Prop where
  indexed : s.Indexed
  namespaces : s.namespaces = t.namespaces
  size : s.classes.length = t.classes.length
  others : ∀ row col, col ≠ p.dst → s.className row col = t.className row col
  ahead : ∀ row, next ≤ row → s.className row p.dst = t.className row p.dst
  behind : ∀ row < next, t.FilledName p row (s.className row p.dst)
  /-- A name that is to be filled in is there, if only in another row. -/
  held : ∀ row < next, ∀ name, t.className row p.dst = none → t.className row p.src = some name →
    ∃ holder, s.className holder p.dst = some name
  members : ∀ row kind, membersIn s.classes row kind = (membersIn t.classes row kind).map fun ms =>
    if row < next then ms.map (fillMember p) else ms

theorem filled_start (p : PassColumns) (ht : t.Indexed) : FilledSoFar p t 0 t where
  indexed := ht
  namespaces := rfl
  size := rfl
  others _ _ _ := rfl
  ahead _ _ := rfl
  behind := nofun
  held := nofun
  members row kind := by simp

/-- When its turn comes, a name is held elsewhere just when it goes to another row. -/
theorem FilledSoFar.heldElsewhere_iff {next : Nat} {name : String} (h : FilledSoFar p t next s)
    (hdst : t.className next p.dst = none) :
    p.shared = false ∧ s.HeldElsewhere next p.dst name ↔ t.TakenElsewhere p next name := by
  refine and_congr_right fun _ => ⟨?_, ?_⟩
  · rintro ⟨other, hne, hheld⟩
    refine ⟨other, hne, ?_⟩
    rcases Nat.lt_or_ge other next with hlt | hge
    · have hfilled := h.behind other hlt
      rw [hheld] at hfilled
      cases hfilled with
      | kept hname => exact Or.inl hname
      | filled hnone hsrc _ => exact Or.inr ⟨hlt, hnone, hsrc⟩
    · exact Or.inl ((h.ahead other hge).symm.trans hheld)
  · rintro ⟨other, hne, hname⟩
    have hholder : ∃ holder, s.className holder p.dst = some name := by
      rcases hname with hname | ⟨hlt, hnone, hsrc⟩
      · refine ⟨other, ?_⟩
        rcases Nat.lt_or_ge other next with hlt | hge
        · exact (h.behind other hlt).eq_of_named hname
        · rw [h.ahead other hge, hname]
      · exact h.held other hlt name hnone hsrc
    obtain ⟨holder, hheld⟩ := hholder
    refine ⟨holder, ?_, hheld⟩
    rintro rfl
    rw [h.ahead holder (Nat.le_refl _), hdst] at hheld
    cases hheld

theorem className_fillMembers (p : PassColumns) (t : MappingTree) (row j col : Nat) :
    (fillMembers p t row).className j col = t.className j col :=
  (sameClasses_fillMembers p t row).names col j

/-- The walk goes on to the next row. In `u` the row that is visited has got its name, or has none
to get, and its members are still to be filled in. -/
theorem FilledSoFar.add {next : Nat} {u : MappingTree} (h : FilledSoFar p t next s)
    (hindexed : u.Indexed) (hns : u.namespaces = s.namespaces)
    (hlen : u.classes.length = s.classes.length)
    (hcells : ∀ row col, ¬ (row = next ∧ col = p.dst) → u.className row col = s.className row col)
    (hfilled : t.FilledName p next (u.className next p.dst))
    (hheld : ∀ name, t.className next p.dst = none → t.className next p.src = some name →
      ∃ holder, u.className holder p.dst = some name)
    (hkept : ∀ row name, s.className row p.dst = some name → u.className row p.dst = some name)
    (hmembers : ∀ row kind, membersIn u.classes row kind = membersIn s.classes row kind) :
    FilledSoFar p t (next + 1) (fillMembers p u next) := by
  have hsame := sameClasses_fillMembers p u next
  have hdst : ∀ row, row ≠ next → u.className row p.dst = s.className row p.dst :=
    fun row hne => hcells row p.dst fun heq => hne heq.1
  refine ⟨indexed_of_names hindexed hsame.index hsame.names,
    hsame.namespaces.trans (hns.trans h.namespaces),
    (length_fillMembers p u next).trans (hlen.trans h.size), ?_, ?_, ?_, ?_, ?_⟩
  · intro row col hcol
    rw [className_fillMembers, hcells row col fun heq => hcol heq.2]
    exact h.others row col hcol
  · intro row hge
    rw [className_fillMembers, hdst row (by omega)]
    exact h.ahead row (by omega)
  · intro row hlt
    rw [className_fillMembers]
    rcases Nat.lt_succ_iff_lt_or_eq.mp hlt with hlt | rfl
    · rw [hdst row (by omega)]
      exact h.behind row hlt
    · exact hfilled
  · intro row hlt name hnone hsrc
    simp only [className_fillMembers]
    rcases Nat.lt_succ_iff_lt_or_eq.mp hlt with hlt | rfl
    · obtain ⟨holder, hholder⟩ := h.held row hlt name hnone hsrc
      exact ⟨holder, hkept holder name hholder⟩
    · exact hheld name hnone hsrc
  · intro row kind
    rw [membersIn_fillMembers, hmembers, h.members]
    by_cases hrow : row = next
    · subst hrow
      rw [if_pos rfl, Option.map_map]
      simp [Function.comp_def]
    · have hlt : row < next + 1 ↔ row < next := by omega
      rw [if_neg hrow]
      simp only [hlt]

/-- A visit to a class that has no name to be filled in. -/
theorem FilledSoFar.visit_named {next : Nat} (h : FilledSoFar p t next s) (hcols : p.src ≠ p.dst)
    (hnothing : s.className next p.dst = none → s.className next p.src = none) :
    FilledSoFar p t (next + 1) (fillMembers p s next) := by
  have hdst := h.ahead next (Nat.le_refl _)
  rw [hdst, h.others next p.src hcols] at hnothing
  refine h.add h.indexed rfl rfl (fun _ _ _ => rfl) ?_ ?_ (fun _ _ => id) fun _ _ => rfl
  · rw [hdst]
    cases hown : t.className next p.dst with
    | some own => exact .kept hown
    | none => exact .nameless hown (hnothing hown)
  · intro name hnone hname
    rw [hnothing hnone] at hname
    cases hname

/-- A visit to a class that is to get a name. It gets it unless the name goes to another row. -/
theorem FilledSoFar.visit_unnamed {next : Nat} {name : String} (h : FilledSoFar p t next s)
    (hcols : p.src ≠ p.dst) (hnone : s.className next p.dst = none)
    (hname : s.className next p.src = some name)
    (hrefused : (s.renameClass next p.dst (some name) p.shared).1 = false ↔
      p.shared = false ∧ s.HeldElsewhere next p.dst name) :
    FilledSoFar p t (next + 1)
      (fillMembers p (s.renameClass next p.dst (some name) p.shared).2 next) := by
  have hdst := h.ahead next (Nat.le_refl _)
  have hindexed := indexed_renameClass h.indexed next p.dst (some name) p.shared
  obtain ⟨hns, hsize, hmembers⟩ := frame_renameClass s next p.dst (some name) p.shared
  have hcells := nameIn_renameClass s next p.dst (some name) p.shared
  generalize s.renameClass next p.dst (some name) p.shared = result at *
  obtain ⟨done, u⟩ := result
  dsimp only at *
  rw [hdst] at hnone
  rw [h.others next p.src hcols] at hname
  rw [h.heldElsewhere_iff hnone] at hrefused
  have hnext : u.className next p.dst = if done = true then some name else none := by
    rw [className_eq_nameIn, hcells]
    simp only [and_true]
    split
    · rfl
    · exact hdst.trans hnone
  have hkept : ∀ row own, s.className row p.dst = some own →
      u.className row p.dst = some own := by
    intro row own hheld
    rw [className_eq_nameIn, hcells, if_neg]
    · exact hheld
    · rintro ⟨_, rfl, _⟩
      rw [hdst, hnone] at hheld
      cases hheld
  refine h.add hindexed hns hsize ?_ ?_ ?_ hkept hmembers
  · intro row col hne
    rw [className_eq_nameIn, hcells, if_neg fun heq => hne heq.2]
    rfl
  · rw [hnext]
    cases done with
    | true => exact .filled hnone hname fun htaken => nomatch hrefused.mpr htaken
    | false => exact .refused hnone hname (hrefused.mp rfl)
  · intro name' _ hname'
    rw [hname] at hname'
    cases hname'
    cases done with
    | true => exact ⟨next, by rw [hnext, if_pos rfl]⟩
    | false =>
      obtain ⟨_, holder, _, hheld⟩ := (h.heldElsewhere_iff hnone).mpr (hrefused.mp rfl)
      exact ⟨holder, hkept holder name hheld⟩

/-- One visit keeps the invariant. -/
theorem FilledSoFar.visit {next : Nat} (h : FilledSoFar p t next s) (hcols : p.src ≠ p.dst) :
    FilledSoFar p t (next + 1) (fillClass p s next) := by
  rw [fillClass_eq]
  rcases fillName_cases p h.indexed next with
    ⟨hnothing, heq⟩ | ⟨name, hnone, hname, heq, hrefused⟩
  · rw [heq]
    exact h.visit_named hcols hnothing
  · rw [heq]
    exact h.visit_unnamed hcols hnone hname hrefused

/-- The whole walk. -/
theorem filled_copyUnnamed (ht : t.Indexed) (hcols : p.src ≠ p.dst) :
    FilledSoFar p t t.size (t.copyUnnamed p) := by
  unfold copyUnnamed
  have hrun : ∀ n, FilledSoFar p t n ((List.range n).foldl (fillClass p) t) := by
    intro n
    induction n with
    | zero => exact filled_start p ht
    | succ n ih =>
      rw [List.range_succ, List.foldl_concat]
      exact ih.visit hcols
  exact hrun t.size

/-! ## A second walk -/

/-- The index is wide enough for a column in which a name is found. -/
theorem widenIndex_of_findClass {name : String} {col owner : Nat}
    (h : t.findClass name col = some owner) : widenIndex t.index (col + 1) = t.index := by
  obtain ⟨ix, hix, _⟩ := Option.bind_eq_some_iff.mp h
  have hlt := (List.getElem?_eq_some_iff.mp hix).1
  unfold widenIndex
  rw [Nat.sub_eq_zero_of_le hlt, List.replicate_zero, List.append_nil]

/-- A refusal of a name that another row holds leaves the whole tree as it is. -/
theorem renameClass_of_held {row col : Nat} {name : String} (ht : t.Indexed)
    (hown : t.className row col ≠ some name)
    (hheld : ∃ holder, t.className holder col = some name) :
    (t.renameClass row col (some name) false).2 = t := by
  obtain ⟨holder, hheld⟩ := hheld
  rcases renameClass_cases t row col (some name) false with
    ⟨_, heq⟩ | ⟨_, _, _, _, _, hn, hfind, _, heq⟩ | ⟨_, _, hfree, _⟩
  · rw [heq]
  · cases hn
    rw [heq, widenIndex_of_findClass hfind]
  · cases hfirst : firstHolder t.classes col name with
    | none => exact absurd hheld (firstHolder_eq_none.mp hfirst holder)
    | some first =>
      have hrow : first = row := hfree rfl name first rfl ((ht col name).trans hfirst)
      exact absurd (hrow ▸ (firstHolder_eq_some.mp hfirst).1) hown

theorem FilledSoFar.fillName_eq (h : FilledSoFar p t t.size s) (hcols : p.src ≠ p.dst)
    (row : Nat) : fillName p s row = s := by
  rcases fillName_cases p h.indexed row with ⟨_, heq⟩ | ⟨name, hnone, hname, heq, _⟩
  · exact heq
  · have hlt : row < t.size := Nat.lt_of_lt_of_eq (lt_of_className hname) h.size
    have hsrc := h.others row p.src hcols
    have hfilled := h.behind row hlt
    rw [hnone] at hfilled
    cases hfilled with
    | nameless _ hnothing =>
      rw [hsrc, hnothing] at hname
      cases hname
    | refused hdst hrefused htaken =>
      have hheld := h.held row hlt _ hdst (hsrc.symm.trans hname)
      rw [heq, htaken.1]
      exact renameClass_of_held h.indexed (by rw [hnone]; simp) hheld

theorem FilledSoFar.fillMembers_eq (h : FilledSoFar p t t.size s) (hcols : p.src ≠ p.dst)
    (row : Nat) : fillMembers p s row = s := by
  unfold fillMembers
  cases hc : s.classes[row]? with
  | none => rfl
  | some c =>
    have hlt : row < t.classes.length := h.size ▸ (List.getElem?_eq_some_iff.mp hc).1
    have hmembers : ∀ kind, (c.members kind).map (fillMember p) = c.members kind := by
      intro kind
      have hkind := h.members row kind
      rw [show membersIn s.classes row kind = some (c.members kind) by
        unfold membersIn; rw [hc]; rfl] at hkind
      obtain ⟨ms, _, hms⟩ := Option.map_eq_some_iff.mp hkind.symm
      rw [if_pos (show row < t.size from hlt)] at hms
      rw [← hms, List.map_map]
      exact List.map_congr_left fun m _ => fillMember_fillMember hcols m
    have hsame : { c with
        fields := c.fields.map (fillMember p)
        methods := c.methods.map (fillMember p) } = c := by
      have hfields : c.fields.map (fillMember p) = c.fields := hmembers .field
      have hmethods : c.methods.map (fillMember p) = c.methods := hmembers .method
      rw [hfields, hmethods]
    simp only
    rw [hsame]
    unfold setClass
    obtain ⟨hrow, hget⟩ := List.getElem?_eq_some_iff.mp hc
    rw [← hget, List.set_getElem_self]

/-- After a walk there is nothing left to fill in. -/
theorem FilledSoFar.again (h : FilledSoFar p t t.size s) (hcols : p.src ≠ p.dst) :
    s.copyUnnamed p = s := by
  unfold copyUnnamed
  refine List.foldlRecOn (motive := fun u => u = s) _ _ rfl ?_
  rintro u rfl row _
  rw [fillClass_eq, h.fillName_eq hcols row]
  exact h.fillMembers_eq hcols row

/-! ## What filling in does -/

/-- A member with its own name in the target column, or else with its source name there. -/
structure FilledMember (p : PassColumns) (m m' : MemberRow) : Prop where
  desc : m'.srcDesc = m.srcDesc
  others : ∀ col, col ≠ p.dst → m'.name col = m.name col
  target : m'.name p.dst = (m.name p.dst).or (m.name p.src)

/-- Filling in changes nothing but names that were missing. A member gets its source name, and so
does a class, unless the name must not be shared and goes to another row, which then has it in
the end. A second time nothing changes. -/
theorem nothing_but_missing_names_is_filled_in (ht : t.Indexed) (hcols : p.src ≠ p.dst) :
    let after := t.copyUnnamed p
    after.namespaces = t.namespaces ∧ after.Indexed ∧
    after.classes.length = t.classes.length ∧
    (∀ row col, col ≠ p.dst → after.className row col = t.className row col) ∧
    (∀ row, t.FilledName p row (after.className row p.dst)) ∧
    (∀ row name, t.className row p.dst = none → t.className row p.src = some name →
      after.className row p.dst = none → after.HeldElsewhere row p.dst name) ∧
    (∀ row kind, Option.Rel (List.Forall₂ (FilledMember p)) (membersIn t.classes row kind)
      (membersIn after.classes row kind)) ∧
    after.copyUnnamed p = after := by
  intro after
  have hwalk : FilledSoFar p t t.size after := filled_copyUnnamed ht hcols
  refine ⟨hwalk.namespaces, hwalk.indexed, hwalk.size, hwalk.others, ?_, ?_, ?_,
    hwalk.again hcols⟩
  · intro row
    by_cases hlt : row < t.size
    · exact hwalk.behind row hlt
    · have hbeyond : ∀ col, t.className row col = none :=
        nameIn_eq_none (Nat.le_of_not_lt hlt)
      rw [hwalk.ahead row (Nat.le_of_not_lt hlt), hbeyond]
      exact .nameless (hbeyond _) (hbeyond _)
  · intro row name hdst hsrc hnone
    obtain ⟨holder, hheld⟩ := hwalk.held row (lt_of_className hsrc) name hdst hsrc
    refine ⟨holder, ?_, hheld⟩
    rintro rfl
    rw [hnone] at hheld
    cases hheld
  · intro row kind
    rw [hwalk.members]
    cases hms : membersIn t.classes row kind with
    | none => exact .none
    | some ms =>
      have hlt : row < t.size := by
        by_contra hge
        unfold membersIn at hms
        rw [List.getElem?_eq_none (Nat.le_of_not_lt hge)] at hms
        cases hms
      rw [Option.map_some, if_pos hlt]
      refine .some (List.forall₂_map_right_iff.mpr
        (List.forall₂_same.mpr fun m _ => ?_))
      refine ⟨srcDesc_fillMember p m, fun col hcol => ?_, ?_⟩
      · rw [name_fillMember, if_neg hcol]
      · rw [name_fillMember, if_pos rfl]

/-- A class has as its new name what another one is called in the source, which has no new name. -/
def borrowedName : TreeSession :=
  [.addNamespace "named", .addClass "a", .addClass "b", .addClass "c",
    .setClassName 0 1 (some "b")].foldl TreeSession.step
    (TreeSession.empty.step (.addNamespace "official"))

theorem a_borrowed_name_is_not_filled_in :
    borrowedName.tree.Indexed ∧
      (borrowedName.tree.copyUnnamed ⟨0, 1, false⟩).className 1 1 = none ∧
      (borrowedName.tree.copyUnnamed ⟨0, 1, false⟩).HeldElsewhere 1 1 "b" ∧
      (borrowedName.tree.copyUnnamed ⟨0, 1, false⟩).className 2 1 = some "c" ∧
      (borrowedName.tree.copyUnnamed ⟨0, 1, false⟩).copyUnnamed ⟨0, 1, false⟩ =
        borrowedName.tree.copyUnnamed ⟨0, 1, false⟩ := by
  have hreached : borrowedName.Reached :=
    (((((TreeSession.Reached.start "official").step (.addNamespace "named") nofun).step
      (.addClass "a") nofun).step (.addClass "b") nofun).step (.addClass "c") nofun).step
      (.setClassName 0 1 (some "b")) (by decide)
  have hindexed := hreached.good.indexed
  obtain ⟨_, _, _, _, _, hheld, _, hagain⟩ :=
    nothing_but_missing_names_is_filled_in (p := ⟨0, 1, false⟩) hindexed (by decide)
  have hrefused : (borrowedName.tree.copyUnnamed ⟨0, 1, false⟩).className 1 1 = none := by decide
  exact ⟨hindexed, hrefused, hheld 1 "b" (by decide) (by decide) hrefused, by decide, hagain⟩

end MappingTree

end JarDerivation
