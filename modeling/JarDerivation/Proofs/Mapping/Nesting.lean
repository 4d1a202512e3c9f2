-- The laws of nesting. `renest` walks over the classes and puts their names in one
-- column together, each below the name of its outer class. A class that is done
-- keeps its name, so a walk changes nothing just when every class is in its place.
import JarDerivation.Mapping.Passes
import JarDerivation.Proofs.Mapping.Cells
import JarDerivation.Proofs.Text.Split
import Mathlib.Logic.Relation

namespace JarDerivation

/-! ## Nested names -/

/-- The name of a nested class below the name of its outer class. -/
def nestedName (outer : String) (current : Option String) (simple : String) : String :=
  outer ++ "$" ++ (current.map simpleName).getD simple

/-- A simple name below any outer name is what is simple of the two. -/
theorem simpleName_nested (outer name : String) :
    simpleName (outer ++ "$" ++ simpleName name) = simpleName name := by
  have hdollar : '$' ∉ (simpleName name).toList := Text.notMem_afterLast _ _
  have hslash : '/' ∉ (simpleName name).toList := by
    intro h
    exact Text.notMem_afterLast _ _ (Text.mem_afterLast h)
  generalize simpleName name = simple at hdollar hslash ⊢
  have hlist : (outer ++ "$" ++ simple).toList = outer.toList ++ '$' :: simple.toList := by simp
  have hafter : ∃ a, (Text.afterLast '/' (outer ++ "$" ++ simple)).toList =
      a ++ '$' :: simple.toList := by
    by_cases hmem : '/' ∈ outer.toList
    · cases hsplit : Text.splitLast? '/' outer with
      | none => exact absurd hmem (Text.splitLast?_eq_none.mp hsplit)
      | some parts =>
        obtain ⟨heq, hb⟩ := Text.splitLast?_eq_some hsplit
        refine ⟨parts.2.toList, Text.toList_afterLast (a := parts.1.toList) ?_ ?_⟩
        · rw [hlist, heq]
          simp
        · simp [hb, hslash]
    · refine ⟨outer.toList, ?_⟩
      rw [Text.afterLast_of_notMem (by simp [hmem, hslash]), hlist]
  obtain ⟨a, ha⟩ := hafter
  apply String.toList_injective
  exact Text.toList_afterLast ha hdollar

/-- Nesting a name that is nested already gives it back. -/
theorem nestedName_nested (outer name simple : String) :
    nestedName outer (some (nestedName outer (some name) simple)) simple =
      nestedName outer (some name) simple := by
  unfold nestedName
  simp only [Option.map_some, Option.getD_some]
  rw [simpleName_nested]

namespace MappingTree

/-! ## Outer classes -/

/-- The length of the name of a row in a column. -/
def depth (t : MappingTree) (col row : Nat) : Nat :=
  ((t.className row col).map String.length).getD 0

theorem enclosing?_eq_some {t : MappingTree} {col row parent : Nat} {simple : String}
    (h : t.enclosing? col row = some (parent, simple)) :
    ∃ name outer, t.className row col = some name ∧
      Text.splitLast? '$' name = some (outer, simple) ∧
      t.findClass outer col = some parent := by
  unfold enclosing? at h
  obtain ⟨name, hname, h⟩ := Option.bind_eq_some_iff.mp h
  obtain ⟨⟨outer, simple'⟩, hsplit, h⟩ := Option.bind_eq_some_iff.mp h
  obtain ⟨parent', hfind, h⟩ := Option.bind_eq_some_iff.mp h
  cases h
  exact ⟨name, outer, hname, hsplit, hfind⟩

/-- An outer class has a shorter name. -/
theorem depth_lt_of_enclosing? {t : MappingTree} (ht : t.Indexed) {col row parent : Nat}
    {simple : String} (h : t.enclosing? col row = some (parent, simple)) :
    t.depth col parent < t.depth col row := by
  obtain ⟨name, outer, hname, hsplit, hfind⟩ := enclosing?_eq_some h
  rw [ht] at hfind
  have hparent : t.className parent col = some outer := (firstHolder_eq_some.mp hfind).1
  obtain ⟨heq, _⟩ := Text.splitLast?_eq_some hsplit
  have hlen := congrArg List.length heq
  rw [List.length_append, List.length_cons] at hlen
  unfold depth
  rw [hparent, hname]
  simp only [Option.map_some, Option.getD_some, ← String.length_toList]
  omega

/-- Trees that agree on the names in a column agree on the outer classes in it. -/
theorem enclosing?_congr {t s : MappingTree} (ht : t.Indexed) (hs : s.Indexed) {col : Nat}
    (h : ∀ row, s.className row col = t.className row col) (row : Nat) :
    s.enclosing? col row = t.enclosing? col row := by
  have hfind : ∀ name, s.findClass name col = t.findClass name col := by
    intro name
    rw [hs, ht]
    exact firstHolder_congr h name
  unfold enclosing?
  rw [h]
  simp only [hfind]

/-! ## A walk -/

/-- Nesting leaves a row as it is: it has its nested name, or another row answers
to that name and names are not shared. -/
def InPlace (t : MappingTree) (p : PassColumns) (row : Nat) : Prop :=
  ∀ parent simple outer, t.enclosing? p.src row = some (parent, simple) →
    t.className parent p.dst = some outer →
    t.className row p.dst = some (nestedName outer (t.className row p.dst) simple) ∨
      p.shared = false ∧ ∃ other, other ≠ row ∧
        t.findClass (nestedName outer (t.className row p.dst) simple) p.dst = some other

theorem inPlace_iff {t : MappingTree} {p : PassColumns} {row parent : Nat} {simple outer : String}
    (henc : t.enclosing? p.src row = some (parent, simple))
    (hparent : t.className parent p.dst = some outer) :
    t.InPlace p row ↔
      t.className row p.dst = some (nestedName outer (t.className row p.dst) simple) ∨
        p.shared = false ∧ ∃ other, other ≠ row ∧
          t.findClass (nestedName outer (t.className row p.dst) simple) p.dst = some other := by
  refine ⟨fun h => h parent simple outer henc hparent, fun h => ?_⟩
  intro parent' simple' outer' henc' hparent'
  rw [henc] at henc'
  cases henc'
  rw [hparent] at hparent'
  cases hparent'
  exact h

/-- A row whose outer class has no name is in its place. -/
theorem inPlace_of_unnamed {t : MappingTree} {p : PassColumns} {row parent : Nat} {simple : String}
    (henc : t.enclosing? p.src row = some (parent, simple))
    (hparent : t.className parent p.dst = none) : t.InPlace p row := by
  intro parent' simple' outer' henc' hparent'
  rw [henc] at henc'
  cases henc'
  rw [hparent] at hparent'
  cases hparent'

/-- A row has its old name, or it is nested below a row that is done. -/
def NestedOrOld (p : PassColumns) (t : MappingTree) (s : Nesting) (row : Nat) : Prop :=
  s.tree.className row p.dst = t.className row p.dst ∨
    ∃ parent simple outer, t.enclosing? p.src row = some (parent, simple) ∧
      s.done.lookup parent = some (some outer) ∧
      s.tree.className row p.dst = some (nestedName outer (t.className row p.dst) simple)

theorem NestedOrOld.mono {p : PassColumns} {t : MappingTree} {s s' : Nesting} {row : Nat}
    (h : NestedOrOld p t s row)
    (hname : s'.tree.className row p.dst = s.tree.className row p.dst)
    (hdone : ∀ parent name, s.done.lookup parent = some name →
      s'.done.lookup parent = some name) : NestedOrOld p t s' row := by
  rcases h with hold | ⟨parent, simple, outer, henc, hparent, hnested⟩
  · exact Or.inl (hname.trans hold)
  · exact Or.inr ⟨parent, simple, outer, henc, hdone parent _ hparent, hname.trans hnested⟩

/-- What a walk over the classes of `t` keeps. -/
structure Walked (p : PassColumns) (t : MappingTree) (s : Nesting) : Prop where
  indexed : s.tree.Indexed
  namespaces : s.tree.namespaces = t.namespaces
  size : s.tree.classes.length = t.classes.length
  members : ∀ row kind, membersIn s.tree.classes row kind = membersIn t.classes row kind
  others : ∀ row col, col ≠ p.dst → s.tree.className row col = t.className row col
  untouched : ∀ row, s.done.lookup row = none →
    s.tree.className row p.dst = t.className row p.dst
  kept : ∀ row name, s.done.lookup row = some name → s.tree.className row p.dst = name
  origin : ∀ row, NestedOrOld p t s row
  exact : (∀ row, s.tree.className row p.dst = t.className row p.dst) ↔
    ∀ row, s.done.lookup row ≠ none → t.InPlace p row

theorem walked_start {p : PassColumns} {t : MappingTree} (ht : t.Indexed) : Walked p t ⟨t, []⟩ where
  indexed := ht
  namespaces := rfl
  size := rfl
  members _ _ := rfl
  others _ _ _ := rfl
  untouched _ _ := rfl
  kept := nofun
  origin _ := Or.inl rfl
  exact := ⟨fun _ _ h => absurd rfl h, fun _ _ => rfl⟩

/-- A row that keeps its name just when it is in place is one more row to be in place. -/
theorem Walked.exact_add {p : PassColumns} {t tree : MappingTree} {s : Nesting} {row : Nat}
    (h : Walked p t s) (hnew : s.done.lookup row = none)
    (hdst : ∀ j, j ≠ row → tree.className j p.dst = s.tree.className j p.dst)
    (hexact : (∀ j, s.tree.className j p.dst = t.className j p.dst) →
      (tree.className row p.dst = t.className row p.dst ↔ t.InPlace p row))
    (name : Option String) :
    (∀ j, tree.className j p.dst = t.className j p.dst) ↔
      ∀ j, ((row, name) :: s.done).lookup j ≠ none → t.InPlace p j := by
  constructor
  · intro hall j hj
    have hbefore : ∀ k, s.tree.className k p.dst = t.className k p.dst := by
      intro k
      by_cases hk : k = row
      · rw [hk]
        exact h.untouched row hnew
      · rw [← hdst k hk]
        exact hall k
    rw [lookup_cons_ite] at hj
    split at hj
    · rename_i heq
      subst heq
      exact (hexact hbefore).mp (hall j)
    · exact h.exact.mp hbefore j hj
  · intro hall j
    have hbefore : ∀ k, s.tree.className k p.dst = t.className k p.dst := by
      apply h.exact.mpr
      intro k hk
      apply hall k
      rw [lookup_cons_ite]
      split
      · simp
      · exact hk
    by_cases hj : j = row
    · subst hj
      refine (hexact hbefore).mpr (hall j ?_)
      rw [lookup_cons_ite, if_pos rfl]
      simp
    · rw [hdst j hj]
      exact hbefore j

/-- A walk goes on when one more row is done and no other name changes. -/
theorem Walked.add {p : PassColumns} {t tree : MappingTree} {s : Nesting} {row : Nat}
    (h : Walked p t s) (hnew : s.done.lookup row = none) (hindexed : tree.Indexed)
    (hns : tree.namespaces = s.tree.namespaces)
    (hlen : tree.classes.length = s.tree.classes.length)
    (hmembers : ∀ j kind, membersIn tree.classes j kind = membersIn s.tree.classes j kind)
    (hcells : ∀ j col, ¬ (j = row ∧ col = p.dst) → tree.className j col = s.tree.className j col)
    (horigin : NestedOrOld p t { s with tree } row)
    (hexact : (∀ j, s.tree.className j p.dst = t.className j p.dst) →
      (tree.className row p.dst = t.className row p.dst ↔ t.InPlace p row)) :
    Walked p t ⟨tree, (row, tree.className row p.dst) :: s.done⟩ := by
  have hdst : ∀ j, j ≠ row → tree.className j p.dst = s.tree.className j p.dst :=
    fun j hj => hcells j p.dst fun heq => hj heq.1
  have hdone : ∀ parent name, s.done.lookup parent = some name →
      ((row, tree.className row p.dst) :: s.done).lookup parent = some name := by
    intro parent name hparent
    rw [lookup_cons_ite, if_neg, hparent]
    rintro rfl
    rw [hnew] at hparent
    cases hparent
  refine ⟨hindexed, hns.trans h.namespaces, hlen.trans h.size,
    fun j kind => (hmembers j kind).trans (h.members j kind), ?_, ?_, ?_, ?_,
    h.exact_add hnew hdst hexact _⟩
  · intro j col hcol
    rw [← h.others j col hcol]
    exact hcells j col fun heq => hcol heq.2
  · intro j hj
    rw [lookup_cons_ite] at hj
    split at hj
    · cases hj
    · rename_i hne
      rw [← h.untouched j hj]
      exact hdst j hne
  · intro j name hj
    rw [lookup_cons_ite] at hj
    split at hj
    · rename_i heq
      subst heq
      exact Option.some.inj hj
    · rename_i hne
      rw [← h.kept j name hj]
      exact hdst j hne
  · intro j
    by_cases hj : j = row
    · subst hj
      exact horigin.mono rfl hdone
    · exact (h.origin j).mono (hdst j hj) hdone

/-- The tree after a row has been given its nested name, if it has one. -/
def nestTo (p : PassColumns) (tree : MappingTree) (row : Nat) (current target : Option String) :
    MappingTree :=
  match target with
  | none => tree
  | some name =>
    if current = some name then tree else tree.setOutputName row p.dst name p.shared

/-- A row that is not done is named below its outer class, which is done first. -/
theorem nestRow_new (p : PassColumns) (fuel : Nat) {s : Nesting} {row : Nat}
    (hnew : s.done.lookup row = none) :
    ∃ target s', (match s.tree.enclosing? p.src row with
        | none => target = none ∧ s' = s
        | some (parent, simple) =>
          target = (nestRow p fuel s parent).1.map
            (nestedName · (s.tree.className row p.dst) simple) ∧
          s' = (nestRow p fuel s parent).2) ∧
      nestRow p (fuel + 1) s row =
        ((nestTo p s'.tree row (s.tree.className row p.dst) target).className row p.dst,
          ⟨nestTo p s'.tree row (s.tree.className row p.dst) target,
            (row, (nestTo p s'.tree row (s.tree.className row p.dst) target).className row p.dst) ::
              s'.done⟩) := by
  rw [nestRow, hnew]
  cases henc : s.tree.enclosing? p.src row with
  | none => exact ⟨none, s, ⟨rfl, rfl⟩, rfl⟩
  | some found =>
    obtain ⟨parent, simple⟩ := found
    refine ⟨_, _, ⟨rfl, rfl⟩, ?_⟩
    simp only
    cases (nestRow p fuel s parent).1 <;> rfl

/-- A walk goes on with a row that keeps its name, if that is in its place while no
name has changed. -/
theorem Walked.stay {p : PassColumns} {t : MappingTree} {s : Nesting} {row : Nat}
    (h : Walked p t s) (hnew : s.done.lookup row = none)
    (hplace : (∀ j, s.tree.className j p.dst = t.className j p.dst) → t.InPlace p row) :
    Walked p t ⟨s.tree, (row, s.tree.className row p.dst) :: s.done⟩ := by
  have hrow := h.untouched row hnew
  exact h.add hnew h.indexed rfl rfl (fun _ _ => rfl) (fun _ _ _ => rfl) (Or.inl hrow)
    fun hall => ⟨fun _ => hplace hall, fun _ => hrow⟩

/-- A walk goes on with a row that is named below its outer class, or to which this
name is refused. -/
theorem Walked.rename {p : PassColumns} {t : MappingTree} {s : Nesting} {row parent : Nat}
    {simple outer : String} (h : Walked p t s) (ht : t.Indexed) (hcols : p.src ≠ p.dst)
    (hnew : s.done.lookup row = none) (henc : t.enclosing? p.src row = some (parent, simple))
    (hdone : s.done.lookup parent = some (some outer))
    (hother : t.className row p.dst ≠ some (nestedName outer (t.className row p.dst) simple)) :
    let tree := s.tree.setOutputName row p.dst (nestedName outer (t.className row p.dst) simple)
      p.shared
    Walked p t ⟨tree, (row, tree.className row p.dst) :: s.done⟩ := by
  have hparent : s.tree.className parent p.dst = some outer := h.kept parent _ hdone
  generalize hname : nestedName outer (t.className row p.dst) simple = name at hother
  unfold setOutputName
  obtain ⟨hns, hlen, hmembers⟩ := frame_renameClass s.tree row p.dst (some name) p.shared
  have hcells := nameIn_renameClass s.tree row p.dst (some name) p.shared
  have hcell : (s.tree.renameClass row p.dst (some name) p.shared).2.className row p.dst =
      if (s.tree.renameClass row p.dst (some name) p.shared).1 = true then some name
      else t.className row p.dst := by
    rw [className_eq_nameIn, hcells]
    simp only [and_true]
    split
    · rfl
    · exact h.untouched row hnew
  refine h.add hnew (indexed_renameClass h.indexed _ _ _ _) hns hlen hmembers ?_ ?_ ?_
  · intro j col hne
    rw [className_eq_nameIn, hcells, if_neg fun heq => hne heq.2]
    rfl
  · unfold NestedOrOld
    rw [hcell]
    split
    · exact Or.inr ⟨parent, simple, outer, henc, hdone, by rw [hname]⟩
    · exact Or.inl rfl
  · intro hall
    -- While no name has changed, both trees have the same look-ups.
    have hfind : s.tree.findClass name p.dst = t.findClass name p.dst := by
      rw [h.indexed, ht]
      exact firstHolder_congr hall name
    have hplace := inPlace_iff henc (by rw [← hall, hparent])
    rw [hname] at hplace
    rw [hcell]
    rcases renameClass_cases s.tree row p.dst (some name) p.shared with
      ⟨hnone, _⟩ | ⟨_, n, owner, _, hshared, hn, howner, hne, hrefused⟩ | ⟨_, _, hfree, hset⟩
    · obtain ⟨srcName, _, hsrc, _⟩ := enclosing?_eq_some henc
      rw [← h.others row p.src hcols, className, hnone] at hsrc
      cases hsrc
    · cases hn
      rw [hrefused, hplace]
      refine ⟨fun _ => Or.inr ⟨hshared, owner, hne, ?_⟩, fun _ => rfl⟩
      rw [← hfind]
      exact howner
    · rw [hset, if_pos rfl, hplace]
      refine ⟨fun heq => absurd heq.symm hother, ?_⟩
      rintro (hin | ⟨hshared, owner, hne, howner⟩)
      · exact absurd hin hother
      · rw [← hfind] at howner
        exact absurd (hfree hshared name owner rfl howner) hne

/-- A walk goes on with a row whose outer class, if it has one, is done. -/
theorem Walked.nestTo {p : PassColumns} {t : MappingTree} {s : Nesting} {row : Nat}
    {target : Option String} (h : Walked p t s) (ht : t.Indexed) (hcols : p.src ≠ p.dst)
    (hnew : s.done.lookup row = none)
    (htarget : match t.enclosing? p.src row with
      | none => target = none
      | some (parent, simple) => ∃ outer, s.done.lookup parent = some outer ∧
          target = outer.map (nestedName · (t.className row p.dst) simple)) :
    let tree := nestTo p s.tree row (t.className row p.dst) target
    Walked p t ⟨tree, (row, tree.className row p.dst) :: s.done⟩ := by
  cases henc : t.enclosing? p.src row with
  | none =>
    rw [henc] at htarget
    subst htarget
    refine h.stay hnew fun _ parent simple outer henc' _ => ?_
    rw [henc] at henc'
    cases henc'
  | some found =>
    obtain ⟨parent, simple⟩ := found
    rw [henc] at htarget
    obtain ⟨outer, hdone, htarget⟩ := htarget
    have hparent := h.kept parent _ hdone
    subst htarget
    cases outer with
    | none =>
      refine h.stay hnew fun hall => inPlace_of_unnamed henc ?_
      rw [← hall, hparent]
    | some outer =>
      unfold MappingTree.nestTo
      simp only [Option.map_some]
      split
      · rename_i hsame
        refine h.stay hnew fun hall => (inPlace_iff henc ?_).mpr (Or.inl hsame)
        rw [← hall, hparent]
      · rename_i hother
        exact h.rename ht hcols hnew henc hdone hother

/-! ## Steps -/

/-- One more row is done. Its outer class, if it has one by the names in `t`, was done before. -/
inductive NestStep (p : PassColumns) (t : MappingTree) (s : Nesting) : Nesting → Prop where
  | mk {row : Nat} {target : Option String} (hnew : s.done.lookup row = none)
      (htarget : match t.enclosing? p.src row with
        | none => target = none
        | some (parent, simple) => ∃ outer, s.done.lookup parent = some outer ∧
            target = outer.map (nestedName · (t.className row p.dst) simple)) :
      NestStep p t s
        ⟨nestTo p s.tree row (t.className row p.dst) target,
          (row, (nestTo p s.tree row (t.className row p.dst) target).className row p.dst) :: s.done⟩

/-- Any number of rows are done, one after the other. -/
abbrev NestSteps (p : PassColumns) (t : MappingTree) : Nesting → Nesting → Prop :=
  Relation.ReflTransGen (NestStep p t)

theorem Walked.run {p : PassColumns} {t : MappingTree} {s s' : Nesting} (h : Walked p t s)
    (ht : t.Indexed) (hcols : p.src ≠ p.dst) (hrun : NestSteps p t s s') : Walked p t s' := by
  induction hrun with
  | refl => exact h
  | tail _ hstep ih =>
    obtain ⟨hnew, htarget⟩ := hstep
    exact ih.nestTo ht hcols hnew htarget

/-- Nesting a row does it, keeps all that was done, and otherwise does only rows
with shorter names. -/
theorem steps_nestRow {p : PassColumns} {t : MappingTree} (ht : t.Indexed) (hcols : p.src ≠ p.dst)
    (fuel : Nat) {s : Nesting} {row : Nat} (h : Walked p t s) (hfuel : t.depth p.src row < fuel) :
    NestSteps p t s (nestRow p fuel s row).2 ∧
      (nestRow p fuel s row).2.done.lookup row = some (nestRow p fuel s row).1 ∧
      (∀ j name, s.done.lookup j = some name →
        (nestRow p fuel s row).2.done.lookup j = some name) ∧
      ∀ j, j ≠ row → t.depth p.src row ≤ t.depth p.src j →
        (nestRow p fuel s row).2.done.lookup j = s.done.lookup j := by
  induction fuel generalizing s row with
  | zero => omega
  | succ fuel ih =>
    cases hnew : s.done.lookup row with
    | some name =>
      rw [nestRow, hnew]
      exact ⟨.refl, hnew, fun _ _ hj => hj, fun _ _ _ => rfl⟩
    | none =>
      obtain ⟨target, s', hbranch, heq⟩ := nestRow_new p fuel hnew
      rw [heq, h.untouched row hnew]
      rw [enclosing?_congr ht h.indexed (fun j => h.others j p.src hcols),
        h.untouched row hnew] at hbranch
      -- What the outer class has left: it is done, and the row itself is not.
      have hbefore : NestSteps p t s s' ∧ s'.done.lookup row = none ∧
          (∀ j name, s.done.lookup j = some name → s'.done.lookup j = some name) ∧
          (∀ j, j ≠ row → t.depth p.src row ≤ t.depth p.src j →
            s'.done.lookup j = s.done.lookup j) ∧
          match t.enclosing? p.src row with
            | none => target = none
            | some (parent, simple) => ∃ outer, s'.done.lookup parent = some outer ∧
                target = outer.map (nestedName · (t.className row p.dst) simple) := by
        cases henc : t.enclosing? p.src row with
        | none =>
          rw [henc] at hbranch
          obtain ⟨htarget, hs⟩ := hbranch
          subst hs
          exact ⟨.refl, hnew, fun _ _ hj => hj, fun _ _ _ => rfl, htarget⟩
        | some found =>
          obtain ⟨parent, simple⟩ := found
          rw [henc] at hbranch
          obtain ⟨htarget, hs⟩ := hbranch
          have hlt := depth_lt_of_enclosing? ht henc
          have hdepth : t.depth p.src parent < fuel := by omega
          obtain ⟨hsteps, hparent, hkeep, hframe⟩ := ih h hdepth
          rw [← hs] at hsteps hparent hkeep hframe
          refine ⟨hsteps, ?_, hkeep, ?_, _, hparent, htarget⟩
          · rw [hframe row (by rintro rfl; omega) (by omega)]
            exact hnew
          · intro j _ hdepth
            exact hframe j (by rintro rfl; omega) (by omega)
      obtain ⟨hsteps, hnew', hkeep, hframe, htarget⟩ := hbefore
      refine ⟨hsteps.tail ⟨hnew', htarget⟩, ?_, ?_, ?_⟩
      · rw [lookup_cons_ite, if_pos rfl]
      · intro j name hj
        rw [lookup_cons_ite, if_neg, hkeep j name hj]
        rintro rfl
        rw [hnew] at hj
        cases hj
      · intro j hne hdepth
        rw [lookup_cons_ite, if_neg hne]
        exact hframe j hne hdepth

theorem steps_nestNext {p : PassColumns} {t : MappingTree} (ht : t.Indexed) (hcols : p.src ≠ p.dst)
    {s : Nesting} (h : Walked p t s) (row : Nat) :
    NestSteps p t s (nestNext p s row) ∧
      (∀ j name, s.done.lookup j = some name → (nestNext p s row).done.lookup j = some name) ∧
      (t.enclosing? p.src row ≠ none → (nestNext p s row).done.lookup row ≠ none) := by
  unfold nestNext
  rw [h.others row p.src hcols]
  cases hname : t.className row p.src with
  | none =>
    refine ⟨.refl, fun _ _ hj => hj, fun henc => absurd ?_ henc⟩
    unfold enclosing?
    rw [hname]
    rfl
  | some name =>
    simp only
    split
    · have hdepth : t.depth p.src row < name.length + 1 := by
        unfold depth
        rw [hname]
        simp
      obtain ⟨hsteps, hrow, hkeep, _⟩ := steps_nestRow ht hcols _ h hdepth
      exact ⟨hsteps, hkeep, fun _ => by rw [hrow]; simp⟩
    · rename_i hdollar
      refine ⟨.refl, fun _ _ hj => hj, fun henc => absurd ?_ henc⟩
      have hsplit : Text.splitLast? '$' name = none :=
        Text.splitLast?_eq_none.mpr (by simpa using hdollar)
      unfold enclosing?
      rw [hname]
      simp [hsplit]

theorem steps_nestAll {p : PassColumns} {t : MappingTree} (ht : t.Indexed) (hcols : p.src ≠ p.dst)
    (rows : List Nat) {s : Nesting} (h : Walked p t s) :
    NestSteps p t s (rows.foldl (nestNext p) s) ∧
      (∀ j name, s.done.lookup j = some name →
        (rows.foldl (nestNext p) s).done.lookup j = some name) ∧
      ∀ row ∈ rows, t.enclosing? p.src row ≠ none →
        (rows.foldl (nestNext p) s).done.lookup row ≠ none := by
  induction rows generalizing s with
  | nil => exact ⟨.refl, fun _ _ hj => hj, nofun⟩
  | cons row rest ih =>
    obtain ⟨hnext, hkeep, hrow⟩ := steps_nestNext ht hcols h row
    obtain ⟨hall, hkeepAll, hrest⟩ := ih (h.run ht hcols hnext)
    refine ⟨hnext.trans hall, fun j name hj => hkeepAll j name (hkeep j name hj), ?_⟩
    intro j hj henc
    rcases List.mem_cons.mp hj with rfl | hmem
    · cases hdone : (nestNext p s j).done.lookup j with
      | none => exact absurd hdone (hrow henc)
      | some name =>
        rw [List.foldl_cons, hkeepAll j name hdone]
        simp
    · exact hrest j hmem henc

/-- A walk over rows among which all rows of the tree are does every nested class. -/
theorem walked_nestAll {t : MappingTree} (ht : t.Indexed) {p : PassColumns} (hcols : p.src ≠ p.dst)
    {rows : List Nat} (hrows : ∀ row < t.size, row ∈ rows) :
    NestSteps p t ⟨t, []⟩ (rows.foldl (nestNext p) ⟨t, []⟩) ∧
      Walked p t (rows.foldl (nestNext p) ⟨t, []⟩) ∧
      ∀ row, t.enclosing? p.src row ≠ none →
        (rows.foldl (nestNext p) ⟨t, []⟩).done.lookup row ≠ none := by
  obtain ⟨hsteps, _, hdone⟩ := steps_nestAll ht hcols rows (walked_start ht)
  refine ⟨hsteps, (walked_start ht).run ht hcols hsteps, fun row henc => hdone row ?_ henc⟩
  rcases Nat.lt_or_ge row t.size with hlt | hge
  · exact hrows row hlt
  · refine absurd ?_ henc
    unfold enclosing?
    rw [className_eq_nameIn, nameIn_eq_none hge]
    rfl

/-- The walk of `renest`, which does every nested class. -/
theorem walked_renest {t : MappingTree} (ht : t.Indexed) {p : PassColumns} (hcols : p.src ≠ p.dst) :
    ∃ s, s.tree = t.renest p ∧ Walked p t s ∧
      ∀ row, t.enclosing? p.src row ≠ none → s.done.lookup row ≠ none := by
  obtain ⟨_, hwalk, hdone⟩ := walked_nestAll ht hcols fun row hrow => List.mem_range.mpr hrow
  exact ⟨_, rfl, hwalk, hdone⟩

/-! ## What nesting does -/

/-- Nesting touches nothing but the class names of its column. -/
theorem frame_renest {t : MappingTree} (ht : t.Indexed) {p : PassColumns} (hcols : p.src ≠ p.dst) :
    (t.renest p).Indexed ∧ (t.renest p).namespaces = t.namespaces ∧
      (t.renest p).classes.length = t.classes.length ∧
      (∀ row kind, membersIn (t.renest p).classes row kind = membersIn t.classes row kind) ∧
      ∀ row col, col ≠ p.dst → (t.renest p).className row col = t.className row col := by
  obtain ⟨s, hs, hwalk, _⟩ := walked_renest ht hcols
  rw [← hs]
  exact ⟨hwalk.indexed, hwalk.namespaces, hwalk.size, hwalk.members, hwalk.others⟩

/-- Nesting keeps the names of its column just when all rows are in their place. -/
theorem renest_keeps_iff {t : MappingTree} (ht : t.Indexed) {p : PassColumns}
    (hcols : p.src ≠ p.dst) :
    (∀ row, (t.renest p).className row p.dst = t.className row p.dst) ↔ ∀ row, t.InPlace p row := by
  obtain ⟨s, hs, hwalk, hdone⟩ := walked_renest ht hcols
  rw [← hs, hwalk.exact]
  refine ⟨fun h row parent simple outer henc => ?_, fun h row _ => h row⟩
  exact h row (hdone row (by rw [henc]; simp)) parent simple outer henc

/-- Afterwards a row has its old name, or it is nested below what its outer class is
called now. -/
theorem className_renest {t : MappingTree} (ht : t.Indexed) {p : PassColumns} (hcols : p.src ≠ p.dst)
    (row : Nat) :
    (t.renest p).className row p.dst = t.className row p.dst ∨
      ∃ parent simple outer, t.enclosing? p.src row = some (parent, simple) ∧
        (t.renest p).className parent p.dst = some outer ∧
        (t.renest p).className row p.dst =
          some (nestedName outer (t.className row p.dst) simple) := by
  obtain ⟨s, hs, hwalk, _⟩ := walked_renest ht hcols
  rw [← hs]
  rcases hwalk.origin row with hold | ⟨parent, simple, outer, henc, hparent, hname⟩
  · exact Or.inl hold
  · exact Or.inr ⟨parent, simple, outer, henc, hwalk.kept parent _ hparent, hname⟩

end MappingTree

end JarDerivation
