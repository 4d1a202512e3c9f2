-- Nesting where names may be shared. No name is refused then, so each class ends up below what
-- its outer class ends up as, and the names before the walk decide all of them: neither the
-- order of the rows nor the depth that the walk may go to has a say.
import JarDerivation.Proofs.Mapping.Nesting
import JarDerivation.Proofs.Mapping.OwnColumns

namespace JarDerivation

namespace MappingTree

/-! ## The law of nested names -/

/-- Names for the rows of a tree that are nested as their source names say: a class whose outer
class has a name is named below it, and any other class has its old name. -/
def Nests (t : MappingTree) (src dst : Nat) (names : Nat → Option String) : Prop :=
  ∀ row, names row = match t.enclosing? src row with
    | none => t.className row dst
    | some (parent, simple) =>
      match names parent with
      | none => t.className row dst
      | some outer => some (nestedName outer (t.className row dst) simple)

/-- There is only one way to nest all names, since an outer class has a shorter source name. -/
theorem Nests.unique {t : MappingTree} (ht : t.Indexed) {src dst : Nat}
    {names names' : Nat → Option String} (h : t.Nests src dst names)
    (h' : t.Nests src dst names') : names = names' := by
  have hbelow : ∀ n row, t.depth src row < n → names row = names' row := by
    intro n
    induction n with
    | zero => exact fun _ hn => absurd hn (Nat.not_lt_zero _)
    | succ n ih =>
      intro row hn
      rw [h row, h' row]
      cases henc : t.enclosing? src row with
      | none => rfl
      | some found =>
        obtain ⟨parent, simple⟩ := found
        have hlt := depth_lt_of_enclosing? ht henc
        dsimp only
        rw [ih parent (by omega)]
  funext row
  exact hbelow _ row (Nat.lt_succ_self _)

/-! ## Walks in any order -/

/-- Nests a row if its source name says that it is nested, with depth to spare. -/
def nestDeep (p : PassColumns) (spare : Nat) (s : Nesting) (row : Nat) : Nesting :=
  match s.tree.className row p.src with
  | some name =>
    if name.toList.contains '$' then (nestRow p (name.length + 1 + spare) s row).2 else s
  | none => s

/-- Nests rows one after the other, with depth to spare. -/
def renestBy (t : MappingTree) (p : PassColumns) (spare : Nat) (rows : List Nat) : MappingTree :=
  (rows.foldl (nestDeep p spare) ⟨t, []⟩).tree

/-- The walk never meets the end of its fuel: with more of it, it does the same. -/
theorem nestRow_fuel (p : PassColumns) {fuel fuel' : Nat} {s : Nesting} {row : Nat}
    (hs : s.tree.Indexed) (hfuel : s.tree.depth p.src row < fuel)
    (hfuel' : s.tree.depth p.src row < fuel') : nestRow p fuel s row = nestRow p fuel' s row := by
  induction fuel generalizing fuel' row with
  | zero => exact absurd hfuel (Nat.not_lt_zero _)
  | succ fuel ih =>
    cases fuel' with
    | zero => exact absurd hfuel' (Nat.not_lt_zero _)
    | succ fuel' =>
      rw [nestRow, nestRow]
      cases s.done.lookup row with
      | some name => rfl
      | none =>
        cases henc : s.tree.enclosing? p.src row with
        | none => rfl
        | some found =>
          obtain ⟨parent, simple⟩ := found
          have hlt := depth_lt_of_enclosing? hs henc
          dsimp only
          have hparent : nestRow p fuel s parent = nestRow p fuel' s parent :=
            ih (by omega) (by omega)
          rw [hparent]

theorem nestDeep_eq (p : PassColumns) (spare : Nat) {s : Nesting} (hs : s.tree.Indexed)
    (row : Nat) : nestDeep p spare s row = nestNext p s row := by
  unfold nestDeep nestNext
  cases hname : s.tree.className row p.src with
  | none => rfl
  | some name =>
    have hdepth : s.tree.depth p.src row < name.length + 1 := by
      unfold depth
      rw [hname]
      exact Nat.lt_succ_self _
    dsimp only
    rw [nestRow_fuel p hs (Nat.lt_add_right spare hdepth) hdepth]

theorem foldl_nestDeep {p : PassColumns} {t : MappingTree} (ht : t.Indexed) (hcols : p.src ≠ p.dst)
    (spare : Nat) (rows : List Nat) {s : Nesting} (h : Walked p t s) :
    rows.foldl (nestDeep p spare) s = rows.foldl (nestNext p) s := by
  induction rows generalizing s with
  | nil => rfl
  | cons row rest ih =>
    obtain ⟨hsteps, _⟩ := steps_nestNext ht hcols h row
    rw [List.foldl_cons, List.foldl_cons, nestDeep_eq p spare h.indexed row,
      ih (h.run ht hcols hsteps)]

/-! ## What a walk has done -/

/-- A class row that got the name which is noted for it. -/
def named (dst : Nat) (name : Option String) (c : ClassRow) : ClassRow :=
  if c.name dst = name then c else c.setName dst name

theorem name_named (dst : Nat) (name : Option String) (c : ClassRow) :
    (named dst name c).name dst = name := by
  unfold named
  split
  · assumption
  · rw [ClassRow.name_setName, if_pos rfl]

/-- The rows that are done have the names that are noted for them, and these are nested; the other
rows are as they were. -/
structure NestedSoFar (p : PassColumns) (t : MappingTree) (s : Nesting) : Prop where
  rows : ∀ row, s.tree.classes[row]? = (t.classes[row]?).map fun c =>
    match s.done.lookup row with
    | none => c
    | some name => named p.dst name c
  nested : ∀ row name, s.done.lookup row = some name →
    match t.enclosing? p.src row with
    | none => name = t.className row p.dst
    | some (parent, simple) => ∃ outer, s.done.lookup parent = some outer ∧
        name = match outer with
          | none => t.className row p.dst
          | some outer => some (nestedName outer (t.className row p.dst) simple)

theorem nestedSoFar_start (p : PassColumns) (t : MappingTree) : NestedSoFar p t ⟨t, []⟩ :=
  ⟨fun row => (Option.map_id' (x := t.classes[row]?)).symm, nofun⟩

/-- A row that is not done gets its name, and no other row changes. -/
theorem classes_nestTo {p : PassColumns} {t : MappingTree} {s : Nesting} {row : Nat}
    {target : Option String} (hshared : p.shared = true) (h : NestedSoFar p t s)
    (hnew : s.done.lookup row = none) (j : Nat) :
    (nestTo p s.tree row (t.className row p.dst) target).classes[j]? =
      if j = row then (t.classes[row]?).map (named p.dst (target.or (t.className row p.dst)))
      else s.tree.classes[j]? := by
  have hrow : s.tree.classes[row]? = t.classes[row]? := by
    rw [h.rows row, hnew, Option.map_id']
  have hsame : ∀ name, t.className row p.dst = name →
      s.tree.classes[j]? = if j = row then (t.classes[row]?).map (named p.dst name)
        else s.tree.classes[j]? := by
    rintro _ rfl
    split
    · rename_i hj
      rw [hj, hrow]
      unfold className
      cases t.classes[row]? with
      | none => rfl
      | some c => simp [named]
    · rfl
  unfold nestTo
  cases target with
  | none => exact hsame _ rfl
  | some name =>
    rw [Option.some_or]
    dsimp only
    split
    · rename_i hcurrent
      exact hsame _ hcurrent
    · rename_i hcurrent
      unfold setOutputName
      rw [hshared]
      rcases renameClass_cases s.tree row p.dst (some name) true with
        ⟨hnone, heq⟩ | ⟨_, _, _, _, hfalse, _⟩ | ⟨c, hc, _, heq⟩
      · rw [heq]
        split
        · rename_i hj
          rw [hj, ← hrow, hnone]
          rfl
        · rfl
      · cases hfalse
      · rw [hrow] at hc
        have hother : c.name p.dst ≠ some name := by
          unfold className at hcurrent
          rwa [hc] at hcurrent
        rw [heq, List.getElem?_set, hc]
        by_cases hj : j = row
        · subst hj
          have hlt := (List.getElem?_eq_some_iff.mp (hrow.trans hc)).1
          simp [hlt, named, hother]
        · rw [if_neg (Ne.symm hj), if_neg hj]

/-- The name that a row has once it is done. -/
theorem className_nestTo {p : PassColumns} {t : MappingTree} {s : Nesting} {row : Nat}
    {target : Option String} (hshared : p.shared = true) (h : NestedSoFar p t s)
    (hnew : s.done.lookup row = none) (hrow : target ≠ none → t.classes[row]? ≠ none) :
    (nestTo p s.tree row (t.className row p.dst) target).className row p.dst =
      target.or (t.className row p.dst) := by
  have hclasses : (nestTo p s.tree row (t.className row p.dst) target).classes[row]? = _ :=
    classes_nestTo hshared h hnew row
  rw [if_pos rfl] at hclasses
  rw [className, hclasses]
  cases hc : t.classes[row]? with
  | some c => exact name_named _ _ c
  | none =>
    cases target with
    | none => simp [className, hc]
    | some name => exact absurd hc (hrow (by simp))

theorem NestedSoFar.next {p : PassColumns} {t : MappingTree} {s s' : Nesting}
    (hshared : p.shared = true) (h : NestedSoFar p t s) (hstep : NestStep p t s s') :
    NestedSoFar p t s' := by
  obtain ⟨hnew, htarget⟩ := hstep
  rename_i row target
  have hthere : target ≠ none → t.classes[row]? ≠ none := by
    intro hne hnone
    have henc : t.enclosing? p.src row = none := by
      unfold enclosing? className
      rw [hnone]
      rfl
    rw [henc] at htarget
    exact hne htarget
  have hname : (nestTo p s.tree row (t.className row p.dst) target).className row p.dst = _ :=
    className_nestTo hshared h hnew hthere
  have hkeep : ∀ {j name}, s.done.lookup j = some name →
      ((row, target.or (t.className row p.dst)) :: s.done).lookup j = some name := by
    intro j name hj
    rw [lookup_cons_ite, if_neg, hj]
    rintro rfl
    rw [hnew] at hj
    cases hj
  rw [hname]
  constructor
  · intro j
    rw [classes_nestTo hshared h hnew, lookup_cons_ite]
    split
    · rename_i hj
      rw [hj]
    · exact h.rows j
  · intro j name hj
    rw [lookup_cons_ite] at hj
    split at hj
    · rename_i heq
      subst heq
      cases hj
      cases henc : t.enclosing? p.src j with
      | none =>
        rw [henc] at htarget
        rw [htarget]
        rfl
      | some found =>
        obtain ⟨parent, simple⟩ := found
        rw [henc] at htarget
        obtain ⟨outer, hdone, rfl⟩ := htarget
        refine ⟨outer, hkeep hdone, ?_⟩
        cases outer <;> rfl
    · have hbefore := h.nested j name hj
      cases henc : t.enclosing? p.src j with
      | none =>
        rw [henc] at hbefore
        exact hbefore
      | some found =>
        obtain ⟨parent, simple⟩ := found
        rw [henc] at hbefore
        obtain ⟨outer, hdone, heq⟩ := hbefore
        exact ⟨outer, hkeep hdone, heq⟩

theorem NestedSoFar.run {p : PassColumns} {t : MappingTree} {s s' : Nesting}
    (hshared : p.shared = true) (h : NestedSoFar p t s) (hrun : NestSteps p t s s') :
    NestedSoFar p t s' := by
  induction hrun with
  | refl => exact h
  | tail _ hstep ih => exact ih.next hshared hstep

/-- Once every nested class is done, all names are nested, and a row differs from before in
nothing but its name. -/
theorem NestedSoFar.finish {p : PassColumns} {t : MappingTree} {s : Nesting}
    (h : NestedSoFar p t s) (hwalk : Walked p t s)
    (hdone : ∀ row, t.enclosing? p.src row ≠ none → s.done.lookup row ≠ none) :
    t.Nests p.src p.dst (s.tree.className · p.dst) ∧
      ∀ row, s.tree.classes[row]? =
        (t.classes[row]?).map (named p.dst (s.tree.className row p.dst)) := by
  constructor
  · intro row
    dsimp only
    cases hlookup : s.done.lookup row with
    | none =>
      have henc : t.enclosing? p.src row = none := by
        by_contra hne
        exact hdone row hne hlookup
      rw [henc]
      exact hwalk.untouched row hlookup
    | some name =>
      have hnested := h.nested row name hlookup
      rw [hwalk.kept row name hlookup]
      cases henc : t.enclosing? p.src row with
      | none =>
        rw [henc] at hnested
        exact hnested
      | some found =>
        obtain ⟨parent, simple⟩ := found
        rw [henc] at hnested
        obtain ⟨outer, hparent, heq⟩ := hnested
        dsimp only
        rw [hwalk.kept parent outer hparent, heq]
  · intro row
    rw [h.rows row]
    cases hlookup : s.done.lookup row with
    | some name => rw [hwalk.kept row name hlookup]
    | none =>
      rw [hwalk.untouched row hlookup]
      unfold className
      cases t.classes[row]? with
      | none => rfl
      | some c => simp [named]

/-! ## Nesting with shared names -/

/-- Where names may be shared, nesting gives each row its one nested name by the names before, and
changes nothing else. Look-ups give the first holder of a name afterwards, and it makes no
difference in which order the rows are visited, or how deep the walk may go. -/
theorem shared_names_are_nested_in_any_order {t : MappingTree} (ht : t.Made) {src dst : Nat}
    (hcols : src ≠ dst) :
    t.renest ⟨src, dst, true⟩ = t.renestBy ⟨src, dst, true⟩ 0 (List.range t.size) ∧
    ∃ names, (∀ names', t.Nests src dst names' ↔ names' = names) ∧
      ∀ spare rows, (∀ row < t.size, row ∈ rows) →
        let after := t.renestBy ⟨src, dst, true⟩ spare rows
        (∀ row, after.className row dst = names row) ∧
        after.namespaces = t.namespaces ∧
        after.classes = t.classes.mapIdx (fun row c => named dst (names row) c) ∧
        after.Indexed := by
  have hindexed := ht.tidy.indexed
  have hwalks : ∀ spare rows, (∀ row < t.size, row ∈ rows) →
      let after := t.renestBy ⟨src, dst, true⟩ spare rows
      t.Nests src dst (after.className · dst) ∧
        after.namespaces = t.namespaces ∧ after.Indexed ∧
        ∀ row, after.classes[row]? = (t.classes[row]?).map (named dst (after.className row dst)) := by
    intro spare rows hrows
    obtain ⟨hsteps, hwalk, hdone⟩ := walked_nestAll (p := ⟨src, dst, true⟩) hindexed hcols hrows
    obtain ⟨hnests, hclasses⟩ := ((nestedSoFar_start _ t).run rfl hsteps).finish hwalk hdone
    unfold renestBy
    rw [foldl_nestDeep hindexed hcols spare rows (walked_start hindexed)]
    exact ⟨hnests, hwalk.namespaces, hwalk.indexed, hclasses⟩
  obtain ⟨hnests, -⟩ := hwalks 0 (List.range t.size) fun row => List.mem_range.mpr
  refine ⟨rfl, _, fun names' => ⟨fun h => h.unique hindexed hnests, fun h => h ▸ hnests⟩, ?_⟩
  intro spare rows hrows
  obtain ⟨hnests', hns, hafter, hclasses⟩ := hwalks spare rows hrows
  have hnames := hnests'.unique hindexed hnests
  refine ⟨congrFun hnames, hns, ?_, hafter⟩
  refine List.ext_getElem? fun row => ?_
  rw [hclasses row, List.getElem?_mapIdx, ← congrFun hnames row]

/-- A class in a class in a class. The innermost one has a name of its own, and the middle one gets
the name that another class has already. -/
def threeDeep : TreeSession :=
  [.addNamespace "named", .addClass "a$b$c", .addClass "x", .addClass "a$b", .addClass "a",
    .setClassName 0 1 (some "p/Old$Deepest"), .setClassName 1 1 (some "q/A$b"),
    .setClassName 3 1 (some "q/A")].foldl TreeSession.step
    (TreeSession.empty.step (.addNamespace "official"))

theorem three_classes_are_nested :
    threeDeep.tree.Made ∧
      (threeDeep.tree.renest ⟨0, 1, true⟩).className 0 1 = some "q/A$b$Deepest" ∧
      (threeDeep.tree.renest ⟨0, 1, true⟩).findClass "q/A$b" 1 = some 1 ∧
      (threeDeep.tree.renestBy ⟨0, 1, true⟩ 5 [3, 0, 2, 1]).classes =
        (threeDeep.tree.renest ⟨0, 1, true⟩).classes := by
  have hmade : threeDeep.tree.Made :=
    .edited ((((((((TreeSession.Edited.start "official").step (.addNamespace "named") nofun).step
      (.addClass "a$b$c") nofun).step (.addClass "x") nofun).step (.addClass "a$b") nofun).step
      (.addClass "a") nofun).step (.setClassName 0 1 (some "p/Old$Deepest")) (by decide)).step
      (.setClassName 1 1 (some "q/A$b")) (by decide) |>.step
      (.setClassName 3 1 (some "q/A")) (by decide))
  obtain ⟨hrenest, names, -, hafter⟩ :=
    shared_names_are_nested_in_any_order hmade (show 0 ≠ 1 by decide)
  obtain ⟨-, -, hrange, hindexed⟩ := hafter 0 (List.range threeDeep.tree.size) (by decide)
  obtain ⟨-, -, hmixed, -⟩ := hafter 5 [3, 0, 2, 1] (by decide)
  refine ⟨hmade, by decide +kernel, ?_, ?_⟩
  · rw [hrenest, hindexed]
    decide +kernel
  · rw [hrenest, hmixed, hrange]

end MappingTree

end JarDerivation
