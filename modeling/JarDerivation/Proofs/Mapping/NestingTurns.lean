-- Nesting where names must not be shared. A class that is to be named below its outer class is
-- refused the name if another class holds it when its turn comes, and it does not get a second
-- turn when that class is renamed. So it depends on the order of the turns which classes end up
-- below their outer class.
import JarDerivation.Proofs.Mapping.OwnColumns

namespace JarDerivation

namespace MappingTree

variable {p : PassColumns} {t s : MappingTree}

/-! ## The order of the turns -/

/-- The rows that a nesting has done, in the order in which their turns came. -/
def turns (t : MappingTree) (p : PassColumns) : List Nat :=
  (((List.range t.size).foldl (nestNext p) ⟨t, []⟩).done.map (·.1)).reverse

/-- The rows whose turn came before that of a row. -/
def turnsBefore (t : MappingTree) (p : PassColumns) (row : Nat) : List Nat :=
  (t.turns p).takeWhile (· != row)

/-- The name of a row when the rows of `done` have had their turn. -/
def nameThen (t : MappingTree) (dst : Nat) (done : List (Nat × Option String)) (row : Nat) :
    Option String :=
  (done.lookup row).getD (t.className row dst)

theorem Walked.className_eq {s : Nesting} (h : Walked p t s) (row : Nat) :
    s.tree.className row p.dst = t.nameThen p.dst s.done row := by
  unfold nameThen
  cases hdone : s.done.lookup row with
  | none => exact h.untouched row hdone
  | some name => exact h.kept row name hdone

/-! ## One turn -/

/-- What a row has got in its turn, after the rows of `done`. Below an outer class with a name it
has its nested name, unless another row held that, and otherwise its old one. -/
structure Turn (p : PassColumns) (t : MappingTree) (done : List (Nat × Option String)) (row : Nat)
    (name : Option String) : Prop where
  first : done.lookup row = none
  outerFirst : ∀ parent simple, t.enclosing? p.src row = some (parent, simple) →
    done.lookup parent ≠ none
  named : ∀ parent simple outer, t.enclosing? p.src row = some (parent, simple) →
    done.lookup parent = some (some outer) →
    (name = some (nestedName outer (t.className row p.dst) simple) ∨
      name = t.className row p.dst) ∧
    (name = some (nestedName outer (t.className row p.dst) simple) ↔
      ∀ other, other ≠ row →
        t.nameThen p.dst done other ≠ some (nestedName outer (t.className row p.dst) simple))

/-- What a walk keeps where the names of its column must not be shared. -/
structure InTurn (p : PassColumns) (t : MappingTree) (s : Nesting) : Prop where
  walked : Walked p t s
  unshared : s.tree.Unshared p.dst
  turn : ∀ done row name, (row, name) :: done <:+ s.done → Turn p t done row name
  /-- What was done stays done. -/
  grows : ∀ done, done <:+ s.done → ∀ row name, done.lookup row = some name →
    s.done.lookup row = some name

theorem inTurn_start (ht : t.Unshared p.dst) : InTurn p t ⟨t, []⟩ where
  walked := walked_start ht.indexed
  unshared := ht
  turn done row name h := absurd (List.suffix_nil.mp h) (by simp)
  grows done h row name hdone := by
    rw [List.suffix_nil.mp h] at hdone
    cases hdone

theorem Unshared.nestTo (h : s.Unshared p.dst) (hp : p.shared = false) (row : Nat)
    (current target : Option String) : (nestTo p s row current target).Unshared p.dst := by
  unfold MappingTree.nestTo
  split
  · exact h
  · split
    · exact h
    · exact h.renameClass row p.dst _ fun _ => hp

/-- A turn gives a row its nested name just when no other row holds it. -/
theorem InTurn.nestTo {s : Nesting} {row : Nat} {name : String} (h : InTurn p t s)
    (hp : p.shared = false) (hrow : row < t.classes.length) (hnew : s.done.lookup row = none) :
    let after := (nestTo p s.tree row (t.className row p.dst) (some name)).className row p.dst
    (after = some name ∨ after = t.className row p.dst) ∧
      (after = some name ↔ ∀ other, other ≠ row → t.nameThen p.dst s.done other ≠ some name) := by
  have hcurrent : s.tree.className row p.dst = t.className row p.dst :=
    h.walked.untouched row hnew
  have hheld : s.tree.HeldElsewhere row p.dst name ↔
      ∃ other, other ≠ row ∧ t.nameThen p.dst s.done other = some name := by
    unfold HeldElsewhere
    simp only [h.walked.className_eq]
  unfold MappingTree.nestTo
  dsimp only
  split
  · rename_i hsame
    rw [hcurrent]
    refine ⟨Or.inr rfl, fun _ other hne hother => hne ?_, fun _ => hsame⟩
    rw [← h.walked.className_eq] at hother
    exact h.unshared.sole other row name hother (hcurrent.trans hsame)
  · rename_i hdiffer
    have hlt : row < s.tree.classes.length := h.walked.size ▸ hrow
    have hrefused := renameClass_refused_iff h.unshared.indexed hlt
      (show s.tree.className row p.dst ≠ some name by rw [hcurrent]; exact hdiffer) p.shared
    have hcell := nameIn_renameClass s.tree row p.dst (some name) p.shared row p.dst
    rw [hheld] at hrefused
    unfold setOutputName
    rw [className_eq_nameIn, hcell, ← className_eq_nameIn, hcurrent]
    cases hset : (s.tree.renameClass row p.dst (some name) p.shared).1 with
    | true =>
      rw [if_pos ⟨rfl, rfl, rfl⟩]
      refine ⟨Or.inl rfl, fun _ other hne hother => ?_, fun _ => rfl⟩
      rw [hrefused.mpr ⟨hp, other, hne, hother⟩] at hset
      cases hset
    | false =>
      rw [if_neg (by simp)]
      obtain ⟨_, other, hne, hother⟩ := hrefused.mp hset
      exact ⟨Or.inr rfl, fun heq => absurd heq hdiffer,
        fun hfree => absurd hother (hfree other hne)⟩

theorem InTurn.next {s s' : Nesting} (h : InTurn p t s) (ht : t.Indexed) (hcols : p.src ≠ p.dst)
    (hp : p.shared = false) (hstep : NestStep p t s s') : InTurn p t s' := by
  have hwalked := h.walked.run ht hcols (.single hstep)
  obtain ⟨hnew, htarget⟩ := hstep
  rename_i row target
  refine ⟨hwalked, h.unshared.nestTo hp row _ target, ?_, ?_⟩
  · intro done j name hsuffix
    rcases List.suffix_cons_iff.mp hsuffix with heq | hsuffix
    · cases heq
      refine ⟨hnew, fun parent simple henc => ?_, fun parent simple outer henc hparent => ?_⟩
      · rw [henc] at htarget
        obtain ⟨outer, hdone, _⟩ := htarget
        rw [hdone]
        simp
      · rw [henc] at htarget
        obtain ⟨outer', hdone, rfl⟩ := htarget
        rw [hparent] at hdone
        cases hdone
        obtain ⟨_, _, hname, _⟩ := enclosing?_eq_some henc
        exact h.nestTo hp (lt_of_className hname) hnew
    · exact h.turn done j name hsuffix
  · intro done hsuffix j name hj
    rcases List.suffix_cons_iff.mp hsuffix with rfl | hsuffix
    · exact hj
    · have hbefore := h.grows done hsuffix j name hj
      rw [lookup_cons_ite, if_neg, hbefore]
      rintro rfl
      rw [hnew] at hbefore
      cases hbefore

theorem InTurn.run {s s' : Nesting} (h : InTurn p t s) (ht : t.Indexed) (hcols : p.src ≠ p.dst)
    (hp : p.shared = false) (hrun : NestSteps p t s s') : InTurn p t s' := by
  induction hrun with
  | refl => exact h
  | tail _ hstep ih => exact ih.next ht hcols hp hstep

/-! ## A whole nesting -/

theorem lookup_eq_none_iff_notMem {done : List (Nat × Option String)} {row : Nat} :
    done.lookup row = none ↔ row ∉ done.map (·.1) := by
  rw [List.lookup_eq_none_iff]
  simp only [bne_iff_ne, List.mem_map, not_exists, not_and]
  exact ⟨fun h q hq heq => h q hq heq.symm, fun h q hq heq => h q hq heq.symm⟩

/-- A nesting gives each nested class its turn after its outer class. The rows that had theirs
before are those that come before it in the order of turns. -/
theorem turn_of_nested (ht : t.Unshared p.dst) (hcols : p.src ≠ p.dst) (hp : p.shared = false)
    {row : Nat} (hrow : t.enclosing? p.src row ≠ none) :
    ∃ done, Turn p t done row ((t.renest p).className row p.dst) ∧
      (∀ other, other ∈ t.turnsBefore p row ↔ done.lookup other ≠ none) ∧
      ∀ other name, done.lookup other = some name →
        (t.renest p).className other p.dst = name := by
  obtain ⟨hsteps, _, hdone⟩ :=
    walked_nestAll ht.indexed hcols fun row hrow => List.mem_range.mpr hrow
  have hturns := (inTurn_start ht).run ht.indexed hcols hp hsteps
  unfold turnsBefore turns renest
  generalize (List.range t.size).foldl (nestNext p) ⟨t, []⟩ = s at hturns hdone ⊢
  obtain ⟨name, hname⟩ := Option.ne_none_iff_exists'.mp (hdone row hrow)
  obtain ⟨later, done, hsplit, _⟩ := List.lookup_eq_some_iff.mp hname
  have hturn := hturns.turn done row name ⟨later, hsplit.symm⟩
  have hsuffix : done <:+ s.done := ⟨later ++ [(row, name)], by simp [hsplit]⟩
  refine ⟨done, ?_, fun other => ?_, fun other own hother => ?_⟩
  · rw [hturns.walked.kept row name hname]
    exact hturn
  · have hfirst : ∀ x ∈ (done.map (·.1)).reverse, (x != row) = true := by
      intro x hx
      refine bne_iff_ne.mpr ?_
      rintro rfl
      exact lookup_eq_none_iff_notMem.mp hturn.first (List.mem_reverse.mp hx)
    rw [hsplit, List.map_append, List.map_cons, List.reverse_append, List.reverse_cons,
      List.append_assoc, List.takeWhile_append_of_pos hfirst]
    simp
  · exact hturns.walked.kept other own (hturns.grows done hsuffix other own hother)

/-- Where names must not be shared, a nested class ends up below its outer class or keeps its old
name. Its outer class has its turn first. If no other class ends up with its nested name, it gets
that just when any other class that had it before had its turn first. -/
theorem a_nested_class_gets_a_free_name_just_when_its_holder_went_first {src dst : Nat}
    (ht : t.Unshared dst) (hcols : src ≠ dst) {row parent : Nat} {simple outer : String}
    (henc : t.enclosing? src row = some (parent, simple))
    (houter : (t.renest ⟨src, dst, false⟩).className parent dst = some outer) :
    let after := t.renest ⟨src, dst, false⟩
    let before := t.turnsBefore ⟨src, dst, false⟩ row
    let name := nestedName outer (t.className row dst) simple
    parent ∈ before ∧
      (after.className row dst = some name ∨ after.className row dst = t.className row dst) ∧
      (after.HeldElsewhere row dst name ∨
        (after.className row dst = some name ↔
          ∀ holder, holder ≠ row → t.className holder dst = some name → holder ∈ before)) := by
  intro after before name
  obtain ⟨done, hturn, hbefore, hkept⟩ :=
    turn_of_nested (p := ⟨src, dst, false⟩) ht hcols rfl
      (show t.enclosing? src row ≠ none by simp [henc])
  have hparent := hturn.outerFirst parent simple henc
  obtain ⟨outer', hdone⟩ := Option.ne_none_iff_exists'.mp hparent
  have hfixed : outer' = some outer := (hkept parent outer' hdone).symm.trans houter
  obtain ⟨hnames, hnamed⟩ := hturn.named parent simple outer henc (hfixed ▸ hdone)
  refine ⟨(hbefore parent).mpr hparent, hnames, ?_⟩
  by_cases hheld : after.HeldElsewhere row dst name
  · exact Or.inl hheld
  · refine Or.inr (hnamed.trans
      ⟨fun hfree holder hne hholder => ?_, fun hfirst other hne hother => ?_⟩)
    · refine (hbefore holder).mpr fun hnone => hfree holder hne ?_
      unfold nameThen
      rw [hnone]
      exact hholder
    · unfold nameThen at hother
      cases hlookup : done.lookup other with
      | none =>
        rw [hlookup] at hother
        exact (hbefore other).mp (hfirst other hne hother) hlookup
      | some own =>
        rw [hlookup] at hother
        exact hheld ⟨other, hne, (hkept other own hlookup).trans hother⟩

/-- Two classes with a nested class each. The second nested class has the name that the first one
is to get, and is renamed after it. -/
def givenUp : TreeSession :=
  [.addNamespace "named", .addClass "a", .addClass "b", .addClass "a$1", .addClass "b$1",
    .setClassName 0 1 (some "P"), .setClassName 1 1 (some "Q"), .setClassName 2 1 (some "M$1"),
    .setClassName 3 1 (some "P$1")].foldl TreeSession.step
    (TreeSession.empty.step (.addNamespace "official"))

theorem givenUp_edited : givenUp.Edited :=
  (((((((((TreeSession.Edited.start "official").step (.addNamespace "named") nofun).step
    (.addClass "a") nofun).step (.addClass "b") nofun).step (.addClass "a$1") nofun).step
    (.addClass "b$1") nofun).step (.setClassName 0 1 (some "P")) (by decide)).step
    (.setClassName 1 1 (some "Q")) (by decide)).step (.setClassName 2 1 (some "M$1"))
    (by decide)).step (.setClassName 3 1 (some "P$1")) (by decide)

theorem givenUp_unshared (col : Nat) : givenUp.tree.Unshared col := by
  have hgood := givenUp_edited.good
  refine ⟨hgood.indexed, fun i j name hi hj => ?_⟩
  have hcol : col < 2 := by
    by_contra hge
    rw [className_eq_nameIn, hgood.narrow i col (Nat.le_of_not_lt hge)] at hi
    cases hi
  have hrows : ∀ col < 2, ∀ i < 4, ∀ j < 4,
      givenUp.tree.className i col = givenUp.tree.className j col → i = j := by decide
  exact hrows col hcol i (lt_of_className hi) j (lt_of_className hj) (hi.trans hj.symm)

theorem givenUp_free : ¬ (givenUp.tree.renest ⟨0, 1, false⟩).HeldElsewhere 2 1 "P$1" := by
  rintro ⟨other, _, hheld⟩
  have hrows : ∀ row < 4,
      (givenUp.tree.renest ⟨0, 1, false⟩).className row 1 ≠ some "P$1" := by decide +kernel
  refine hrows other ?_ hheld
  have hlt := lt_of_className hheld
  rwa [(frame_renest givenUp_edited.good.indexed (p := ⟨0, 1, false⟩) (by decide)).2.2.1] at hlt

theorem a_name_is_given_up_too_late :
    givenUp.tree.Unshared 1 ∧
      ¬ (givenUp.tree.renest ⟨0, 1, false⟩).HeldElsewhere 2 1 "P$1" ∧
      (givenUp.tree.renest ⟨0, 1, false⟩).className 2 1 = some "M$1" ∧
      ∃ holder, holder ≠ 2 ∧ givenUp.tree.className holder 1 = some "P$1" ∧
        holder ∉ givenUp.tree.turnsBefore ⟨0, 1, false⟩ 2 := by
  have hold : (givenUp.tree.renest ⟨0, 1, false⟩).className 2 1 = some "M$1" := by decide +kernel
  obtain ⟨_, _, hgets⟩ := a_nested_class_gets_a_free_name_just_when_its_holder_went_first
    (givenUp_unshared 1) (show 0 ≠ 1 by decide)
    (show givenUp.tree.enclosing? 0 2 = some (0, "1") by decide +kernel)
    (show (givenUp.tree.renest ⟨0, 1, false⟩).className 0 1 = some "P" by decide +kernel)
  have hname : nestedName "P" (givenUp.tree.className 2 1) "1" = "P$1" := by decide +kernel
  rw [hname, hold] at hgets
  have hfirst := hgets.resolve_left givenUp_free
  refine ⟨givenUp_unshared 1, givenUp_free, hold, ?_⟩
  by_contra hnone
  refine absurd (hfirst.mpr fun holder hne hholder => ?_) (by decide)
  by_contra hnot
  exact hnone ⟨holder, hne, hholder, hnot⟩

/-- A nested class can miss its name though no other class ends up with it. -/
theorem a_free_name_is_not_always_given :
    ¬ ∀ (s : TreeSession) (src dst : Nat), s.Edited → (∀ col, s.tree.Unshared col) →
      src ∈ s.columns → dst ∈ s.columns → src ≠ dst →
      ∀ row parent simple outer, s.tree.enclosing? src row = some (parent, simple) →
        (s.tree.renest ⟨src, dst, false⟩).className parent dst = some outer →
        (s.tree.renest ⟨src, dst, false⟩).className row dst =
            some (nestedName outer (s.tree.className row dst) simple) ∨
          (s.tree.renest ⟨src, dst, false⟩).HeldElsewhere row dst
            (nestedName outer (s.tree.className row dst) simple) := by
  intro hall
  have hname : nestedName "P" (givenUp.tree.className 2 1) "1" = "P$1" := by decide +kernel
  have hclaim := hall givenUp 0 1 givenUp_edited givenUp_unshared (by decide) (by decide)
    (by decide) 2 0 "1" "P" (by decide +kernel) (by decide +kernel)
  rw [hname] at hclaim
  exact hclaim.elim (by decide +kernel) givenUp_free

end MappingTree

end JarDerivation
