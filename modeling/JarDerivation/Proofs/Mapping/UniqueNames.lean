-- Unique class names. An input may let classes share the names that it brings out.
-- Where no input does this to a column, each of its names belongs to one class, in
-- whatever order the inputs are joined and whichever passes run.
import JarDerivation.Proofs.Mapping.MemberJoin
import JarDerivation.Proofs.Mapping.RepeatedBuild
import JarDerivation.Proofs.Mapping.SourceColumn

namespace JarDerivation

/-- An input joins on a namespace, carries it or declares it as an output. -/
def MappingInput.Brings (i : MappingInput) (ns : String) : Prop :=
  i.keyNs = ns ∨ ns ∈ i.file.namespaces ∨ ns ∈ i.outputs

instance (i : MappingInput) (ns : String) : Decidable (i.Brings ns) :=
  inferInstanceAs (Decidable (_ ∨ _ ∨ _))

namespace MappingTree

/-! ## Columns without shared names -/

/-- The index is right, and each name of the column is held by one row. -/
structure Unshared (t : MappingTree) (col : Nat) : Prop where
  indexed : t.Indexed
  sole : ∀ i j name, t.className i col = some name → t.className j col = some name → i = j

variable {t t' : MappingTree} {col : Nat}

theorem unshared_empty (col : Nat) : empty.Unshared col := ⟨indexed_empty, nofun⟩

theorem Unshared.congr (h : t.Unshared col) (hindexed : t'.Indexed)
    (hnames : ∀ row, nameIn t'.classes col row = nameIn t.classes col row) : t'.Unshared col := by
  refine ⟨hindexed, fun i j name hi hj => h.sole i j name ?_ ?_⟩
  · exact (hnames i).symm.trans hi
  · exact (hnames j).symm.trans hj

/-- The only row with a name answers to it. -/
theorem Unshared.findClass (h : t.Unshared col) {row : Nat} {name : String}
    (hname : t.className row col = some name) : t.findClass name col = some row := by
  rw [h.indexed, firstHolder_eq_some]
  refine ⟨hname, fun earlier hlt heq => ?_⟩
  have hsame := h.sole earlier row name heq hname
  omega

/-- A name that must not be shared is refused to every row but the one that holds it. -/
theorem Unshared.renameClass (h : t.Unshared col) (row k : Nat) (name : Option String)
    {shared : Bool} (hshared : k = col → shared = false) :
    (t.renameClass row k name shared).2.Unshared col := by
  have hindexed := indexed_renameClass h.indexed row k name shared
  by_cases hk : k = col
  · subst hk
    refine ⟨hindexed, fun i j n hi hj => ?_⟩
    rw [className_eq_nameIn, nameIn_renameClass] at hi hj
    rcases renameClass_cases t row k name shared with
      ⟨_, heq⟩ | ⟨_, _, _, _, _, _, _, _, heq⟩ | ⟨_, _, hfree, heq⟩
    · simp only [heq, Bool.false_eq_true, false_and, if_false] at hi hj
      exact h.sole i j n hi hj
    · simp only [heq, Bool.false_eq_true, false_and, if_false] at hi hj
      exact h.sole i j n hi hj
    · simp only [heq, true_and, and_true] at hi hj
      -- Another row with the new name would answer to it, and the name would be refused.
      have hother : ∀ other, name = some n → t.className other k = some n → other = row := by
        intro other hn hheld
        exact hfree (hshared rfl) n other hn (h.findClass hheld)
      split at hi <;> split at hj
      · rename_i hirow hjrow
        rw [hirow, hjrow]
      · rename_i hirow _
        rw [hirow, hother j hi hj]
      · rename_i _ hjrow
        rw [hjrow, hother i hj hi]
      · exact h.sole i j n hi hj
  · refine h.congr hindexed fun j => ?_
    rw [nameIn_renameClass, if_neg fun heq => hk heq.2.2.symm]

theorem Unshared.addNamespace (h : t.Unshared col) (name : String) :
    (t.addNamespace name).2.Unshared col := by
  refine h.congr (indexed_addNamespace h.indexed name) fun row => ?_
  rw [classes_addNamespace]

theorem Unshared.addClass (h : t.Unshared col) (srcName : String) :
    (t.addClass srcName).2.Unshared col := by
  rcases addClass_cases t srcName with ⟨_, _, heq⟩ | ⟨_, heq⟩
  · rw [heq]
    exact h
  · rw [heq]
    have hblank : t.appendRow.Unshared col :=
      h.congr (indexed_appendRow h.indexed) (nameIn_append_blank t.classes _ col)
    exact hblank.renameClass _ _ _ fun _ => rfl

/-! ## A join -/

theorem Unshared.placeClass {p : JoinPlan} {e : ClassEntry} {row : Nat} (h : t.Unshared col)
    (hplace : t.placeClass p e = some (row, t')) : t'.Unshared col := by
  obtain ⟨key, _, ⟨_, ht⟩ | ⟨_, _, _, hadd⟩ | ⟨_, _, _, src, _, _, ht⟩⟩ := placeClass_cases hplace
  · rw [ht]
    exact h
  · have hnew := h.addClass key
    rw [hadd] at hnew
    exact hnew
  · rw [ht]
    exact (h.addClass src).renameClass _ _ _ fun _ => rfl

theorem Unshared.nameClass {p : JoinPlan} (h : t.Unshared col)
    (hp : ∀ j, (j, col) ∈ p.columns → p.allowDuplicates = false) (row : Nat) (e : ClassEntry) :
    (t.nameClass p row e).Unshared col := by
  refine nameClass_induction (motive := (Unshared · col)) h ?_
  intro s j k name hmem hs
  exact hs.renameClass row k _ fun hk => hp j (hk ▸ hmem)

theorem Unshared.joinClasses {p : JoinPlan} (h : t.Unshared col)
    (hp : ∀ j, (j, col) ∈ p.columns → p.allowDuplicates = false) (es : List ClassEntry) :
    (t.joinClasses p es).tree.Unshared col := by
  refine List.foldlRecOn (motive := fun s : ClassJoin => s.tree.Unshared col) es _ h ?_
  intro s hs e _
  show (s.tree.joinClass p e).2.Unshared col
  unfold joinClass
  cases hplace : s.tree.placeClass p e with
  | none => exact hs
  | some found =>
    obtain ⟨row, u⟩ := found
    simp only
    split
    · exact hs.placeClass hplace
    · exact (hs.placeClass hplace).nameClass hp row e

/-- Columns are only added at the end. -/
theorem grown_of_writes {may : Nat → Prop} (h : Writes may t t') :
    t.namespaces <+: t'.namespaces := by
  induction h with
  | refl => exact List.prefix_rfl
  | @tail s u _ hw ih =>
    refine ih.trans ?_
    have hkept : ∀ v : MappingTree, v.namespaces = s.namespaces → s.namespaces <+: v.namespaces :=
      fun v h => h ▸ List.prefix_rfl
    rcases hw with name | src | ⟨row, k, name, shared, _⟩ | @⟨_, row, idx, kind, src, desc, hadd⟩ |
      ⟨row, kind, idx, f, _, _⟩
    · unfold MappingTree.addNamespace
      cases s.namespaceId? name with
      | some _ => exact List.prefix_rfl
      | none => exact List.prefix_append _ _
    · rcases addClass_cases s src with ⟨_, _, heq⟩ | ⟨_, heq⟩
      · exact hkept _ (by rw [heq])
      · rw [heq]
        exact hkept _ (frame_renameClass s.appendRow _ 0 (some src) false).1
    · exact hkept _ (frame_renameClass s row k (some name) shared).1
    · rcases addMember_cases s row kind src desc with ⟨_, _, heq⟩ | ⟨_, heq⟩ | ⟨_, _, _, _, _, heq⟩
      · rw [heq] at hadd
        cases hadd
        exact List.prefix_rfl
      · rw [heq] at hadd
        cases hadd
      · rw [heq] at hadd
        cases hadd
        exact List.prefix_rfl
    · exact hkept _ (frame_modifyMember s row kind idx f).1

/-- A column keeps its namespace when others are added at the end. -/
theorem getElem?_of_grown {before after : List String} (h : before <+: after) {k : Nat}
    {ns : String} (hk : before[k]? = some ns) : after[k]? = some ns := by
  obtain ⟨hlt, rfl⟩ := List.getElem?_eq_some_iff.mp hk
  exact List.prefix_iff_getElem?.mp h k hlt

/-- A join writes shared names only to columns of namespaces that its input brings. -/
theorem Unshared.join {i : MappingInput} (h : t.Unshared col) (ht : t.Built)
    (hjoin : t.join i = .ok t')
    (hi : ∀ ns, t'.namespaces[col]? = some ns → i.Brings ns → i.allowDuplicates = false) :
    t'.Unshared col := by
  obtain ⟨p, s, hplan, heq⟩ := join_ok hjoin
  obtain ⟨_, hs, hcolumns, _, _, _, hpolicy, _⟩ := planJoin_ok hplan
  have hnames := joined_joinAllMembers p
    (if i.file.namespaces.head? == (s.joinClasses p i.file.classes).tree.source? then none
      else some (s.joinClasses p i.file.classes).descNames)
    (s.joinClasses p i.file.classes).tree
    (i.file.classes.zip (s.joinClasses p i.file.classes).rows)
  rw [← heq] at hnames
  have hproper : ∀ j k, (j, k) ∈ p.columns → k ≠ 0 := by
    intro j k hmem
    rw [hcolumns] at hmem
    exact (mem_addColumns.mp hmem).2.2.2
  have hp : ∀ j, (j, col) ∈ p.columns → p.allowDuplicates = false := by
    intro j hmem
    rw [hcolumns] at hmem
    obtain ⟨_, ⟨ns, hns, hid⟩, _⟩ := mem_addColumns.mp hmem
    rw [← hs] at hid
    have hgrow : s.namespaces <+: t'.namespaces := by
      rw [hnames.namespaces]
      exact grown_of_writes (writes_joinClasses hproper s i.file.classes)
    rw [hpolicy]
    exact hi ns (getElem?_of_grown hgrow (getElem?_of_namespaceId? hid))
      (Or.inr (Or.inl (List.mem_of_getElem? hns)))
  have hplanned : s.Unshared col := by
    have hkey : (t.withKey i).Unshared col := by
      unfold withKey
      split
      · exact h.addNamespace i.keyNs
      · exact h
    obtain ⟨hclasses, hfind, _⟩ :=
      frame_addColumns (t.withKey i) i.file.namespaces p.keyCol i.written
    rw [hs]
    refine hkey.congr (fun k name => ?_) fun row => by rw [hclasses]
    rw [hfind, hclasses]
    exact hkey.indexed k name
  exact (hplanned.joinClasses hp i.file.classes).congr (Built.join ht hjoin).indexed
    (hnames.classNames col)

/-! ## The passes -/

/-- What nesting does to a tree, one name at a time. -/
theorem renest_induction {motive : MappingTree → Prop} {p : PassColumns} (h : motive t)
    (hstep : ∀ t row name, motive t →
      motive (t.renameClass row p.dst (some name) p.shared).2) : motive (t.renest p) := by
  have hto : ∀ tree row current target, motive tree →
      motive (nestTo p tree row current target) := by
    intro tree row current target htree
    unfold nestTo
    split
    · exact htree
    · split
      · exact htree
      · exact hstep tree row _ htree
  have hrow : ∀ fuel (s : Nesting) row, motive s.tree → motive (nestRow p fuel s row).2.tree := by
    intro fuel
    induction fuel with
    | zero => exact fun s row hs => hs
    | succ fuel ih =>
      intro s row hs
      cases hnew : s.done.lookup row with
      | some name =>
        rw [nestRow, hnew]
        exact hs
      | none =>
        obtain ⟨target, s', hbranch, heq⟩ := nestRow_new p fuel hnew
        rw [heq]
        refine hto _ row _ target ?_
        cases henc : s.tree.enclosing? p.src row with
        | none =>
          rw [henc] at hbranch
          rw [hbranch.2]
          exact hs
        | some found =>
          rw [henc] at hbranch
          rw [hbranch.2]
          exact ih s found.1 hs
  unfold renest
  refine List.foldlRecOn (motive := fun s : Nesting => motive s.tree) _ _ h ?_
  intro s hs row _
  unfold nestNext
  split
  · split
    · exact hrow _ s row hs
    · exact hs
  · exact hs

theorem sameClasses_childMethodStrip (h : Hierarchy) (t : MappingTree) :
    SameClasses t (t.childMethodStrip h) := by
  refine ⟨rfl, rfl, fun k row => ?_⟩
  unfold nameIn childMethodStrip
  rw [List.getElem?_map]
  cases t.classes[row]? with
  | none => rfl
  | some c => exact name_stripClass h c k

/-- The columns of a pass belong to namespaces that its input brings. -/
theorem brings_of_mem_outputColumns {i : MappingInput} {exclude : Nat}
    (h : col ∈ i.outputColumns t exclude) :
    ∃ ns, t.namespaces[col]? = some ns ∧ i.Brings ns := by
  unfold MappingInput.outputColumns at h
  obtain ⟨ns, hns, hid⟩ := List.mem_filterMap.mp (List.mem_filter.mp h).1
  refine ⟨ns, getElem?_of_namespaceId? hid, Or.inr ?_⟩
  split at hns
  · unfold MappingInput.provides at hns
    obtain ⟨j, _, hj⟩ := List.mem_filterMap.mp (List.mem_filter.mp hns).1
    exact Or.inl (List.mem_of_getElem? hj)
  · exact Or.inr hns

/-- All that a pass does: it writes class names to columns that its input brings, under
the policy of the input, and it changes members. -/
theorem runPass_induction {motive : MappingTree → Prop} {hier : Option Hierarchy}
    {i : MappingInput} {pass : MappingAction} (h : motive t)
    (hname : ∀ s row dst name, (∃ ns, t.namespaces[dst]? = some ns ∧ i.Brings ns) → motive s →
      motive (s.renameClass row dst (some name) i.allowDuplicates).2)
    (hsame : ∀ s s', SameClasses s s' → motive s → motive s')
    (hrun : t.runPass hier i pass = .ok t') : motive t' := by
  unfold runPass at hrun
  split at hrun
  · obtain ⟨src, _, hrun⟩ := ok_of_bind hrun
    cases hrun
    refine List.foldlRecOn (motive := motive) _ _ h ?_
    intro s hs dst hdst
    exact renest_induction hs fun u row name =>
      hname u row dst name (brings_of_mem_outputColumns hdst)
  · obtain ⟨src, _, hrun⟩ := ok_of_bind hrun
    cases hrun
    refine List.foldlRecOn (motive := motive) _ _ h ?_
    intro s hs dst hdst
    refine List.foldlRecOn (motive := motive) _ _ hs ?_
    intro u hu row _
    rw [fillClass_eq]
    refine hsame _ _ (sameClasses_fillMembers _ _ row) ?_
    unfold fillName
    split
    · exact hname u row dst _ (brings_of_mem_outputColumns hdst) hu
    · exact hu
  · split at hrun
    · rename_i hier
      cases hrun
      exact hsame _ _ (sameClasses_childMethodStrip hier t) h
    · cases hrun
  · cases hrun
    exact h

theorem namespaces_runPass {hier : Option Hierarchy} {i : MappingInput} {pass : MappingAction}
    (hrun : t.runPass hier i pass = .ok t') : t'.namespaces = t.namespaces :=
  runPass_induction (motive := (·.namespaces = t.namespaces)) rfl
    (fun s row dst _ _ hs => (frame_renameClass s row dst _ _).1.trans hs)
    (fun _ _ hsame hs => hsame.namespaces.trans hs) hrun

theorem namespaces_runSteps {hier : Option Hierarchy} {steps : List (MappingInput × MappingAction)}
    (hrun : t.runSteps hier steps = .ok t') : t'.namespaces = t.namespaces := by
  induction steps generalizing t with
  | nil =>
    cases hrun
    rfl
  | cons step rest ih =>
    obtain ⟨s, hstep, hrest⟩ := ok_of_bind hrun
    exact (ih hrest).trans (namespaces_runPass hstep)

/-- A pass writes shared names only to columns of namespaces that its input brings. -/
theorem Unshared.runSteps {hier : Option Hierarchy} {steps : List (MappingInput × MappingAction)}
    {ns : String} (h : t.Unshared col) (hns : t.namespaces[col]? = some ns)
    (hi : ∀ step ∈ steps, step.1.Brings ns → step.1.allowDuplicates = false)
    (hrun : t.runSteps hier steps = .ok t') : t'.Unshared col := by
  induction steps generalizing t with
  | nil =>
    cases hrun
    exact h
  | cons step rest ih =>
    obtain ⟨s, hstep, hrest⟩ := ok_of_bind hrun
    have hfirst : s.namespaces = t.namespaces := namespaces_runPass hstep
    have hs : s.Unshared col := by
      refine runPass_induction (motive := (Unshared · col)) h ?_ ?_ hstep
      · rintro u row dst name ⟨ns', hns', hbrings⟩ hu
        refine hu.renameClass row dst _ fun hdst => hi step List.mem_cons_self ?_
        rw [hdst, hns] at hns'
        cases hns'
        exact hbrings
      · intro u u' hsame hu
        exact hu.congr (indexed_of_names hu.indexed hsame.index hsame.names) (hsame.names col)
    exact ih hs (hfirst ▸ hns) (fun next hnext => hi next (List.mem_cons_of_mem _ hnext)) hrest

end MappingTree

namespace MappingBuilder

open MappingTree

/-! ## The build -/

variable {t t' : MappingTree} {turns : Nat} {waiting order : List MappingInput}

/-- Joining takes its inputs from those that wait, and only adds columns at the end. -/
theorem joinAll_grows (h : joinAll turns waiting t = .ok (t', order)) :
    t.namespaces <+: t'.namespaces ∧ ∀ i ∈ order, i ∈ waiting := by
  induction turns generalizing waiting order t with
  | zero =>
    cases h
    exact ⟨List.prefix_rfl, nofun⟩
  | succ turns ih =>
    rcases joinAll_cases h with ⟨rfl, rfl⟩ | ⟨_, i, s, rest, hi, hs, hrest, rfl⟩
    · exact ⟨List.prefix_rfl, nofun⟩
    · obtain ⟨hgrow, hwaiting⟩ := ih hrest
      obtain ⟨_, _, _, hwrites⟩ := writes_join hs
      refine ⟨(grown_of_writes hwrites).trans hgrow, List.forall_mem_cons.mpr ⟨?_, fun j hj => ?_⟩⟩
      · exact List.mem_of_getElem? hi
      · exact List.mem_of_mem_eraseIdx (hwaiting j hj)

theorem unshared_joinAll {col : Nat} (h : joinAll turns waiting t = .ok (t', order)) (ht : t.Built)
    (hcol : t.Unshared col)
    (hall : ∀ i ∈ waiting, ∀ ns, t'.namespaces[col]? = some ns → i.Brings ns →
      i.allowDuplicates = false) : t'.Unshared col := by
  induction turns generalizing waiting order t with
  | zero =>
    cases h
    exact hcol
  | succ turns ih =>
    rcases joinAll_cases h with ⟨rfl, _⟩ | ⟨_, i, s, rest, hi, hs, hrest, _⟩
    · exact hcol
    · have hgrow := (joinAll_grows hrest).1
      have hnext := hcol.join ht hs fun ns hns =>
        hall i (List.mem_of_getElem? hi) ns (getElem?_of_grown hgrow hns)
      exact ih hrest (.join ht hs) hnext fun j hj => hall j (List.mem_of_mem_eraseIdx hj)

/-- In a column whose namespace no input brings under shared names, two classes never have
the same name, and each name leads to the class that has it. -/
theorem an_unshared_name_leads_to_its_only_class {b : MappingBuilder} {disk : Files}
    {h : Option Hierarchy} {r : Registry} (hbuild : (b.build disk h r).1 = .ok t) :
    ∃ is, inputs disk b.dependencies = .ok is ∧
      ∀ col ns, t.namespaces[col]? = some ns →
        (∀ i ∈ is, i.Brings ns → i.allowDuplicates = false) →
        (∀ i j name, t.className i col = some name → t.className j col = some name → i = j) ∧
          ∀ i name, t.className i col = some name → t.findClass name col = some i := by
  obtain ⟨merged, order, hmerge, hbuilt, hrun⟩ := build_ok hbuild
  unfold merge at hmerge
  cases hfrozen : finalizeAll r b.dependencies with
  | mk x frozen =>
    obtain ⟨ds, r'⟩ := frozen
    rw [hfrozen] at hmerge
    cases x with
    | error e => cases hmerge
    | ok _ =>
      obtain ⟨is, his, hjoin⟩ := ok_of_bind hmerge
      rw [inputs_of_freezes (freezes hfrozen) disk] at his
      refine ⟨is, his, fun col ns hns hpolicy => ?_⟩
      rw [namespaces_runSteps hrun] at hns
      have hmerged : merged.Unshared col := by
        refine unshared_joinAll hjoin .empty (unshared_empty col) fun i hi ns' hns' => ?_
        rw [hns] at hns'
        cases hns'
        exact hpolicy i hi
      have hfinal : t.Unshared col := by
        refine hmerged.runSteps hns (fun step hstep => ?_) hrun
        obtain ⟨i, hi, hpass⟩ := List.mem_flatMap.mp hstep
        obtain ⟨_, _, rfl⟩ := List.mem_map.mp hpass
        exact hpolicy i ((joinAll_grows hjoin).2 i hi)
      exact ⟨hfinal.sole, fun i name => hfinal.findClass⟩

/-- Two files are joined on `official`. The first nests what it brings, the second lets
classes share the names of its own namespace. -/
def sharedOutput : MappingBuilder :=
  ⟨[fileDependency "base"
      (classFile ["official", "intermediary"] [["a", "Outer"], ["a$b", "Inner"]])
      [.sourceNamespace "official", .renest],
    fileDependency "names" (classFile ["official", "named"] [["a", "World"], ["a$b", "World"]])
      [.allowDuplicateOutputs true]]⟩

/-- The tree of `sharedOutput`. -/
def sharedOutputTree : MappingTree :=
  ⟨["official", "intermediary", "named"],
    [⟨[some "a", some "Outer", some "World"], [], []⟩,
      ⟨[some "a$b", some "Outer$Inner", some "World"], [], []⟩],
    [[("a$b", 1), ("a", 0)], [("Outer$Inner", 1), ("Outer", 0)], [("World", 0)]]⟩

theorem a_nested_name_leads_to_its_class_beside_a_shared_one :
    (sharedOutput.build .empty none .empty).1 = .ok sharedOutputTree ∧
      sharedOutputTree.findClass "Outer$Inner" 1 = some 1 ∧
      sharedOutputTree.className 0 2 = sharedOutputTree.className 1 2 := by
  have hbuild : (sharedOutput.build .empty none .empty).1 = .ok sharedOutputTree := by decide
  obtain ⟨is, his, hunique⟩ := an_unshared_name_leads_to_its_only_class hbuild
  have hpolicy : ∀ i ∈ is, i.Brings "intermediary" → i.allowDuplicates = false := by
    have hall : (inputs .empty sharedOutput.dependencies).toOption.all
        (·.all fun i => !decide (i.Brings "intermediary") || !i.allowDuplicates) = true := by decide
    rw [his] at hall
    intro i hi hbrings
    have := List.all_eq_true.mp hall i hi
    simpa [hbrings] using this
  exact ⟨hbuild, (hunique 1 "intermediary" rfl hpolicy).2 1 "Outer$Inner" rfl, rfl⟩

end MappingBuilder

end JarDerivation
