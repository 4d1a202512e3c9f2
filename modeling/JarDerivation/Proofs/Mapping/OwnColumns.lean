-- Trees that are made keep to their columns: a name stands only in a column that has
-- a namespace. With it goes that every look-up gives the first holder of a name, so a
-- tree of this kind can have its index built anew at any time.
import JarDerivation.Proofs.Mapping.TreeSession
import JarDerivation.Proofs.Mapping.UniqueNames

namespace JarDerivation

namespace MappingTree

/-- Look-ups are right, and names stand only in columns that have a namespace. -/
structure Tidy (t : MappingTree) : Prop where
  indexed : t.Indexed
  narrow : t.Narrow

variable {t t' : MappingTree}

/-! ## Joins -/

/-- New namespaces do not make a tree narrower. -/
theorem Narrow.of_grown (h : t.Narrow) (hclasses : t'.classes = t.classes)
    (hns : t.namespaces <+: t'.namespaces) : t'.Narrow := by
  intro row col hcol
  rw [hclasses]
  exact h row col (Nat.le_trans hns.length_le hcol)

/-- Writes to columns that are there keep to the columns of the tree. -/
theorem narrow_of_writes {may : Nat → Prop} (h : t.Narrow) (h0 : 0 < t.namespaces.length)
    (hmay : ∀ col, may col → col < t.namespaces.length) (hw : Writes may t t') : t'.Narrow := by
  induction hw with
  | refl => exact h
  | @tail s u hws hw ih =>
    have hle := (grown_of_writes hws).length_le
    rcases hw with name | src | ⟨row, col, name, shared, hcol⟩ | hadd | ⟨row, kind, idx, f, _, _⟩
    · exact narrow_addNamespace ih name
    · exact narrow_addClass ih (Nat.lt_of_lt_of_le h0 hle) src
    · exact narrow_renameClass ih (Nat.lt_of_lt_of_le (hmay col hcol) hle) _ shared
    · exact narrow_addMember ih hadd
    · intro j col hcol
      rw [nameIn_modifyMember]
      exact ih j col ((frame_modifyMember s row kind idx f).1 ▸ hcol)

/-- A plan writes to columns of the tree that it leaves. -/
theorem opens_lt {i : MappingInput} {p : JoinPlan} (h : t.planJoin i = .ok (p, t')) :
    p.keyCol < t'.namespaces.length ∧ ∀ col, p.Opens col → col < t'.namespaces.length := by
  obtain ⟨hkey, ht, hcolumns, _⟩ := planJoin_ok h
  have hlt : ∀ {name col}, t'.namespaceId? name = some col → col < t'.namespaces.length :=
    fun hid => (List.getElem?_eq_some_iff.mp (getElem?_of_namespaceId? hid)).1
  have hkeyCol : p.keyCol < t'.namespaces.length := by
    have hid := namespaceId?_addColumns hkey i.file.namespaces p.keyCol i.written
    rw [← ht] at hid
    exact hlt hid
  refine ⟨hkeyCol, ?_⟩
  rintro col ⟨_, rfl | ⟨j, hj⟩⟩
  · exact hkeyCol
  · rw [hcolumns] at hj
    obtain ⟨_, ⟨ns, _, hid⟩, _⟩ := mem_addColumns.mp hj
    rw [← ht] at hid
    exact hlt hid

theorem narrow_planJoin {i : MappingInput} {p : JoinPlan} (h : t.Narrow)
    (hplan : t.planJoin i = .ok (p, t')) : t'.Narrow := by
  obtain ⟨_, ht, _⟩ := planJoin_ok hplan
  refine h.of_grown ?_ (grown_of_writes (writes_planJoin hplan fun _ => False))
  rw [ht, (frame_addColumns _ _ _ _).1]
  unfold withKey
  split
  · exact classes_addNamespace t i.keyNs
  · rfl

theorem Built.tidy (h : t.Built) : t.Tidy := by
  refine ⟨h.indexed, ?_⟩
  induction h with
  | empty => exact fun _ _ _ => rfl
  | join _ hjoin ih =>
    obtain ⟨p, s, hplan, ht⟩ := join_ok hjoin
    obtain ⟨hkey, hopens⟩ := opens_lt hplan
    rw [ht]
    exact narrow_of_writes (narrow_planJoin ih hplan) (Nat.zero_lt_of_lt hkey) hopens
      (writes_of_plan hplan _ _ _)

/-! ## Passes -/

theorem Tidy.runPass {hier : Option Hierarchy} {i : MappingInput} {pass : MappingAction}
    (h : t.Tidy) (hrun : t.runPass hier i pass = .ok t') : t'.Tidy := by
  refine (runPass_induction (motive := fun s => s.namespaces = t.namespaces ∧ s.Tidy) ⟨rfl, h⟩
    ?_ ?_ hrun).2
  · rintro s row dst name ⟨ns, hns, _⟩ ⟨hsame, hs⟩
    have hdst : dst < s.namespaces.length := hsame ▸ (List.getElem?_eq_some_iff.mp hns).1
    refine ⟨(frame_renameClass s row dst _ _).1.trans hsame, ?_, ?_⟩
    · exact indexed_renameClass hs.indexed row dst _ _
    · exact narrow_renameClass hs.narrow hdst _ _
  · rintro s s' hnames ⟨hsame, hs⟩
    refine ⟨hnames.namespaces.trans hsame, ?_, fun row col hcol => ?_⟩
    · exact indexed_of_names hs.indexed hnames.index hnames.names
    · rw [hnames.names]
      exact hs.narrow row col (hnames.namespaces ▸ hcol)

theorem Tidy.runSteps {hier : Option Hierarchy} {steps : List (MappingInput × MappingAction)}
    (h : t.Tidy) (hrun : t.runSteps hier steps = .ok t') : t'.Tidy := by
  induction steps generalizing t with
  | nil =>
    cases hrun
    exact h
  | cons step rest ih =>
    obtain ⟨s, hstep, hrest⟩ := ok_of_bind hrun
    exact ih (h.runPass hstep) hrest

end MappingTree

theorem MappingBuilder.tidy_of_build {b : MappingBuilder} {disk : Files} {h : Option Hierarchy}
    {r : Registry} {t : MappingTree} (hbuild : (b.build disk h r).1 = .ok t) : t.Tidy := by
  obtain ⟨merged, order, _, hbuilt, hrun⟩ := build_ok hbuild
  exact hbuilt.tidy.runSteps hrun

/-! ## Operations -/

namespace TreeSession

/-- The sessions in which members are named too, in columns that were handed out before. -/
inductive Edited : TreeSession → Prop where
  | start (name : String) : Edited (empty.step (.addNamespace name))
  | step {s : TreeSession} (op : TreeOp) : Edited s → (∀ col ∈ op.column?, col ∈ s.columns) →
      Edited (s.step op)
  | nameMember {s : TreeSession} (row : Nat) (kind : MemberKind) (idx col : Nat)
      (name : Option String) : Edited s → col ∈ s.columns →
      Edited { s with tree := s.tree.modifyMember row kind idx (·.setName col name) }

theorem Edited.good {s : TreeSession} (h : s.Edited) : s.Good := by
  induction h with
  | start name => exact (Reached.start name).good
  | step op _ hop ih => exact good_step ih op hop
  | @nameMember s row kind idx col name _ _ ih =>
    have hns := (MappingTree.frame_modifyMember s.tree row kind idx (·.setName col name)).1
    refine ⟨hns ▸ ih.nonempty, hns ▸ ih.columns_lt, fun j k hk => ?_,
      MappingTree.indexed_modifyMember ih.indexed row kind idx _⟩
    rw [MappingTree.nameIn_modifyMember]
    exact ih.narrow j k (hns ▸ hk)

end TreeSession

/-- The trees that a build gives, and those that operations on a tree lead to. -/
inductive MappingTree.Made : MappingTree → Prop where
  | built {b : MappingBuilder} {disk : Files} {h : Option Hierarchy} {r : Registry}
      {t : MappingTree} (hbuild : (b.build disk h r).1 = .ok t) : Made t
  | edited {s : TreeSession} (h : s.Edited) : Made s.tree

theorem MappingTree.Made.tidy {t : MappingTree} (h : t.Made) : t.Tidy := by
  cases h with
  | built hbuild => exact MappingBuilder.tidy_of_build hbuild
  | edited hs => exact ⟨hs.good.indexed, hs.good.narrow⟩

end JarDerivation
