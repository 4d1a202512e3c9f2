-- Sessions on a mapping tree: an empty tree gets a first column, and then the
-- operations come in any order, each with columns that were handed out before.
import JarDerivation.Proofs.Mapping.ClassIndex

namespace JarDerivation

/-- An operation on a tree. -/
inductive TreeOp where
  | addNamespace (name : String)
  | addClass (srcName : String)
  | setClassName (row col : Nat) (name : Option String)
  | setClassNameShared (row col : Nat) (name : Option String)
  | addMember (row : Nat) (kind : MemberKind) (srcName : String) (srcDesc : Option String)
  | rebuildIndex
  deriving DecidableEq, Repr

namespace TreeOp

/-- The column that is passed to an operation. -/
def column? : TreeOp → Option Nat
  | .setClassName _ col _ => some col
  | .setClassNameShared _ col _ => some col
  | _ => none

end TreeOp

structure TreeSession where
  tree : MappingTree
  /-- The columns that were handed out so far. -/
  columns : List Nat
  deriving DecidableEq, Repr

namespace TreeSession

def empty : TreeSession := ⟨.empty, []⟩

/-- A member is not added to a class row that does not exist. -/
def step (s : TreeSession) : TreeOp → TreeSession
  | .addNamespace name => ⟨(s.tree.addNamespace name).2, (s.tree.addNamespace name).1 :: s.columns⟩
  | .addClass srcName => { s with tree := (s.tree.addClass srcName).2 }
  | .setClassName row col name => { s with tree := (s.tree.setClassName row col name).2 }
  | .setClassNameShared row col name => { s with tree := (s.tree.setClassNameShared row col name).2 }
  | .addMember row kind srcName srcDesc =>
    { s with tree := ((s.tree.addMember row kind srcName srcDesc).map (·.2)).getD s.tree }
  | .rebuildIndex => { s with tree := s.tree.rebuildIndex }

/-- The sessions that a first column and then allowed operations lead to. -/
inductive Reached : TreeSession → Prop where
  | start (name : String) : Reached (empty.step (.addNamespace name))
  | step {s : TreeSession} (op : TreeOp) : Reached s → (∀ col ∈ op.column?, col ∈ s.columns) →
      Reached (s.step op)

end TreeSession

namespace MappingTree

/-! ## What a session keeps -/

theorem narrow_renameClass {t : MappingTree} (h : t.Narrow) {row col : Nat}
    (hcol : col < t.namespaces.length) (name : Option String) (shared : Bool) :
    (t.renameClass row col name shared).2.Narrow := by
  intro j k hk
  rw [(frame_renameClass t row col name shared).1] at hk
  rw [nameIn_renameClass, if_neg, h j k hk]
  rintro ⟨_, _, rfl⟩
  omega

theorem narrow_addNamespace {t : MappingTree} (h : t.Narrow) (name : String) :
    (t.addNamespace name).2.Narrow := by
  unfold addNamespace
  cases t.namespaceId? name with
  | some col => exact h
  | none =>
    intro row col hcol
    simp only [List.length_append, List.length_singleton] at hcol
    exact h row col (by omega)

theorem narrow_addClass {t : MappingTree} (h : t.Narrow) (h0 : 0 < t.namespaces.length)
    (srcName : String) : (t.addClass srcName).2.Narrow := by
  rcases addClass_cases t srcName with ⟨row, _, heq⟩ | ⟨_, heq⟩
  · rw [heq]
    exact h
  · rw [heq]
    refine narrow_renameClass (t := t.appendRow) ?_ h0 _ _
    intro row col hcol
    exact (nameIn_append_blank t.classes _ col row).trans (h row col hcol)

theorem narrow_addMember {t t' : MappingTree} (h : t.Narrow) {row idx : Nat} {kind : MemberKind}
    {srcName : String} {srcDesc : Option String}
    (ht : t.addMember row kind srcName srcDesc = some (idx, t')) : t'.Narrow := by
  rcases addMember_cases t row kind srcName srcDesc with
    ⟨_, _, heq⟩ | ⟨_, heq⟩ | ⟨c, names, hc, _, _, heq⟩
  · rw [heq] at ht
    cases ht
    exact h
  · rw [heq] at ht
    cases ht
  · rw [heq] at ht
    cases ht
    intro j k hk
    rw [nameIn_setMembers t hc]
    exact h j k hk

end MappingTree

namespace TreeSession

/-- The tree has a column, only handed out columns are used, and the index is right. -/
structure Good (s : TreeSession) : Prop where
  nonempty : 0 < s.tree.namespaces.length
  columns_lt : ∀ col ∈ s.columns, col < s.tree.namespaces.length
  narrow : s.tree.Narrow
  indexed : s.tree.Indexed

theorem addNamespace_lt (t : MappingTree) (name : String) :
    (t.addNamespace name).1 < (t.addNamespace name).2.namespaces.length ∧
      t.namespaces.length ≤ (t.addNamespace name).2.namespaces.length := by
  unfold MappingTree.addNamespace
  cases h : t.namespaceId? name with
  | some col =>
    unfold MappingTree.namespaceId? at h
    obtain ⟨hlt, _⟩ := List.findIdx?_eq_some_iff_getElem.mp h
    exact ⟨hlt, Nat.le_refl _⟩
  | none => simp

theorem good_step {s : TreeSession} (h : s.Good) (op : TreeOp)
    (hop : ∀ col ∈ op.column?, col ∈ s.columns) : (s.step op).Good := by
  obtain ⟨h0, hcols, hnarrow, hindexed⟩ := h
  -- Setting a name keeps the columns, whether the name may be shared or not.
  have hrename : ∀ row col name shared, col ∈ s.columns →
      Good { s with tree := (s.tree.renameClass row col name shared).2 } := by
    intro row col name shared hcol
    have hns := (MappingTree.frame_renameClass s.tree row col name shared).1
    exact ⟨hns ▸ h0, hns ▸ hcols, MappingTree.narrow_renameClass hnarrow (hcols col hcol) _ _,
      MappingTree.indexed_renameClass hindexed _ _ _ _⟩
  cases op with
  | addNamespace name =>
    obtain ⟨hlt, hle⟩ := addNamespace_lt s.tree name
    refine ⟨Nat.lt_of_lt_of_le h0 hle, ?_, MappingTree.narrow_addNamespace hnarrow name,
      MappingTree.indexed_addNamespace hindexed name⟩
    intro col hcol
    rcases List.mem_cons.mp hcol with rfl | hcol
    · exact hlt
    · exact Nat.lt_of_lt_of_le (hcols col hcol) hle
  | addClass srcName =>
    have hns : (s.tree.addClass srcName).2.namespaces = s.tree.namespaces := by
      rcases MappingTree.addClass_cases s.tree srcName with ⟨row, _, heq⟩ | ⟨_, heq⟩
      · rw [heq]
      · rw [heq]
        exact (MappingTree.frame_renameClass _ _ _ _ _).1
    refine ⟨hns ▸ h0, hns ▸ hcols, MappingTree.narrow_addClass hnarrow h0 srcName,
      MappingTree.indexed_addClass hindexed srcName⟩
  | setClassName row col name => exact hrename row col name false (hop col rfl)
  | setClassNameShared row col name => exact hrename row col name true (hop col rfl)
  | addMember row kind srcName srcDesc =>
    simp only [step]
    cases hm : s.tree.addMember row kind srcName srcDesc with
    | none => exact ⟨h0, hcols, hnarrow, hindexed⟩
    | some added =>
      obtain ⟨idx, t'⟩ := added
      have hns : t'.namespaces = s.tree.namespaces := by
        rcases MappingTree.addMember_cases s.tree row kind srcName srcDesc with
          ⟨_, _, heq⟩ | ⟨_, heq⟩ | ⟨c, names, _, _, _, heq⟩
        · rw [heq] at hm
          cases hm
          rfl
        · rw [heq] at hm
          cases hm
        · rw [heq] at hm
          cases hm
          rfl
      exact ⟨hns ▸ h0, hns ▸ hcols, MappingTree.narrow_addMember hnarrow hm,
        MappingTree.indexed_addMember hindexed hm⟩
  | rebuildIndex =>
    exact ⟨h0, hcols, hnarrow, MappingTree.indexed_rebuildIndex hnarrow⟩

theorem Reached.good {s : TreeSession} (h : s.Reached) : s.Good := by
  induction h with
  | start name =>
    have hempty : MappingTree.empty.Narrow := fun _ _ _ => rfl
    obtain ⟨hlt, _⟩ := addNamespace_lt .empty name
    refine ⟨Nat.zero_lt_of_lt hlt, ?_, MappingTree.narrow_addNamespace hempty name,
      MappingTree.indexed_addNamespace MappingTree.indexed_empty name⟩
    intro col hcol
    rw [List.mem_singleton.mp hcol]
    exact hlt
  | step op _ hop ih => exact good_step ih op hop

/-! ## The laws -/

/-- Every look-up gives the first row that holds the name. A name is refused only
for a missing row or for a name that another row holds, and then nothing changes;
otherwise one cell changes. -/
theorem a_name_leads_to_its_first_holder {s : TreeSession} (h : s.Reached) :
    (∀ name col,
      (∀ row, s.tree.findClass name col = some row ↔
        s.tree.className row col = some name ∧
          ∀ earlier < row, s.tree.className earlier col ≠ some name) ∧
      (s.tree.findClass name col = none ↔ ∀ row, s.tree.className row col ≠ some name)) ∧
    ∀ row col name,
      ((s.tree.setClassName row col name).1 = false →
        (s.tree.classes.length ≤ row ∨ ∃ n other, name = some n ∧ other ≠ row ∧
          s.tree.className other col = some n) ∧
        (s.tree.setClassName row col name).2.namespaces = s.tree.namespaces ∧
        (s.tree.setClassName row col name).2.classes = s.tree.classes ∧
        ∀ n k, (s.tree.setClassName row col name).2.findClass n k = s.tree.findClass n k) ∧
      ((s.tree.setClassName row col name).1 = true →
        row < s.tree.classes.length ∧
        (s.tree.setClassName row col name).2.namespaces = s.tree.namespaces ∧
        (s.tree.setClassName row col name).2.classes.length = s.tree.classes.length ∧
        (∀ j k, (s.tree.setClassName row col name).2.className j k =
          if j = row ∧ k = col then name else s.tree.className j k) ∧
        ∀ j kind, MappingTree.membersIn (s.tree.setClassName row col name).2.classes j kind =
          MappingTree.membersIn s.tree.classes j kind) := by
  have hindexed := h.good.indexed
  refine ⟨?_, ?_⟩
  · intro name col
    rw [hindexed]
    exact ⟨fun _ => MappingTree.firstHolder_eq_some, MappingTree.firstHolder_eq_none⟩
  · intro row col name
    unfold MappingTree.setClassName
    rcases MappingTree.renameClass_cases s.tree row col name false with
      ⟨hnone, heq⟩ | ⟨c, n, owner, _, _, hn, hfind, hne, heq⟩ | ⟨c, hc, _, heq⟩
    · rw [heq]
      exact ⟨fun _ => ⟨Or.inl (List.getElem?_eq_none_iff.mp hnone), rfl, rfl, fun _ _ => rfl⟩, nofun⟩
    · rw [heq]
      refine ⟨fun _ => ⟨Or.inr ⟨n, owner, hn, hne, ?_⟩, rfl, rfl, ?_⟩, nofun⟩
      · rw [hindexed] at hfind
        exact (MappingTree.firstHolder_eq_some.mp hfind).1
      · intro m k
        rw [MappingTree.findClass_eq_column, MappingTree.column_widenIndex,
          ← MappingTree.findClass_eq_column]
    · have happlied : (s.tree.renameClass row col name false).1 = true := by rw [heq]
      obtain ⟨hns, hlen, hmembers⟩ := MappingTree.frame_renameClass s.tree row col name false
      refine ⟨fun hf => absurd (happlied.symm.trans hf) (by simp), fun _ =>
        ⟨(List.getElem?_eq_some_iff.mp hc).1, hns, hlen, ?_, hmembers⟩⟩
      intro j k
      have hcell := MappingTree.nameIn_renameClass s.tree row col name false j k
      simp only [happlied, true_and] at hcell
      exact hcell

/-- Two classes share the name `World`, and then the first of them is renamed. -/
def sharedName : TreeSession :=
  [.addNamespace "named", .addClass "a", .addClass "b", .setClassName 0 1 (some "World"),
    .setClassNameShared 1 1 (some "World"), .setClassName 0 1 (some "Level")].foldl step
    (empty.step (.addNamespace "official"))

theorem the_next_holder_answers_to_a_shared_name :
    sharedName.Reached ∧ sharedName.tree.findClass "World" 1 = some 1 ∧
      (sharedName.tree.setClassName 0 1 (some "World")).1 = false ∧
      (sharedName.tree.setClassName 0 1 (some "World")).2.classes = sharedName.tree.classes := by
  have hreached : sharedName.Reached :=
    ((((((Reached.start "official").step (.addNamespace "named") nofun).step (.addClass "a")
      nofun).step (.addClass "b") nofun).step (.setClassName 0 1 (some "World")) (by decide)).step
      (.setClassNameShared 1 1 (some "World")) (by decide)).step
      (.setClassName 0 1 (some "Level")) (by decide)
  obtain ⟨hfind, hset⟩ := a_name_leads_to_its_first_holder hreached
  have hrefused : (sharedName.tree.setClassName 0 1 (some "World")).1 = false := by decide
  refine ⟨hreached, ((hfind "World" 1).1 1).mpr ⟨by decide, by decide⟩, hrefused, ?_⟩
  exact ((hset 0 1 (some "World")).1 hrefused).2.2.1

end TreeSession

end JarDerivation
