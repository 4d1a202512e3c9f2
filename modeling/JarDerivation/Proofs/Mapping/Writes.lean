-- The writes of a join. A join adds columns and rows and writes names into its
-- own columns, and it does nothing else. So what each write keeps holds of every
-- tree that joins have built.
import JarDerivation.Mapping.Build
import JarDerivation.Proofs.Mapping.Cells
import JarDerivation.Proofs.Outcome
import Mathlib.Logic.Relation

namespace JarDerivation

/-- The columns that a join writes names to. -/
def JoinPlan.Opens (p : JoinPlan) (col : Nat) : Prop :=
  col ≠ 0 ∧ (col = p.keyCol ∨ ∃ j, (j, col) ∈ p.columns)

namespace MappingTree

/-! ## Writes -/

/-- One write, where names may be written to some columns only. -/
inductive Write (may : Nat → Prop) (t : MappingTree) : MappingTree → Prop where
  | column (name : String) : Write may t (t.addNamespace name).2
  | row (srcName : String) : Write may t (t.addClass srcName).2
  | name (row col : Nat) (name : String) (shared : Bool) (hcol : may col) :
      Write may t (t.renameClass row col (some name) shared).2
  | member {t' : MappingTree} {row idx : Nat} {kind : MemberKind} {srcName : String}
      {srcDesc : Option String} (h : t.addMember row kind srcName srcDesc = some (idx, t')) :
      Write may t t'
  | memberNames (row : Nat) (kind : MemberKind) (idx : Nat) (f : MemberRow → MemberRow)
      (hname : ∀ m col, ¬ may col → (f m).name col = m.name col)
      (hdesc : ∀ m, (f m).srcDesc = m.srcDesc) : Write may t (t.modifyMember row kind idx f)

/-- Any number of writes. -/
abbrev Writes (may : Nat → Prop) : MappingTree → MappingTree → Prop :=
  Relation.ReflTransGen (Write may)

theorem Writes.mono {may may' : Nat → Prop} {t t' : MappingTree} (h : Writes may t t')
    (hmay : ∀ col, may col → may' col) : Writes may' t t' := by
  refine Relation.ReflTransGen.mono ?_ _ _ h
  rintro t t' (name | src | ⟨row, col, name, shared, hcol⟩ | hadd | ⟨row, kind, idx, f, hname, hdesc⟩)
  · exact .column name
  · exact .row src
  · exact .name row col name shared (hmay col hcol)
  · exact .member hadd
  · exact .memberNames row kind idx f (fun m col hc => hname m col fun h => hc (hmay col h)) hdesc

/-! ## The plan -/

theorem writes_addColumns (may : Nat → Prop) (t : MappingTree) (namespaces : List String)
    (keyCol : Nat) (js : List Nat) : Writes may t (t.addColumns namespaces keyCol js).1 := by
  induction js generalizing t with
  | nil => exact .refl
  | cons j rest ih =>
    unfold addColumns
    cases namespaces[j]? with
    | none => exact ih t
    | some ns => exact .head (.column ns) (ih _)

theorem namespaceId?_addNamespace (t : MappingTree) (ns : String) :
    (t.addNamespace ns).2.namespaceId? ns = some (t.addNamespace ns).1 := by
  unfold addNamespace
  cases h : t.namespaceId? ns with
  | some col => exact h
  | none =>
    unfold namespaceId? List.idxOf? at h ⊢
    simp only
    rw [List.findIdx?_append, h]
    simp

/-- A namespace keeps its column. -/
theorem namespaceId?_addNamespace_of_some {t : MappingTree} {name : String} {col : Nat}
    (h : t.namespaceId? name = some col) (ns : String) :
    (t.addNamespace ns).2.namespaceId? name = some col := by
  unfold addNamespace
  cases t.namespaceId? ns with
  | some _ => exact h
  | none =>
    unfold namespaceId? List.idxOf? at h ⊢
    simp only
    rw [List.findIdx?_append, h]
    rfl

theorem namespaceId?_addColumns {t : MappingTree} {name : String} {col : Nat}
    (h : t.namespaceId? name = some col) (namespaces : List String) (keyCol : Nat) (js : List Nat) :
    (t.addColumns namespaces keyCol js).1.namespaceId? name = some col := by
  induction js generalizing t with
  | nil => exact h
  | cons j rest ih =>
    unfold addColumns
    cases namespaces[j]? with
    | none => exact ih h
    | some ns => exact ih (namespaceId?_addNamespace_of_some h ns)

/-- The namespace of a column. -/
theorem getElem?_of_namespaceId? {t : MappingTree} {name : String} {col : Nat}
    (h : t.namespaceId? name = some col) : t.namespaces[col]? = some name := by
  unfold namespaceId? List.idxOf? at h
  obtain ⟨hlt, hname, _⟩ := List.findIdx?_eq_some_iff_getElem.mp h
  rw [List.getElem?_eq_getElem hlt]
  simpa using hname

/-- New columns leave all rows, all look-ups and the source namespace as they are. -/
theorem frame_addColumns (t : MappingTree) (namespaces : List String) (keyCol : Nat)
    (js : List Nat) :
    (t.addColumns namespaces keyCol js).1.classes = t.classes ∧
      (∀ name col, (t.addColumns namespaces keyCol js).1.findClass name col = t.findClass name col) ∧
      (t.namespaces ≠ [] → (t.addColumns namespaces keyCol js).1.source? = t.source?) := by
  induction js generalizing t with
  | nil => exact ⟨rfl, fun _ _ => rfl, fun _ => rfl⟩
  | cons j rest ih =>
    unfold addColumns
    cases namespaces[j]? with
    | none => exact ih t
    | some ns =>
      obtain ⟨hclasses, hfind, hsource⟩ := ih (t.addNamespace ns).2
      refine ⟨hclasses.trans (classes_addNamespace t ns), fun name col =>
        (hfind name col).trans (findClass_addNamespace t ns name col), fun hne => ?_⟩
      have hadd : (t.addNamespace ns).2.namespaces ≠ [] ∧
          (t.addNamespace ns).2.source? = t.source? := by
        unfold addNamespace
        cases t.namespaceId? ns with
        | some _ => exact ⟨hne, rfl⟩
        | none =>
          obtain ⟨first, others, hns⟩ := List.exists_cons_of_ne_nil hne
          simp [source?, hns]
      exact (hsource hadd.1).trans hadd.2

/-- A plan takes in a column unless it is the key column or the source column. -/
theorem mem_columns_cons {columns : List (Nat × Nat)} {keyCol j j' col col' : Nat} :
    (j, col) ∈ (if col' != keyCol && col' != 0 then (j', col') :: columns else columns) ↔
      (j = j' ∧ col = col' ∧ col ≠ keyCol ∧ col ≠ 0) ∨ (j, col) ∈ columns := by
  split
  · rename_i hcol
    rw [List.mem_cons, Prod.mk.injEq]
    constructor
    · rintro (⟨rfl, rfl⟩ | h)
      · exact Or.inl ⟨rfl, rfl, by simpa using hcol⟩
      · exact Or.inr h
    · rintro (⟨rfl, rfl, _⟩ | h)
      · exact Or.inl ⟨rfl, rfl⟩
      · exact Or.inr h
  · rename_i hcol
    refine ⟨Or.inr, ?_⟩
    rintro (⟨_, rfl, hne⟩ | h)
    · exact absurd (by simpa using hne) hcol
    · exact h

/-- The columns that are written are those of the file, but for the key column and the
source column. -/
theorem mem_addColumns {t : MappingTree} {namespaces : List String} {keyCol : Nat} {js : List Nat}
    {j col : Nat} :
    (j, col) ∈ (t.addColumns namespaces keyCol js).2 ↔
      j ∈ js ∧ (∃ ns, namespaces[j]? = some ns ∧
        (t.addColumns namespaces keyCol js).1.namespaceId? ns = some col) ∧
          col ≠ keyCol ∧ col ≠ 0 := by
  induction js generalizing t with
  | nil => simp [addColumns]
  | cons j' rest ih =>
    unfold addColumns
    cases hns : namespaces[j']? with
    | none =>
      simp only
      rw [ih]
      constructor
      · rintro ⟨hj, hcol⟩
        exact ⟨List.mem_cons_of_mem _ hj, hcol⟩
      · rintro ⟨hj, ⟨ns, hns', hid⟩, hcol⟩
        rcases List.mem_cons.mp hj with rfl | hj
        · rw [hns] at hns'
          cases hns'
        · exact ⟨hj, ⟨ns, hns', hid⟩, hcol⟩
    | some ns =>
      have hid := namespaceId?_addColumns (namespaceId?_addNamespace t ns) namespaces keyCol rest
      have hrest := ih (t := (t.addNamespace ns).2)
      simp only
      generalize (t.addNamespace ns).1 = col' at hid ⊢
      generalize (t.addNamespace ns).2.addColumns namespaces keyCol rest = added at hid hrest ⊢
      rw [mem_columns_cons, hrest]
      constructor
      · rintro (⟨rfl, rfl, hne⟩ | ⟨hj, hcol⟩)
        · exact ⟨List.mem_cons_self, ⟨ns, hns, hid⟩, hne⟩
        · exact ⟨List.mem_cons_of_mem _ hj, hcol⟩
      · rintro ⟨hj, ⟨ns', hns', hid'⟩, hne⟩
        rcases List.mem_cons.mp hj with rfl | hj
        · rw [hns] at hns'
          cases hns'
          rw [hid] at hid'
          cases hid'
          exact Or.inl ⟨rfl, rfl, hne⟩
        · exact Or.inr ⟨hj, ⟨ns', hns', hid'⟩, hne⟩

/-- The names that a plan writes are not in the key column and not in the source column. -/
def Proper (p : JoinPlan) : Prop := ∀ j col, (j, col) ∈ p.columns → col ≠ p.keyCol ∧ col ≠ 0

/-- The tree that a plan starts from: it has the key column if it was empty. -/
def withKey (t : MappingTree) (i : MappingInput) : MappingTree :=
  if t.namespaces.isEmpty then (t.addNamespace i.keyNs).2 else t

theorem requireNamespace_ok {t : MappingTree} {name context : String} {col : Nat}
    (h : t.requireNamespace name context = .ok col) : t.namespaceId? name = some col := by
  unfold requireNamespace at h
  cases hid : t.namespaceId? name with
  | none =>
    rw [hid] at h
    cases h
  | some found =>
    rw [hid] at h
    cases h
    rfl

/-- All that a plan is. -/
theorem planJoin_ok {t t' : MappingTree} {i : MappingInput} {p : JoinPlan}
    (h : t.planJoin i = .ok (p, t')) :
    (t.withKey i).namespaceId? i.keyNs = some p.keyCol ∧
      t' = ((t.withKey i).addColumns i.file.namespaces p.keyCol i.written).1 ∧
      p.columns = ((t.withKey i).addColumns i.file.namespaces p.keyCol i.written).2 ∧
      p.keyFileCol = (i.file.column? i.keyNs).getD 0 ∧
      p.srcFileCol = t'.source?.bind i.file.column? ∧
      p.filtered = (i.onlyExistingSrc || !p.skipCols.isEmpty) ∧
      p.allowDuplicates = i.allowDuplicates ∧
      i.skipIfNotIn.mapM ((t.withKey i).requireNamespace · s!"skip_if_not_in of {i.label}") =
        .ok p.skipCols := by
  obtain ⟨keyCol, hkey, h⟩ := ok_of_bind h
  obtain ⟨skipCols, hskip, h⟩ := ok_of_bind h
  cases h
  exact ⟨requireNamespace_ok hkey, rfl, rfl, rfl, rfl, rfl, rfl, hskip⟩

/-! ## Classes -/

/-- The three ways in which a class entry gets its row. -/
theorem placeClass_cases {t t' : MappingTree} {p : JoinPlan} {e : ClassEntry} {row : Nat}
    (h : t.placeClass p e = some (row, t')) :
    ∃ key, e.names.at? p.keyFileCol = some key ∧
      ((t.findClass key p.keyCol = some row ∧ t' = t) ∨
        (t.findClass key p.keyCol = none ∧ p.filtered = false ∧ p.keyCol = 0 ∧
          t.addClass key = (row, t')) ∨
        (t.findClass key p.keyCol = none ∧ p.filtered = false ∧ p.keyCol ≠ 0 ∧
          ∃ src, p.srcFileCol.bind e.names.at? = some src ∧ row = (t.addClass src).1 ∧
            t' = ((t.addClass src).2.renameClass row p.keyCol (some key) false).2)) := by
  unfold placeClass at h
  obtain ⟨key, hkey, h⟩ := Option.bind_eq_some_iff.mp h
  refine ⟨key, hkey, ?_⟩
  cases hf : t.findClass key p.keyCol with
  | some found =>
    rw [hf] at h
    cases h
    exact Or.inl ⟨rfl, rfl⟩
  | none =>
    rw [hf] at h
    right
    simp only at h
    split at h
    · cases h
    · rename_i hfiltered
      split at h
      · rename_i hcol
        exact Or.inl ⟨rfl, by simpa using hfiltered, hcol, Option.some.inj h⟩
      · rename_i hcol
        obtain ⟨src, hsrc, h⟩ := Option.bind_eq_some_iff.mp h
        cases h
        exact Or.inr ⟨rfl, by simpa using hfiltered, hcol, src, hsrc, rfl, rfl⟩

theorem writes_placeClass {t t' : MappingTree} {p : JoinPlan} {e : ClassEntry} {row : Nat}
    (h : t.placeClass p e = some (row, t')) : Writes p.Opens t t' := by
  obtain ⟨key, _, ⟨_, ht⟩ | ⟨_, _, _, hadd⟩ | ⟨_, _, hcol, src, _, _, ht⟩⟩ := placeClass_cases h
  · exact ht ▸ .refl
  · have ht : t' = (t.addClass key).2 := by rw [hadd]
    exact ht ▸ .single (.row key)
  · rw [ht]
    exact .head (.row src) (.single (.name _ _ _ _ ⟨hcol, Or.inl rfl⟩))

/-- What writing the names of an entry does to a tree, one name at a time. -/
theorem nameClass_induction {motive : MappingTree → Prop} {t : MappingTree} {p : JoinPlan} {row : Nat}
    {e : ClassEntry} (h : motive t)
    (hstep : ∀ t j col name, (j, col) ∈ p.columns → motive t →
      motive (t.renameClass row col (some name) p.allowDuplicates).2) :
    motive (t.nameClass p row e) := by
  unfold nameClass
  refine List.foldlRecOn p.columns _ h ?_
  rintro t ht ⟨j, col⟩ hmem
  simp only
  cases e.names.at? j with
  | none => exact ht
  | some name => exact hstep t j col name hmem ht

theorem writes_nameClass {p : JoinPlan} (hp : ∀ j col, (j, col) ∈ p.columns → col ≠ 0)
    (t : MappingTree) (row : Nat) (e : ClassEntry) : Writes p.Opens t (t.nameClass p row e) := by
  refine nameClass_induction (motive := Writes p.Opens t) .refl ?_
  intro s j col name hmem hs
  exact hs.tail (.name row col name _ ⟨hp j col hmem, Or.inr ⟨j, hmem⟩⟩)

theorem writes_joinClass {p : JoinPlan} (hp : ∀ j col, (j, col) ∈ p.columns → col ≠ 0)
    (t : MappingTree) (e : ClassEntry) : Writes p.Opens t (t.joinClass p e).2 := by
  unfold joinClass
  cases h : t.placeClass p e with
  | none => exact .refl
  | some found =>
    obtain ⟨row, s⟩ := found
    simp only
    split
    · exact writes_placeClass h
    · exact (writes_placeClass h).trans (writes_nameClass hp s row e)

theorem writes_joinClasses {p : JoinPlan} (hp : ∀ j col, (j, col) ∈ p.columns → col ≠ 0)
    (t : MappingTree) (es : List ClassEntry) : Writes p.Opens t (t.joinClasses p es).tree := by
  unfold joinClasses
  refine List.foldlRecOn (motive := fun s : ClassJoin => Writes p.Opens t s.tree) es _ .refl ?_
  intro s hs e _
  exact hs.trans (writes_joinClass hp s.tree e)

/-! ## Members -/

/-- The three ways in which a member entry gets its row. -/
theorem placeMember_cases {t t' : MappingTree} {p : JoinPlan} {row idx : Nat} {kind : MemberKind}
    {m : MemberEntry} {srcDesc : Option String}
    (h : t.placeMember p row kind m srcDesc = some (idx, t')) :
    ∃ key, m.names.at? p.keyFileCol = some key ∧
      ((t.findMember row kind key p.keyCol srcDesc = some idx ∧ t' = t) ∨
        (t.findMember row kind key p.keyCol srcDesc = none ∧ p.filtered = false ∧ p.keyCol = 0 ∧
          t.addMember row kind key srcDesc = some (idx, t')) ∨
        (t.findMember row kind key p.keyCol srcDesc = none ∧ p.filtered = false ∧ p.keyCol ≠ 0 ∧
          ∃ src s, p.srcFileCol.bind m.names.at? = some src ∧
            t.addMember row kind src srcDesc = some (idx, s) ∧
            t' = s.modifyMember row kind idx fun r => r.setName p.keyCol (some key))) := by
  unfold placeMember at h
  obtain ⟨key, hkey, h⟩ := Option.bind_eq_some_iff.mp h
  refine ⟨key, hkey, ?_⟩
  cases hf : t.findMember row kind key p.keyCol srcDesc with
  | some found =>
    rw [hf] at h
    cases h
    exact Or.inl ⟨rfl, rfl⟩
  | none =>
    rw [hf] at h
    right
    simp only at h
    split at h
    · cases h
    · rename_i hfiltered
      split at h
      · rename_i hcol
        exact Or.inl ⟨rfl, by simpa using hfiltered, hcol, h⟩
      · rename_i hcol
        obtain ⟨src, hsrc, h⟩ := Option.bind_eq_some_iff.mp h
        obtain ⟨⟨idx', s⟩, hadd, h⟩ := Option.bind_eq_some_iff.mp h
        cases h
        exact Or.inr ⟨rfl, by simpa using hfiltered, hcol, src, s, hsrc, hadd, rfl⟩

theorem nameMember_srcDesc (p : JoinPlan) (m : MemberEntry) (r : MemberRow) :
    (nameMember p m r).srcDesc = r.srcDesc := by
  unfold nameMember
  refine List.foldlRecOn (motive := fun s : MemberRow => s.srcDesc = r.srcDesc) p.columns _ rfl ?_
  rintro s hs ⟨j, col⟩ _
  simp only
  cases m.names.at? j with
  | none => exact hs
  | some name => exact hs

theorem nameMember_name_ne {p : JoinPlan} {col : Nat} (hcol : ∀ j, (j, col) ∉ p.columns)
    (m : MemberEntry) (r : MemberRow) : (nameMember p m r).name col = r.name col := by
  unfold nameMember
  refine List.foldlRecOn (motive := fun s : MemberRow => s.name col = r.name col) p.columns _ rfl ?_
  rintro s hs ⟨j, col'⟩ hmem
  simp only
  cases m.names.at? j with
  | none => exact hs
  | some name =>
    have hne : col ≠ col' := by
      rintro rfl
      exact hcol j hmem
    rw [MemberRow.name_setName, if_neg hne]
    exact hs

theorem Proper.nameMember_key {p : JoinPlan} (hp : Proper p) (m : MemberEntry) (r : MemberRow) :
    (nameMember p m r).name p.keyCol = r.name p.keyCol :=
  nameMember_name_ne (fun j hmem => (hp j _ hmem).1 rfl) m r

theorem Proper.nameMember_source {p : JoinPlan} (hp : Proper p) (m : MemberEntry) (r : MemberRow) :
    (nameMember p m r).name 0 = r.name 0 :=
  nameMember_name_ne (fun j hmem => (hp j _ hmem).2 rfl) m r

theorem writes_placeMember {t t' : MappingTree} {p : JoinPlan} {row idx : Nat} {kind : MemberKind}
    {m : MemberEntry} {srcDesc : Option String}
    (h : t.placeMember p row kind m srcDesc = some (idx, t')) : Writes p.Opens t t' := by
  obtain ⟨key, _, ⟨_, ht⟩ | ⟨_, _, _, hadd⟩ | ⟨_, _, hcol, src, s, _, hadd, ht⟩⟩ :=
    placeMember_cases h
  · exact ht ▸ .refl
  · exact .single (.member hadd)
  · rw [ht]
    refine .head (.member hadd) (.single (.memberNames row kind idx _ ?_ fun _ => rfl))
    intro r col hclosed
    rw [MemberRow.name_setName, if_neg]
    rintro rfl
    exact hclosed ⟨hcol, Or.inl rfl⟩

theorem writes_joinMember {p : JoinPlan} (hp : ∀ j col, (j, col) ∈ p.columns → col ≠ 0)
    (t : MappingTree) (row : Nat) (kind : MemberKind) (m : MemberEntry) (srcDesc : Option String) :
    Writes p.Opens t (t.joinMember p row kind m srcDesc) := by
  unfold joinMember
  cases h : t.placeMember p row kind m srcDesc with
  | none => exact .refl
  | some found =>
    obtain ⟨idx, s⟩ := found
    simp only
    split
    · exact writes_placeMember h
    · split
      · exact writes_placeMember h
      · refine (writes_placeMember h).tail
          (.memberNames row kind idx _ ?_ (nameMember_srcDesc p m))
        intro r col hclosed
        exact nameMember_name_ne (fun j hmem => hclosed ⟨hp j col hmem, Or.inr ⟨j, hmem⟩⟩) m r

theorem writes_joinMembers {p : JoinPlan} (hp : ∀ j col, (j, col) ∈ p.columns → col ≠ 0)
    (t : MappingTree) (names : Option DescNames) (row : Nat) (kind : MemberKind)
    (ms : List MemberEntry) : Writes p.Opens t (t.joinMembers p names row kind ms) := by
  unfold joinMembers
  refine List.foldlRecOn (motive := Writes p.Opens t) ms _ .refl ?_
  intro s hs m _
  exact hs.trans (writes_joinMember hp s row kind m _)

theorem writes_joinAllMembers {p : JoinPlan} (hp : ∀ j col, (j, col) ∈ p.columns → col ≠ 0)
    (t : MappingTree) (names : Option DescNames) (es : List (ClassEntry × Option Nat)) :
    Writes p.Opens t (t.joinAllMembers p names es) := by
  induction es generalizing t with
  | nil => exact .refl
  | cons entry rest ih =>
    obtain ⟨e, _ | row⟩ := entry
    · exact ih t
    · refine (writes_joinMembers hp t names row .field e.fields).trans ?_
      exact (writes_joinMembers hp _ names row .method e.methods).trans (ih _)

/-! ## The join -/

theorem writes_planJoin {t t' : MappingTree} {i : MappingInput} {p : JoinPlan}
    (h : t.planJoin i = .ok (p, t')) (may : Nat → Prop) : Writes may t t' := by
  obtain ⟨_, ht, _⟩ := planJoin_ok h
  have hkey : Writes may t (t.withKey i) := by
    unfold withKey
    split
    · exact .single (.column i.keyNs)
    · exact .refl
  exact ht ▸ hkey.trans (writes_addColumns may _ _ _ _)

/-- A join is its plan, then all classes, then all members. -/
theorem join_ok {t t' : MappingTree} {i : MappingInput} (h : t.join i = .ok t') :
    ∃ p s, t.planJoin i = .ok (p, s) ∧
      t' = (s.joinClasses p i.file.classes).tree.joinAllMembers p
        (if i.file.namespaces.head? == (s.joinClasses p i.file.classes).tree.source? then none
          else some (s.joinClasses p i.file.classes).descNames)
        (i.file.classes.zip (s.joinClasses p i.file.classes).rows) := by
  obtain ⟨⟨p, s⟩, hplan, h⟩ := ok_of_bind h
  cases h
  exact ⟨p, s, hplan, rfl⟩

/-- Once its plan is made, a join writes to the columns of the plan. -/
theorem writes_of_plan {t s : MappingTree} {i : MappingInput} {p : JoinPlan}
    (h : t.planJoin i = .ok (p, s)) (es : List ClassEntry) (names : Option DescNames)
    (placed : List (ClassEntry × Option Nat)) :
    Writes p.Opens s ((s.joinClasses p es).tree.joinAllMembers p names placed) := by
  have hp : ∀ j col, (j, col) ∈ p.columns → col ≠ 0 := by
    obtain ⟨_, _, hcolumns, _⟩ := planJoin_ok h
    intro j col hmem
    rw [hcolumns] at hmem
    exact (mem_addColumns.mp hmem).2.2.2
  exact (writes_joinClasses hp s es).trans (writes_joinAllMembers hp _ names placed)

/-- A join only adds columns and rows and writes names to the columns of its plan. -/
theorem writes_join {t t' : MappingTree} {i : MappingInput} (h : t.join i = .ok t') :
    ∃ p s, t.planJoin i = .ok (p, s) ∧ Writes p.Opens t t' := by
  obtain ⟨p, s, hplan, ht⟩ := join_ok h
  refine ⟨p, s, hplan, ?_⟩
  rw [ht]
  exact (writes_planJoin hplan p.Opens).trans (writes_of_plan hplan _ _ _)

/-! ## Trees that joins have built -/

/-- The trees that joins build from nothing. -/
inductive Built : MappingTree → Prop where
  | empty : Built .empty
  | join {t t' : MappingTree} {i : MappingInput} (ht : Built t) (h : t.join i = .ok t') : Built t'

/-- What each write outside the source column keeps holds of every built tree. -/
theorem Built.induct {P : MappingTree → Prop} {t : MappingTree} (h : Built t) (hempty : P .empty)
    (hwrite : ∀ t t', P t → Write (· ≠ 0) t t' → P t') : P t := by
  induction h with
  | empty => exact hempty
  | @join t t' i _ h ih =>
    obtain ⟨p, s, _, hopens⟩ := writes_join h
    have hw : Writes (· ≠ 0) t t' := hopens.mono fun _ ho => ho.1
    clear h hopens
    induction hw with
    | refl => exact ih
    | tail _ hw hP => exact hwrite _ _ hP hw

/-- A turn of joining ends it, or joins one of the inputs that wait and goes on with the others. -/
theorem joinAll_cases {turns : Nat} {waiting order : List MappingInput} {t t' : MappingTree}
    (h : MappingBuilder.joinAll (turns + 1) waiting t = .ok (t', order)) :
    (t' = t ∧ order = []) ∨ ∃ place i s rest, waiting[place]? = some i ∧ t.join i = .ok s ∧
      MappingBuilder.joinAll turns (waiting.eraseIdx place) s = .ok (t', rest) ∧
      order = i :: rest := by
  unfold MappingBuilder.joinAll at h
  split at h
  · cases h
    exact Or.inl ⟨rfl, rfl⟩
  · split at h
    · cases h
    · split at h
      · cases h
      · rename_i place _ _ i hi
        obtain ⟨s, hs, h⟩ := ok_of_bind h
        obtain ⟨⟨u, rest⟩, hu, h⟩ := ok_of_bind h
        cases h
        exact Or.inr ⟨place, i, s, rest, hi, hs, hu, rfl⟩

theorem built_joinAll {turns : Nat} {waiting order : List MappingInput} {t t' : MappingTree}
    (h : MappingBuilder.joinAll turns waiting t = .ok (t', order)) (ht : Built t) : Built t' := by
  induction turns generalizing waiting order t with
  | zero =>
    cases h
    exact ht
  | succ turns ih =>
    rcases joinAll_cases h with ⟨hdone, _⟩ | ⟨_, i, s, rest, _, hs, hrest, _⟩
    · rw [hdone]
      exact ht
    · exact ih hrest (.join ht hs)

theorem Built.indexed {t : MappingTree} (h : Built t) : t.Indexed := by
  refine h.induct indexed_empty ?_
  rintro t t' ht (name | src | ⟨row, col, name, shared, _⟩ | hadd | ⟨row, kind, idx, f, _, _⟩)
  · exact indexed_addNamespace ht name
  · exact indexed_addClass ht src
  · exact indexed_renameClass ht row col _ shared
  · exact indexed_addMember ht hadd
  · exact indexed_modifyMember ht row kind idx f

/-- Every class and every member has a source name. -/
structure Sourced (t : MappingTree) : Prop where
  classes : ∀ row < t.classes.length, ∃ name, nameIn t.classes 0 row = some name
  members : ∀ row kind ms, membersIn t.classes row kind = some ms →
    ∀ m ∈ ms, ∃ name, m.name 0 = some name

theorem sourced_addClass {t : MappingTree} (h : t.Sourced) (srcName : String) :
    (t.addClass srcName).2.Sourced := by
  cases hf : t.findClass srcName 0 with
  | some row =>
    unfold addClass
    rw [hf]
    exact h
  | none =>
    obtain ⟨_, _, hlen, hnames, hmembers⟩ := addClass_new hf
    refine ⟨?_, ?_⟩
    · intro row hrow
      rw [hnames]
      split
      · exact ⟨srcName, rfl⟩
      · exact h.classes row (by omega)
    · intro row kind ms hms
      rw [hmembers] at hms
      split at hms
      · cases hms
        nofun
      · exact h.members row kind ms hms

theorem sourced_addMember {t t' : MappingTree} (h : t.Sourced) {row idx : Nat} {kind : MemberKind}
    {srcName : String} {srcDesc : Option String}
    (ht : t.addMember row kind srcName srcDesc = some (idx, t')) : t'.Sourced := by
  cases hf : t.findMember row kind srcName 0 srcDesc with
  | some found =>
    unfold addMember at ht
    rw [hf] at ht
    cases ht
    exact h
  | none =>
    obtain ⟨old, hold, _, _, hlen, hnames, hmembers⟩ := addMember_new hf ht
    refine ⟨?_, ?_⟩
    · intro j hj
      rw [hnames]
      exact h.classes j (hlen ▸ hj)
    · intro j k ms hms m hm
      rw [hmembers] at hms
      split at hms
      · cases hms
        rcases List.mem_append.mp hm with hm | hm
        · exact h.members row kind old hold m hm
        · rw [List.mem_singleton.mp hm]
          exact ⟨srcName, by rw [name_memberRow, if_pos rfl]⟩
      · exact h.members j k ms hms m hm

theorem Built.sourced {t : MappingTree} (h : Built t) : t.Sourced := by
  refine h.induct ⟨nofun, nofun⟩ ?_
  rintro t t' ht (name | src | ⟨row, col, name, shared, hcol⟩ | hadd |
    ⟨row, kind, idx, f, hname, _⟩)
  · refine ⟨?_, ?_⟩
    · rw [classes_addNamespace]
      exact ht.classes
    · rw [classes_addNamespace]
      exact ht.members
  · exact sourced_addClass ht src
  · obtain ⟨_, hlen, hmembers⟩ := frame_renameClass t row col (some name) shared
    refine ⟨?_, ?_⟩
    · intro j hj
      rw [nameIn_renameClass, if_neg fun h => hcol h.2.2.symm]
      exact ht.classes j (hlen ▸ hj)
    · intro j k ms hms
      rw [hmembers] at hms
      exact ht.members j k ms hms
  · exact sourced_addMember ht hadd
  · refine ⟨?_, ?_⟩
    · intro j hj
      rw [nameIn_modifyMember]
      exact ht.classes j ((frame_modifyMember t row kind idx f).2.2 ▸ hj)
    · intro j k ms hms m hm
      rw [membersIn_modifyMember] at hms
      split at hms
      · obtain ⟨old, hold, heq⟩ := Option.map_eq_some_iff.mp hms
        obtain ⟨place, hplace⟩ := List.mem_iff_getElem?.mp (heq ▸ hm)
        rw [List.getElem?_modify] at hplace
        obtain ⟨before, hbefore, hm⟩ := Option.map_eq_some_iff.mp hplace
        obtain ⟨name, hn⟩ := ht.members j k old hold before (List.mem_of_getElem? hbefore)
        refine ⟨name, ?_⟩
        rw [← hm]
        split
        · rw [hname before 0 fun h => h rfl, hn]
        · exact hn
      · exact ht.members j k ms hms m hm

end MappingTree

end JarDerivation
