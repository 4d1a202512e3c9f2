-- Inputs that do not meet. Two files with no column in common but the source namespace
-- can be joined in either order. The trees have other rows and other columns then, but
-- each class and each described member is in both, under the same names.
import JarDerivation.Proofs.Mapping.JoinOrder
import JarDerivation.Proofs.Mapping.SingleFile
import JarDerivation.Proofs.Mapping.SourceKeys

namespace JarDerivation

/-! ## Plain inputs -/

namespace MappingInput

/-- The input joins its file on the first column, which is `root`, without conditions and
without passes, and every member of the file has a descriptor. -/
structure Plain (i : MappingInput) (root : String) : Prop where
  first : i.file.namespaces.head? = some root
  keyNs : i.keyNs = root
  noSkip : i.skipIfNotIn = []
  unfiltered : i.onlyExistingSrc = false
  depends : i.depends = []
  postPasses : i.postPasses = []
  described : ∀ e ∈ i.file.classes, ∀ m ∈ e.fields ++ e.methods, m.desc.isSome

/-- The columns of the file that are written for a namespace. -/
def columnsOf (i : MappingInput) (ns : String) : List Nat :=
  i.written.filter (i.file.namespaces[·]? == some ns)

/-- The file has a class with a source name. -/
def HasClass (i : MappingInput) (source : String) : Prop :=
  ∃ e ∈ i.file.classes, e.names.at? 0 = some source

/-- The file has a member with a source name and a descriptor. -/
def HasMember (i : MappingInput) (source : String) (kind : MemberKind) (name desc : String) :
    Prop :=
  ∃ m ∈ MappingTree.entriesFor 0 source kind i.file.classes,
    m.names.at? 0 = some name ∧ m.desc = some desc

/-- The class names of a namespace, by source names, after the input has been joined. -/
noncomputable def classNames (i : MappingInput) (ns : String) (before : String → Option String) :
    String → Option String :=
  i.file.classes.foldl (MappingTree.claimAll i.allowDuplicates (i.columnsOf ns)) before

/-- The name of a member in a namespace after the input has been joined. -/
def memberName (i : MappingInput) (source : String) (kind : MemberKind) (name desc ns : String)
    (before : Option String) : Option String :=
  (MappingTree.entriesFor 0 source kind i.file.classes).foldl
    (MappingTree.bring (i.columnsOf ns) name desc) before

variable {i j : MappingInput} {ns : String}

theorem mem_writes_of_columnsOf (h : i.columnsOf ns ≠ []) : ns ∈ i.writes := by
  obtain ⟨k, hk⟩ := List.exists_mem_of_ne_nil _ h
  obtain ⟨hwritten, hns⟩ := List.mem_filter.mp hk
  exact List.mem_filterMap.mpr ⟨k, hwritten, by simpa using hns⟩

theorem mem_namespaces_of_writes (h : ns ∈ i.writes) : ns ∈ i.file.namespaces := by
  obtain ⟨_, _, hk⟩ := List.mem_filterMap.mp h
  exact List.mem_of_getElem? hk

/-- An input leaves the names of a namespace that it does not write. -/
theorem classNames_of_nil (h : i.columnsOf ns = []) (before : String → Option String) :
    i.classNames ns before = before := by
  unfold classNames
  rw [h, MappingTree.foldl_claimAll_nil]

theorem memberName_of_nil (h : i.columnsOf ns = []) (source : String) (kind : MemberKind)
    (name desc : String) (before : Option String) :
    i.memberName source kind name desc ns before = before := by
  unfold memberName
  rw [h, MappingTree.foldl_bring_nil]

/-- Two inputs of which only one writes a namespace can be joined in either order. -/
theorem classNames_comm (h : i.columnsOf ns = [] ∨ j.columnsOf ns = [])
    (before : String → Option String) :
    j.classNames ns (i.classNames ns before) = i.classNames ns (j.classNames ns before) := by
  rcases h with hnone | hnone
  · rw [classNames_of_nil hnone, classNames_of_nil hnone]
  · rw [classNames_of_nil hnone, classNames_of_nil hnone]

theorem memberName_comm (h : i.columnsOf ns = [] ∨ j.columnsOf ns = []) (source : String)
    (kind : MemberKind) (name desc : String) (before : Option String) :
    j.memberName source kind name desc ns (i.memberName source kind name desc ns before) =
      i.memberName source kind name desc ns (j.memberName source kind name desc ns before) := by
  rcases h with hnone | hnone
  · rw [memberName_of_nil hnone, memberName_of_nil hnone]
  · rw [memberName_of_nil hnone, memberName_of_nil hnone]

end MappingInput

namespace MappingTree

/-! ## The plan -/

variable {t t' s : MappingTree} {i j : MappingInput} {p : JoinPlan} {root ns : String} {col : Nat}

/-- A namespace of a tree that has grown was in its column before, or its column is new. -/
theorem namespaceId?_of_grown (h : t.namespaces <+: t'.namespaces)
    (hns : t'.namespaceId? ns = some col) :
    t.namespaceId? ns = some col ∨ (t.namespaceId? ns = none ∧ t.namespaces.length ≤ col) := by
  obtain ⟨rest, hrest⟩ := h
  unfold namespaceId? List.idxOf? at hns ⊢
  rw [← hrest, List.findIdx?_append] at hns
  cases hid : t.namespaces.findIdx? (· == ns) with
  | some found =>
    rw [hid] at hns
    exact Or.inl hns
  | none =>
    rw [hid, Option.none_or] at hns
    obtain ⟨k, _, rfl⟩ := Option.map_eq_some_iff.mp hns
    exact Or.inr ⟨rfl, Nat.le_add_left _ _⟩

theorem namespaceId?_eq_none : t.namespaceId? ns = none ↔ ns ∉ t.namespaces :=
  List.idxOf?_eq_none_iff

/-- A column of the tree gets the columns of the file with its namespace. -/
theorem into_addColumns {namespaces : List String} {keyCol : Nat} {js : List Nat}
    (hcol : (t.addColumns namespaces keyCol js).1.namespaceId? ns = some col) (hkey : col ≠ keyCol)
    (hzero : col ≠ 0) :
    ((t.addColumns namespaces keyCol js).2.filter (·.2 == col)).map (·.1) =
      js.filter (namespaces[·]? == some ns) := by
  induction js generalizing t with
  | nil => rfl
  | cons j rest ih =>
    unfold addColumns at hcol ⊢
    cases hj : namespaces[j]? with
    | none =>
      rw [hj] at hcol
      rw [List.filter_cons_of_neg (by simp [hj])]
      exact ih hcol
    | some ns' =>
      rw [hj] at hcol
      have hown := namespaceId?_addColumns (namespaceId?_addNamespace t ns') namespaces keyCol rest
      have hrest := ih hcol
      simp only at hcol ⊢
      generalize (t.addNamespace ns').1 = col' at hown ⊢
      generalize (t.addNamespace ns').2.addColumns namespaces keyCol rest = added
        at hcol hown hrest ⊢
      by_cases hns : ns' = ns
      · subst hns
        obtain rfl := Option.some.inj (hown.symm.trans hcol)
        rw [if_pos (by simp [hkey, hzero]), List.filter_cons_of_pos (by simp),
          List.filter_cons_of_pos (by simp [hj]), List.map_cons, hrest]
      · have hother : col' ≠ col := by
          rintro rfl
          exact hns (namespace_of_column hcol hown)
        rw [List.filter_cons_of_neg (by simp [hj, hns]), ← hrest]
        split
        · rw [List.filter_cons_of_neg (by simpa using hother)]
        · rfl

/-- The plan of an input that is joined on the source column, and the tree with its columns. -/
structure RootPlan (root : String) (i : MappingInput) (t : MappingTree) (p : JoinPlan)
    (s : MappingTree) : Prop where
  onSource : p.OnSource
  source : s.source? = some root
  classes : s.classes = t.classes
  finds : ∀ name col, s.findClass name col = t.findClass name col
  grows : t.namespaces <+: s.namespaces
  policy : p.allowDuplicates = i.allowDuplicates
  into : ∀ ns ≠ root, ∀ col, s.namespaceId? ns = some col → col ≠ 0 ∧ p.into col = i.columnsOf ns
  beyond : ∀ col, s.namespaces.length ≤ col → p.into col = []

theorem namespaceId?_source (h : t.source? = some root) : t.namespaceId? root = some 0 := by
  obtain ⟨rest, hrest⟩ := List.head?_eq_some_iff.mp h
  unfold namespaceId?
  rw [hrest]
  simp [List.idxOf?, List.findIdx?_cons]

/-- A plan starts from a tree that has the source namespace. -/
theorem source?_withKey (hi : i.Plain root) (ht : t.namespaces = [] ∨ t.source? = some root) :
    (t.withKey i).source? = some root ∧ (t.withKey i).classes = t.classes ∧
      ∀ name col, (t.withKey i).findClass name col = t.findClass name col := by
  unfold withKey
  rcases ht with hempty | hsource
  · rw [hempty, hi.keyNs]
    refine ⟨?_, classes_addNamespace t root, findClass_addNamespace t root⟩
    unfold addNamespace
    rw [namespaceId?_eq_none.mpr (by rw [hempty]; nofun)]
    simp [source?, hempty]
  · have hne : t.namespaces.isEmpty = false := by
      obtain ⟨rest, hrest⟩ := List.head?_eq_some_iff.mp hsource
      rw [hrest]
      rfl
    rw [hne]
    exact ⟨hsource, rfl, fun _ _ => rfl⟩

theorem rootPlan (hi : i.Plain root) (ht : t.namespaces = [] ∨ t.source? = some root)
    (h : t.planJoin i = .ok (p, s)) : RootPlan root i t p s := by
  obtain ⟨hkey, hs, hcolumns, hkeyFile, _, hfiltered, hpolicy, hskip⟩ := planJoin_ok h
  obtain ⟨hsource, hclasses, hfind⟩ := source?_withKey hi ht
  rw [hi.keyNs, namespaceId?_source hsource] at hkey
  have hkeyCol : p.keyCol = 0 := (Option.some.inj hkey).symm
  have hnoSkip : p.skipCols = [] := by
    rw [hi.noSkip] at hskip
    exact (Except.ok.inj hskip).symm
  rw [hkeyCol] at hs hcolumns
  obtain ⟨hclasses', hfind', hsource'⟩ :=
    frame_addColumns (t.withKey i) i.file.namespaces 0 i.written
  rw [← hs] at hclasses' hfind' hsource'
  have hroot : s.source? = some root := by
    rw [hsource', hsource]
    intro hnil
    rw [source?, hnil] at hsource
    cases hsource
  have hcol : ∀ j col, (j, col) ∈ p.columns → (∃ ns, s.namespaceId? ns = some col) ∧ col ≠ 0 := by
    intro j col hmem
    rw [hcolumns] at hmem
    obtain ⟨_, ⟨ns, _, hid⟩, _, hzero⟩ := mem_addColumns.mp hmem
    exact ⟨⟨ns, hs ▸ hid⟩, hzero⟩
  have hfileCol : p.keyFileCol = 0 := by
    rw [hkeyFile, hi.keyNs]
    obtain ⟨rest, hrest⟩ := List.head?_eq_some_iff.mp hi.first
    unfold MappingFile.column?
    rw [hrest]
    simp [List.idxOf?, List.findIdx?_cons]
  have hunfiltered : p.filtered = false := by
    rw [hfiltered, hi.unfiltered, hnoSkip]
    rfl
  refine ⟨⟨hkeyCol, hfileCol, hnoSkip, hunfiltered, fun j col hmem => (hcol j col hmem).2⟩, hroot,
    hclasses'.trans hclasses, fun name col => (hfind' name col).trans (hfind name col),
    grown_of_writes (writes_planJoin h fun _ => True), hpolicy, fun ns hns col hid => ?_,
    fun col hge => ?_⟩
  · have hzero : col ≠ 0 := by
      rintro rfl
      exact hns (namespace_of_column (namespaceId?_source hroot) hid)
    refine ⟨hzero, ?_⟩
    unfold JoinPlan.into MappingInput.columnsOf
    rw [hcolumns]
    exact into_addColumns (hs ▸ hid) hzero hzero
  · refine List.eq_nil_iff_forall_not_mem.mpr fun j hj => ?_
    obtain ⟨⟨ns, hid⟩, _⟩ := hcol j col (JoinPlan.mem_into.mp hj)
    have hlt := (List.getElem?_eq_some_iff.mp (getElem?_of_namespaceId? hid)).1
    omega

/-! ## Answers by source names -/

/-- The name in a namespace of the class with a source name. -/
def classNamed (t : MappingTree) (source ns : String) : Option String := do
  let row ← t.findClass source 0
  let col ← t.namespaceId? ns
  t.className row col

/-- The name in a namespace of the member with a source name and a source descriptor, in the
class with a source name. -/
def memberNamed (t : MappingTree) (source : String) (kind : MemberKind) (name desc ns : String) :
    Option String := do
  let row ← t.findClass source 0
  let idx ← t.findMember row kind name 0 (some desc)
  let m ← t.member? row kind idx
  let col ← t.namespaceId? ns
  m.name col

/-- Two trees have the same classes and the same names, by source names. -/
structure SameAnswers (t t' : MappingTree) : Prop where
  classes : ∀ source, (t.findClass source 0).isSome = (t'.findClass source 0).isSome
  names : ∀ source ns, t.classNamed source ns = t'.classNamed source ns
  members : ∀ source kind name desc ns,
    t.memberNamed source kind name desc ns = t'.memberNamed source kind name desc ns

theorem classNamed_eq (t : MappingTree) (source ns : String) :
    t.classNamed source ns = (t.namespaceId? ns).bind (t.nameOf · source) := by
  unfold classNamed nameOf
  cases t.findClass source 0 <;> cases t.namespaceId? ns <;> rfl

theorem memberNamed_eq (t : MappingTree) (source : String) (kind : MemberKind)
    (name desc ns : String) : t.memberNamed source kind name desc ns =
      (t.namespaceId? ns).bind (lookIn (t.membersOf source kind) name desc) := by
  unfold memberNamed lookIn membersOf
  simp only [findMember_eq, member?_eq]
  cases t.findClass source 0 with
  | none => cases t.namespaceId? ns <;> rfl
  | some row =>
    simp only [Option.bind_some, Option.bind_eq_bind]
    cases membersIn t.classes row kind with
    | none => cases t.namespaceId? ns <;> rfl
    | some ms =>
      simp only [Option.bind_some, Option.getD_some]
      unfold findIn
      cases ms.findIdx? fun m => m.name 0 == some name && descAgrees (some desc) m.srcDesc with
      | none => cases t.namespaceId? ns <;> rfl
      | some idx => cases hm : ms[idx]? <;> cases t.namespaceId? ns <;> simp [hm]

/-! ## One join -/

/-- A tree that describes all its members, and whose classes and members have no names
beyond its columns. -/
structure Keyed (root : String) (t : MappingTree) : Prop where
  source : t.namespaces = [] ∨ t.source? = some root
  anchored : t.Anchored
  described : ∀ source kind, Described (t.membersOf source kind)
  unnamed : ∀ col, t.namespaces.length ≤ col → ∀ source, t.nameOf col source = none
  unnamedMembers : ∀ col, t.namespaces.length ≤ col → ∀ source kind name desc,
    lookIn (t.membersOf source kind) name desc col = none

theorem keyed_empty (root : String) : empty.Keyed root :=
  ⟨Or.inl rfl, anchored_empty, fun _ _ => nofun, fun _ _ _ => rfl, fun _ _ _ _ _ _ => rfl⟩

theorem Anchored.unshared_of_unnamed (h : t.Anchored)
    (hcol : ∀ source, t.nameOf col source = none) : t.Unshared col := by
  refine ⟨h.unshared.indexed, fun row _ name hrow _ => ?_⟩
  obtain ⟨source, hsource⟩ := h.sourced row (lt_of_className hrow)
  have hnone := hcol source
  unfold nameOf at hnone
  rw [h.findClass_eq_some.mpr hsource, Option.bind_some, hrow] at hnone
  cases hnone

/-- A namespace that comes later has no names yet. -/
theorem Keyed.classNamed_of_grown (ht : t.Keyed root) (h : t.namespaces <+: t'.namespaces)
    (hns : t'.namespaceId? ns = some col) : (t.classNamed · ns) = t.nameOf col := by
  funext source
  rw [classNamed_eq]
  rcases namespaceId?_of_grown h hns with hold | ⟨hnone, hlen⟩
  · rw [hold, Option.bind_some]
  · rw [hnone, ht.unnamed col hlen]
    rfl

theorem Keyed.memberNamed_of_grown (ht : t.Keyed root) (h : t.namespaces <+: t'.namespaces)
    (hns : t'.namespaceId? ns = some col) (source : String) (kind : MemberKind)
    (name desc : String) : t.memberNamed source kind name desc ns =
      lookIn (t.membersOf source kind) name desc col := by
  rw [memberNamed_eq]
  rcases namespaceId?_of_grown h hns with hold | ⟨hnone, hlen⟩
  · rw [hold, Option.bind_some]
  · rw [hnone, ht.unnamedMembers col hlen]
    rfl

/-- The columns of a plan change no answers. -/
theorem RootPlan.answers (h : RootPlan root i t p s) (ht : t.Anchored) :
    s.Anchored ∧ (∀ col, s.nameOf col = t.nameOf col) ∧
      ∀ source kind, s.membersOf source kind = t.membersOf source kind := by
  have hcells : ∀ row col, s.className row col = t.className row col := by
    intro row col
    unfold className
    rw [h.classes]
  refine ⟨ht.congr (fun col name => ?_) (Nat.le_of_eq (by rw [h.classes])) (hcells · 0),
    fun col => ?_, fun source kind => ?_⟩
  · rw [h.finds, h.classes]
    exact ht.unshared.indexed col name
  · funext source
    unfold nameOf
    rw [h.finds]
    simp only [hcells]
  · unfold membersOf
    rw [h.finds, h.classes]

/-- A join on the source column is its plan, and what its columns receive then. -/
theorem join_receives (hi : i.Plain root) (ht : t.Keyed root) (h : t.join i = .ok t')
    (hindexed : t'.Indexed) : ∃ p s, RootPlan root i t p s ∧ t'.namespaces = s.namespaces ∧
      Receives p s i.file.classes t' := by
  obtain ⟨p, s, hplanned, htree⟩ := join_ok h
  have hplan := rootPlan hi ht.source hplanned
  obtain ⟨hanchored, _, hmembers⟩ := hplan.answers ht.anchored
  -- The descriptors of the file are in the source namespace.
  have hsame : i.file.namespaces.head? == (s.joinClasses p i.file.classes).tree.source? := by
    rw [source?, namespaces_joinClasses, ← source?, hplan.source, hi.first]
    exact BEq.rfl
  rw [if_pos hsame] at htree
  subst htree
  refine ⟨p, s, hplan, ?_, hanchored.receives hplan.onSource _ (fun source kind => ?_)
    (fun e he kind m hm => ?_) hindexed⟩
  · rw [(joined_joinAllMembers p _ _ _).namespaces, namespaces_joinClasses]
  · rw [hmembers]
    exact ht.described source kind
  · exact Option.isSome_iff_exists.mp (hi.described e he m (ClassEntry.mem_members hm))

theorem Keyed.join (ht : t.Keyed root) (hi : i.Plain root) (h : t.join i = .ok t')
    (hindexed : t'.Indexed) : t'.Keyed root ∧ t'.source? = some root := by
  obtain ⟨p, s, hplan, hns, hreceives⟩ := join_receives hi ht h hindexed
  obtain ⟨_, hnames, hmembers⟩ := hplan.answers ht.anchored
  have hsource : t'.source? = some root := by
    rw [source?, hns, ← source?, hplan.source]
  have hbeyond : ∀ col, t'.namespaces.length ≤ col →
      col ≠ 0 ∧ p.into col = [] ∧ t.namespaces.length ≤ col := by
    intro col hge
    rw [hns] at hge
    have hlt := (List.getElem?_eq_some_iff.mp
      (getElem?_of_namespaceId? (namespaceId?_source hplan.source))).1
    exact ⟨by omega, hplan.beyond col hge, Nat.le_trans hplan.grows.length_le hge⟩
  refine ⟨⟨Or.inr hsource, hreceives.anchored, fun source kind =>
    (hreceives.members source kind).described, fun col hge source => ?_,
    fun col hge source kind name desc => ?_⟩, hsource⟩
  · obtain ⟨hcol, hnil, hlen⟩ := hbeyond col hge
    rw [hreceives.names col hcol fun hne => absurd hnil hne, hnil, foldl_claimAll_nil, hnames]
    exact ht.unnamed col hlen source
  · obtain ⟨hcol, hnil, hlen⟩ := hbeyond col hge
    rw [(hreceives.members source kind).names name desc col hcol, hnil, foldl_bring_nil, hmembers]
    exact ht.unnamedMembers col hlen source kind name desc

/-- The answers of a tree to which an input has been joined. -/
structure Merges (root : String) (i : MappingInput) (t t' : MappingTree) : Prop where
  classes : ∀ source, (t'.findClass source 0).isSome ↔
    (t.findClass source 0).isSome ∨ i.HasClass source
  members : ∀ source kind name desc, (findIn (t'.membersOf source kind) name 0 (some desc)).isSome ↔
    (findIn (t.membersOf source kind) name 0 (some desc)).isSome ∨ i.HasMember source kind name desc
  classNames : ∀ ns ≠ root, (i.columnsOf ns ≠ [] → ns ∉ t.namespaces) →
    (t'.classNamed · ns) = i.classNames ns (t.classNamed · ns)
  memberNames : ∀ ns ≠ root, ∀ source kind name desc, t'.memberNamed source kind name desc ns =
    i.memberName source kind name desc ns (t.memberNamed source kind name desc ns)

theorem merges_join (hi : i.Plain root) (hkey : i.keyNs ∈ i.writes) (ht : t.Keyed root)
    (h : t.join i = .ok t') (hindexed : t'.Indexed) : Merges root i t t' := by
  obtain ⟨ht', _⟩ := ht.join hi h hindexed
  obtain ⟨p, s, hplan, hns, hreceives⟩ := join_receives hi ht h hindexed
  obtain ⟨hanchored, hnames, hmembers⟩ := hplan.answers ht.anchored
  have hgrown : t.namespaces <+: t'.namespaces := hns ▸ hplan.grows
  have hinto : ∀ ns ≠ root, ∀ col, t'.namespaceId? ns = some col →
      col ≠ 0 ∧ p.into col = i.columnsOf ns := by
    intro ns hroot col hcol
    refine hplan.into ns hroot col ?_
    unfold namespaceId? at hcol ⊢
    rwa [← hns]
  -- A namespace that is not in the tree afterwards was not there before, and is not written.
  have habsent : ∀ ns, t'.namespaceId? ns = none →
      t.namespaceId? ns = none ∧ i.columnsOf ns = [] := by
    intro ns hnone
    rw [namespaceId?_eq_none, mem_namespaces_join hkey h, not_or] at hnone
    refine ⟨namespaceId?_eq_none.mpr hnone.1, ?_⟩
    by_contra hne
    exact hnone.2 (MappingInput.mem_writes_of_columnsOf hne)
  refine ⟨fun source => ?_, fun source kind name desc => ?_, fun ns hroot hfresh => ?_,
    fun ns hroot source kind name desc => ?_⟩
  · rw [hreceives.classes, hplan.finds]
    rfl
  · rw [(hreceives.members source kind).finds, hmembers]
    rfl
  · cases hcol : t'.namespaceId? ns with
    | none =>
      obtain ⟨hbefore, hnil⟩ := habsent ns hcol
      rw [MappingInput.classNames_of_nil hnil]
      funext source
      rw [classNamed_eq, classNamed_eq, hcol, hbefore]
      rfl
    | some col =>
      obtain ⟨hzero, hcols⟩ := hinto ns hroot col hcol
      rw [ht'.classNamed_of_grown List.prefix_rfl hcol, ht.classNamed_of_grown hgrown hcol,
        hreceives.names col hzero ?_, hcols, hplan.policy, hnames]
      · rfl
      · intro hne _
        rw [hcols] at hne
        refine hanchored.unshared_of_unnamed fun source => ?_
        rw [hnames]
        rcases namespaceId?_of_grown hgrown hcol with hbefore | ⟨_, hlen⟩
        · exact absurd (List.mem_of_getElem? (getElem?_of_namespaceId? hbefore)) (hfresh hne)
        · exact ht.unnamed col hlen source
  · cases hcol : t'.namespaceId? ns with
    | none =>
      obtain ⟨hbefore, hnil⟩ := habsent ns hcol
      rw [MappingInput.memberName_of_nil hnil, memberNamed_eq, memberNamed_eq, hcol, hbefore]
      rfl
    | some col =>
      obtain ⟨hzero, hcols⟩ := hinto ns hroot col hcol
      rw [ht'.memberNamed_of_grown List.prefix_rfl hcol, ht.memberNamed_of_grown hgrown hcol,
        (hreceives.members source kind).names name desc col hzero, hcols, hmembers]
      rfl

/-! ## Both joins -/

/-- The answers of a tree to which two inputs have been joined, `i` before `j`. -/
structure MergesBoth (root : String) (i j : MappingInput) (t : MappingTree) : Prop where
  keyed : t.Keyed root
  source : t.source? = some root
  classes : ∀ source, (t.findClass source 0).isSome ↔ i.HasClass source ∨ j.HasClass source
  members : ∀ source kind name desc, (findIn (t.membersOf source kind) name 0 (some desc)).isSome ↔
    i.HasMember source kind name desc ∨ j.HasMember source kind name desc
  classNames : ∀ ns ≠ root, (t.classNamed · ns) = j.classNames ns (i.classNames ns fun _ => none)
  memberNames : ∀ ns ≠ root, ∀ source kind name desc, t.memberNamed source kind name desc ns =
    j.memberName source kind name desc ns (i.memberName source kind name desc ns none)

theorem mergesBoth_join (hi : i.Plain root) (hj : j.Plain root) (hikey : i.keyNs ∈ i.writes)
    (hjkey : j.keyNs ∈ j.writes)
    (hapart : ∀ ns, ns ∈ i.file.namespaces → ns ∈ j.file.namespaces → ns = root)
    (hs : empty.join i = .ok s) (ht : s.join j = .ok t) : MergesBoth root i j t := by
  have hbuilt := Built.join .empty hs
  have hempty := keyed_empty root
  have hkeyed := (hempty.join hi hs hbuilt.indexed).1
  have hindexed := (Built.join hbuilt ht).indexed
  have hfirst := merges_join hi hikey hempty hs hbuilt.indexed
  have hsecond := merges_join hj hjkey hkeyed ht hindexed
  obtain ⟨hresult, hsource⟩ := hkeyed.join hj ht hindexed
  refine ⟨hresult, hsource, fun source => ?_, fun source kind name desc => ?_, fun ns hroot => ?_,
    fun ns hroot source kind name desc => ?_⟩
  · rw [hsecond.classes, hfirst.classes]
    exact or_congr_left ⟨fun h => h.resolve_left nofun, Or.inr⟩
  · rw [hsecond.members, hfirst.members]
    exact or_congr_left ⟨fun h => h.resolve_left nofun, Or.inr⟩
  · rw [hsecond.classNames ns hroot, hfirst.classNames ns hroot fun _ => nofun]
    · rfl
    · intro hne hmem
      rw [mem_namespaces_join hikey hs] at hmem
      exact hroot (hapart ns (MappingInput.mem_namespaces_of_writes (hmem.resolve_left nofun))
        (MappingInput.mem_namespaces_of_writes (MappingInput.mem_writes_of_columnsOf hne)))
  · rw [hsecond.memberNames ns hroot, hfirst.memberNames ns hroot]
    rfl

/-- In the source namespace every class has its source name. -/
theorem Anchored.classNamed_root (h : t.Anchored) (hsource : t.source? = some root)
    (source : String) : t.classNamed source root =
      if (t.findClass source 0).isSome then some source else none := by
  unfold classNamed
  rw [namespaceId?_source hsource]
  cases hrow : t.findClass source 0 with
  | none => rfl
  | some row => exact h.findClass_eq_some.mp hrow

theorem memberNamed_root (hsource : t.source? = some root) (source : String) (kind : MemberKind)
    (name desc : String) : t.memberNamed source kind name desc root =
      if (findIn (t.membersOf source kind) name 0 (some desc)).isSome then some name else none := by
  rw [memberNamed_eq, namespaceId?_source hsource, Option.bind_some]
  unfold lookIn
  cases hidx : findIn (t.membersOf source kind) name 0 (some desc) with
  | none => rfl
  | some idx =>
    obtain ⟨⟨r, hr, hname, _⟩, _⟩ := findIn_eq_some.mp hidx
    rw [Option.bind_some, hr]
    exact hname

theorem MergesBoth.sameAnswers
    (hapart : ∀ ns, ns ∈ i.file.namespaces → ns ∈ j.file.namespaces → ns = root)
    (h : MergesBoth root i j t) (h' : MergesBoth root j i t') : SameAnswers t t' := by
  have hclasses : ∀ source, (t.findClass source 0).isSome = (t'.findClass source 0).isSome := by
    intro source
    rw [Bool.eq_iff_iff, h.classes, h'.classes, or_comm]
  have hmembers : ∀ source kind name desc,
      (findIn (t.membersOf source kind) name 0 (some desc)).isSome =
        (findIn (t'.membersOf source kind) name 0 (some desc)).isSome := by
    intro source kind name desc
    rw [Bool.eq_iff_iff, h.members, h'.members, or_comm]
  -- At most one of the two files writes a namespace.
  have hnil : ∀ ns ≠ root, i.columnsOf ns = [] ∨ j.columnsOf ns = [] := by
    intro ns hroot
    by_contra hboth
    obtain ⟨hi, hj⟩ := not_or.mp hboth
    exact hroot (hapart ns
      (MappingInput.mem_namespaces_of_writes (MappingInput.mem_writes_of_columnsOf hi))
      (MappingInput.mem_namespaces_of_writes (MappingInput.mem_writes_of_columnsOf hj)))
  refine ⟨hclasses, fun source ns => ?_, fun source kind name desc ns => ?_⟩
  · by_cases hroot : ns = root
    · rw [hroot, h.keyed.anchored.classNamed_root h.source,
        h'.keyed.anchored.classNamed_root h'.source, hclasses]
    · have hnames : (t.classNamed · ns) = (t'.classNamed · ns) := by
        rw [h.classNames ns hroot, h'.classNames ns hroot,
          MappingInput.classNames_comm (hnil ns hroot)]
      exact congrFun hnames source
  · by_cases hroot : ns = root
    · rw [hroot, memberNamed_root h.source, memberNamed_root h'.source, hmembers]
    · rw [h.memberNames ns hroot, h'.memberNames ns hroot,
        MappingInput.memberName_comm (hnil ns hroot)]

end MappingTree

/-! ## The build -/

namespace MappingBuilder

open MappingTree

/-- A build that succeeds has built the tree of its inputs. -/
theorem treeOf_of_build {b : MappingBuilder} {disk : Files} {h : Option Hierarchy} {r : Registry}
    {is : List MappingInput} {t : MappingTree} (hinputs : inputs disk b.dependencies = .ok is)
    (hbuild : (b.build disk h r).1 = .ok t) : treeOf h is = .ok t := by
  cases hfrozen : finalizeAll r b.dependencies with
  | mk x frozen =>
    obtain ⟨ds, r'⟩ := frozen
    cases x with
    | error e =>
      unfold build at hbuild
      rw [hfrozen] at hbuild
      cases hbuild
    | ok _ => exact (build_of_finalizeAll hfrozen hinputs h).symm.trans hbuild

/-- A build from two plain inputs joins the first and then the second. -/
theorem joins_of_build {b : MappingBuilder} {disk : Files} {h : Option Hierarchy} {r : Registry}
    {i j : MappingInput} {root : String} {t : MappingTree} (hi : i.Plain root) (hj : j.Plain root)
    (hinputs : inputs disk b.dependencies = .ok [i, j]) (hbuild : (b.build disk h r).1 = .ok t) :
    ∃ s, MappingTree.empty.join i = .ok s ∧ s.join j = .ok t := by
  have htree := treeOf_of_build hinputs hbuild
  rw [treeOf_declared (by simp [hi.depends, hj.depends]) (by simp [hi.postPasses, hj.postPasses])]
    at htree
  obtain ⟨s, hs, htree⟩ := ok_of_bind htree
  obtain ⟨u, hu, htree⟩ := ok_of_bind htree
  cases htree
  exact ⟨s, hs, hu⟩

/-- Two files that meet in their first column only, on which they are joined without
conditions, can be declared in either order. Both trees have the same classes, and give
each class and each described member the same name in every namespace. -/
theorem independent_inputs_can_be_declared_in_either_order {b b' : MappingBuilder}
    {disk disk' : Files} {h h' : Option Hierarchy} {r r' : Registry} {i j : MappingInput}
    {root : String} {t t' : MappingTree} (hi : i.Plain root) (hj : j.Plain root)
    (hapart : ∀ ns, ns ∈ i.file.namespaces → ns ∈ j.file.namespaces → ns = root)
    (hinputs : inputs disk b.dependencies = .ok [i, j])
    (hinputs' : inputs disk' b'.dependencies = .ok [j, i])
    (hbuild : (b.build disk h r).1 = .ok t) (hbuild' : (b'.build disk' h' r').1 = .ok t') :
    SameAnswers t t' := by
  obtain ⟨s, hs, ht⟩ := joins_of_build hi hj hinputs hbuild
  obtain ⟨s', hs', ht'⟩ := joins_of_build hj hi hinputs' hbuild'
  have hkeys : ∀ k ∈ [i, j], k.keyNs ∈ k.writes :=
    forall_inputs (fun _ _ _ _ hk => keyNs_mem_writes hk) hinputs
  have hikey := hkeys i List.mem_cons_self
  have hjkey := hkeys j (List.mem_cons_of_mem _ List.mem_cons_self)
  have hfirst := mergesBoth_join hi hj hikey hjkey hapart hs ht
  have hsecond := mergesBoth_join hj hi hjkey hikey (fun ns hns hns' => hapart ns hns' hns) hs' ht'
  exact hfirst.sameAnswers hapart hsecond

/-- Two classes want the same intermediary name, and the second does not get it. -/
def plainBase : MappingInput :=
  { MappingInput.plain "base:mappings.json" ⟨["official", "intermediary"],
      [⟨[some "a", some "class_1"], [], [⟨[some "c", some "method_1"], some "(La;)V"⟩]⟩,
        ⟨[some "b", some "class_1"], [], []⟩]⟩ with
    keyNs := "official", written := [0, 1] }

/-- The same classes in another order, which share their readable name. -/
def plainNames : MappingInput :=
  { MappingInput.plain "names:mappings.json" ⟨["official", "named"],
      [⟨[some "b", some "World"], [], []⟩,
        ⟨[some "a", some "World"], [], [⟨[some "c", some "tick"], some "(La;)V"⟩]⟩]⟩ with
    keyNs := "official", written := [0, 1], allowDuplicates := true }

def baseFirst : MappingBuilder :=
  ⟨[fileDependency "base" plainBase.file [],
    fileDependency "names" plainNames.file [.allowDuplicateOutputs true]]⟩

def readableFirst : MappingBuilder := ⟨baseFirst.dependencies.reverse⟩

def baseFirstTree : MappingTree :=
  ⟨["official", "intermediary", "named"],
    [⟨[some "a", some "class_1", some "World"], [],
        [⟨[some "c", some "method_1", some "tick"], some "(La;)V"⟩]⟩,
      ⟨[some "b", none, some "World"], [], []⟩],
    [[("b", 1), ("a", 0)], [("class_1", 0)], [("World", 0)]]⟩

def readableFirstTree : MappingTree :=
  ⟨["official", "named", "intermediary"],
    [⟨[some "b", some "World"], [], []⟩,
      ⟨[some "a", some "World", some "class_1"], [],
        [⟨[some "c", some "tick", some "method_1"], some "(La;)V"⟩]⟩],
    [[("a", 1), ("b", 0)], [("World", 0)], [("class_1", 1)]]⟩

theorem a_refused_name_is_refused_in_either_order :
    (baseFirst.build .empty none .empty).1 = .ok baseFirstTree ∧
      (readableFirst.build .empty none .empty).1 = .ok readableFirstTree ∧
      baseFirstTree.classNamed "b" "intermediary" = none ∧
      baseFirstTree.memberNamed "a" .method "c" "(La;)V" "named" = some "tick" ∧
      SameAnswers baseFirstTree readableFirstTree := by
  have hbase : plainBase.Plain "official" := ⟨rfl, rfl, rfl, rfl, rfl, rfl, by decide⟩
  have hnames : plainNames.Plain "official" := ⟨rfl, rfl, rfl, rfl, rfl, rfl, by decide⟩
  have hfirst : (baseFirst.build .empty none .empty).1 = .ok baseFirstTree := by decide
  have hsecond : (readableFirst.build .empty none .empty).1 = .ok readableFirstTree := by decide
  exact ⟨hfirst, hsecond, by decide, by decide,
    independent_inputs_can_be_declared_in_either_order hbase hnames (by decide) (by decide)
      (by decide) hfirst hsecond⟩

end MappingBuilder

end JarDerivation
