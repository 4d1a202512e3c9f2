-- What a join leaves alone. Rows stay where they are and keep their source names and source
-- descriptors, and a name can change only in a column that the input writes to. If the input is
-- filtered there are no new rows either, and only rows with the names asked for are written.
import JarDerivation.Proofs.Mapping.JoinOrder

namespace JarDerivation

/-- The columns of a tree that an input writes to: that of its key, and those of the file that the
input brings out, which are all of them unless it declares outputs. -/
def MappingInput.Reaches (i : MappingInput) (t : MappingTree) (col : Nat) : Prop :=
  ∃ ns ∈ i.file.namespaces, t.namespaceId? ns = some col ∧
    (ns = i.keyNs ∨ i.outputs = [] ∨ ns ∈ i.outputs)

namespace MappingTree

variable {may : Nat → Prop} {skip : List Nat} {t t' s : MappingTree} {p : JoinPlan}

/-! ## Rows that are kept -/

/-- No row is lost, and no source descriptor changes. A name changes only in a column where it may,
and only if the row had a name in each of some columns before. -/
structure RowsKept (may : Nat → Prop) (skip : List Nat) (t t' : MappingTree) : Prop where
  size : t.classes.length ≤ t'.classes.length
  classes : ∀ row col, row < t.classes.length → t'.className row col ≠ t.className row col →
    may col ∧ ∀ k ∈ skip, (t.className row k).isSome
  members : ∀ row kind idx m, t.member? row kind idx = some m →
    ∃ m', t'.member? row kind idx = some m' ∧ m'.srcDesc = m.srcDesc ∧
      ∀ col, m'.name col ≠ m.name col → may col ∧ ∀ k ∈ skip, (m.name k).isSome

theorem RowsKept.refl (may : Nat → Prop) (skip : List Nat) (t : MappingTree) :
    RowsKept may skip t t :=
  ⟨Nat.le_refl _, fun _ _ _ hne => absurd rfl hne,
    fun _ _ _ m hm => ⟨m, hm, rfl, fun _ hne => absurd rfl hne⟩⟩

theorem rowsKept_of_classes (h : t'.classes = t.classes) : RowsKept may skip t t' := by
  refine ⟨h ▸ Nat.le_refl _, fun row col _ hne => ?_, fun row kind idx m hm => ?_⟩
  · rw [className, className, h] at hne
    exact absurd rfl hne
  · rw [member?_eq] at hm
    exact ⟨m, by rw [member?_eq, h, hm], rfl, fun _ hne => absurd rfl hne⟩

/-- A row had the names asked for from the beginning, if it had them when it was written. -/
theorem RowsKept.trans (h : RowsKept may skip t s) (h' : RowsKept may skip s t') :
    RowsKept may skip t t' := by
  have hbefore : ∀ {before now after : Nat → Option String},
      (∀ col, now col ≠ before col → may col ∧ ∀ k ∈ skip, (before k).isSome) →
      (∀ col, after col ≠ now col → may col ∧ ∀ k ∈ skip, (now k).isSome) →
      ∀ col, after col ≠ before col → may col ∧ ∀ k ∈ skip, (before k).isSome := by
    intro before now after hfirst hlast col hne
    by_cases hnow : now col = before col
    · obtain ⟨hcol, hskip⟩ := hlast col (hnow ▸ hne)
      refine ⟨hcol, fun k hk => ?_⟩
      by_cases hsame : now k = before k
      · exact hsame ▸ hskip k hk
      · exact (hfirst k hsame).2 k hk
    · exact hfirst col hnow
  refine ⟨Nat.le_trans h.size h'.size, fun row col hrow => ?_, fun row kind idx m hm => ?_⟩
  · exact hbefore (fun col => h.classes row col hrow)
      (fun col => h'.classes row col (Nat.lt_of_lt_of_le hrow h.size)) col
  · obtain ⟨n, hn, hdesc, hnames⟩ := h.members row kind idx m hm
    obtain ⟨m', hm', hdesc', hnames'⟩ := h'.members row kind idx n hn
    exact ⟨m', hm', hdesc'.trans hdesc, hbefore hnames hnames'⟩

theorem rowsKept_renameClass (row col : Nat) (name : Option String) (shared : Bool) (hcol : may col)
    (hskip : ∀ k ∈ skip, (t.className row k).isSome) :
    RowsKept may skip t (t.renameClass row col name shared).2 := by
  obtain ⟨_, hlen, hmembers⟩ := frame_renameClass t row col name shared
  refine ⟨hlen ▸ Nat.le_refl _, fun j k _ hne => ?_, fun j kind idx m hm => ?_⟩
  · rw [className_eq_nameIn, nameIn_renameClass] at hne
    split at hne
    · rename_i hcell
      exact hcell.2.1 ▸ hcell.2.2 ▸ ⟨hcol, hskip⟩
    · exact absurd rfl hne
  · rw [member?_eq] at hm
    exact ⟨m, by rw [member?_eq, hmembers, hm], rfl, fun _ hne => absurd rfl hne⟩

/-- What changing one member row gives at each place. -/
theorem member?_modifyMember (t : MappingTree) (row : Nat) (kind : MemberKind) (idx : Nat)
    (f : MemberRow → MemberRow) (j : Nat) (k : MemberKind) (place : Nat) :
    (t.modifyMember row kind idx f).member? j k place =
      if j = row ∧ k = kind ∧ place = idx then (t.member? j k place).map f
      else t.member? j k place := by
  rw [member?_eq, member?_eq, membersIn_modifyMember]
  by_cases hlist : j = row ∧ k = kind
  · rw [if_pos hlist]
    cases membersIn t.classes j k with
    | none => simp
    | some ms =>
      rw [Option.map_some, Option.bind_some, Option.bind_some, List.getElem?_modify]
      by_cases hplace : place = idx
      · rw [if_pos ⟨hlist.1, hlist.2, hplace⟩]
        simp [hplace]
      · rw [if_neg fun h => hplace h.2.2]
        simp [Ne.symm hplace]
  · rw [if_neg hlist, if_neg fun h => hlist ⟨h.1, h.2.1⟩]

theorem rowsKept_modifyMember (row : Nat) (kind : MemberKind) (idx : Nat)
    {f : MemberRow → MemberRow} (hdesc : ∀ m, (f m).srcDesc = m.srcDesc)
    (hname : ∀ m, t.member? row kind idx = some m → ∀ col, (f m).name col ≠ m.name col →
      may col ∧ ∀ k ∈ skip, (m.name k).isSome) :
    RowsKept may skip t (t.modifyMember row kind idx f) := by
  obtain ⟨_, _, hlen⟩ := frame_modifyMember t row kind idx f
  refine ⟨hlen ▸ Nat.le_refl _, fun j k _ hne => ?_, fun j k place m hm => ?_⟩
  · rw [className_eq_nameIn, nameIn_modifyMember] at hne
    exact absurd rfl hne
  · rw [member?_modifyMember, hm]
    split
    · rename_i hcell
      obtain ⟨rfl, rfl, rfl⟩ := hcell
      exact ⟨f m, rfl, hdesc m, hname m hm⟩
    · exact ⟨m, rfl, rfl, fun _ hne => absurd rfl hne⟩

theorem rowsKept_addClass (t : MappingTree) (srcName : String) :
    RowsKept may skip t (t.addClass srcName).2 := by
  rcases addClass_cases t srcName with ⟨_, _, heq⟩ | ⟨hnone, _⟩
  · rw [heq]
    exact .refl may skip t
  · obtain ⟨_, _, hlen, hnames, hmembers⟩ := addClass_new hnone
    refine ⟨by omega, fun row col hrow hne => ?_, fun row kind idx m hm => ?_⟩
    · rw [className_eq_nameIn, hnames, if_neg (by omega)] at hne
      exact absurd rfl hne
    · refine ⟨m, ?_, rfl, fun _ hne => absurd rfl hne⟩
      rw [member?_eq] at hm ⊢
      rw [hmembers, if_neg, hm]
      rintro rfl
      simp [membersIn] at hm

theorem rowsKept_addMember {row idx : Nat} {kind : MemberKind} {srcName : String}
    {srcDesc : Option String} (h : t.addMember row kind srcName srcDesc = some (idx, t')) :
    RowsKept may skip t t' := by
  cases hfound : t.findMember row kind srcName 0 srcDesc with
  | some found =>
    unfold addMember at h
    rw [hfound] at h
    cases h
    exact .refl may skip t
  | none =>
    obtain ⟨ms, hms, _, _, hlen, hnames, hmembers⟩ := addMember_new hfound h
    refine ⟨hlen ▸ Nat.le_refl _, fun j col _ hne => ?_, fun j k place m hm => ?_⟩
    · rw [className_eq_nameIn, hnames] at hne
      exact absurd rfl hne
    · refine ⟨m, ?_, rfl, fun _ hne => absurd rfl hne⟩
      rw [member?_eq] at hm ⊢
      rw [hmembers]
      split
      · rename_i hlist
        rw [hlist.1, hlist.2, hms, Option.bind_some] at hm
        rw [Option.bind_some, List.getElem?_append_left (List.getElem?_eq_some_iff.mp hm).1, hm]
      · exact hm

theorem rowsKept_of_write (h : Write may t t') : RowsKept may [] t t' := by
  rcases h with name | src | ⟨row, col, name, shared, hcol⟩ | hadd |
    ⟨row, kind, idx, f, hname, hdesc⟩
  · exact rowsKept_of_classes (classes_addNamespace t name)
  · exact rowsKept_addClass t src
  · exact rowsKept_renameClass row col _ shared hcol nofun
  · exact rowsKept_addMember hadd
  · refine rowsKept_modifyMember row kind idx hdesc fun m _ col hne => ⟨?_, nofun⟩
    by_contra hclosed
    exact hne (hname m col hclosed)

theorem rowsKept_of_writes (h : Writes may t t') : RowsKept may [] t t' := by
  induction h with
  | refl => exact .refl may [] t
  | tail _ hw ih => exact ih.trans (rowsKept_of_write hw)

/-! ## Writes of a filtered join -/

/-- A name is written to a class or a member that has a name in each of some columns. -/
inductive GuardedWrite (may : Nat → Prop) (skip : List Nat) (t : MappingTree) :
    MappingTree → Prop where
  | className (row col : Nat) (name : String) (shared : Bool) (hcol : may col)
      (hskip : ∀ k ∈ skip, (t.className row k).isSome) :
      GuardedWrite may skip t (t.renameClass row col (some name) shared).2
  | memberName (row : Nat) (kind : MemberKind) (idx col : Nat) (name : String) (hcol : may col)
      (hskip : ∀ m, t.member? row kind idx = some m → ∀ k ∈ skip, (m.name k).isSome) :
      GuardedWrite may skip t (t.modifyMember row kind idx (·.setName col (some name)))

/-- Any number of such writes. -/
abbrev GuardedWrites (may : Nat → Prop) (skip : List Nat) : MappingTree → MappingTree → Prop :=
  Relation.ReflTransGen (GuardedWrite may skip)

/-- There are as many classes as before, and each has as many members. -/
structure SameRows (t t' : MappingTree) : Prop where
  classes : t'.classes.length = t.classes.length
  members : ∀ row kind, (membersIn t'.classes row kind).map List.length =
    (membersIn t.classes row kind).map List.length

theorem rowsKept_of_guardedWrite (h : GuardedWrite may skip t t') :
    RowsKept may skip t t' ∧ SameRows t t' := by
  rcases h with ⟨row, col, name, shared, hcol, hskip⟩ | ⟨row, kind, idx, col, name, hcol, hskip⟩
  · obtain ⟨_, hlen, hmembers⟩ := frame_renameClass t row col (some name) shared
    exact ⟨rowsKept_renameClass row col _ shared hcol hskip,
      hlen, fun j kind => congrArg _ (hmembers j kind)⟩
  · refine ⟨rowsKept_modifyMember row kind idx (fun _ => rfl) fun m hm k hne => ?_,
      (frame_modifyMember t row kind idx _).2.2, fun j k => ?_⟩
    · rw [MemberRow.name_setName] at hne
      split at hne
      · rename_i hk
        exact ⟨hk ▸ hcol, hskip m hm⟩
      · exact absurd rfl hne
    · rw [membersIn_modifyMember]
      split
      · cases membersIn t.classes j k <;> simp
      · rfl

theorem rowsKept_of_guardedWrites (h : GuardedWrites may skip t t') :
    RowsKept may skip t t' ∧ SameRows t t' := by
  induction h with
  | refl => exact ⟨.refl may skip t, rfl, fun _ _ => rfl⟩
  | tail _ hw ih =>
    obtain ⟨hkept, hrows⟩ := rowsKept_of_guardedWrite hw
    exact ⟨ih.1.trans hkept, hrows.classes.trans ih.2.classes,
      fun row kind => (hrows.members row kind).trans (ih.2.members row kind)⟩

theorem GuardedWrites.mono {may' : Nat → Prop} (h : GuardedWrites may skip t t')
    (hmay : ∀ col, may col → may' col) : GuardedWrites may' skip t t' := by
  refine Relation.ReflTransGen.mono ?_ _ _ h
  rintro t t' (⟨row, col, name, shared, hcol, hskip⟩ | ⟨row, kind, idx, col, name, hcol, hskip⟩)
  · exact .className row col name shared (hmay col hcol) hskip
  · exact .memberName row kind idx col name (hmay col hcol) hskip

/-! ## Classes of a filtered join -/

theorem guarded_nameClass (hp : ∀ j col, (j, col) ∈ p.columns → col ≠ 0) (row : Nat)
    (e : ClassEntry) (hskip : ∀ k ∈ p.skipCols, (t.className row k).isSome) :
    GuardedWrites p.Opens p.skipCols t (t.nameClass p row e) := by
  refine (nameClass_induction (motive := fun s => GuardedWrites p.Opens p.skipCols t s ∧
    ∀ k ∈ p.skipCols, (s.className row k).isSome) ⟨.refl, hskip⟩ ?_).1
  rintro s j col name hmem ⟨hwrites, hnamed⟩
  have hopens : p.Opens col := ⟨hp j col hmem, Or.inr ⟨j, hmem⟩⟩
  refine ⟨hwrites.tail (.className row col name _ hopens hnamed), fun k hk => ?_⟩
  rw [className_eq_nameIn, nameIn_renameClass]
  split
  · rfl
  · exact hnamed k hk

theorem guarded_joinClass (hp : ∀ j col, (j, col) ∈ p.columns → col ≠ 0)
    (hfiltered : p.filtered = true) (t : MappingTree) (e : ClassEntry) :
    GuardedWrites p.Opens p.skipCols t (t.joinClass p e).2 := by
  unfold joinClass
  cases hplace : t.placeClass p e with
  | none => exact .refl
  | some found =>
    obtain ⟨row, s⟩ := found
    obtain ⟨key, _, ⟨_, rfl⟩ | ⟨_, hopen, _⟩ | ⟨_, hopen, _⟩⟩ := placeClass_cases hplace
    · dsimp only
      split
      · exact .refl
      · rename_i hnamed
        refine guarded_nameClass hp row e fun k hk => ?_
        simp only [List.any_eq_true, not_exists, not_and, Option.isNone_iff_eq_none] at hnamed
        exact Option.isSome_iff_ne_none.mpr (hnamed k hk)
    · rw [hfiltered] at hopen
      cases hopen
    · rw [hfiltered] at hopen
      cases hopen

theorem guarded_joinClasses (hp : ∀ j col, (j, col) ∈ p.columns → col ≠ 0)
    (hfiltered : p.filtered = true) (t : MappingTree) (es : List ClassEntry) :
    GuardedWrites p.Opens p.skipCols t (t.joinClasses p es).tree := by
  unfold joinClasses
  refine List.foldlRecOn
    (motive := fun s : ClassJoin => GuardedWrites p.Opens p.skipCols t s.tree) es _ .refl ?_
  intro s hs e _
  exact hs.trans (guarded_joinClass hp hfiltered s.tree e)

/-! ## Members of a filtered join -/

theorem modifyMember_modifyMember (t : MappingTree) (row : Nat) (kind : MemberKind) (idx : Nat)
    (f g : MemberRow → MemberRow) :
    (t.modifyMember row kind idx g).modifyMember row kind idx f =
      t.modifyMember row kind idx (f ∘ g) := by
  unfold modifyMember
  cases hc : t.classes[row]? with
  | none => simp [hc]
  | some c =>
    have hlt := (List.getElem?_eq_some_iff.mp hc).1
    cases kind <;> simp [setClass, ClassRow.setMembers, ClassRow.members, hlt, List.modify_modify_eq]

theorem modifyMember_id (t : MappingTree) (row : Nat) (kind : MemberKind) (idx : Nat) :
    t.modifyMember row kind idx (fun m => m) = t := by
  unfold modifyMember
  cases hc : t.classes[row]? with
  | none => rfl
  | some c =>
    have hset : t.classes.set row c = t.classes := by
      obtain ⟨hlt, hc⟩ := List.getElem?_eq_some_iff.mp hc
      rw [← hc, List.set_getElem_self]
    have hid : ∀ ms : List MemberRow, ms.modify idx (fun m => m) = ms := List.modify_id idx
    cases kind <;> simp [setClass, ClassRow.setMembers, ClassRow.members, hid, hset]

/-- The names of an entry are written one by one. -/
theorem guarded_nameMember (hp : ∀ j col, (j, col) ∈ p.columns → col ≠ 0) (row : Nat)
    (kind : MemberKind) (idx : Nat) (m : MemberEntry)
    (hskip : ∀ r, t.member? row kind idx = some r → ∀ k ∈ p.skipCols, (r.name k).isSome) :
    GuardedWrites p.Opens p.skipCols t (t.modifyMember row kind idx (nameMember p m)) := by
  have hlist : ∀ (columns : List (Nat × Nat)) (t : MappingTree),
      (∀ j col, (j, col) ∈ columns → p.Opens col) →
      (∀ r, t.member? row kind idx = some r → ∀ k ∈ p.skipCols, (r.name k).isSome) →
      GuardedWrites p.Opens p.skipCols t
        (t.modifyMember row kind idx (nameMember { p with columns } m)) := by
    intro columns
    unfold nameMember
    induction columns with
    | nil =>
      intro t _ _
      rw [show (fun r : MemberRow => List.foldl _ r []) = fun r => r from rfl, modifyMember_id]
    | cons column rest ih =>
      obtain ⟨j, col⟩ := column
      intro t hopens hskip
      have hrest : ∀ j col, (j, col) ∈ rest → p.Opens col :=
        fun j col hmem => hopens j col (List.mem_cons_of_mem _ hmem)
      simp only [List.foldl_cons]
      cases m.names.at? j with
      | none => exact ih t hrest hskip
      | some name =>
        refine .head (.memberName row kind idx col name (hopens j col List.mem_cons_self) hskip) ?_
        have hnext := ih (t.modifyMember row kind idx (·.setName col (some name))) hrest ?_
        · rwa [modifyMember_modifyMember] at hnext
        · intro r hr k hk
          rw [member?_modifyMember, if_pos ⟨rfl, rfl, rfl⟩] at hr
          obtain ⟨before, hbefore, rfl⟩ := Option.map_eq_some_iff.mp hr
          rw [MemberRow.name_setName]
          split
          · rfl
          · exact hskip before hbefore k hk
  exact hlist p.columns t (fun j col hmem => ⟨hp j col hmem, Or.inr ⟨j, hmem⟩⟩) hskip

theorem guarded_joinMember (hp : ∀ j col, (j, col) ∈ p.columns → col ≠ 0)
    (hfiltered : p.filtered = true) (t : MappingTree) (row : Nat) (kind : MemberKind)
    (m : MemberEntry) (srcDesc : Option String) :
    GuardedWrites p.Opens p.skipCols t (t.joinMember p row kind m srcDesc) := by
  unfold joinMember
  cases hplace : t.placeMember p row kind m srcDesc with
  | none => exact .refl
  | some found =>
    obtain ⟨idx, s⟩ := found
    obtain ⟨key, _, ⟨_, rfl⟩ | ⟨_, hopen, _⟩ | ⟨_, hopen, _⟩⟩ := placeMember_cases hplace
    · dsimp only
      cases hr : s.member? row kind idx with
      | none => exact .refl
      | some r =>
        dsimp only
        split
        · exact .refl
        · rename_i hnamed
          refine guarded_nameMember hp row kind idx m fun r' hr' k hk => ?_
          rw [hr] at hr'
          cases hr'
          simp only [List.any_eq_true, not_exists, not_and, Option.isNone_iff_eq_none] at hnamed
          exact Option.isSome_iff_ne_none.mpr (hnamed k hk)
    · rw [hfiltered] at hopen
      cases hopen
    · rw [hfiltered] at hopen
      cases hopen

theorem guarded_joinMembers (hp : ∀ j col, (j, col) ∈ p.columns → col ≠ 0)
    (hfiltered : p.filtered = true) (t : MappingTree) (names : Option DescNames) (row : Nat)
    (kind : MemberKind) (ms : List MemberEntry) :
    GuardedWrites p.Opens p.skipCols t (t.joinMembers p names row kind ms) := by
  unfold joinMembers
  refine List.foldlRecOn (motive := GuardedWrites p.Opens p.skipCols t) ms _ .refl ?_
  intro s hs m _
  exact hs.trans (guarded_joinMember hp hfiltered s row kind m _)

theorem guarded_joinAllMembers (hp : ∀ j col, (j, col) ∈ p.columns → col ≠ 0)
    (hfiltered : p.filtered = true) (t : MappingTree) (names : Option DescNames)
    (es : List (ClassEntry × Option Nat)) :
    GuardedWrites p.Opens p.skipCols t (t.joinAllMembers p names es) := by
  induction es generalizing t with
  | nil => exact .refl
  | cons entry rest ih =>
    obtain ⟨e, _ | row⟩ := entry
    · exact ih t
    · refine (guarded_joinMembers hp hfiltered t names row .field e.fields).trans ?_
      exact (guarded_joinMembers hp hfiltered _ names row .method e.methods).trans (ih _)

/-! ## The columns of an input -/

/-- The key of an input is a column of its file, and the input writes this column and its outputs,
or all columns if it declares none. -/
theorem written_of_ofFile {label : String} {file : MappingFile} {block : MappingBlock}
    {i : MappingInput} (h : MappingInput.ofFile label file block = .ok (some i)) :
    i.keyNs ∈ i.file.namespaces ∧
      ∀ j ∈ i.written, ∀ ns, i.file.namespaces[j]? = some ns →
        ns = i.keyNs ∨ i.outputs = [] ∨ ns ∈ i.outputs := by
  unfold MappingInput.ofFile at h
  simp only at h
  split at h
  · cases h
  · split at h
    · rename_i hkey
      cases h
      refine ⟨List.contains_iff_mem.mp hkey, fun j hj ns hns => ?_⟩
      have hwritten := (List.mem_filter.mp hj).2
      dsimp only at hwritten hns ⊢
      rw [hns] at hwritten
      simpa [or_assoc] using hwritten
    · cases h

/-- All that a plan leaves to be said of the tree after a join. -/
theorem plan_of_join {i : MappingInput} (h : t.join i = .ok t') :
    ∃ p s names placed, t.planJoin i = .ok (p, s) ∧ s.classes = t.classes ∧
      t'.namespaces = s.namespaces ∧
      t' = (s.joinClasses p i.file.classes).tree.joinAllMembers p names placed := by
  obtain ⟨p, s, hplan, ht⟩ := join_ok h
  obtain ⟨_, hs, _⟩ := planJoin_ok hplan
  refine ⟨p, s, _, _, hplan, ?_, ?_, ht⟩
  · rw [hs, (frame_addColumns _ _ _ _).1]
    unfold withKey
    split
    · exact classes_addNamespace t i.keyNs
    · rfl
  · rw [ht, (joined_joinAllMembers p _ _ _).namespaces, namespaces_joinClasses]

theorem namespaceId?_congr (h : t'.namespaces = t.namespaces) (name : String) :
    t'.namespaceId? name = t.namespaceId? name := by
  unfold namespaceId?
  rw [h]

/-- A plan opens no column but those that the input writes to. -/
theorem reaches_of_opens {label : String} {file : MappingFile} {block : MappingBlock}
    {i : MappingInput} (hi : MappingInput.ofFile label file block = .ok (some i))
    (hplan : t.planJoin i = .ok (p, s)) {col : Nat} (hcol : p.Opens col) : i.Reaches s col := by
  obtain ⟨hkeyNs, hwritten⟩ := written_of_ofFile hi
  obtain ⟨hkey, hs, hcolumns, _⟩ := planJoin_ok hplan
  rcases hcol.2 with rfl | ⟨j, hj⟩
  · refine ⟨i.keyNs, hkeyNs, ?_, Or.inl rfl⟩
    rw [hs]
    exact namespaceId?_addColumns hkey _ _ _
  · rw [hcolumns] at hj
    obtain ⟨hmem, ⟨ns, hns, hid⟩, _⟩ := mem_addColumns.mp hj
    exact ⟨ns, List.mem_of_getElem? hns, hs ▸ hid, hwritten j hmem ns hns⟩

/-- The columns that a plan asks for names in are those of the namespaces that the input names. -/
theorem skipCols_of_plan {i : MappingInput} (hplan : t.planJoin i = .ok (p, s)) :
    i.skipIfNotIn.map s.namespaceId? = p.skipCols.map some := by
  obtain ⟨_, hs, _, _, _, _, _, hskip⟩ := planJoin_ok hplan
  have hall := map_eq_of_mapM hskip
  generalize p.skipCols = cols at hall
  generalize i.skipIfNotIn = names at hall
  induction names generalizing cols with
  | nil =>
    cases cols with
    | nil => rfl
    | cons col rest => cases hall
  | cons name rest ih =>
    cases cols with
    | nil => cases hall
    | cons col cols =>
      rw [List.map_cons, List.map_cons, List.cons.injEq] at hall
      have hid := namespaceId?_addColumns (requireNamespace_ok hall.1) i.file.namespaces p.keyCol
        i.written
      rw [List.map_cons, List.map_cons, ih cols hall.2, hs, hid]

/-! ## What a join leaves alone -/

/-- A join keeps the rows of the tree, with their source names and their source descriptors, and
changes their names only in the columns that the input writes to. If the input is filtered, it adds
no row, and it writes only to rows that have a name in each column asked for: they had it when they
were written, and also before the join. -/
theorem a_join_keeps_to_its_columns {label : String} {file : MappingFile} {block : MappingBlock}
    {i : MappingInput} (hi : MappingInput.ofFile label file block = .ok (some i))
    (h : t.join i = .ok t') :
    (∀ row < t.size, t'.className row 0 = t.className row 0 ∧
      ∀ col, t'.className row col ≠ t.className row col → i.Reaches t' col) ∧
    (∀ row kind idx m, t.member? row kind idx = some m →
      ∃ m', t'.member? row kind idx = some m' ∧ m'.srcDesc = m.srcDesc ∧ m'.name 0 = m.name 0 ∧
        ∀ col, m'.name col ≠ m.name col → i.Reaches t' col) ∧
    (i.onlyExistingSrc = true ∨ i.skipIfNotIn ≠ [] →
      SameRows t t' ∧
      ∃ skip, i.skipIfNotIn.map t'.namespaceId? = skip.map some ∧
        (∃ s, s.classes = t.classes ∧ GuardedWrites (i.Reaches t') skip s t') ∧
        (∀ row col, t'.className row col ≠ t.className row col →
          ∀ k ∈ skip, (t.className row k).isSome) ∧
        ∀ row kind idx m m' col, t.member? row kind idx = some m →
          t'.member? row kind idx = some m' → m'.name col ≠ m.name col →
            ∀ k ∈ skip, (m.name k).isSome) := by
  obtain ⟨p, s, names, placed, hplan, hclasses, hns, ht⟩ := plan_of_join h
  obtain ⟨_, _, hcolumns, _, _, hfilter, _⟩ := planJoin_ok hplan
  have hreach : ∀ col, p.Opens col → i.Reaches t' col := by
    intro col hcol
    obtain ⟨ns, hmem, hid, hbrought⟩ := reaches_of_opens hi hplan hcol
    exact ⟨ns, hmem, (namespaceId?_congr hns ns).trans hid, hbrought⟩
  have hkept : RowsKept p.Opens [] t t' := by
    refine (rowsKept_of_classes hclasses).trans (rowsKept_of_writes ?_)
    rw [ht]
    exact writes_of_plan hplan _ _ _
  have hzero : ¬ p.Opens 0 := fun hopens => hopens.1 rfl
  refine ⟨fun row hrow => ⟨?_, fun col hne => ?_⟩, fun row kind idx m hm => ?_, fun hfiltered => ?_⟩
  · by_contra hne
    exact hzero (hkept.classes row 0 hrow hne).1
  · exact hreach col (hkept.classes row col hrow hne).1
  · obtain ⟨m', hm', hdesc, hnames⟩ := hkept.members row kind idx m hm
    refine ⟨m', hm', hdesc, ?_, fun col hne => hreach col (hnames col hne).1⟩
    by_contra hne
    exact hzero (hnames 0 hne).1
  · have hskip := skipCols_of_plan hplan
    have hfiltered : p.filtered = true := by
      rw [hfilter]
      rcases hfiltered with honly | hne
      · simp [honly]
      · cases hcols : p.skipCols with
        | cons col rest => simp
        | nil =>
          rw [hcols] at hskip
          exact absurd (List.map_eq_nil_iff.mp hskip) hne
    have hproper : ∀ j col, (j, col) ∈ p.columns → col ≠ 0 := by
      intro j col hmem
      rw [hcolumns] at hmem
      exact (mem_addColumns.mp hmem).2.2.2
    have hwrites : GuardedWrites (i.Reaches t') p.skipCols s t' := by
      refine GuardedWrites.mono ?_ hreach
      rw [ht]
      exact (guarded_joinClasses hproper hfiltered s _).trans
        (guarded_joinAllMembers hproper hfiltered _ names placed)
    obtain ⟨hguarded, hrows⟩ := rowsKept_of_guardedWrites hwrites
    have hguarded := (rowsKept_of_classes hclasses).trans hguarded
    refine ⟨⟨hrows.classes.trans (congrArg _ hclasses), fun row kind => ?_⟩, p.skipCols, ?_,
      ⟨s, hclasses, hwrites⟩, fun row col hne => ?_, fun row kind idx m m' col hm hm' hne => ?_⟩
    · rw [hrows.members row kind, hclasses]
    · rw [← hskip]
      exact List.map_congr_left fun ns _ => namespaceId?_congr hns ns
    · rcases Nat.lt_or_ge row t.classes.length with hlt | hge
      · exact (hguarded.classes row col hlt hne).2
      · have hlen : t'.classes.length = t.classes.length :=
          hrows.classes.trans (congrArg _ hclasses)
        refine absurd ?_ hne
        rw [className_eq_nameIn, className_eq_nameIn, nameIn_eq_none hge,
          nameIn_eq_none (hlen ▸ hge)]
    · obtain ⟨found, hfound, _, hnames⟩ := hguarded.members row kind idx m hm
      rw [hm'] at hfound
      cases hfound
      exact (hnames col hne).2

/-- Two classes, of which only the first has a readable name. -/
def halfNamed : MappingTree :=
  ⟨["official", "named"],
    [⟨[some "a", some "Game"], [], [⟨[some "m", none], some "()V"⟩]⟩,
      ⟨[some "b", none], [], []⟩],
    [[("b", 1), ("a", 0)], [("Game", 0)]]⟩

/-- Further names for both classes, for a third one, and for a method without a readable name. -/
def furtherNames : MappingFile :=
  ⟨["official", "other"],
    [⟨[some "a", some "A"], [], [⟨[some "m", some "run"], some "()V"⟩]⟩,
      ⟨[some "b", some "B"], [], []⟩, ⟨[some "c", some "C"], [], []⟩]⟩

theorem only_a_class_with_a_readable_name_gets_another :
    ∃ i t', MappingInput.ofFile "other" furtherNames ⟨[.skipIfNotIn "named"], [], false⟩ =
        .ok (some i) ∧ halfNamed.join i = .ok t' ∧
      i.skipIfNotIn ≠ [] ∧ SameRows halfNamed t' ∧ t'.className 0 2 = some "A" ∧
      t'.className 1 2 = none ∧ (t'.member? 0 .method 0).bind (·.name 2) = none := by
  have hinput : ∃ i, MappingInput.ofFile "other" furtherNames ⟨[.skipIfNotIn "named"], [], false⟩ =
      .ok (some i) := ⟨_, rfl⟩
  obtain ⟨i, hi⟩ := hinput
  have hsame := hi
  cases hsame
  refine ⟨_, _, hi, rfl, by decide, ?_, by decide, by decide, by decide⟩
  exact ((a_join_keeps_to_its_columns hi rfl).2.2 (Or.inr (by decide))).1

end MappingTree

end JarDerivation
