-- The tree of one file. Built from a single file under a block without actions, the
-- tree answers every question about classes and members just as the file does, from
-- any of its columns to any other.
import JarDerivation.Mapping.View
import JarDerivation.Proofs.Mapping.FileJoin
import JarDerivation.Proofs.Mapping.RepeatedBuild
import JarDerivation.Proofs.Remap.Descriptor
import Mathlib.Data.List.Nodup
import Mathlib.Data.List.Pairwise

namespace JarDerivation

/-! ## Files without ambiguity -/

namespace MappingFile

/-- A descriptor of the file, with each class under its name in another column. -/
def descriptorIn (f : MappingFile) (col : Nat) (desc : String) : String :=
  Descriptor.rename (fun name =>
    (f.classes.find? fun e => e.names.at? 0 == some name).bind fun e => e.names.at? col) desc

/-- In no column of the file do two members have the same name and the same descriptor. -/
def MembersDistinct (f : MappingFile) (m m' : MemberEntry) : Prop :=
  ∀ col < f.namespaces.length, m.names.at? col ≠ none → m.names.at? col = m'.names.at? col →
    m.desc.map (f.descriptorIn col) ≠ m'.desc.map (f.descriptorIn col)

instance (f : MappingFile) : Std.Symm f.MembersDistinct where
  symm _ _ h := fun col hcol hne hsame heq => h col hcol (hsame ▸ hne) hsame.symm heq.symm

/-- In each column of the file a class is known by its name, and a member of a class by its
name and its descriptor. -/
structure Unambiguous (f : MappingFile) : Prop where
  namespaces : f.namespaces.Nodup
  named : ∀ e ∈ f.classes, (e.names.at? 0).isSome
  membersNamed : ∀ e ∈ f.classes, ∀ m ∈ e.fields ++ e.methods, (m.names.at? 0).isSome
  described : ∀ e ∈ f.classes, ∀ m ∈ e.fields ++ e.methods, m.desc.isSome
  classes : f.classes.Pairwise fun e e' =>
    MappingTree.NamesApart f.namespaces.length e.names e'.names
  fields : ∀ e ∈ f.classes, e.fields.Pairwise f.MembersDistinct
  methods : ∀ e ∈ f.classes, e.methods.Pairwise f.MembersDistinct

instance (f : MappingFile) (m m' : MemberEntry) : Decidable (f.MembersDistinct m m') :=
  inferInstanceAs (Decidable (∀ col < f.namespaces.length, _ → _ → _))

instance (width : Nat) (names names' : Names) :
    Decidable (MappingTree.NamesApart width names names') :=
  inferInstanceAs (Decidable (∀ j < width, _ → _))

instance (f : MappingFile) : Decidable f.Unambiguous :=
  decidable_of_iff
    (f.namespaces.Nodup ∧ (∀ e ∈ f.classes, (e.names.at? 0).isSome) ∧
      (∀ e ∈ f.classes, ∀ m ∈ e.fields ++ e.methods, (m.names.at? 0).isSome) ∧
      (∀ e ∈ f.classes, ∀ m ∈ e.fields ++ e.methods, m.desc.isSome) ∧
      (f.classes.Pairwise fun e e' =>
        MappingTree.NamesApart f.namespaces.length e.names e'.names) ∧
      (∀ e ∈ f.classes, e.fields.Pairwise f.MembersDistinct) ∧
      ∀ e ∈ f.classes, e.methods.Pairwise f.MembersDistinct)
    ⟨fun ⟨h1, h2, h3, h4, h5, h6, h7⟩ => ⟨h1, h2, h3, h4, h5, h6, h7⟩,
      fun ⟨h1, h2, h3, h4, h5, h6, h7⟩ => ⟨h1, h2, h3, h4, h5, h6, h7⟩⟩

end MappingFile

theorem ClassEntry.mem_members {e : ClassEntry} {kind : MemberKind} {m : MemberEntry}
    (h : m ∈ e.members kind) : m ∈ e.fields ++ e.methods := by
  cases kind with
  | field => exact List.mem_append_left _ h
  | method => exact List.mem_append_right _ h

namespace MappingFile

variable {f : MappingFile} {e : ClassEntry} {kind : MemberKind} {m : MemberEntry}

theorem Unambiguous.members (hf : f.Unambiguous) (he : e ∈ f.classes) (kind : MemberKind) :
    (e.members kind).Pairwise f.MembersDistinct := by
  cases kind with
  | field => exact hf.fields e he
  | method => exact hf.methods e he

theorem Unambiguous.memberName (hf : f.Unambiguous) (he : e ∈ f.classes)
    (hm : m ∈ e.members kind) : ∃ key, m.names.at? 0 = some key :=
  Option.isSome_iff_exists.mp (hf.membersNamed e he m (ClassEntry.mem_members hm))

theorem Unambiguous.memberDesc (hf : f.Unambiguous) (he : e ∈ f.classes)
    (hm : m ∈ e.members kind) : ∃ desc, m.desc = some desc :=
  Option.isSome_iff_exists.mp (hf.described e he m (ClassEntry.mem_members hm))

/-- The file writes its descriptors in its first column. -/
theorem descriptorIn_zero (f : MappingFile) (desc : String) : f.descriptorIn 0 desc = desc := by
  refine Descriptor.rename_eq_self fun name _ => ?_
  unfold Descriptor.newName
  dsimp only
  cases he : f.classes.find? fun e => e.names.at? 0 == some name with
  | none => rfl
  | some e =>
    have hname : e.names.at? 0 = some name := by simpa using List.find?_some he
    rw [Option.bind_some, hname]
    rfl

theorem width_pos {first : String} (hfirst : f.namespaces.head? = some first) :
    0 < f.namespaces.length := by
  obtain ⟨rest, hrest⟩ := List.head?_eq_some_iff.mp hfirst
  rw [hrest]
  exact Nat.succ_pos _

end MappingFile

/-! ## The plan of the only join -/

namespace MappingTree

/-- Every column that is to be written is there afterwards. -/
theorem namespaceId?_of_written {t : MappingTree} {namespaces : List String} {keyCol : Nat}
    {js : List Nat} {j : Nat} {ns : String} (hj : j ∈ js) (hns : namespaces[j]? = some ns) :
    ∃ col, (t.addColumns namespaces keyCol js).1.namespaceId? ns = some col := by
  induction js generalizing t with
  | nil => cases hj
  | cons k rest ih =>
    unfold addColumns
    rcases List.mem_cons.mp hj with rfl | hj
    · rw [hns]
      exact ⟨_, namespaceId?_addColumns (namespaceId?_addNamespace t ns) namespaces keyCol rest⟩
    · cases namespaces[k]? with
      | none => exact ih hj
      | some other => exact ih hj

/-- Columns that are not there yet are added in the order of the file. -/
theorem namespaces_addColumns {t : MappingTree} {namespaces : List String} (h : namespaces.Nodup)
    {first count : Nat} (hcount : first + count = namespaces.length)
    (ht : t.namespaces = namespaces.take first) (keyCol : Nat) :
    (t.addColumns namespaces keyCol (List.range' first count)).1.namespaces = namespaces := by
  induction count generalizing t first with
  | zero =>
    rw [Nat.add_zero] at hcount
    rw [List.range'_zero]
    exact ht.trans (by rw [hcount, List.take_length])
  | succ count ih =>
    have hlt : first < namespaces.length := by omega
    rw [List.range'_succ]
    unfold addColumns
    rw [List.getElem?_eq_getElem hlt]
    refine ih (by omega) ?_
    have hnew : t.namespaceId? namespaces[first] = none := by
      unfold namespaceId?
      rw [List.idxOf?_eq_none_iff, ht]
      intro hmem
      obtain ⟨k, hk, heq⟩ := List.mem_take_iff_getElem.mp hmem
      have hsame := (List.Nodup.getElem_inj_iff h).mp heq
      omega
    unfold addNamespace
    rw [hnew]
    simp only [ht]
    rw [List.take_add_one, List.getElem?_eq_getElem hlt]
    rfl

theorem addNamespace_of_some {t : MappingTree} {name : String} {col : Nat}
    (h : t.namespaceId? name = some col) : t.addNamespace name = (col, t) := by
  unfold addNamespace
  rw [h]

/-- A tree that has its first column gets all the others. -/
theorem namespaces_addAll {namespaces : List String} (h : namespaces.Nodup) {first : String}
    (hfirst : namespaces.head? = some first) :
    ((empty.addNamespace first).2.addColumns namespaces 0
      (List.range namespaces.length)).1.namespaces = namespaces := by
  obtain ⟨rest, rfl⟩ := List.head?_eq_some_iff.mp hfirst
  have hagain : (empty.addNamespace first).2.addNamespace first =
      (0, (empty.addNamespace first).2) :=
    addNamespace_of_some (namespaceId?_addNamespace empty first)
  rw [List.range_eq_range', List.length_cons, List.range'_succ]
  unfold addColumns
  rw [List.getElem?_cons_zero]
  simp only [hagain]
  exact namespaces_addColumns h (by rw [List.length_cons]; omega) rfl 0

/-- A namespace of a file without repeated ones is that of one column. -/
theorem column_inj {namespaces : List String} (h : namespaces.Nodup) {j j' : Nat} {ns : String}
    (hj : namespaces[j]? = some ns) (hj' : namespaces[j']? = some ns) : j' = j :=
  (List.getElem?_inj (List.getElem?_eq_some_iff.mp hj').1 h).mp (hj'.trans hj.symm)

/-- Two namespaces with the same column are the same. -/
theorem namespace_of_column {t : MappingTree} {ns ns' : String} {col : Nat}
    (h : t.namespaceId? ns = some col) (h' : t.namespaceId? ns' = some col) : ns' = ns :=
  Option.some.inj ((getElem?_of_namespaceId? h').symm.trans (getElem?_of_namespaceId? h))

/-- The plan of an input that is joined to an empty tree without conditions, and the tree with
the columns of the plan. -/
structure Plans (i : MappingInput) (p : JoinPlan) (s : MappingTree) : Prop where
  planned : empty.planJoin i = .ok (p, s)
  tree : s = ((empty.addNamespace i.keyNs).2.addColumns i.file.namespaces 0 i.written).1
  key : s.namespaceId? i.keyNs = some 0
  keyCol : p.keyCol = 0
  keyFileCol : p.keyFileCol = (i.file.column? i.keyNs).getD 0
  noSkip : p.skipCols = []
  filtered : p.filtered = i.onlyExistingSrc
  columns : ∀ j col, (j, col) ∈ p.columns ↔ j ∈ i.written ∧
    (∃ ns, i.file.namespaces[j]? = some ns ∧ s.namespaceId? ns = some col) ∧ col ≠ 0

theorem plans_empty {i : MappingInput} (hskip : i.skipIfNotIn = []) : ∃ p s, Plans i p s := by
  have hid : (empty.withKey i).namespaceId? i.keyNs = some 0 :=
    namespaceId?_addNamespace empty i.keyNs
  have hok : ∃ p s, empty.planJoin i = .ok (p, s) := by
    unfold planJoin requireNamespace
    rw [show (if empty.namespaces.isEmpty then (empty.addNamespace i.keyNs).2 else empty) =
      empty.withKey i from rfl, hskip]
    simp only [hid]
    exact ⟨_, _, rfl⟩
  obtain ⟨p, s, hplan⟩ := hok
  obtain ⟨hkey, hs, hcolumns, hkeyFile, _, hfiltered, _, hskipCols⟩ := planJoin_ok hplan
  have hkeyCol : p.keyCol = 0 := (Option.some.inj (hid.symm.trans hkey)).symm
  have hnoSkip : p.skipCols = [] := by
    rw [hskip] at hskipCols
    exact (Except.ok.inj hskipCols).symm
  rw [hkeyCol] at hs hcolumns
  refine ⟨p, s, hplan, hs, ?_, hkeyCol, hkeyFile, hnoSkip, ?_, fun j col => ?_⟩
  · rw [hs]
    exact namespaceId?_addColumns hid i.file.namespaces 0 i.written
  · rw [hfiltered, hnoSkip]
    exact Bool.or_false _
  · rw [hcolumns, mem_addColumns, ← hs]
    simp

namespace Plans

variable {i : MappingInput} {p : JoinPlan} {s : MappingTree}

/-- The tree of a plan has columns and nothing else. -/
theorem blank (h : Plans i p s) : s.Indexed ∧ s.classes = [] := by
  obtain ⟨hclasses, hfind, _⟩ := frame_addColumns (empty.withKey i) i.file.namespaces 0 i.written
  rw [show ((empty.withKey i).addColumns i.file.namespaces 0 i.written).1 = s from h.tree.symm]
    at hclasses hfind
  refine ⟨fun col name => ?_, hclasses⟩
  rw [hfind, hclasses]
  exact indexed_addNamespace indexed_empty i.keyNs col name

theorem source (h : Plans i p s) : s.source? = some i.keyNs := by
  unfold source?
  rw [List.head?_eq_getElem?]
  exact getElem?_of_namespaceId? h.key

/-- The plan of a file that is joined on its first column. -/
theorem first (h : Plans i p s) (hfirst : i.file.namespaces.head? = some i.keyNs)
    (hnodup : i.file.namespaces.Nodup) (hopen : i.onlyExistingSrc = false) :
    p.First i.file.namespaces.length := by
  refine ⟨h.keyCol, ?_, h.noSkip, h.filtered.trans hopen, ?_, ?_, ?_⟩
  · rw [h.keyFileCol]
    unfold MappingFile.column?
    obtain ⟨rest, hnamespaces⟩ := List.head?_eq_some_iff.mp hfirst
    rw [hnamespaces]
    simp [List.idxOf?, List.findIdx?_cons]
  · exact fun j col hmem => ((h.columns j col).mp hmem).2.2
  · intro j col hmem
    obtain ⟨_, ⟨ns, hns, _⟩, _⟩ := (h.columns j col).mp hmem
    exact (List.getElem?_eq_some_iff.mp hns).1
  · intro j j' col hmem hmem'
    obtain ⟨_, ⟨ns, hns, hcol⟩, _⟩ := (h.columns j col).mp hmem
    obtain ⟨_, ⟨ns', hns', hcol'⟩, _⟩ := (h.columns j' col).mp hmem'
    obtain rfl := namespace_of_column hcol hcol'
    exact column_inj hnodup hns hns'

/-- The plan takes in the first column of the file and all that are written. -/
theorem takes (h : Plans i p s) (hfirst : i.file.namespaces.head? = some i.keyNs)
    (hnodup : i.file.namespaces.Nodup) {j : Nat} {ns : String} (hj : j = 0 ∨ j ∈ i.written)
    (hns : i.file.namespaces[j]? = some ns) :
    ∃ col, s.namespaceId? ns = some col ∧ p.Takes j col := by
  have hzero : i.file.namespaces[0]? = some i.keyNs := by
    rw [← List.head?_eq_getElem?]
    exact hfirst
  by_cases hjzero : j = 0
  · rw [hjzero, hzero] at hns
    obtain rfl := Option.some.inj hns
    exact ⟨0, h.key, Or.inl ⟨hjzero, rfl⟩⟩
  · have hwritten := hj.resolve_left hjzero
    have hadded : ∃ col, s.namespaceId? ns = some col :=
      h.tree ▸ namespaceId?_of_written hwritten hns
    obtain ⟨col, hcol⟩ := hadded
    refine ⟨col, hcol, Or.inr ((h.columns j col).mpr ⟨hwritten, ⟨ns, hns, hcol⟩, ?_⟩)⟩
    intro hcolzero
    -- Column 0 has the first namespace of the file, and no other is called like it.
    rw [hcolzero] at hcol
    obtain rfl := namespace_of_column h.key hcol
    exact hjzero (column_inj hnodup hzero hns)

end Plans

/-! ## The tree -/

/-- A tree with a row for each class entry of a file, and in it one for each member entry. -/
structure Copies (p : JoinPlan) (f : MappingFile) (t : MappingTree) : Prop where
  file : f.Unambiguous
  width : 0 < f.namespaces.length
  plan : p.First f.namespaces.length
  indexed : t.Indexed
  names : ∀ k e, f.classes[k]? = some e → ∀ col, t.className k col = p.nameAt e.names col
  named : ∀ k col name, t.className k col = some name →
    ∃ e, f.classes[k]? = some e ∧ p.nameAt e.names col = some name
  members : ∀ k e, f.classes[k]? = some e → ∀ kind, membersIn t.classes k kind =
    some ((e.members kind).map (rowOf p t.namespaces.length))

variable {p : JoinPlan} {f : MappingFile} {t : MappingTree}

theorem membersApart_of_distinct {m m' : MemberEntry} {key : String} (h : f.MembersDistinct m m')
    (hwidth : 0 < f.namespaces.length) (hkey : m.names.at? 0 = some key) : MembersApart m m' := by
  intro hname hdesc
  refine h 0 hwidth (by rw [hkey]; simp) hname ?_
  rw [hdesc]

/-- The only join of a file without ambiguity copies it. -/
theorem copies_join {i : MappingInput} (hf : i.file.Unambiguous)
    (hfirst : i.file.namespaces.head? = some i.keyNs) (hskip : i.skipIfNotIn = [])
    (hopen : i.onlyExistingSrc = false) :
    ∃ p t, empty.join i = .ok t ∧ Copies p i.file t ∧
      t.namespaces =
        ((empty.addNamespace i.keyNs).2.addColumns i.file.namespaces 0 i.written).1.namespaces ∧
      ∀ j ns, (j = 0 ∨ j ∈ i.written) → i.file.namespaces[j]? = some ns →
        ∃ col, t.namespaceId? ns = some col ∧ p.Takes j col := by
  obtain ⟨p, s, hplans⟩ := plans_empty hskip
  have hp := hplans.first hfirst hf.namespaces hopen
  obtain ⟨hindexed, hempty⟩ := hplans.blank
  have hwidth := MappingFile.width_pos hfirst
  obtain ⟨hrows, hns, hmirrors⟩ := mirrors_joinClasses hp hwidth hindexed hempty
    (fun e he => Option.isSome_iff_exists.mp (hf.named e he)) hf.classes
  have hnames : i.file.namespaces.head? == (s.joinClasses p i.file.classes).tree.source? := by
    have hsource := hplans.source
    unfold source? at hsource ⊢
    rw [hns, hsource, hfirst]
    exact BEq.rfl
  have hjoin : empty.join i = .ok ((s.joinClasses p i.file.classes).tree.joinAllMembers p none
      (i.file.classes.zip (s.joinClasses p i.file.classes).rows)) := by
    unfold join
    rw [hplans.planned]
    show Except.ok
      ((s.joinClasses p i.file.classes).tree.joinAllMembers p (if _ then _ else _) _) = _
    rw [if_pos hnames]
  have hjoined := joined_joinAllMembers p none (s.joinClasses p i.file.classes).tree
    (i.file.classes.zip (s.joinClasses p i.file.classes).rows)
  have hbuilt : Built _ := .join .empty hjoin
  generalize (s.joinClasses p i.file.classes).tree.joinAllMembers p none
    (i.file.classes.zip (s.joinClasses p i.file.classes).rows) = t at hjoin hjoined hbuilt
  have htree : t.namespaces = s.namespaces := hjoined.namespaces.trans hns
  refine ⟨p, t, hjoin, ⟨hf, hwidth, hp, hbuilt.indexed, ?_, ?_, ?_⟩, hplans.tree ▸ htree, ?_⟩
  · intro k e he col
    rw [className_eq_nameIn, hjoined.classNames]
    exact hmirrors.names k e he col
  · intro k col name hname
    rw [className_eq_nameIn, hjoined.classNames] at hname
    exact hmirrors.className_eq_some hname
  · intro k e he kind
    have hlt := (List.getElem?_eq_some_iff.mp he).1
    have hmem := List.mem_of_getElem? he
    have hentries : entriesOf (i.file.classes.zip (s.joinClasses p i.file.classes).rows) k kind =
        e.members kind := by
      have hzip := entriesOf_zip i.file.classes 0 k kind
      rw [he, Nat.zero_add, ← List.range_eq_range'] at hzip
      rw [hrows]
      exact hzip
    rw [hjoined.members, hmirrors.members k hlt kind, hentries, Option.map_some, hns, htree]
    congr 1
    refine joinList_new hp _ (fun m hm => hf.memberName hmem hm)
      (fun m hm => hf.memberDesc hmem hm) ?_
    refine (hf.members hmem kind).imp_of_mem fun {m m'} hm _ hdistinct => ?_
    obtain ⟨key, hkey⟩ := hf.memberName hmem hm
    exact membersApart_of_distinct hdistinct hwidth hkey
  · intro j ns hj hj'
    obtain ⟨col, hcol, htakes⟩ := hplans.takes hfirst hf.namespaces hj hj'
    refine ⟨col, ?_, htakes⟩
    unfold namespaceId? at hcol ⊢
    rw [htree]
    exact hcol

/-! ## Its answers -/

variable {i j a b : Nat}

/-- A class answers to its name in each column. -/
theorem Copies.findClass (h : Copies p f t) (hi : p.Takes i a) {k : Nat} {e : ClassEntry}
    (he : f.classes[k]? = some e) {name : String} (hname : e.names.at? i = some name) :
    t.findClass name a = some k := by
  rw [h.indexed, firstHolder_eq_some]
  refine ⟨(h.names k e he a).trans ((h.plan.nameAt_of_takes hi).trans hname), ?_⟩
  intro earlier hearlier hheld
  obtain ⟨e', he', hname'⟩ := h.named earlier a name hheld
  rw [h.plan.nameAt_of_takes hi] at hname'
  obtain ⟨hk, rfl⟩ := List.getElem?_eq_some_iff.mp he
  obtain ⟨hk', rfl⟩ := List.getElem?_eq_some_iff.mp he'
  have hapart := List.pairwise_iff_getElem.mp h.file.classes earlier k hk' hk hearlier
  exact hapart i (h.plan.lt_of_takes h.width hi) (by rw [hname']; simp) (hname'.trans hname.symm)

theorem Copies.findClass_none (h : Copies p f t) (hi : p.Takes i a) {name : String}
    (hnone : ∀ e ∈ f.classes, e.names.at? i ≠ some name) : t.findClass name a = none := by
  rw [h.indexed, firstHolder_eq_none]
  intro k hk
  obtain ⟨e, he, hname⟩ := h.named k a name hk
  rw [h.plan.nameAt_of_takes hi] at hname
  exact hnone e (List.mem_of_getElem? he) hname

/-- The tree translates the first name of a class as the file does. -/
theorem Copies.translate (h : Copies p f t) (hi : p.Takes i a) (name : String) :
    (t.findClass name 0).bind (t.className · a) =
      (f.classes.find? fun e => e.names.at? 0 == some name).bind fun e => e.names.at? i := by
  have hzero : p.Takes 0 0 := Or.inl ⟨rfl, rfl⟩
  cases he : f.classes.find? fun e => e.names.at? 0 == some name with
  | none =>
    rw [h.findClass_none hzero]
    · rfl
    · intro e hmem
      simpa using List.find?_eq_none.mp he e hmem
  | some e =>
    obtain ⟨k, hk⟩ := List.mem_iff_getElem?.mp (List.mem_of_find?_eq_some he)
    have hname : e.names.at? 0 = some name := by simpa using List.find?_some he
    rw [h.findClass hzero hk hname, Option.bind_some, Option.bind_some, h.names k e hk,
      h.plan.nameAt_of_takes hi]

theorem Copies.mapDescriptor (h : Copies p f t) (hi : p.Takes i a) (desc : String) :
    t.mapDescriptor desc 0 a = f.descriptorIn i desc := by
  unfold MappingTree.mapDescriptor
  split
  · rename_i ha
    have hzero : i = 0 := by
      rcases hi with ⟨hzero, _⟩ | hmem
      · exact hzero
      · exact absurd ha.symm (h.plan.others i a hmem)
    rw [hzero, MappingFile.descriptorIn_zero]
  · unfold MappingFile.descriptorIn
    simp only [h.translate hi]

/-- The caller of a view writes descriptors as the tree maps them to its source column. -/
theorem Copies.callerDescriptor (h : Copies p f t) (hi : p.Takes i a) (desc : String) :
    (MappingView.mk t a a b).callerDescriptor desc = f.descriptorIn i desc := by
  unfold MappingView.callerDescriptor MappingFile.descriptorIn
  simp only [Option.or_self, h.translate hi]

theorem Copies.classRow (h : Copies p f t) (hi : p.Takes i a) {k : Nat} {e : ClassEntry}
    (he : f.classes[k]? = some e) {name : String} (hname : e.names.at? i = some name) :
    (MappingView.mk t a a b).classRow name = some k := by
  unfold MappingView.classRow
  rw [h.findClass hi he hname, Option.or_self]

/-- An element that alone passes a test is the one that is found. -/
theorem find?_of_sole {α : Type} {test : α → Bool} {l : List α} {x : α} (hx : x ∈ l)
    (htest : test x = true) (hsole : ∀ y ∈ l, test y = true → y = x) : l.find? test = some x := by
  cases hfind : l.find? test with
  | none => exact absurd htest (List.find?_eq_none.mp hfind x hx)
  | some y => rw [hsole y (List.mem_of_find?_eq_some hfind) (List.find?_some hfind)]

/-- A member is found by its name and its descriptor in any column. -/
theorem Copies.mapMember (h : Copies p f t) (hi : p.Takes i a) (hj : p.Takes j b)
    {e : ClassEntry} (he : e ∈ f.classes) {owner : String} (howner : e.names.at? i = some owner)
    {kind : MemberKind} {m : MemberEntry} (hm : m ∈ e.members kind) {name desc : String}
    (hname : m.names.at? i = some name) (hdesc : m.desc = some desc) :
    (MappingView.mk t a a b).mapMember kind owner name (some (t.mapDescriptor desc 0 a)) =
      m.names.at? j := by
  obtain ⟨k, hk⟩ := List.mem_iff_getElem?.mp he
  have hrow := h.classRow (b := b) hi hk howner
  obtain ⟨c, hc, hmembers⟩ := Option.map_eq_some_iff.mp (h.members k e hk kind)
  obtain ⟨key, hkey⟩ := h.file.memberName he hm
  -- Only the row of this member has the name and the descriptor.
  have hfind : ((e.members kind).map (rowOf p t.namespaces.length)).find?
      ((MappingView.mk t a a b).matchesMember name (some (t.mapDescriptor desc 0 a)) a) =
        some (rowOf p t.namespaces.length m) := by
    have hmatches : ∀ m' ∈ e.members kind, ∀ desc', m'.desc = some desc' →
        ((MappingView.mk t a a b).matchesMember name (some (t.mapDescriptor desc 0 a)) a
          (rowOf p t.namespaces.length m') = true ↔
            m'.names.at? i = some name ∧ f.descriptorIn i desc = f.descriptorIn i desc') := by
      intro m' hm' desc' hdesc'
      obtain ⟨key', hkey'⟩ := h.file.memberName he hm'
      unfold MappingView.matchesMember
      rw [name_rowOf _ hkey', h.plan.nameAt_of_takes hi, srcDesc_rowOf, hdesc', Option.map_some,
        h.callerDescriptor hi, h.mapDescriptor hi]
      simp [descAgrees]
    refine find?_of_sole (List.mem_map_of_mem hm) ?_ ?_
    · exact (hmatches m hm desc hdesc).mpr ⟨hname, rfl⟩
    · intro r hr hmatch
      obtain ⟨m', hm', rfl⟩ := List.mem_map.mp hr
      obtain ⟨desc', hdesc'⟩ := h.file.memberDesc he hm'
      obtain ⟨hname', hsame⟩ := (hmatches m' hm' desc' hdesc').mp hmatch
      by_contra hne
      have hapart := (h.file.members he kind).forall hm' hm fun heq => hne (heq ▸ rfl)
      refine hapart i (h.plan.lt_of_takes h.width hi) (by rw [hname']; simp)
        (hname'.trans hname.symm) ?_
      rw [hdesc, hdesc', Option.map_some, Option.map_some, hsame]
  unfold MappingView.mapMember
  simp only [hrow, Option.bind_eq_bind, Option.bind_some, hc, hmembers, hfind, Option.some_or]
  rw [name_rowOf _ hkey, h.plan.nameAt_of_takes hj]

end MappingTree

/-! ## The build -/

namespace MappingInput

theorem mem_writtenColumns {namespaces outputs : List String} {col : Nat} {ns : String}
    (hcol : namespaces[col]? = some ns) (h : outputs = [] ∨ ns ∈ outputs) (keyNs : String) :
    col ∈ writtenColumns namespaces keyNs outputs := by
  refine List.mem_filter.mpr ⟨List.mem_range.mpr (List.getElem?_eq_some_iff.mp hcol).1, ?_⟩
  rw [hcol, Option.any_some]
  rcases h with rfl | hout
  · rw [List.isEmpty_nil, Bool.or_true, Bool.true_or]
  · rw [List.contains_iff_mem.mpr hout, Bool.or_true]

theorem writtenColumns_nil (namespaces : List String) (keyNs : String) :
    writtenColumns namespaces keyNs [] = List.range namespaces.length := by
  refine List.filter_eq_self.mpr fun col _ => ?_
  rw [List.isEmpty_nil, Bool.or_true, Bool.true_or]

/-- The input of a file that is joined on its first namespace. -/
def onFirst (label : String) (file : MappingFile) (first : String) (outputs : List String) :
    MappingInput :=
  { plain label file with
    keyNs := first
    outputs
    written := writtenColumns file.namespaces first outputs }

/-- A file under a block without actions is joined on its first namespace. -/
theorem ofFile_without_actions (label : String) {file : MappingFile} {block : MappingBlock}
    (hblock : block.actions = []) {first : String} (hfirst : file.namespaces.head? = some first) :
    ofFile label file block =
      .ok (some (onFirst label file first (block.outputs.map (·.name)))) := by
  obtain ⟨rest, hrest⟩ := List.head?_eq_some_iff.mp hfirst
  unfold ofFile onFirst
  rw [hblock]
  simp [plain, hrest]

end MappingInput

/-- A dependency with nothing but a block that brings nothing out by name is never refused. -/
theorem MappingDependency.finalize_of_no_outputs {d : MappingDependency}
    (hcontained : d.contained = []) (houtputs : d.defaultBlock.outputs = []) (r : Registry) :
    (d.finalize r).1 = .ok () := by
  have hblock : (d.defaultBlock.finalize r).1 = .ok () := by
    unfold MappingBlock.finalize
    split
    · rfl
    · rw [houtputs]
      rfl
  unfold finalize
  split
  · rfl
  · rw [hcontained]
    split
    · rename_i heq
      rw [heq] at hblock
      exact hblock
    · rfl

namespace MappingBuilder

/-- Inputs that depend on nothing are joined in the order of their declaration. -/
theorem joinAll_declared {is : List MappingInput} (hdepends : ∀ i ∈ is, i.depends = [])
    {turns : Nat} (hturns : is.length ≤ turns) (t : MappingTree) :
    joinAll turns is t = (is.foldlM (fun (t : MappingTree) i => t.join i) t).map (·, is) := by
  induction is generalizing turns t with
  | nil => cases turns <;> rfl
  | cons i rest ih =>
    obtain ⟨turns, rfl⟩ : ∃ n, turns = n + 1 := ⟨turns - 1, by simp at hturns; omega⟩
    have hready : nextReady? t.namespaces (i :: rest) = some 0 := by
      unfold nextReady? isReady
      rw [List.length_cons, List.range_succ_eq_map, List.find?_cons_of_pos]
      simp [hdepends i List.mem_cons_self]
    unfold joinAll
    rw [hready, List.foldlM_cons]
    simp only [List.isEmpty_cons, Bool.false_eq_true, if_false, List.getElem?_cons_zero,
      List.eraseIdx_cons_zero]
    cases t.join i with
    | error e => rfl
    | ok s =>
      show (joinAll turns rest s >>= fun x => pure (x.1, i :: x.2)) = _
      rw [ih (fun j hj => hdepends j (List.mem_cons_of_mem _ hj)) (by simpa using hturns)]
      show _ = Except.map _ (rest.foldlM _ s)
      cases rest.foldlM (fun (t : MappingTree) i => t.join i) s <;> rfl

/-- A build from inputs without dependencies and passes joins them as they are declared. -/
theorem treeOf_declared {is : List MappingInput} (hdepends : ∀ i ∈ is, i.depends = [])
    (hpasses : ∀ i ∈ is, i.postPasses = []) (h : Option Hierarchy) :
    treeOf h is = is.foldlM (fun (t : MappingTree) i => t.join i) .empty := by
  have hidle : ∀ t : MappingTree, is.foldlM (fun t i => t.runPasses h i) t = .ok t := by
    clear hdepends
    induction is with
    | nil => exact fun t => rfl
    | cons i rest ih =>
      intro t
      have hfirst : t.runPasses h i = .ok t := by
        unfold MappingTree.runPasses
        rw [hpasses i List.mem_cons_self]
        rfl
      rw [List.foldlM_cons, hfirst]
      exact ih (fun j hj => hpasses j (List.mem_cons_of_mem _ hj)) t
  unfold treeOf
  rw [joinAll_declared hdepends (Nat.le_refl _)]
  cases is.foldlM (fun (t : MappingTree) i => t.join i) .empty with
  | error e => rfl
  | ok t => exact hidle t

/-- A build from a single input without passes is its join to an empty tree. -/
theorem treeOf_single {i : MappingInput} (hdepends : i.depends = []) (hpasses : i.postPasses = [])
    (h : Option Hierarchy) : treeOf h [i] = MappingTree.empty.join i := by
  rw [treeOf_declared (by simpa using hdepends) (by simpa using hpasses)]
  simp

/-- A build from one file builds the tree of its input, if there is one. -/
theorem build_file {d : MappingDependency} {disk : Files} {f : SourceFile} {r : Registry}
    {input : Option MappingInput} (hfiles : d.source.files disk = .ok [f])
    (hfreeze : (d.finalize r).1 = .ok ())
    (hinput : MappingInput.ofFile s!"{d.describe}:{f.name}" f.content (d.blockFor f) = .ok input)
    (h : Option Hierarchy) : (build ⟨[d]⟩ disk h r).1 = treeOf h input.toList := by
  have hof : inputsOf disk d = .ok input.toList := by
    unfold inputsOf
    rw [hfiles]
    show ([f].mapM fun f =>
      MappingInput.ofFile s!"{d.describe}:{f.name}" f.content (d.blockFor f)) >>= _ = _
    rw [List.mapM_cons, hinput]
    cases input <;> rfl
  have hinputs : inputs disk [d] = .ok input.toList := by
    unfold inputs
    rw [List.mapM_cons, hof]
    show Except.ok [input.toList].flatten = _
    rw [List.flatten_singleton]
  obtain ⟨d', r', hd⟩ : ∃ d' r', d.finalize r = (.ok (), d', r') :=
    ⟨_, _, Prod.ext hfreeze rfl⟩
  have hall : finalizeAll r [d] = (.ok (), [d'], r') := by
    simp only [finalizeAll, hd]
  exact build_of_finalizeAll hall hinputs h

end MappingBuilder

/-! ## What the tree answers -/

/-- A block takes in a column of a file: the first, one that it brings out, or any if it
brings nothing out by name. -/
def MappingBlock.TakesIn (b : MappingBlock) (f : MappingFile) (col : Nat) (ns : String) : Prop :=
  f.namespaces[col]? = some ns ∧ (col = 0 ∨ b.outputs = [] ∨ ns ∈ b.outputs.map (·.name))

/-- A view answers as a file does, from its column `i` to its column `j`. -/
structure MappingView.Answers (v : MappingView) (f : MappingFile) (i j : Nat) : Prop where
  classes : ∀ e ∈ f.classes, ∀ name, e.names.at? i = some name → v.mapClass name = e.names.at? j
  others : ∀ name, (∀ e ∈ f.classes, e.names.at? i ≠ some name) → v.mapClass name = none
  fields : ∀ e ∈ f.classes, ∀ owner, e.names.at? i = some owner →
    ∀ m ∈ e.fields, ∀ name desc, m.names.at? i = some name → m.desc = some desc →
      v.mapField owner name (some (v.tree.mapDescriptor desc 0 v.source)) = m.names.at? j
  methods : ∀ e ∈ f.classes, ∀ owner, e.names.at? i = some owner →
    ∀ m ∈ e.methods, ∀ name desc, m.names.at? i = some name → m.desc = some desc →
      v.mapMethod owner name (some (v.tree.mapDescriptor desc 0 v.source)) = m.names.at? j

theorem MappingTree.Copies.answers {p : JoinPlan} {f : MappingFile} {t : MappingTree}
    (h : Copies p f t) {i j a b : Nat} (hi : p.Takes i a) (hj : p.Takes j b) :
    (MappingView.mk t a a b).Answers f i j := by
  refine ⟨?_, ?_, ?_, ?_⟩
  · intro e he name hname
    obtain ⟨k, hk⟩ := List.mem_iff_getElem?.mp he
    unfold MappingView.mapClass
    rw [h.classRow hi hk hname, Option.bind_some, h.names k e hk, h.plan.nameAt_of_takes hj]
  · intro name hnone
    unfold MappingView.mapClass MappingView.classRow
    rw [h.findClass_none hi hnone]
    rfl
  · intro e he owner howner m hm name desc hname hdesc
    exact h.mapMember hi hj he howner (show m ∈ e.members .field from hm) hname hdesc
  · intro e he owner howner m hm name desc hname hdesc
    exact h.mapMember hi hj he howner (show m ∈ e.members .method from hm) hname hdesc

/-- A tree that is built from one file without ambiguity, under a block without actions,
answers as the file does between any two columns that the block takes in. Without outputs
these are all columns of the file, in their order. -/
theorem the_tree_of_one_file_answers_as_the_file {d : MappingDependency} {disk : Files}
    {f : SourceFile} {r : Registry} (hfiles : d.source.files disk = .ok [f])
    (hblock : (d.blockFor f).actions = []) (hfreeze : (d.finalize r).1 = .ok ())
    (hf : f.content.Unambiguous) (h : Option Hierarchy) :
    ∃ t, (MappingBuilder.build ⟨[d]⟩ disk h r).1 = .ok t ∧
      ((d.blockFor f).outputs = [] → t.namespaces = f.content.namespaces) ∧
      ∀ i j source target, (d.blockFor f).TakesIn f.content i source →
        (d.blockFor f).TakesIn f.content j target →
          ∃ v, t.view source source target = .ok v ∧ v.Answers f.content i j := by
  cases hfirst : f.content.namespaces.head? with
  | none =>
    have hnil : f.content.namespaces = [] := List.head?_eq_none_iff.mp hfirst
    have hinput :
        MappingInput.ofFile s!"{d.describe}:{f.name}" f.content (d.blockFor f) = .ok none := by
      unfold MappingInput.ofFile
      rw [hblock]
      simp [MappingInput.plain, hnil]
    refine ⟨.empty, ?_, fun _ => hnil.symm, ?_⟩
    · rw [MappingBuilder.build_file hfiles hfreeze hinput h]
      rfl
    · rintro i j source target ⟨hsource, _⟩
      rw [hnil] at hsource
      cases hsource
  | some first =>
    have hinput := MappingInput.ofFile_without_actions s!"{d.describe}:{f.name}" hblock hfirst
    generalize hi : MappingInput.onFirst s!"{d.describe}:{f.name}" f.content first
      ((d.blockFor f).outputs.map (·.name)) = i at hinput
    have hfile : i.file = f.content := by rw [← hi]; rfl
    have hkey : i.keyNs = first := by rw [← hi]; rfl
    have hwritten : i.written = MappingInput.writtenColumns f.content.namespaces first
      ((d.blockFor f).outputs.map (·.name)) := by rw [← hi]; rfl
    obtain ⟨p, t, hjoin, hcopies, hns, hcolumns⟩ := MappingTree.copies_join (i := i)
      (hfile ▸ hf) (by rw [hfile, hkey, hfirst]) (by rw [← hi]; rfl) (by rw [← hi]; rfl)
    rw [hfile] at hcopies hns hcolumns
    have htaken : ∀ col ns, (d.blockFor f).TakesIn f.content col ns →
        ∃ a, t.namespaceId? ns = some a ∧ p.Takes col a := by
      rintro col ns ⟨hcol, htake⟩
      refine hcolumns col ns ?_ hcol
      rcases htake with hzero | htake
      · exact Or.inl hzero
      · right
        rw [hwritten]
        refine MappingInput.mem_writtenColumns hcol (htake.imp_left fun hnone => ?_) first
        rw [hnone, List.map_nil]
    refine ⟨t, ?_, ?_, ?_⟩
    · rw [MappingBuilder.build_file hfiles hfreeze hinput h]
      exact (MappingBuilder.treeOf_single (by rw [← hi]; rfl) (by rw [← hi]; rfl) h).trans hjoin
    · intro hnone
      rw [hns, hkey, hwritten, hnone, List.map_nil, MappingInput.writtenColumns_nil]
      exact MappingTree.namespaces_addAll hf.namespaces hfirst
    · intro i' j' source target hsource htarget
      obtain ⟨a, ha, hia⟩ := htaken i' source hsource
      obtain ⟨b, hb, hjb⟩ := htaken j' target htarget
      refine ⟨⟨t, a, a, b⟩, ?_, hcopies.answers hia hjb⟩
      unfold MappingTree.view MappingTree.requireNamespace
      rw [ha, hb]
      rfl

/-- Two methods that share their names but for `intermediary`, and a class that has no
name there. -/
def overloads : MappingFile :=
  ⟨["official", "intermediary", "named"],
    [⟨[some "a", some "class_1", some "World"], [⟨[some "b", some "field_1", none], some "La;"⟩],
      [⟨[some "c", some "method_1", some "tick"], some "(La;)V"⟩,
        ⟨[some "c", some "method_2", some "tick"], some "(Ld;)V"⟩]⟩,
      ⟨[some "d", none, some "Level"], [], []⟩]⟩

def overloadsOnly : MappingDependency :=
  .ofSource (.memory "overloads" [MappingSource.memoryFile "overloads.json" overloads])

theorem overloads_are_told_apart_by_their_descriptors :
    overloads.Unambiguous ∧
      ∃ t v, (MappingBuilder.build ⟨[overloadsOnly]⟩ .empty none .empty).1 = .ok t ∧
        t.view "named" "named" "intermediary" = .ok v ∧
        v.mapClass "World" = some "class_1" ∧ v.mapClass "Level" = none ∧
        v.mapMethod "World" "tick" (some (v.tree.mapDescriptor "(La;)V" 0 v.source)) =
          some "method_1" ∧
        v.mapMethod "World" "tick" (some (v.tree.mapDescriptor "(Ld;)V" 0 v.source)) =
          some "method_2" := by
  have hf : overloads.Unambiguous := by decide +kernel
  have hfiles : overloadsOnly.source.files .empty =
      .ok [MappingSource.memoryFile "overloads.json" overloads] := rfl
  have hfreeze := MappingDependency.finalize_of_no_outputs (d := overloadsOnly) rfl rfl .empty
  obtain ⟨t, hbuild, _, hviews⟩ :=
    the_tree_of_one_file_answers_as_the_file hfiles rfl hfreeze hf none
  obtain ⟨v, hview, hv⟩ := hviews 2 1 "named" "intermediary" ⟨rfl, Or.inr (Or.inl rfl)⟩
    ⟨rfl, Or.inr (Or.inl rfl)⟩
  have hworld := List.mem_cons_self (a := overloads.classes[0]) (l := overloads.classes.tail)
  refine ⟨hf, t, v, hbuild, hview, ?_, ?_, ?_, ?_⟩
  · exact hv.classes _ hworld "World" rfl
  · exact hv.classes _ (List.mem_cons_of_mem _ List.mem_cons_self) "Level" rfl
  · exact hv.methods _ hworld "World" rfl _ List.mem_cons_self "tick" "(La;)V" rfl rfl
  · exact hv.methods _ hworld "World" rfl _ (List.mem_cons_of_mem _ List.mem_cons_self) "tick"
      "(Ld;)V" rfl rfl

end JarDerivation
