-- There and back. A node that is renamed from one column into another one and back again
-- is the node from the start, if both columns and the source column tell all classes and
-- members apart. Only a simple name may differ: it comes back if it follows the full name,
-- or if neither column puts a `$` into the full name.
import JarDerivation.Proofs.Remap.Hops
import Mathlib.Data.List.Nodup

namespace JarDerivation

namespace MappingTree

/-! ## Columns that tell classes and members apart -/

/-- The view from one column straight into another one; the fallback is the first column too. -/
def straight (t : MappingTree) (source target : Nat) : MappingView := ⟨t, source, source, target⟩

/-- A name that no row has in one column is not the name of a row in any of the columns. -/
def Outside (t : MappingTree) (cols : List Nat) (col : Nat) (name : String) : Prop :=
  (∀ row, t.className row col ≠ some name) →
    ∀ other ∈ cols, ∀ row, t.className row other ≠ some name

/-- Columns in which every class has a name of its own, and none with a `;` in it. -/
structure Spelled (t : MappingTree) (cols : List Nat) : Prop where
  indexed : t.Indexed
  named : ∀ c ∈ t.classes, ∀ col ∈ cols, ∃ name, c.name col = some name ∧ ';' ∉ name.toList
  distinct : ∀ col ∈ cols, (t.classes.map (·.name col)).Nodup

/-- Member rows with a source descriptor and a name in both columns. In each of the two,
name and source descriptor tell them apart. -/
structure MembersSpelled (t : MappingTree) (f g : Nat) (ms : List MemberRow) : Prop where
  described : ∀ r ∈ ms, ∃ desc, r.srcDesc = some desc
  outside : ∀ r ∈ ms, ∀ desc, r.srcDesc = some desc →
    ∀ name ∈ Descriptor.classes desc, t.Outside [0, f, g] 0 name
  named : ∀ r ∈ ms, ∀ col ∈ [f, g], ∃ name, r.name col = some name
  told : ∀ col ∈ [f, g], (ms.map fun r => (r.name col, r.srcDesc)).Nodup

/-- A tree that names everything in two columns, so that the way between them can be gone
in both directions. -/
structure Reversible (t : MappingTree) (f g : Nat) : Prop where
  spelled : t.Spelled [0, f, g]
  members : ∀ c ∈ t.classes, ∀ kind, t.MembersSpelled f g (c.members kind)
  plain : ∀ c ∈ t.classes, ∀ r ∈ c.methods, ∀ col ∈ [f, g], ∀ name,
    r.name col = some name → Text.startsWith "<" name = false

/-- The member rows of the class with a name in a column. -/
def rowsAt (t : MappingTree) (col : Nat) (owner : String) (kind : MemberKind) : List MemberRow :=
  ((t.findClass owner col).bind fun row => membersIn t.classes row kind).getD []

/-- Whether a member row has this name and this descriptor, both as they are written in a
column. -/
def reads (t : MappingTree) (col : Nat) (name desc : String) (r : MemberRow) : Bool :=
  r.name col == some name && r.srcDesc.map (t.fromSource col).mapDescriptor == some desc

/-- A node of column `f` that mentions no class and has no member that only the names of
column `g` would make one of the tree. -/
structure Returns (t : MappingTree) (f g : Nat) (c : ClassNode) : Prop where
  outside : ∀ name ∈ c.mentioned, t.Outside [0, f, g] f name
  strangers : ∀ kind, ∀ m ∈ c.members kind,
    (∀ r ∈ t.rowsAt f c.name kind, t.reads f m.name m.desc r = false) →
    ∀ r ∈ t.rowsAt f c.name kind, t.reads g m.name ((t.straight f g).mapDescriptor m.desc) r = false

variable {t : MappingTree} {cols : List Nat} {a b d f g row : Nat} {name : String}

/-! ## Classes -/

theorem Spelled.findClass (ht : t.Spelled cols) (ha : a ∈ cols)
    (h : t.className row a = some name) : t.findClass name a = some row := by
  cases hfind : t.findClass name a with
  | none =>
    rw [ht.indexed] at hfind
    exact absurd h (firstHolder_eq_none.mp hfind row)
  | some first =>
    have hfirst := className_of_findClass ht.indexed hfind
    have hcells : (t.classes.map (·.name a))[first]? = (t.classes.map (·.name a))[row]? := by
      unfold className at h hfirst
      obtain ⟨c, hc, hname⟩ := Option.bind_eq_some_iff.mp h
      obtain ⟨c', hc', hname'⟩ := Option.bind_eq_some_iff.mp hfirst
      rw [List.getElem?_map, List.getElem?_map, hc, hc', Option.map_some, Option.map_some, hname,
        hname']
    have hlt : first < (t.classes.map (·.name a)).length := by
      by_contra hge
      rw [List.length_map] at hge
      simp [className, List.getElem?_eq_none (Nat.le_of_not_lt hge)] at hfirst
    rw [(List.getElem?_inj hlt (ht.distinct a ha)).mp hcells]

theorem Spelled.named_in (ht : t.Spelled cols) (hb : b ∈ cols)
    (h : t.className row a = some name) :
    ∃ new, t.className row b = some new ∧ ';' ∉ new.toList := by
  obtain ⟨c, hc, _⟩ := Option.bind_eq_some_iff.mp h
  obtain ⟨new, hnew, hclean⟩ := ht.named c (List.mem_of_getElem? hc) b hb
  exact ⟨new, by simp [className, hc, hnew], hclean⟩

theorem classRow_straight (t : MappingTree) (a b : Nat) (name : String) :
    (t.straight a b).classRow name = t.findClass name a := Option.or_self

theorem mapClass_straight (t : MappingTree) (a b : Nat) (name : String) :
    (t.straight a b).mapClass name = (t.findClass name a).bind (t.className · b) := by
  unfold MappingView.mapClass
  rw [classRow_straight]
  rfl

theorem mapClassOrKeep_straight (t : MappingTree) (a b : Nat) (name : String) :
    (t.straight a b).mapClassOrKeep name =
      ((t.findClass name a).bind (t.className · b)).getD name := by
  unfold MappingView.mapClassOrKeep
  rw [mapClass_straight]

theorem mapClassOrKeep_outside (ht : t.Indexed) (h : ∀ row, t.className row a ≠ some name) :
    (t.straight a b).mapClassOrKeep name = name := by
  rw [mapClassOrKeep_straight, findClass_eq_none ht h]
  rfl

theorem mapClassOrKeep_self (ht : t.Indexed) (a : Nat) (name : String) :
    (t.straight a a).mapClassOrKeep name = name := by
  rw [mapClassOrKeep_straight]
  cases hrow : t.findClass name a with
  | none => rfl
  | some row =>
    rw [Option.bind_some, className_of_findClass ht hrow]
    rfl

/-- The way over a column leads where the straight way leads. -/
theorem Spelled.mapClassOrKeep_through (ht : t.Spelled cols) (ha : a ∈ cols) (hb : b ∈ cols)
    (hd : d ∈ cols) (h : t.Outside cols a name) :
    (t.straight b d).mapClassOrKeep ((t.straight a b).mapClassOrKeep name) =
      (t.straight a d).mapClassOrKeep name := by
  by_cases hrow : ∃ row, t.className row a = some name
  · obtain ⟨row, hname⟩ := hrow
    obtain ⟨mid, hmid, _⟩ := ht.named_in hb hname
    obtain ⟨last, hlast, _⟩ := ht.named_in hd hname
    have hthere : (t.straight a b).mapClassOrKeep name = mid := by
      rw [mapClassOrKeep_straight, ht.findClass ha hname, Option.bind_some, hmid]
      rfl
    rw [hthere, mapClassOrKeep_straight, mapClassOrKeep_straight, ht.findClass hb hmid,
      ht.findClass ha hname, Option.bind_some, hlast]
    rfl
  · have hnone : ∀ row, t.className row a ≠ some name := fun row hname => hrow ⟨row, hname⟩
    rw [mapClassOrKeep_outside ht.indexed hnone, mapClassOrKeep_outside ht.indexed hnone,
      mapClassOrKeep_outside ht.indexed (h hnone b hb)]

theorem Spelled.mapClassOrKeep_back (ht : t.Spelled cols) (ha : a ∈ cols) (hb : b ∈ cols)
    (h : t.Outside cols a name) :
    (t.straight b a).mapClassOrKeep ((t.straight a b).mapClassOrKeep name) = name := by
  rw [ht.mapClassOrKeep_through ha hb ha h, mapClassOrKeep_self ht.indexed]

theorem Spelled.map_back (ht : t.Spelled cols) (ha : a ∈ cols) (hb : b ∈ cols) {o : Option String}
    (h : ∀ name, o = some name → t.Outside cols a name) :
    (o.map (t.straight a b).mapClassOrKeep).map (t.straight b a).mapClassOrKeep = o := by
  cases o with
  | none => rfl
  | some name => simp [ht.mapClassOrKeep_back ha hb (h name rfl)]

/-- The row of a class is found again under its new name. -/
theorem Spelled.findClass_back (ht : t.Spelled cols) (ha : a ∈ cols) (hb : b ∈ cols)
    (h : t.Outside cols a name) :
    t.findClass ((t.straight a b).mapClassOrKeep name) b = t.findClass name a := by
  by_cases hrow : ∃ row, t.className row a = some name
  · obtain ⟨row, hname⟩ := hrow
    obtain ⟨new, hnew, _⟩ := ht.named_in hb hname
    rw [mapClassOrKeep_straight, ht.findClass ha hname, Option.bind_some, hnew, Option.getD_some,
      ht.findClass hb hnew]
  · have hnone : ∀ row, t.className row a ≠ some name := fun row hname => hrow ⟨row, hname⟩
    rw [mapClassOrKeep_outside ht.indexed hnone, findClass_eq_none ht.indexed hnone,
      findClass_eq_none ht.indexed (h hnone b hb)]

/-! ## Descriptors -/

theorem Spelled.clean (ht : t.Spelled cols) (hb : b ∈ cols) :
    Descriptor.Clean (t.straight a b).mapClass := by
  intro name new hnew
  rw [mapClass_straight] at hnew
  obtain ⟨row, hrow, hname⟩ := Option.bind_eq_some_iff.mp hnew
  obtain ⟨new', hnew', hclean⟩ :=
    ht.named_in hb (className_of_findClass ht.indexed hrow)
  rw [hname] at hnew'
  cases hnew'
  exact hclean

theorem Spelled.mapDescriptor_through (ht : t.Spelled cols) (ha : a ∈ cols) (hb : b ∈ cols)
    (hd : d ∈ cols) {desc : String} (h : ∀ name ∈ Descriptor.classes desc, t.Outside cols a name) :
    (t.straight b d).mapDescriptor ((t.straight a b).mapDescriptor desc) =
      (t.straight a d).mapDescriptor desc :=
  Descriptor.rename_rename (ht.clean hb) fun name hname =>
    ht.mapClassOrKeep_through ha hb hd (h name hname)

theorem Spelled.mapDescriptor_back (ht : t.Spelled cols) (ha : a ∈ cols) (hb : b ∈ cols)
    {desc : String} (h : ∀ name ∈ Descriptor.classes desc, t.Outside cols a name) :
    (t.straight b a).mapDescriptor ((t.straight a b).mapDescriptor desc) = desc := by
  rw [ht.mapDescriptor_through ha hb ha h]
  exact Descriptor.rename_eq_self fun name _ => mapClassOrKeep_self ht.indexed a name

theorem Spelled.mapDescriptor_injective (ht : t.Spelled cols) (ha : a ∈ cols) (hb : b ∈ cols)
    {desc desc' : String} (h : ∀ name ∈ Descriptor.classes desc, t.Outside cols a name)
    (h' : ∀ name ∈ Descriptor.classes desc', t.Outside cols a name)
    (heq : (t.straight a b).mapDescriptor desc = (t.straight a b).mapDescriptor desc') :
    desc = desc' := by
  rw [← ht.mapDescriptor_back ha hb h, heq, ht.mapDescriptor_back ha hb h']

/-! ## Members -/

theorem first_mem (f g : Nat) : f ∈ [0, f, g] := by simp

theorem second_mem (f g : Nat) : g ∈ [0, f, g] := by simp

theorem callerDescriptor_straight (t : MappingTree) (a b : Nat) :
    (t.straight a b).callerDescriptor = (t.fromSource a).mapDescriptor := by
  funext desc
  apply Descriptor.rename_congr
  intro name _
  unfold Descriptor.newName
  rw [mapClass_fromSource]
  simp only [straight, Option.or_self]

theorem Reversible.rowsAt (ht : t.Reversible f g) (col : Nat) (owner : String) (kind : MemberKind) :
    t.MembersSpelled f g (t.rowsAt col owner kind) := by
  unfold MappingTree.rowsAt
  cases hms : (t.findClass owner col).bind fun row => membersIn t.classes row kind with
  | none => exact ⟨by simp, by simp, by simp, by simp⟩
  | some ms =>
    obtain ⟨row, _, hrow⟩ := Option.bind_eq_some_iff.mp hms
    obtain ⟨c, hc, rfl⟩ := Option.map_eq_some_iff.mp hrow
    exact ht.members c (List.mem_of_getElem? hc) kind

theorem mapMember_straight {ms : List MemberRow} {owner : String} {kind : MemberKind}
    (hrows : t.rowsAt a owner kind = ms) (hms : ∀ r ∈ ms, ∃ desc, r.srcDesc = some desc)
    (b : Nat) (name desc : String) :
    (t.straight a b).mapMember kind owner name (some desc) =
      (ms.find? (t.reads a name desc)).bind (·.name b) := by
  have hfind : ms.find? ((t.straight a b).matchesMember name (some desc) a) =
      ms.find? (t.reads a name desc) := by
    apply List.find?_congr
    intro r hr
    obtain ⟨own, hown⟩ := hms r hr
    unfold MappingView.matchesMember reads
    rw [hown, callerDescriptor_straight]
    simp [descAgrees, BEq.comm]
  rw [mapMember_eq, classRow_straight, ← hfind, ← hrows]
  exact congrArg (Option.bind · _) Option.or_self

theorem reads_iff {r : MemberRow} {desc : String} :
    t.reads a name desc r = true ↔
      r.name a = some name ∧ r.srcDesc.map (t.fromSource a).mapDescriptor = some desc := by
  simp [reads]

/-- The row that a member of column `f` has is the row that it has in column `g`, and so
its old name comes back. -/
theorem Reversible.name_back (ht : t.Reversible f g) {ms : List MemberRow}
    (hms : t.MembersSpelled f g ms) {name desc : String}
    (hstranger : (∀ r ∈ ms, t.reads f name desc r = false) →
      ∀ r ∈ ms, t.reads g name ((t.straight f g).mapDescriptor desc) r = false) {new : String}
    (hnew : new = ((ms.find? (t.reads f name desc)).bind (·.name g)).getD name) :
    ((ms.find? (t.reads g new ((t.straight f g).mapDescriptor desc))).bind (·.name f)).getD new =
      name := by
  cases hfound : ms.find? (t.reads f name desc) with
  | none =>
    have hsame : new = name := by rw [hnew, hfound]; rfl
    have hno : ∀ r ∈ ms, t.reads f name desc r = false := by
      intro r hr
      simpa using List.find?_eq_none.mp hfound r hr
    have hback : ms.find? (t.reads g name ((t.straight f g).mapDescriptor desc)) = none := by
      apply List.find?_eq_none.mpr
      intro r hr
      simp [hstranger hno r hr]
    rw [hsame, hback]
    rfl
  | some r =>
    have hr := List.mem_of_find?_eq_some hfound
    have hreads : t.reads f name desc r = true := by simpa using List.find?_some hfound
    obtain ⟨hname, hdesc⟩ := reads_iff.mp hreads
    obtain ⟨own, hown⟩ := hms.described r hr
    obtain ⟨shown, hshown⟩ := hms.named r hr g (by simp)
    have hsame : new = shown := by rw [hnew, hfound, Option.bind_some, hshown]; rfl
    -- what the way there makes of the descriptor is how the row reads in column `g`
    have hthere : (t.straight f g).mapDescriptor desc = (t.fromSource g).mapDescriptor own := by
      rw [hown, Option.map_some] at hdesc
      rw [← Option.some.inj hdesc]
      exact ht.spelled.mapDescriptor_through List.mem_cons_self (first_mem f g) (second_mem f g)
        (hms.outside r hr own hown)
    have honly : ∀ r' ∈ ms, t.reads g shown ((t.straight f g).mapDescriptor desc) r' = true →
        r' = r := by
      intro r' hr' hreads'
      obtain ⟨hname', hdesc'⟩ := reads_iff.mp hreads'
      obtain ⟨own', hown'⟩ := hms.described r' hr'
      rw [hown', Option.map_some, hthere] at hdesc'
      have heq : own' = own := ht.spelled.mapDescriptor_injective List.mem_cons_self
        (second_mem f g) (hms.outside r' hr' own' hown') (hms.outside r hr own hown) (Option.some.inj hdesc')
      exact List.inj_on_of_nodup_map (hms.told g (by simp)) hr' hr
        (by simp only [hname', hshown, hown', hown, heq])
    have hback : ms.find? (t.reads g shown ((t.straight f g).mapDescriptor desc)) = some r := by
      cases hfind : ms.find? (t.reads g shown ((t.straight f g).mapDescriptor desc)) with
      | none =>
        refine absurd (reads_iff.mpr ⟨hshown, ?_⟩) (List.find?_eq_none.mp hfind r hr)
        rw [hown, Option.map_some, hthere]
      | some r' =>
        have hreads' : t.reads g shown ((t.straight f g).mapDescriptor desc) r' = true := by
          simpa using List.find?_some hfind
        rw [honly r' (List.mem_of_find?_eq_some hfind) hreads']
    rw [hsame, hback, Option.bind_some, hname]
    rfl

theorem Reversible.memberName_back (ht : t.Reversible f g) {c : ClassNode} (hc : t.Returns f g c)
    {kind : MemberKind} {m : MemberNode} (hm : m ∈ c.members kind) {new : String}
    (hnew : new = ((t.straight f g).mapMember kind c.name m.name (some m.desc)).getD m.name) :
    ((t.straight g f).mapMember kind ((t.straight f g).mapClassOrKeep c.name) new
        (some ((t.straight f g).mapDescriptor m.desc))).getD new = m.name := by
  have hall := ClassNode.allMentioned hc.outside
  have hms := ht.rowsAt f c.name kind
  have hrows : t.rowsAt g ((t.straight f g).mapClassOrKeep c.name) kind = t.rowsAt f c.name kind := by
    unfold MappingTree.rowsAt
    rw [ht.spelled.findClass_back (first_mem f g) (second_mem f g) hall.own]
  rw [mapMember_straight rfl hms.described] at hnew
  rw [mapMember_straight hrows hms.described]
  exact ht.name_back hms (hc.strangers kind m hm) hnew

/-- A method that the way there renames has no name that the way back would leave alone. -/
theorem Reversible.plain_there (ht : t.Reversible f g) {owner name desc : String}
    (hname : Text.startsWith "<" name = false) :
    Text.startsWith "<"
      (((t.straight f g).mapMember .method owner name (some desc)).getD name) = false := by
  rw [mapMember_straight rfl (ht.rowsAt f owner .method).described]
  cases hnew : ((t.rowsAt f owner .method).find? (t.reads f name desc)).bind (·.name g) with
  | none => exact hname
  | some new =>
    obtain ⟨r, hfind, hrname⟩ := Option.bind_eq_some_iff.mp hnew
    have hr := List.mem_of_find?_eq_some hfind
    unfold MappingTree.rowsAt at hr
    cases hms : (t.findClass owner f).bind fun row => membersIn t.classes row .method with
    | none =>
      rw [hms] at hr
      cases hr
    | some ms =>
      rw [hms] at hr
      obtain ⟨row, _, hrow⟩ := Option.bind_eq_some_iff.mp hms
      obtain ⟨c, hc, rfl⟩ := Option.map_eq_some_iff.mp hrow
      exact ht.plain c (List.mem_of_getElem? hc) r hr g (by simp) new hrname

theorem Reversible.remapMember_back (ht : t.Reversible f g) {m : MemberNode}
    (hdesc : ∀ name ∈ Descriptor.classes m.desc, t.Outside [0, f, g] f name)
    {first second : Option String} (hname : second.getD (first.getD m.name) = m.name) :
    (t.straight g f).remapMember ((t.straight f g).remapMember m first) second = m := by
  unfold MappingView.remapMember
  simp only [hname, ht.spelled.mapDescriptor_back (first_mem f g) (second_mem f g) hdesc]

theorem Reversible.remapField_back (ht : t.Reversible f g) {c : ClassNode} (hc : t.Returns f g c)
    {m : MemberNode} (hm : m ∈ c.fields) :
    (t.straight g f).remapField ((t.straight f g).mapClassOrKeep c.name)
        ((t.straight f g).remapField c.name m) = m :=
  ht.remapMember_back ((ClassNode.allMentioned hc.outside).fields m hm)
    (ht.memberName_back hc (show m ∈ c.members .field from hm) rfl)

theorem Reversible.remapMethod_back (ht : t.Reversible f g) {c : ClassNode} (hc : t.Returns f g c)
    {m : MemberNode} (hm : m ∈ c.methods) :
    (t.straight g f).remapMethod ((t.straight f g).mapClassOrKeep c.name)
        ((t.straight f g).remapMethod c.name m) = m := by
  apply ht.remapMember_back ((ClassNode.allMentioned hc.outside).methods m hm)
  cases hname : Text.startsWith "<" m.name with
  | true => simp [MappingView.remapMethod, MappingView.remapMember, hname]
  | false =>
    have hplain : Text.startsWith "<" (((t.straight f g).mapMember .method c.name m.name
        (some m.desc)).getD m.name) = false := ht.plain_there hname
    simp only [MappingView.remapMethod, MappingView.remapMember, hname, MappingView.mapMethod,
      Bool.false_eq_true, if_false, hplain]
    exact ht.memberName_back hc (show m ∈ c.members .method from hm) rfl

/-! ## Records -/

/-- A simple name comes back if it is the end of the old full name, or of the new one if
only that has a `$`. -/
theorem simpleBeside_back {old new simple : String} :
    InnerClass.simpleBeside old (InnerClass.simpleBeside new simple) = simple ↔
      ('$' ∈ old.toList → simple = Text.afterLast '$' old) ∧
        ('$' ∉ old.toList → '$' ∈ new.toList → simple = Text.afterLast '$' new) := by
  by_cases hold : '$' ∈ old.toList
  · simp [InnerClass.simpleBeside_of_mem hold, hold, eq_comm]
  · rw [InnerClass.simpleBeside_of_notMem hold, InnerClass.simpleBeside_eq_self]
    simp [hold]

theorem Reversible.remapInner_back (ht : t.Reversible f g) {ic : InnerClass}
    (hname : t.Outside [0, f, g] f ic.name)
    (houter : ∀ name, ic.outerName = some name → t.Outside [0, f, g] f name) :
    (t.straight g f).remapInner ((t.straight f g).remapInner ic) = ic ↔
      ∀ simple, ic.innerName = some simple →
        ('$' ∈ ic.name.toList → simple = Text.afterLast '$' ic.name) ∧
          ('$' ∉ ic.name.toList → '$' ∈ ((t.straight f g).mapClassOrKeep ic.name).toList →
            simple = Text.afterLast '$' ((t.straight f g).mapClassOrKeep ic.name)) := by
  obtain ⟨name, outerName, innerName, access⟩ := ic
  unfold MappingView.remapInner
  simp only [ht.spelled.mapClassOrKeep_back (first_mem f g) (second_mem f g) hname,
    ht.spelled.map_back (first_mem f g) (second_mem f g) houter, InnerClass.mk.injEq, true_and, and_true]
  cases innerName with
  | none => simp
  | some simple =>
    simp only [Option.map_some, Option.some.injEq, forall_eq']
    exact simpleBeside_back

/-! ## The way there and back -/

/-- The way there and back changes simple names only: the node is the one from the start
just when each of them comes back. -/
theorem Reversible.remapNode_back (ht : t.Reversible f g) {c : ClassNode} (hc : t.Returns f g c) :
    (t.straight g f).remapNode ((t.straight f g).remapNode c) = c ↔
      ∀ ic ∈ c.innerClasses, (t.straight g f).remapInner ((t.straight f g).remapInner ic) = ic := by
  have hall := ClassNode.allMentioned hc.outside
  have hinterfaces : (c.interfaces.map (t.straight f g).mapClassOrKeep).map
      (t.straight g f).mapClassOrKeep = c.interfaces := by
    rw [List.map_map]
    exact list_map_eq_self.mpr fun name hmem =>
      ht.spelled.mapClassOrKeep_back (first_mem f g) (second_mem f g) (hall.interfaces name hmem)
  have hfields : (c.fields.map ((t.straight f g).remapField c.name)).map
      ((t.straight g f).remapField ((t.straight f g).mapClassOrKeep c.name)) = c.fields := by
    rw [List.map_map]
    exact list_map_eq_self.mpr fun m hm => ht.remapField_back hc hm
  have hmethods : (c.methods.map ((t.straight f g).remapMethod c.name)).map
      ((t.straight g f).remapMethod ((t.straight f g).mapClassOrKeep c.name)) = c.methods := by
    rw [List.map_map]
    exact list_map_eq_self.mpr fun m hm => ht.remapMethod_back hc hm
  have hnode : (t.straight g f).remapNode ((t.straight f g).remapNode c) =
      { c with innerClasses :=
          (c.innerClasses.map (t.straight f g).remapInner).map (t.straight g f).remapInner } := by
    unfold MappingView.remapNode
    simp only [ht.spelled.mapClassOrKeep_back (first_mem f g) (second_mem f g) hall.own,
      ht.spelled.map_back (first_mem f g) (second_mem f g) hall.superName, hinterfaces, hfields, hmethods,
      ht.spelled.map_back (first_mem f g) (second_mem f g) hall.outerClass]
  rw [hnode, List.map_map]
  constructor
  · intro heq
    exact list_map_eq_self.mp (congrArg ClassNode.innerClasses heq)
  · intro hinner
    have hsame : c.innerClasses.map ((t.straight g f).remapInner ∘ (t.straight f g).remapInner) =
        c.innerClasses := list_map_eq_self.mpr hinner
    rw [hsame]

/-- A node comes back from another column as it was, if each record about an inner class
has no simple name, or the end of its full name for one, or no `$` in its full name in
either column. -/
theorem a_node_comes_back (ht : t.Reversible f g) {c : ClassNode} (hc : t.Returns f g c)
    (hinner : ∀ ic ∈ c.innerClasses, ic.innerName = none ∨
      ('$' ∈ ic.name.toList ∧ ic.innerName = some (Text.afterLast '$' ic.name)) ∨
      ('$' ∉ ic.name.toList ∧ '$' ∉ ((t.straight f g).mapClassOrKeep ic.name).toList)) :
    (t.straight g f).remapNode ((t.straight f g).remapNode c) = c := by
  have hall := ClassNode.allMentioned hc.outside
  apply (ht.remapNode_back hc).mpr
  intro ic hic
  apply (ht.remapInner_back (hall.inner ic hic) (hall.outer ic hic)).mpr
  intro simple hsimple
  rcases hinner ic hic with hnone | ⟨hmem, hend⟩ | ⟨hold, hnew⟩
  · rw [hsimple] at hnone
    cases hnone
  · rw [hsimple] at hend
    exact ⟨fun _ => Option.some.inj hend, fun hnot => absurd hmem hnot⟩
  · exact ⟨fun hmem => absurd hmem hold, fun _ hmem => absurd hmem hnew⟩

/-- The class of `worldInColumns` in the second column, with a method and a constructor. -/
def middleNode : ClassNode :=
  { access := 0, name := "class_1", superName := some "java/lang/Object", interfaces := []
    fields := []
    methods := [⟨1, "method_3", "(Lclass_1;)V", none, none⟩, ⟨1, "<init>", "()V", none, none⟩]
    innerClasses := [⟨"class_1$class_2", some "class_1", some "class_2", 0⟩]
    outerClass := none, side := none }

theorem reversible_worldInColumns : (worldInColumns "World$Inner").Reversible 1 2 where
  spelled := by
    refine ⟨(hopsThrough_worldInColumns _).indexed, ?_, by decide⟩
    intro c hc col hcol
    have hnames : ∀ c ∈ (worldInColumns "World$Inner").classes, ∀ col ∈ [0, 1, 2],
        (c.name col).any (fun name => !name.toList.contains ';') := by decide
    obtain ⟨name, hname, hclean⟩ := (Option.any_eq_true _ _).mp (hnames c hc col hcol)
    exact ⟨name, hname, by simpa using hclean⟩
  members := by
    intro c hc kind
    have hrow : ∀ r ∈ c.members kind,
        r = ⟨[some "c", some "method_3", some "tick"], some "(La;)V"⟩ := by
      intro r hr
      obtain ⟨row, hget⟩ := List.getElem?_of_mem hc
      have hms : membersIn (worldInColumns "World$Inner").classes row kind =
          some (c.members kind) := by
        rw [membersIn, hget]
        rfl
      exact (membersIn_worldInColumns hms hr).2.2
    refine ⟨?_, ?_, ?_, ?_⟩
    · intro r hr
      rw [hrow r hr]
      exact ⟨_, rfl⟩
    · intro r hr desc hdesc name hname hnone
      rw [hrow r hr] at hdesc
      cases hdesc
      have ha : name ∈ ["a"] := hname
      rw [List.mem_singleton.mp ha] at hnone
      exact absurd rfl (hnone 0)
    · intro r hr col hcol
      rw [hrow r hr]
      simp only [List.mem_cons, List.not_mem_nil, or_false] at hcol
      rcases hcol with rfl | rfl
      · exact ⟨_, rfl⟩
      · exact ⟨_, rfl⟩
    · have htold : ∀ c ∈ (worldInColumns "World$Inner").classes, ∀ kind ∈ [.field, .method],
          ∀ col ∈ [1, 2], ((c.members kind).map fun r => (r.name col, r.srcDesc)).Nodup := by decide
      exact htold c hc kind (by cases kind <;> decide)
  plain := by
    intro c hc r hr col hcol name hname
    have hplain : ∀ c ∈ (worldInColumns "World$Inner").classes, ∀ r ∈ c.methods,
        ∀ col ∈ [1, 2], (r.name col).all (fun name => !Text.startsWith "<" name) := by decide
    simpa [hname] using hplain c hc r hr col hcol

theorem returns_middleNode : (worldInColumns "World$Inner").Returns 1 2 middleNode where
  outside := by
    intro name hname hnone other hother row hrow
    have hnames : name ∈ ["class_1", "java/lang/Object", "class_1$class_2", "class_1", "class_1"] :=
      hname
    have hobject : name = "java/lang/Object" := by
      rcases List.mem_cons.mp hnames with rfl | hnames
      · exact absurd rfl (hnone 0)
      rcases List.mem_cons.mp hnames with rfl | hnames
      · rfl
      rcases List.mem_cons.mp hnames with rfl | hnames
      · exact absurd rfl (hnone 1)
      rw [show name = "class_1" by simpa using hnames] at hnone
      exact absurd rfl (hnone 0)
    have hother' : ∀ c ∈ (worldInColumns "World$Inner").classes, ∀ col ∈ [0, 1, 2],
        c.name col ≠ some "java/lang/Object" := by decide
    obtain ⟨c, hc, hcell⟩ := Option.bind_eq_some_iff.mp hrow
    rw [hobject] at hcell
    exact hother' c (List.mem_of_getElem? hc) other hother hcell
  strangers := by
    have hfields : middleNode.members .field = [] := rfl
    have hall : ∀ m ∈ middleNode.members .method,
        (∀ r ∈ (worldInColumns "World$Inner").rowsAt 1 middleNode.name .method,
          (worldInColumns "World$Inner").reads 1 m.name m.desc r = false) →
        ∀ r ∈ (worldInColumns "World$Inner").rowsAt 1 middleNode.name .method,
          (worldInColumns "World$Inner").reads 2 m.name
            (((worldInColumns "World$Inner").straight 1 2).mapDescriptor m.desc) r = false := by decide
    intro kind
    cases kind with
    | field =>
      intro m hm
      rw [hfields] at hm
      cases hm
    | method => exact hall

theorem a_nested_class_comes_back :
    (worldInColumns "World$Inner").Reversible 1 2 ∧
      (worldInColumns "World$Inner").Returns 1 2 middleNode ∧
      (∀ ic ∈ middleNode.innerClasses, ic.innerName = none ∨
        ('$' ∈ ic.name.toList ∧ ic.innerName = some (Text.afterLast '$' ic.name)) ∨
        ('$' ∉ ic.name.toList ∧
          '$' ∉ (((worldInColumns "World$Inner").straight 1 2).mapClassOrKeep ic.name).toList)) ∧
      ((worldInColumns "World$Inner").straight 2 1).remapNode
          (((worldInColumns "World$Inner").straight 1 2).remapNode middleNode) = middleNode := by
  refine ⟨reversible_worldInColumns, returns_middleNode, by decide, ?_⟩
  exact a_node_comes_back reversible_worldInColumns returns_middleNode (by decide)

end MappingTree

end JarDerivation
