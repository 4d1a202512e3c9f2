-- Two hops in place of one. A node that is renamed from the source column into a middle
-- column and from there into a last one gets the names that one hop from the source
-- column gives it, if the names of the middle column tell classes and members apart.
-- Only a simple name may differ: one that was taken from a full name of the middle
-- column stays if the full name of the last column has no `$`.
import JarDerivation.Proofs.Mapping.ClassIndex
import JarDerivation.Proofs.Remap.Node
import Mathlib.Data.List.Find

namespace JarDerivation

namespace MemberRow

/-- The name that a member row shows in a column: its name there, or else its source name. -/
def shown (r : MemberRow) (col : Nat) : Option String := (r.name col).or (r.name 0)

/-- Whether a row has a name in a column and a source descriptor. -/
def isAt (r : MemberRow) (col : Nat) (name desc : String) : Bool :=
  r.name col == some name && r.srcDesc == some desc

theorem isAt_iff {r : MemberRow} {col : Nat} {name desc : String} :
    r.isAt col name desc = true ↔ r.name col = some name ∧ r.srcDesc = some desc := by
  simp [isAt]

end MemberRow

namespace ClassNode

def members (c : ClassNode) : MemberKind → List MemberNode
  | .field => c.fields
  | .method => c.methods

theorem AllMentioned.members {c : ClassNode} {P : String → Prop} (h : c.AllMentioned P)
    {kind : MemberKind} {m : MemberNode} (hm : m ∈ c.members kind) :
    ∀ name ∈ Descriptor.classes m.desc, P name := by
  cases kind with
  | field => exact h.fields m hm
  | method => exact h.methods m hm

end ClassNode

namespace MappingTree

/-! ## The views of the hops -/

/-- The view of a hop from the source column. -/
def fromSource (t : MappingTree) (col : Nat) : MappingView := ⟨t, 0, 0, col⟩

/-- The view of a hop from a middle column; a symbol without a name there is looked up by
its source name. -/
def onward (t : MappingTree) (mid last : Nat) : MappingView := ⟨t, mid, 0, last⟩

/-- If a class has no name in the middle column, then no row has its source name there. -/
def Unmixed (t : MappingTree) (mid : Nat) (name : String) : Prop :=
  (t.fromSource mid).mapClass name = none → ∀ row, t.className row mid ≠ some name

/-- Member rows that two hops do not mix up. -/
structure MembersThrough (t : MappingTree) (mid last : Nat) (ms : List MemberRow) : Prop where
  described : ∀ r ∈ ms, ∃ desc, r.srcDesc = some desc
  unmixed : ∀ r ∈ ms, ∀ desc, r.srcDesc = some desc →
    ∀ name ∈ Descriptor.classes desc, t.Unmixed mid name
  named : ∀ r ∈ ms, r.name mid ≠ none → r.name last ≠ none
  told : ∀ r ∈ ms, ∀ r' ∈ ms, ∀ name, r.shown mid = some name → r'.shown mid = some name →
    r.srcDesc = r'.srcDesc → r = r'

/-- A tree whose middle column tells its classes and members apart and names nothing
that the last column does not name. -/
structure HopsThrough (t : MappingTree) (mid last : Nat) : Prop where
  indexed : t.Indexed
  clean : ∀ row name, t.className row mid = some name → ';' ∉ name.toList
  named : ∀ row, t.className row mid ≠ none → t.className row last ≠ none
  alone : ∀ row row' name, t.className row mid = some name → t.className row' mid = some name →
    row = row'
  members : ∀ row kind ms, membersIn t.classes row kind = some ms → t.MembersThrough mid last ms
  plain : ∀ row ms, membersIn t.classes row .method = some ms → ∀ r ∈ ms, ∀ name,
    r.name mid = some name → Text.startsWith "<" name = false

/-- The member rows of the class with a source name. -/
def rowsOf (t : MappingTree) (owner : String) (kind : MemberKind) : List MemberRow :=
  ((t.findClass owner 0).bind fun row => membersIn t.classes row kind).getD []

/-- A node whose class names the middle column does not mix up, and whose members without
a row do not look, in the middle column, like a row of their class. -/
structure Crosses (t : MappingTree) (mid : Nat) (c : ClassNode) : Prop where
  unmixed : ∀ name ∈ c.mentioned, t.Unmixed mid name
  strangers : ∀ kind, ∀ m ∈ c.members kind,
    (∀ r ∈ t.rowsOf c.name kind, r.name 0 = some m.name → r.srcDesc ≠ some m.desc) →
    ∀ r ∈ t.rowsOf c.name kind, r.shown mid = some m.name →
      r.srcDesc.map (t.fromSource mid).mapDescriptor ≠
        some ((t.fromSource mid).mapDescriptor m.desc)

variable {t : MappingTree} {mid last col row : Nat} {name : String}

/-! ## Classes -/

theorem className_of_findClass (ht : t.Indexed) (h : t.findClass name col = some row) :
    t.className row col = some name := by
  rw [ht] at h
  exact (firstHolder_eq_some.mp h).1

theorem findClass_eq_none (ht : t.Indexed) (h : ∀ row, t.className row col ≠ some name) :
    t.findClass name col = none := by
  rw [ht]
  exact firstHolder_eq_none.mpr h

theorem HopsThrough.findClass_mid (ht : t.HopsThrough mid last)
    (h : t.className row mid = some name) : t.findClass name mid = some row := by
  cases hfind : t.findClass name mid with
  | none =>
    rw [ht.indexed] at hfind
    exact absurd h (firstHolder_eq_none.mp hfind row)
  | some first =>
    have hfirst := className_of_findClass ht.indexed hfind
    rw [ht.alone first row name hfirst h]

theorem classRow_fromSource (t : MappingTree) (col : Nat) (name : String) :
    (t.fromSource col).classRow name = t.findClass name 0 := Option.or_self

theorem mapClass_fromSource (t : MappingTree) (col : Nat) (name : String) :
    (t.fromSource col).mapClass name = (t.findClass name 0).bind (t.className · col) := by
  unfold MappingView.mapClass
  rw [classRow_fromSource]
  rfl

theorem mapClassOrKeep_fromSource (t : MappingTree) (col : Nat) (name : String) :
    (t.fromSource col).mapClassOrKeep name =
      ((t.findClass name 0).bind (t.className · col)).getD name := by
  unfold MappingView.mapClassOrKeep
  rw [mapClass_fromSource]

/-- The second hop finds the row that the class had before the first one. -/
theorem HopsThrough.classRow_onward (ht : t.HopsThrough mid last) (h : t.Unmixed mid name) :
    (t.onward mid last).classRow ((t.fromSource mid).mapClassOrKeep name) =
      t.findClass name 0 := by
  have hkept : (t.fromSource mid).mapClass name = none →
      (t.onward mid last).classRow ((t.fromSource mid).mapClassOrKeep name) =
        t.findClass name 0 := by
    intro hnone
    unfold MappingView.mapClassOrKeep MappingView.classRow
    rw [hnone, Option.getD_none, show (t.onward mid last).source = mid from rfl,
      show (t.onward mid last).tree = t from rfl, findClass_eq_none ht.indexed (h hnone)]
    rfl
  cases hmap : (t.fromSource mid).mapClass name with
  | none => exact hkept hmap
  | some new =>
    rw [mapClass_fromSource] at hmap
    obtain ⟨row, hrow, hnew⟩ := Option.bind_eq_some_iff.mp hmap
    rw [mapClassOrKeep_fromSource, hmap, hrow, Option.getD_some]
    unfold MappingView.classRow
    rw [show (t.onward mid last).source = mid from rfl, show (t.onward mid last).tree = t from rfl,
      ht.findClass_mid hnew]
    rfl

theorem HopsThrough.mapClassOrKeep_onward (ht : t.HopsThrough mid last) (h : t.Unmixed mid name) :
    (t.onward mid last).mapClassOrKeep ((t.fromSource mid).mapClassOrKeep name) =
      (t.fromSource last).mapClassOrKeep name := by
  have hmap : (t.onward mid last).mapClass ((t.fromSource mid).mapClassOrKeep name) =
      (t.findClass name 0).bind (t.className · last) := by
    unfold MappingView.mapClass
    rw [ht.classRow_onward h]
    rfl
  rw [MappingView.mapClassOrKeep, hmap, mapClassOrKeep_fromSource, mapClassOrKeep_fromSource]
  cases hrow : t.findClass name 0 with
  | none => rfl
  | some row =>
    simp only [Option.bind_some]
    cases hlast : t.className row last with
    | some new => rfl
    | none =>
      have hmid : t.className row mid = none := by
        cases hname : t.className row mid with
        | none => rfl
        | some new => exact absurd hlast (ht.named row (by simp [hname]))
      simp [hmid]

theorem HopsThrough.map_onward (ht : t.HopsThrough mid last) {o : Option String}
    (h : ∀ name, o = some name → t.Unmixed mid name) :
    (o.map (t.fromSource mid).mapClassOrKeep).map (t.onward mid last).mapClassOrKeep =
      o.map (t.fromSource last).mapClassOrKeep := by
  cases o with
  | none => rfl
  | some name => simp [ht.mapClassOrKeep_onward (h name rfl)]

/-! ## Descriptors -/

theorem HopsThrough.clean_mapClass (ht : t.HopsThrough mid last) :
    Descriptor.Clean (t.fromSource mid).mapClass := by
  intro name new hnew
  rw [mapClass_fromSource] at hnew
  obtain ⟨row, _, hname⟩ := Option.bind_eq_some_iff.mp hnew
  exact ht.clean row new hname

theorem HopsThrough.mapDescriptor_onward (ht : t.HopsThrough mid last) {desc : String}
    (h : ∀ name ∈ Descriptor.classes desc, t.Unmixed mid name) :
    (t.onward mid last).mapDescriptor ((t.fromSource mid).mapDescriptor desc) =
      (t.fromSource last).mapDescriptor desc :=
  Descriptor.rename_rename ht.clean_mapClass fun name hname =>
    ht.mapClassOrKeep_onward (h name hname)

/-- Two classes with the same name after the first hop are one class. -/
theorem HopsThrough.mapClassOrKeep_injective (ht : t.HopsThrough mid last) {name name' : String}
    (h : t.Unmixed mid name) (h' : t.Unmixed mid name')
    (heq : (t.fromSource mid).mapClassOrKeep name = (t.fromSource mid).mapClassOrKeep name') :
    name = name' := by
  have hrows : t.findClass name 0 = t.findClass name' 0 := by
    rw [← ht.classRow_onward h, ← ht.classRow_onward h', heq]
  cases hrow : t.findClass name 0 with
  | none =>
    rw [mapClassOrKeep_fromSource, mapClassOrKeep_fromSource, ← hrows, hrow] at heq
    exact heq
  | some row =>
    have hname := className_of_findClass ht.indexed hrow
    have hname' := className_of_findClass ht.indexed (hrows ▸ hrow)
    exact Option.some.inj (hname.symm.trans hname')

theorem HopsThrough.mapDescriptor_injective (ht : t.HopsThrough mid last) {desc desc' : String}
    (h : ∀ name ∈ Descriptor.classes desc, t.Unmixed mid name)
    (h' : ∀ name ∈ Descriptor.classes desc', t.Unmixed mid name)
    (heq : (t.fromSource mid).mapDescriptor desc = (t.fromSource mid).mapDescriptor desc') :
    desc = desc' :=
  Descriptor.rename_injective ht.clean_mapClass (fun name hname name' hname' =>
    ht.mapClassOrKeep_injective (h name hname) (h' name' hname')) heq

/-- From the source column a descriptor reads as it is. -/
theorem callerDescriptor_fromSource (ht : t.Indexed) (col : Nat) (desc : String) :
    (t.fromSource col).callerDescriptor desc = desc := by
  apply Descriptor.rename_eq_self
  intro name _
  unfold Descriptor.newName
  cases hrow : t.findClass name 0 with
  | none => simp [fromSource, hrow]
  | some row =>
    have hname := className_of_findClass ht hrow
    simp [fromSource, hrow, hname]

/-- From the middle column a descriptor reads as the first hop has left it. -/
theorem callerDescriptor_onward (ht : t.Indexed) (mid last : Nat) (desc : String) :
    (t.onward mid last).callerDescriptor desc = (t.fromSource mid).mapDescriptor desc := by
  apply Descriptor.rename_congr
  intro name _
  unfold Descriptor.newName
  rw [mapClass_fromSource]
  cases hrow : t.findClass name 0 with
  | none => simp [onward, hrow]
  | some row =>
    have hname := className_of_findClass ht hrow
    cases hmid : t.className row mid with
    | none => simp [onward, hrow, hname, hmid]
    | some new => simp [onward, hrow, hmid]

/-! ## Members -/

theorem matchesMember_fromSource (ht : t.Indexed) (col : Nat) {r : MemberRow}
    (hr : ∃ desc, r.srcDesc = some desc) (name desc : String) :
    (t.fromSource col).matchesMember name (some desc) 0 r = r.isAt 0 name desc := by
  obtain ⟨own, hown⟩ := hr
  unfold MappingView.matchesMember MemberRow.isAt
  rw [hown, Option.map_some, callerDescriptor_fromSource ht]
  simp [descAgrees, BEq.comm]

theorem HopsThrough.matchesMember_onward (ht : t.HopsThrough mid last) {ms : List MemberRow}
    (hms : t.MembersThrough mid last ms) {r : MemberRow} (hr : r ∈ ms) (col : Nat) (name : String)
    {desc : String} (h : ∀ name ∈ Descriptor.classes desc, t.Unmixed mid name) :
    (t.onward mid last).matchesMember name (some ((t.fromSource mid).mapDescriptor desc)) col r =
      r.isAt col name desc := by
  obtain ⟨own, hown⟩ := hms.described r hr
  unfold MappingView.matchesMember MemberRow.isAt
  rw [hown, Option.map_some, callerDescriptor_onward ht.indexed]
  have hsame : ((t.fromSource mid).mapDescriptor desc == (t.fromSource mid).mapDescriptor own) =
      (own == desc) := by
    rw [Bool.eq_iff_iff, beq_iff_eq, beq_iff_eq]
    exact ⟨fun heq => (ht.mapDescriptor_injective h (hms.unmixed r hr own hown) heq).symm,
      fun heq => by rw [heq]⟩
  simp [descAgrees, hsame]

/-- A view looks a member up among the member rows of the class row that it finds. -/
theorem mapMember_eq (v : MappingView) (kind : MemberKind) (owner name : String)
    (desc : Option String) :
    v.mapMember kind owner name desc =
      let ms := ((v.classRow owner).bind fun row => membersIn v.tree.classes row kind).getD []
      ((ms.find? (v.matchesMember name desc v.source)).or
        (ms.find? (v.matchesMember name desc v.fallback))).bind (·.name v.target) := by
  unfold MappingView.mapMember membersIn
  cases v.classRow owner with
  | none => rfl
  | some row =>
    cases hc : v.tree.classes[row]? with
    | none => simp [hc]
    | some c => simp [hc]

theorem HopsThrough.rowsOf (ht : t.HopsThrough mid last) (owner : String) (kind : MemberKind) :
    t.MembersThrough mid last (t.rowsOf owner kind) := by
  unfold MappingTree.rowsOf
  cases hms : (t.findClass owner 0).bind fun row => membersIn t.classes row kind with
  | none => exact ⟨by simp, by simp, by simp, by simp⟩
  | some ms =>
    obtain ⟨row, _, hrow⟩ := Option.bind_eq_some_iff.mp hms
    exact ht.members row kind ms hrow

theorem HopsThrough.mapMember_fromSource (ht : t.HopsThrough mid last) (col : Nat)
    (kind : MemberKind) (owner name desc : String) :
    (t.fromSource col).mapMember kind owner name (some desc) =
      ((t.rowsOf owner kind).find? (·.isAt 0 name desc)).bind (·.name col) := by
  rw [mapMember_eq, classRow_fromSource]
  have hfind : (t.rowsOf owner kind).find?
      ((t.fromSource col).matchesMember name (some desc) 0) =
        (t.rowsOf owner kind).find? (·.isAt 0 name desc) :=
    List.find?_congr fun r hr =>
      matchesMember_fromSource ht.indexed col ((ht.rowsOf owner kind).described r hr) name desc
  rw [← hfind]
  exact congrArg (Option.bind · _) Option.or_self

theorem HopsThrough.mapMember_onward (ht : t.HopsThrough mid last) (kind : MemberKind)
    {owner desc : String} (howner : t.Unmixed mid owner) (name : String)
    (hdesc : ∀ name ∈ Descriptor.classes desc, t.Unmixed mid name) :
    (t.onward mid last).mapMember kind ((t.fromSource mid).mapClassOrKeep owner) name
        (some ((t.fromSource mid).mapDescriptor desc)) =
      (((t.rowsOf owner kind).find? (·.isAt mid name desc)).or
        ((t.rowsOf owner kind).find? (·.isAt 0 name desc))).bind (·.name last) := by
  rw [mapMember_eq, ht.classRow_onward howner]
  have hfind : ∀ col, (t.rowsOf owner kind).find? ((t.onward mid last).matchesMember name
      (some ((t.fromSource mid).mapDescriptor desc)) col) =
        (t.rowsOf owner kind).find? (·.isAt col name desc) := fun col =>
    List.find?_congr fun r hr =>
      ht.matchesMember_onward (ht.rowsOf owner kind) hr col name hdesc
  rw [← hfind, ← hfind]
  rfl

/-- The row that a member has before the first hop is the one that the second hop finds. -/
theorem MembersThrough.name_onward {ms : List MemberRow} (h : t.MembersThrough mid last ms)
    {name desc : String}
    (hstranger : (∀ r ∈ ms, r.name 0 = some name → r.srcDesc ≠ some desc) →
      ∀ r ∈ ms, r.shown mid = some name → r.srcDesc ≠ some desc) {new : String}
    (hnew : new = ((ms.find? (·.isAt 0 name desc)).bind (·.name mid)).getD name) :
    (((ms.find? (·.isAt mid new desc)).or (ms.find? (·.isAt 0 new desc))).bind
        (·.name last)).getD new =
      ((ms.find? (·.isAt 0 name desc)).bind (·.name last)).getD name := by
  cases hfound : ms.find? (·.isAt 0 name desc) with
  | none =>
    have hsame : new = name := by rw [hnew, hfound]; rfl
    have hno : ∀ r ∈ ms, r.name 0 = some name → r.srcDesc ≠ some desc := by
      intro r hr hname hdesc
      exact List.find?_eq_none.mp hfound r hr (MemberRow.isAt_iff.mpr ⟨hname, hdesc⟩)
    have hmid : ms.find? (·.isAt mid name desc) = none := by
      apply List.find?_eq_none.mpr
      intro r hr hat
      obtain ⟨hname, hdesc⟩ := MemberRow.isAt_iff.mp hat
      exact hstranger hno r hr (by simp [MemberRow.shown, hname]) hdesc
    rw [hsame, hmid, hfound]
    rfl
  | some r =>
    have hr := List.mem_of_find?_eq_some hfound
    have hat : r.isAt 0 name desc = true := by simpa using List.find?_some hfound
    obtain ⟨hname, hdesc⟩ := MemberRow.isAt_iff.mp hat
    have honly : ∀ r' ∈ ms, ∀ shown, r.shown mid = some shown →
        r'.isAt mid shown desc = true → r' = r := by
      intro r' hr' shown hshown hat
      obtain ⟨hname', hdesc'⟩ := MemberRow.isAt_iff.mp hat
      exact h.told r' hr' r hr shown (by simp [MemberRow.shown, hname']) hshown
        (hdesc'.trans hdesc.symm)
    cases hmid : r.name mid with
    | some shown =>
      have hsame : new = shown := by rw [hnew, hfound, Option.bind_some, hmid]; rfl
      have hsecond : ms.find? (·.isAt mid shown desc) = some r := by
        cases hfind : ms.find? (·.isAt mid shown desc) with
        | none =>
          exact absurd (MemberRow.isAt_iff.mpr ⟨hmid, hdesc⟩) (List.find?_eq_none.mp hfind r hr)
        | some r' =>
          have hat' : r'.isAt mid shown desc = true := by simpa using List.find?_some hfind
          rw [honly r' (List.mem_of_find?_eq_some hfind) shown (by simp [MemberRow.shown, hmid])
            hat']
      obtain ⟨final, hfinal⟩ := Option.ne_none_iff_exists'.mp (h.named r hr (by simp [hmid]))
      rw [hsame, hsecond]
      simp [hfinal]
    | none =>
      have hsame : new = name := by rw [hnew, hfound, Option.bind_some, hmid]; rfl
      have hnone : ms.find? (·.isAt mid name desc) = none := by
        apply List.find?_eq_none.mpr
        intro r' hr' hat
        have heq := honly r' hr' name (by simp [MemberRow.shown, hmid, hname]) hat
        have hname' := (MemberRow.isAt_iff.mp hat).1
        rw [heq, hmid] at hname'
        cases hname'
      rw [hsame, hnone, hfound]
      rfl

theorem HopsThrough.memberName_onward (ht : t.HopsThrough mid last) {c : ClassNode}
    (hc : t.Crosses mid c) {kind : MemberKind} {m : MemberNode} (hm : m ∈ c.members kind)
    {new : String}
    (hnew : new = ((t.fromSource mid).mapMember kind c.name m.name (some m.desc)).getD m.name) :
    ((t.onward mid last).mapMember kind ((t.fromSource mid).mapClassOrKeep c.name) new
        (some ((t.fromSource mid).mapDescriptor m.desc))).getD new =
      ((t.fromSource last).mapMember kind c.name m.name (some m.desc)).getD m.name := by
  have hall := ClassNode.allMentioned hc.unmixed
  rw [ht.mapMember_onward kind hall.own new (hall.members hm), ht.mapMember_fromSource]
  rw [ht.mapMember_fromSource] at hnew
  refine (ht.rowsOf c.name kind).name_onward ?_ hnew
  intro hno r hr hshown hdesc
  apply hc.strangers kind m hm hno r hr hshown
  rw [hdesc, Option.map_some]

/-- A method gets no name from the first hop that the second one would leave alone. -/
theorem HopsThrough.plain_name (ht : t.HopsThrough mid last) {owner name desc : String}
    (hname : Text.startsWith "<" name = false) :
    Text.startsWith "<"
      (((t.fromSource mid).mapMember .method owner name (some desc)).getD name) = false := by
  cases hnew : (t.fromSource mid).mapMember .method owner name (some desc) with
  | none => exact hname
  | some new =>
    rw [ht.mapMember_fromSource] at hnew
    obtain ⟨r, hfind, hrname⟩ := Option.bind_eq_some_iff.mp hnew
    have hr := List.mem_of_find?_eq_some hfind
    unfold MappingTree.rowsOf at hr
    cases hms : (t.findClass owner 0).bind fun row => membersIn t.classes row .method with
    | none =>
      rw [hms] at hr
      cases hr
    | some ms =>
      rw [hms] at hr
      obtain ⟨row, _, hrow⟩ := Option.bind_eq_some_iff.mp hms
      exact ht.plain row ms hrow r hr new hrname

theorem HopsThrough.remapMember_onward (ht : t.HopsThrough mid last) {m : MemberNode}
    (hdesc : ∀ name ∈ Descriptor.classes m.desc, t.Unmixed mid name)
    {first second direct : Option String}
    (hname : second.getD (first.getD m.name) = direct.getD m.name) :
    (t.onward mid last).remapMember ((t.fromSource mid).remapMember m first) second =
      (t.fromSource last).remapMember m direct := by
  unfold MappingView.remapMember
  simp only [hname, ht.mapDescriptor_onward hdesc]

theorem HopsThrough.remapField_onward (ht : t.HopsThrough mid last) {c : ClassNode}
    (hc : t.Crosses mid c) {m : MemberNode} (hm : m ∈ c.fields) :
    (t.onward mid last).remapField ((t.fromSource mid).mapClassOrKeep c.name)
        ((t.fromSource mid).remapField c.name m) = (t.fromSource last).remapField c.name m :=
  ht.remapMember_onward ((ClassNode.allMentioned hc.unmixed).fields m hm)
    (ht.memberName_onward hc (show m ∈ c.members .field from hm) rfl)

theorem HopsThrough.remapMethod_onward (ht : t.HopsThrough mid last) {c : ClassNode}
    (hc : t.Crosses mid c) {m : MemberNode} (hm : m ∈ c.methods) :
    (t.onward mid last).remapMethod ((t.fromSource mid).mapClassOrKeep c.name)
        ((t.fromSource mid).remapMethod c.name m) = (t.fromSource last).remapMethod c.name m := by
  apply ht.remapMember_onward ((ClassNode.allMentioned hc.unmixed).methods m hm)
  cases hname : Text.startsWith "<" m.name with
  | true => simp [MappingView.remapMethod, MappingView.remapMember, hname]
  | false =>
    have hplain : Text.startsWith "<" (((t.fromSource mid).mapMember .method c.name m.name
        (some m.desc)).getD m.name) = false := ht.plain_name hname
    simp only [MappingView.remapMethod, MappingView.remapMember, hname, MappingView.mapMethod,
      Bool.false_eq_true, if_false, hplain]
    exact ht.memberName_onward hc (show m ∈ c.members .method from hm) rfl

/-! ## Records -/

/-- The simple name of a record after two hops: it is taken from the last full name that
has a `$`. -/
theorem simpleBeside_twice {middle final simple : String} :
    InnerClass.simpleBeside final (InnerClass.simpleBeside middle simple) =
        InnerClass.simpleBeside final simple ↔
      ('$' ∈ middle.toList → '$' ∉ final.toList → simple = Text.afterLast '$' middle) := by
  by_cases hfinal : '$' ∈ final.toList
  · simp [InnerClass.simpleBeside_of_mem hfinal, hfinal]
  · rw [InnerClass.simpleBeside_of_notMem hfinal, InnerClass.simpleBeside_of_notMem hfinal,
      InnerClass.simpleBeside_eq_self]
    exact ⟨fun h hmem _ => h hmem, fun h hmem => h hmem hfinal⟩

theorem HopsThrough.remapInner_onward (ht : t.HopsThrough mid last) {ic : InnerClass}
    (hname : t.Unmixed mid ic.name)
    (houter : ∀ name, ic.outerName = some name → t.Unmixed mid name) :
    (t.onward mid last).remapInner ((t.fromSource mid).remapInner ic) =
        (t.fromSource last).remapInner ic ↔
      ∀ simple, ic.innerName = some simple →
        '$' ∈ ((t.fromSource mid).mapClassOrKeep ic.name).toList →
        '$' ∉ ((t.fromSource last).mapClassOrKeep ic.name).toList →
        simple = Text.afterLast '$' ((t.fromSource mid).mapClassOrKeep ic.name) := by
  unfold MappingView.remapInner
  simp only [ht.mapClassOrKeep_onward hname, ht.map_onward houter, InnerClass.mk.injEq, true_and,
    and_true]
  cases hs : ic.innerName with
  | none => simp
  | some simple =>
    simp only [Option.map_some, Option.some.injEq, forall_eq']
    exact simpleBeside_twice

/-! ## The hops -/

/-- A node that crosses a middle column is what one hop makes of it just when no record
keeps a simple name of the middle column: each with a `$` in its full name there and none
in the last one has had the simple name from the start. -/
theorem two_hops_are_one_just_when_no_simple_name_is_left_behind (ht : t.HopsThrough mid last)
    {c : ClassNode} (hc : t.Crosses mid c) :
    (t.onward mid last).remapNode ((t.fromSource mid).remapNode c) =
        (t.fromSource last).remapNode c ↔
      ∀ ic ∈ c.innerClasses, ∀ simple, ic.innerName = some simple →
        '$' ∈ ((t.fromSource mid).mapClassOrKeep ic.name).toList →
        '$' ∉ ((t.fromSource last).mapClassOrKeep ic.name).toList →
        simple = Text.afterLast '$' ((t.fromSource mid).mapClassOrKeep ic.name) := by
  have hall := ClassNode.allMentioned hc.unmixed
  have hinterfaces : (c.interfaces.map (t.fromSource mid).mapClassOrKeep).map
      (t.onward mid last).mapClassOrKeep = c.interfaces.map (t.fromSource last).mapClassOrKeep := by
    rw [List.map_map]
    exact List.map_congr_left fun name hmem => ht.mapClassOrKeep_onward (hall.interfaces name hmem)
  have hfields : (c.fields.map ((t.fromSource mid).remapField c.name)).map
      ((t.onward mid last).remapField ((t.fromSource mid).mapClassOrKeep c.name)) =
        c.fields.map ((t.fromSource last).remapField c.name) := by
    rw [List.map_map]
    exact List.map_congr_left fun m hm => ht.remapField_onward hc hm
  have hmethods : (c.methods.map ((t.fromSource mid).remapMethod c.name)).map
      ((t.onward mid last).remapMethod ((t.fromSource mid).mapClassOrKeep c.name)) =
        c.methods.map ((t.fromSource last).remapMethod c.name) := by
    rw [List.map_map]
    exact List.map_congr_left fun m hm => ht.remapMethod_onward hc hm
  unfold MappingView.remapNode
  simp only [ht.mapClassOrKeep_onward hall.own, ht.map_onward hall.superName, hinterfaces, hfields,
    hmethods, ht.map_onward hall.outerClass, ClassNode.mk.injEq, true_and, and_true, List.map_map]
  rw [List.map_inj_left]
  constructor
  · intro h ic hic
    exact (ht.remapInner_onward (hall.inner ic hic) (hall.outer ic hic)).mp (h ic hic)
  · intro h ic hic
    exact (ht.remapInner_onward (hall.inner ic hic) (hall.outer ic hic)).mpr (h ic hic)

/-- A class with a method and a class inside it, in three columns. `inner` is the name of
the inner class in the last one. -/
def worldInColumns (inner : String) : MappingTree :=
  rebuildIndex ⟨["official", "intermediary", "named"],
    [⟨[some "a", some "class_1", some "World"], [],
        [⟨[some "c", some "method_3", some "tick"], some "(La;)V"⟩]⟩,
      ⟨[some "a$b", some "class_1$class_2", some inner], [], []⟩], []⟩

theorem className_worldInColumns {inner : String}
    (h : (worldInColumns inner).className row 1 = some name) :
    row = 0 ∧ name = "class_1" ∨ row = 1 ∧ name = "class_1$class_2" := by
  rcases row with _ | _ | row
  · exact Or.inl ⟨rfl, (Option.some.inj h).symm⟩
  · exact Or.inr ⟨rfl, (Option.some.inj h).symm⟩
  · cases h

theorem membersIn_worldInColumns {inner : String} {kind : MemberKind} {ms : List MemberRow}
    (h : membersIn (worldInColumns inner).classes row kind = some ms) {r : MemberRow}
    (hr : r ∈ ms) :
    row = 0 ∧ kind = .method ∧
      r = ⟨[some "c", some "method_3", some "tick"], some "(La;)V"⟩ := by
  rcases row with _ | _ | row
  · cases kind with
    | field =>
      cases h
      cases hr
    | method =>
      cases h
      exact ⟨rfl, rfl, List.mem_singleton.mp hr⟩
  · cases kind with
    | field =>
      cases h
      cases hr
    | method =>
      cases h
      cases hr
  · cases h

theorem unmixed_worldInColumns (inner : String) (h : name ≠ "class_1")
    (h' : name ≠ "class_1$class_2") :
    (worldInColumns inner).Unmixed 1 name := by
  intro _ row hrow
  rcases className_worldInColumns hrow with ⟨_, hname⟩ | ⟨_, hname⟩
  · exact h hname
  · exact h' hname

theorem hopsThrough_worldInColumns (inner : String) : (worldInColumns inner).HopsThrough 1 2 where
  indexed := by
    apply indexed_rebuildIndex
    intro row col hcol
    obtain ⟨k, rfl⟩ := Nat.exists_eq_add_of_le' hcol
    rcases row with _ | _ | row
    · rfl
    · rfl
    · rfl
  clean := by
    intro row name hname
    rcases className_worldInColumns hname with ⟨_, rfl⟩ | ⟨_, rfl⟩
    · decide
    · decide
  named := by
    intro row hmid
    obtain ⟨name, hname⟩ := Option.ne_none_iff_exists'.mp hmid
    rcases className_worldInColumns hname with ⟨rfl, _⟩ | ⟨rfl, _⟩
    · exact Option.some_ne_none "World"
    · exact Option.some_ne_none inner
  alone := by
    intro row row' name hname hname'
    rcases className_worldInColumns hname with ⟨hrow, hsame⟩ | ⟨hrow, hsame⟩
    · rcases className_worldInColumns hname' with ⟨hrow', _⟩ | ⟨_, hsame'⟩
      · rw [hrow, hrow']
      · rw [hsame] at hsame'
        exact absurd hsame' (by decide)
    · rcases className_worldInColumns hname' with ⟨_, hsame'⟩ | ⟨hrow', _⟩
      · rw [hsame] at hsame'
        exact absurd hsame' (by decide)
      · rw [hrow, hrow']
  members := by
    intro row kind ms hms
    refine ⟨?_, ?_, ?_, ?_⟩
    · intro r hr
      obtain ⟨_, _, rfl⟩ := membersIn_worldInColumns hms hr
      exact ⟨_, rfl⟩
    · intro r hr desc hdesc name hname
      obtain ⟨_, _, rfl⟩ := membersIn_worldInColumns hms hr
      cases hdesc
      have ha : name ∈ ["a"] := hname
      rw [List.mem_singleton.mp ha]
      exact unmixed_worldInColumns inner (by decide) (by decide)
    · intro r hr _
      obtain ⟨_, _, rfl⟩ := membersIn_worldInColumns hms hr
      exact Option.some_ne_none "tick"
    · intro r hr r' hr' _ _ _ _
      obtain ⟨_, _, rfl⟩ := membersIn_worldInColumns hms hr
      exact (membersIn_worldInColumns hms hr').2.2.symm
  plain := by
    intro row ms hms r hr name hname
    obtain ⟨_, _, rfl⟩ := membersIn_worldInColumns hms hr
    cases hname
    decide

/-- The class of `worldInColumns` in the first column, with a record of its inner class. -/
def worldNode : ClassNode :=
  { access := 0, name := "a", superName := some "java/lang/Object", interfaces := []
    fields := [], methods := [⟨1, "c", "(La;)V", none, none⟩, ⟨1, "<init>", "()V", none, none⟩]
    innerClasses := [⟨"a$b", some "a", some "b", 0⟩], outerClass := none, side := none }

theorem crosses_worldNode (inner : String) : (worldInColumns inner).Crosses 1 worldNode where
  unmixed := by
    intro name hname
    have hnames : name ∈ ["a", "java/lang/Object", "a$b", "a", "a"] := hname
    apply unmixed_worldInColumns inner
    · rintro rfl
      exact absurd hnames (by decide)
    · rintro rfl
      exact absurd hnames (by decide)
  strangers := by
    intro kind m hm _ r hr hshown
    cases kind with
    | field => cases hm
    | method =>
      have hrow : r ∈ [⟨[some "c", some "method_3", some "tick"], some "(La;)V"⟩] := hr
      rw [List.mem_singleton.mp hrow] at hshown
      have hname : "method_3" = m.name := Option.some.inj hshown
      have hm' : m ∈ worldNode.methods := hm
      rcases List.mem_cons.mp hm' with rfl | hm'
      · exact absurd hname (by decide)
      · rw [List.mem_singleton.mp hm'] at hname
        exact absurd hname (by decide)

theorem two_hops_reach_a_nested_name :
    (worldInColumns "World$Inner").HopsThrough 1 2 ∧
      (worldInColumns "World$Inner").Crosses 1 worldNode ∧
      ((worldInColumns "World$Inner").onward 1 2).remapNode
          (((worldInColumns "World$Inner").fromSource 1).remapNode worldNode) =
        ((worldInColumns "World$Inner").fromSource 2).remapNode worldNode := by
  refine ⟨hopsThrough_worldInColumns _, crosses_worldNode _, ?_⟩
  apply (two_hops_are_one_just_when_no_simple_name_is_left_behind (hopsThrough_worldInColumns _)
    (crosses_worldNode _)).mpr
  decide

/-- A simple name of the middle column can be left behind, also if no two rows agree in
what they are called. -/
theorem two_hops_are_not_always_one :
    ¬ ∀ (t : MappingTree) (mid last : Nat) (c : ClassNode), mid ≠ 0 → last ≠ 0 → mid ≠ last →
      t.HopsThrough mid last → t.Crosses mid c →
      (∀ row col name, t.className row col = some name → ';' ∉ name.toList) →
      (∀ row kind ms, membersIn t.classes row kind = some ms →
        (ms.map fun r => (r.name 0, r.srcDesc)).Nodup ∧
          (ms.map fun r => (r.shown mid, r.srcDesc)).Nodup) →
      (t.onward mid last).remapNode ((t.fromSource mid).remapNode c) =
        (t.fromSource last).remapNode c := by
  intro hall
  have hclean : ∀ row col name, (worldInColumns "Nested").className row col = some name →
      ';' ∉ name.toList := by
    intro row col name hname
    rcases row with _ | _ | row
    · rcases col with _ | _ | _ | col <;> cases hname <;> decide
    · rcases col with _ | _ | _ | col <;> cases hname <;> decide
    · cases hname
  have hrows : ∀ row kind ms, membersIn (worldInColumns "Nested").classes row kind = some ms →
      (ms.map fun r => (r.name 0, r.srcDesc)).Nodup ∧
        (ms.map fun r => (r.shown 1, r.srcDesc)).Nodup := by
    intro row kind ms hms
    rcases row with _ | _ | row
    · cases kind <;> cases hms <;> decide
    · cases kind <;> cases hms <;> decide
    · cases hms
  have hsame := hall (worldInColumns "Nested") 1 2 worldNode (by decide) (by decide) (by decide)
    (hopsThrough_worldInColumns _) (crosses_worldNode _) hclean hrows
  -- over two hops the simple name is `class_2`, over one it is `b`
  have hinner := congrArg (fun c => c.innerClasses.map InnerClass.innerName) hsame
  exact absurd hinner (by decide)

end MappingTree

end JarDerivation
