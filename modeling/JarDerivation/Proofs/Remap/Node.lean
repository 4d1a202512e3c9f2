-- The laws of renaming a class node. A view that knows no class that the node mentions
-- leaves all of it as it is, but for the simple names in its records: these are taken
-- from the full names anew, whether or not the full names have changed.
import JarDerivation.Proofs.Remap.Descriptor
import JarDerivation.Proofs.Text.Split
import JarDerivation.Remap.Node

namespace JarDerivation

/-! ## What a node mentions -/

def MemberNode.mentioned (m : MemberNode) : List String := Descriptor.classes m.desc

def InnerClass.mentioned (ic : InnerClass) : List String := ic.name :: ic.outerName.toList

namespace ClassNode

/-- The names of all classes that stand in a node. -/
def mentioned (c : ClassNode) : List String :=
  c.name :: c.superName.toList ++ c.interfaces ++ c.outerClass.toList ++
    c.innerClasses.flatMap InnerClass.mentioned ++
    c.fields.flatMap MemberNode.mentioned ++ c.methods.flatMap MemberNode.mentioned

/-- A statement about all classes that a node mentions, part by part. -/
structure AllMentioned (c : ClassNode) (P : String → Prop) : Prop where
  own : P c.name
  superName : ∀ name, c.superName = some name → P name
  interfaces : ∀ name ∈ c.interfaces, P name
  outerClass : ∀ name, c.outerClass = some name → P name
  inner : ∀ ic ∈ c.innerClasses, P ic.name
  outer : ∀ ic ∈ c.innerClasses, ∀ name, ic.outerName = some name → P name
  fields : ∀ m ∈ c.fields, ∀ name ∈ Descriptor.classes m.desc, P name
  methods : ∀ m ∈ c.methods, ∀ name ∈ Descriptor.classes m.desc, P name

theorem allMentioned {c : ClassNode} {P : String → Prop} (h : ∀ name ∈ c.mentioned, P name) :
    c.AllMentioned P where
  own := h _ (by simp [mentioned])
  superName name hname := h _ (by simp [mentioned, hname])
  interfaces name hname := h _ (by simp [mentioned, hname])
  outerClass name hname := h _ (by simp [mentioned, hname])
  inner ic hic := h _ (by
    simp only [mentioned, List.mem_append, List.mem_flatMap]
    exact Or.inl (Or.inl (Or.inr ⟨ic, hic, List.mem_cons_self⟩)))
  outer ic hic name hname := h _ (by
    simp only [mentioned, List.mem_append, List.mem_flatMap]
    exact Or.inl (Or.inl (Or.inr ⟨ic, hic, by simp [InnerClass.mentioned, hname]⟩)))
  fields m hm name hname := h _ (by
    simp only [mentioned, List.mem_append, List.mem_flatMap]
    exact Or.inl (Or.inr ⟨m, hm, hname⟩))
  methods m hm name hname := h _ (by
    simp only [mentioned, List.mem_append, List.mem_flatMap]
    exact Or.inr ⟨m, hm, hname⟩)

end ClassNode

/-! ## Simple names -/

namespace InnerClass

/-- The simple name that a record gets beside a full name. Without a `$` in the full
name it keeps its own. -/
def simpleBeside (name simple : String) : String :=
  ((Text.splitLast? '$' name).map (·.2)).getD simple

theorem simpleBeside_of_notMem {name : String} (h : '$' ∉ name.toList) (simple : String) :
    simpleBeside name simple = simple := by
  unfold simpleBeside
  rw [Text.splitLast?_eq_none.mpr h]
  rfl

theorem simpleBeside_of_mem {name : String} (h : '$' ∈ name.toList) (simple : String) :
    simpleBeside name simple = Text.afterLast '$' name := by
  unfold simpleBeside Text.afterLast
  cases hsplit : Text.splitLast? '$' name with
  | none => exact absurd h (Text.splitLast?_eq_none.mp hsplit)
  | some parts => rfl

/-- A simple name stays beside a full name that it ends, or that holds no `$`. -/
theorem simpleBeside_eq_self {name simple : String} :
    simpleBeside name simple = simple ↔
      ('$' ∈ name.toList → simple = Text.afterLast '$' name) := by
  by_cases h : '$' ∈ name.toList
  · rw [simpleBeside_of_mem h]
    exact ⟨fun heq _ => heq.symm, fun heq => (heq h).symm⟩
  · rw [simpleBeside_of_notMem h]
    exact ⟨fun _ hmem => absurd hmem h, fun _ => rfl⟩

/-- A record with its simple name taken from its full name. -/
def followName (ic : InnerClass) : InnerClass :=
  { ic with innerName := ic.innerName.map (simpleBeside ic.name) }

theorem followName_eq_self {ic : InnerClass} :
    ic.followName = ic ↔ ∀ simple, ic.innerName = some simple →
      '$' ∈ ic.name.toList → simple = Text.afterLast '$' ic.name := by
  obtain ⟨name, outerName, innerName, access⟩ := ic
  cases innerName with
  | none => simp [followName]
  | some simple => simp [followName, simpleBeside_eq_self]

end InnerClass

theorem option_map_eq_self {α : Type} {f : α → α} {o : Option α} (h : ∀ a, o = some a → f a = a) :
    o.map f = o := by
  cases o with
  | none => rfl
  | some a => rw [Option.map_some, h a rfl]

theorem list_map_eq_self {α : Type} {f : α → α} {l : List α} :
    l.map f = l ↔ ∀ a ∈ l, f a = a := by
  have h := List.map_inj_left (l := l) (f := f) (g := id)
  rwa [List.map_id] at h

namespace MappingView

/-! ## A view that knows none of the classes -/

theorem mapClass_eq_none {v : MappingView} {name : String} (h : v.classRow name = none) :
    v.mapClass name = none := by
  unfold mapClass
  rw [h]
  rfl

theorem mapClassOrKeep_eq_self {v : MappingView} {name : String} (h : v.classRow name = none) :
    v.mapClassOrKeep name = name := by
  unfold mapClassOrKeep
  rw [mapClass_eq_none h]
  rfl

theorem mapMember_eq_none {v : MappingView} {owner : String} (h : v.classRow owner = none)
    (kind : MemberKind) (name : String) (desc : Option String) :
    v.mapMember kind owner name desc = none := by
  unfold mapMember
  rw [h]
  rfl

theorem mapDescriptor_eq_self {v : MappingView} {desc : String}
    (h : ∀ name ∈ Descriptor.classes desc, v.classRow name = none) : v.mapDescriptor desc = desc :=
  Descriptor.rename_eq_self fun name hname => mapClassOrKeep_eq_self (h name hname)

theorem remapMember_none {v : MappingView} {m : MemberNode}
    (h : ∀ name ∈ Descriptor.classes m.desc, v.classRow name = none) :
    v.remapMember m none = m := by
  unfold remapMember
  rw [mapDescriptor_eq_self h]
  rfl

theorem remapInner_unknown {v : MappingView} {ic : InnerClass} (hname : v.classRow ic.name = none)
    (houter : ∀ name, ic.outerName = some name → v.classRow name = none) :
    v.remapInner ic = ic.followName := by
  unfold remapInner InnerClass.followName
  simp only [mapClassOrKeep_eq_self hname]
  rw [option_map_eq_self fun name h => mapClassOrKeep_eq_self (houter name h)]
  rfl

/-- A node that mentions no class of the view changes in its simple names only. -/
theorem remapNode_unknown {v : MappingView} {c : ClassNode}
    (h : ∀ name ∈ c.mentioned, v.classRow name = none) :
    v.remapNode c = { c with innerClasses := c.innerClasses.map InnerClass.followName } := by
  have hall := ClassNode.allMentioned h
  have hfields : c.fields.map (v.remapField c.name) = c.fields := by
    apply list_map_eq_self.mpr
    intro m hm
    unfold remapField mapField
    rw [mapMember_eq_none hall.own]
    exact remapMember_none (hall.fields m hm)
  have hmethods : c.methods.map (v.remapMethod c.name) = c.methods := by
    apply list_map_eq_self.mpr
    intro m hm
    unfold remapMethod mapMethod
    rw [mapMember_eq_none hall.own, ite_self]
    exact remapMember_none (hall.methods m hm)
  have hinner : c.innerClasses.map v.remapInner = c.innerClasses.map InnerClass.followName :=
    List.map_congr_left fun ic hic => remapInner_unknown (hall.inner ic hic) (hall.outer ic hic)
  unfold remapNode
  rw [mapClassOrKeep_eq_self hall.own, hfields, hmethods, hinner,
    option_map_eq_self fun name hname => mapClassOrKeep_eq_self (hall.superName name hname),
    option_map_eq_self fun name hname => mapClassOrKeep_eq_self (hall.outerClass name hname),
    list_map_eq_self.mpr fun name hname => mapClassOrKeep_eq_self (hall.interfaces name hname)]

/-- A view that finds none of the classes of a node under the names that it looks for
changes nothing but simple names. It leaves the whole node just when each record with a
`$` in its full name has what follows the last one as its simple name. -/
theorem an_unknown_class_stays_just_when_its_full_names_end_in_its_simple_names
    (v : MappingView) (c : ClassNode)
    (h : ∀ name ∈ c.mentioned,
      v.tree.findClass name v.source = none ∧ v.tree.findClass name v.fallback = none) :
    v.remapNode c = { c with innerClasses := c.innerClasses.map InnerClass.followName } ∧
      (v.remapNode c = c ↔ ∀ ic ∈ c.innerClasses, ∀ simple, ic.innerName = some simple →
        '$' ∈ ic.name.toList → simple = Text.afterLast '$' ic.name) := by
  have hrow : ∀ name ∈ c.mentioned, v.classRow name = none := by
    intro name hname
    unfold classRow
    rw [(h name hname).1, (h name hname).2]
    rfl
  have hnode := remapNode_unknown hrow
  refine ⟨hnode, ?_⟩
  rw [hnode]
  constructor
  · intro heq ic hic
    rw [← InnerClass.followName_eq_self]
    exact list_map_eq_self.mp (congrArg ClassNode.innerClasses heq) ic hic
  · intro hsimple
    rw [list_map_eq_self.mpr fun ic hic => InnerClass.followName_eq_self.mpr (hsimple ic hic)]

/-- The view of a tree with one class, from its first column into its second one. -/
def oneClassView : MappingView :=
  ⟨⟨["official", "intermediary"], [⟨[some "a", some "class_1"], [], []⟩],
    [[("a", 0)], [("class_1", 0)]]⟩, 0, 0, 1⟩

/-- A class `b` with a method that takes a `c`, and with a record about a class inside it. -/
def bearer (inner simple : String) : ClassNode :=
  { access := 0, name := "b", superName := some "java/lang/Object", interfaces := []
    fields := [], methods := [⟨0, "m", "(Lc;)V", none, none⟩]
    innerClasses := [⟨inner, none, some simple, 0⟩], outerClass := none, side := none }

theorem mentioned_bearer (inner simple : String) :
    (bearer inner simple).mentioned = ["b", "java/lang/Object", inner, "c"] := rfl

theorem an_unknown_class_with_a_member_class_stays :
    (∀ name ∈ (bearer "b$Inner" "Inner").mentioned,
      oneClassView.tree.findClass name oneClassView.source = none ∧
        oneClassView.tree.findClass name oneClassView.fallback = none) ∧
    oneClassView.remapNode (bearer "b$Inner" "Inner") = bearer "b$Inner" "Inner" := by
  have h : ∀ name ∈ (bearer "b$Inner" "Inner").mentioned,
      oneClassView.tree.findClass name oneClassView.source = none ∧
        oneClassView.tree.findClass name oneClassView.fallback = none := by
    rw [mentioned_bearer]
    decide
  refine ⟨h, ?_⟩
  apply (an_unknown_class_stays_just_when_its_full_names_end_in_its_simple_names
    oneClassView (bearer "b$Inner" "Inner") h).2.mpr
  decide

/-- The record of a local class loses its simple name. -/
theorem an_unknown_class_does_not_always_stay :
    ¬ ∀ (v : MappingView) (c : ClassNode),
      (∀ name ∈ c.mentioned,
        v.tree.findClass name v.source = none ∧ v.tree.findClass name v.fallback = none) →
      v.remapNode c = c := by
  intro hall
  have h : ∀ name ∈ (bearer "b$1Local" "Local").mentioned,
      oneClassView.tree.findClass name oneClassView.source = none ∧
        oneClassView.tree.findClass name oneClassView.fallback = none := by
    rw [mentioned_bearer]
    decide
  exact absurd (hall oneClassView (bearer "b$1Local" "Local") h) (by decide)

end MappingView

end JarDerivation
