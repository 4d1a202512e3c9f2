-- Widening and remapping go in lockstep. Whether a class is widened first and renamed then,
-- or renamed first and widened by the renamed widener, the outcome is the same node, as
-- long as the renames tell apart what the widener and the class tell apart.
import JarDerivation.Proofs.Remap.Hops
import JarDerivation.Widener.Apply

namespace JarDerivation

/-! ## Flags and all the rest -/

def MemberNode.shape (m : MemberNode) : MemberNode := { m with access := 0 }

def InnerClass.shape (ic : InnerClass) : InnerClass := { ic with access := 0 }

namespace ClassNode

/-- A node without its flags. -/
def shape (c : ClassNode) : ClassNode :=
  { c with
    access := 0
    fields := c.fields.map MemberNode.shape
    methods := c.methods.map MemberNode.shape
    innerClasses := c.innerClasses.map InnerClass.shape }

/-- All flags of a node: its own, and those of its fields, methods and records. -/
def flags (c : ClassNode) : Access × List Access × List Access × List Access :=
  (c.access, c.fields.map (·.access), c.methods.map (·.access), c.innerClasses.map (·.access))

end ClassNode

/-- Two lists are equal if they agree in two ways that together tell their elements apart. -/
theorem eq_of_map_eq_of_map_eq {α β γ : Type} {f : α → β} {g : α → γ}
    (h : ∀ a b, f a = f b → g a = g b → a = b) {l l' : List α} (hf : l.map f = l'.map f)
    (hg : l.map g = l'.map g) : l = l' := by
  induction l generalizing l' with
  | nil => simpa using hf.symm
  | cons a l ih =>
    cases l' with
    | nil => cases hf
    | cons b l' =>
      rw [List.map_cons, List.map_cons, List.cons.injEq] at hf hg
      rw [h a b hf.1 hg.1, ih hf.2 hg.2]

theorem MemberNode.eq_of_shape {m m' : MemberNode} (hshape : m.shape = m'.shape)
    (haccess : m.access = m'.access) : m = m' := by
  cases m
  cases m'
  simp_all [shape]

theorem InnerClass.eq_of_shape {ic ic' : InnerClass} (hshape : ic.shape = ic'.shape)
    (haccess : ic.access = ic'.access) : ic = ic' := by
  cases ic
  cases ic'
  simp_all [shape]

namespace ClassNode

theorem eq_of_shape {c c' : ClassNode} (hshape : c.shape = c'.shape) (hflags : c.flags = c'.flags) :
    c = c' := by
  obtain ⟨access, name, superName, interfaces, fields, methods, innerClasses, outerClass, side⟩ := c
  obtain ⟨access', name', superName', interfaces', fields', methods', innerClasses', outerClass',
    side'⟩ := c'
  simp only [shape, mk.injEq, true_and] at hshape
  simp only [flags, Prod.mk.injEq] at hflags
  obtain ⟨rfl, rfl, rfl, hfields, hmethods, hinner, rfl, rfl⟩ := hshape
  obtain ⟨rfl, hfieldFlags, hmethodFlags, hinnerFlags⟩ := hflags
  rw [eq_of_map_eq_of_map_eq (fun _ _ => MemberNode.eq_of_shape) hfields hfieldFlags,
    eq_of_map_eq_of_map_eq (fun _ _ => MemberNode.eq_of_shape) hmethods hmethodFlags,
    eq_of_map_eq_of_map_eq (fun _ _ => InnerClass.eq_of_shape) hinner hinnerFlags]

theorem name_of_shape {c c' : ClassNode} (h : c.shape = c'.shape) : c.name = c'.name := by
  have hname := congrArg ClassNode.name h
  exact hname

/-- The keys of the members of a node. -/
def keys (c : ClassNode) (kind : MemberKind) : List (String × String) :=
  (c.members kind).map MemberNode.key

theorem keys_shape (c : ClassNode) (kind : MemberKind) : c.shape.keys kind = c.keys kind := by
  cases kind with
  | field => exact List.map_map
  | method => exact List.map_map

theorem keys_of_shape {c c' : ClassNode} (h : c.shape = c'.shape) (kind : MemberKind) :
    c.keys kind = c'.keys kind := by
  rw [← keys_shape c, h, keys_shape]

/-- The names of the classes that the records of a node are about. -/
def recordNames (c : ClassNode) : List String := c.innerClasses.map (·.name)

theorem recordNames_shape (c : ClassNode) : c.shape.recordNames = c.recordNames := List.map_map

theorem recordNames_of_shape {c c' : ClassNode} (h : c.shape = c'.shape) :
    c.recordNames = c'.recordNames := by
  rw [← recordNames_shape c, h, recordNames_shape]

end ClassNode

/-! ## The first item of a kind -/

/-- A map that keeps the kind of each item and follows the change keeps the first item. -/
theorem modifyFirst_map {α β : Type} {g : α → β} {p : α → Bool} {q : β → Bool} {f : α → α}
    {f' : β → β} (hf : ∀ a, f' (g a) = g (f a)) {l : List α} (hp : ∀ a ∈ l, q (g a) = p a) :
    modifyFirst q f' (l.map g) = (modifyFirst p f l).map g := by
  induction l with
  | nil => rfl
  | cons a rest ih =>
    have hrest := ih fun b hb => hp b (List.mem_cons_of_mem a hb)
    have ha := hp a List.mem_cons_self
    rw [List.map_cons, modifyFirst, modifyFirst, ha, hrest]
    cases p a with
    | true => simp [hf]
    | false => simp

/-- A change that a map does not see does not show in the mapped list. -/
theorem map_modifyFirst {α β : Type} {g : α → β} {f : α → α} (hf : ∀ a, g (f a) = g a)
    (p : α → Bool) (l : List α) : (modifyFirst p f l).map g = l.map g := by
  induction l with
  | nil => rfl
  | cons a rest ih =>
    unfold modifyFirst
    cases p a with
    | true => simp [hf]
    | false => simp [ih]

namespace Widener

theorem shape_applyEntry (c : ClassNode) (e : WidenEntry) : (applyEntry c e).shape = c.shape := by
  unfold applyEntry ClassNode.shape
  cases e.target with
  | «class» name =>
    simp only [ClassNode.mk.injEq, true_and, and_true]
    apply map_modifyFirst
    intro
    rfl
  | method owner name desc =>
    simp only [ClassNode.mk.injEq, true_and, and_true]
    apply map_modifyFirst
    intro
    rfl
  | field owner name desc =>
    simp only [ClassNode.mk.injEq, true_and, and_true]
    apply map_modifyFirst
    intro
    rfl

/-- Widening changes flags and nothing else. -/
theorem shape_foldl_applyEntry (es : List WidenEntry) (c : ClassNode) :
    (es.foldl applyEntry c).shape = c.shape := by
  induction es generalizing c with
  | nil => rfl
  | cons e rest ih => rw [List.foldl_cons, ih, shape_applyEntry]

theorem shape_widen (w : Widener) (c : ClassNode) : (w.widen c).shape = c.shape :=
  shape_foldl_applyEntry _ c

end Widener

/-! ## Names and keys after a remap -/

/-- The key that an entry for a member of this kind looks for. -/
def WidenTarget.key? : WidenTarget → MemberKind → Option (String × String)
  | .method _ name desc, .method => some (name, desc)
  | .field _ name desc, .field => some (name, desc)
  | _, _ => none

namespace MappingView

/-- What remapping a class makes of the key of a member. -/
def newKey (v : MappingView) (owner : String) (kind : MemberKind) (key : String × String) :
    String × String :=
  let name := match kind with
    | .field => (v.mapField owner key.1 (some key.2)).getD key.1
    | .method =>
      if Text.startsWith "<" key.1 then key.1
      else (v.mapMethod owner key.1 (some key.2)).getD key.1
  (name, v.mapDescriptor key.2)

theorem key_remapField (v : MappingView) (owner : String) (m : MemberNode) :
    (v.remapField owner m).key = v.newKey owner .field m.key := rfl

theorem key_remapMethod (v : MappingView) (owner : String) (m : MemberNode) :
    (v.remapMethod owner m).key = v.newKey owner .method m.key := by
  simp only [remapMethod, remapMember, MemberNode.key, newKey]
  by_cases hname : Text.startsWith "<" m.name = true
  · simp [hname]
  · simp [hname]

/-- Remapping leaves all flags as they are. -/
theorem flags_remapNode (v : MappingView) (c : ClassNode) : (v.remapNode c).flags = c.flags := by
  unfold ClassNode.flags remapNode
  simp only [List.map_map]
  rfl

end MappingView

namespace Widener

/-- The names that the remaps of a class and of a widener must not mix up. -/
def namesBeside (w : Widener) (c : ClassNode) : List String :=
  c.name :: c.recordNames ++ w.entries.map (·.target.owner)

/-- The keys of one kind that the remaps of a class and of a widener must not mix up. -/
def keysBeside (w : Widener) (c : ClassNode) (kind : MemberKind) : List (String × String) :=
  c.keys kind ++ (w.entriesFor c.name).filterMap (·.target.key? kind)

/-- A view that tells apart what a widener and a class tell apart, and that takes no method
for a constructor or the other way round. -/
structure Moves (w : Widener) (v : MappingView) (c : ClassNode) : Prop where
  classes : ∀ name ∈ w.namesBeside c, ∀ name' ∈ w.namesBeside c,
    v.mapClassOrKeep name = v.mapClassOrKeep name' → name = name'
  members : ∀ kind, ∀ key ∈ w.keysBeside c kind, ∀ key' ∈ w.keysBeside c kind,
    v.newKey c.name kind key = v.newKey c.name kind key' → key = key'
  special : ∀ e ∈ w.entries, ∀ owner name desc, e.target = .method owner name desc →
    Text.startsWith "<" name = true → v.mapMethod owner name (some desc) = none
  plain : ∀ owner name desc new, v.mapMethod owner name (some desc) = some new →
    Text.startsWith "<" new = false

variable {w : Widener} {v : MappingView} {c c' : ClassNode} {e : WidenEntry}

/-- Flags do not matter to it. -/
theorem Moves.of_shape (h : w.Moves v c) (hshape : c'.shape = c.shape) : w.Moves v c' := by
  have hnames : w.namesBeside c' = w.namesBeside c := by
    rw [namesBeside, ClassNode.name_of_shape hshape, ClassNode.recordNames_of_shape hshape]
    rfl
  have hkeys : ∀ kind, w.keysBeside c' kind = w.keysBeside c kind := by
    intro kind
    rw [keysBeside, ClassNode.name_of_shape hshape, ClassNode.keys_of_shape hshape]
    rfl
  refine ⟨?_, ?_, h.special, h.plain⟩
  · rw [hnames]
    exact h.classes
  · intro kind
    rw [hkeys, ClassNode.name_of_shape hshape]
    exact h.members kind

/-! ## One entry -/

def remapEntry (v : MappingView) (e : WidenEntry) : WidenEntry :=
  { e with target := remapTarget v e.target }

theorem Moves.isConstructor (h : w.Moves v c) (he : e ∈ w.entries) {owner name desc : String}
    (htarget : e.target = .method owner name desc) :
    ((v.mapMethod owner name (some desc)).getD name == "<init>") = (name == "<init>") := by
  cases hname : Text.startsWith "<" name with
  | true => rw [h.special e he owner name desc htarget hname, Option.getD_none]
  | false =>
    have hne : ∀ s, Text.startsWith "<" s = false → s ≠ "<init>" := by
      rintro s hs rfl
      exact absurd hs (by decide)
    rw [beq_eq_false_iff_ne.mpr (hne name hname)]
    cases hnew : v.mapMethod owner name (some desc) with
    | none => exact beq_eq_false_iff_ne.mpr (hne name hname)
    | some new => exact beq_eq_false_iff_ne.mpr (hne new (h.plain owner name desc new hnew))

/-- The remapped entry looks for the key that a member with the old key has got. -/
theorem Moves.newName (h : w.Moves v c) (he : e ∈ w.entries) {owner name desc : String}
    (htarget : e.target = .method owner name desc) :
    ((v.mapMethod owner name (some desc)).getD name, v.mapDescriptor desc) =
      v.newKey owner .method (name, desc) := by
  simp only [MappingView.newKey]
  cases hname : Text.startsWith "<" name with
  | true =>
    rw [h.special e he owner name desc htarget hname]
    rfl
  | false => rfl

/-- A key is found after the remap just when it was found before. -/
theorem Moves.key_beq (h : w.Moves v c) {kind : MemberKind} {key key' : String × String}
    (hkey : key ∈ w.keysBeside c kind) (hkey' : key' ∈ w.keysBeside c kind) :
    (v.newKey c.name kind key == v.newKey c.name kind key') = (key == key') := by
  rw [Bool.eq_iff_iff, beq_iff_eq, beq_iff_eq]
  exact ⟨h.members kind key hkey key' hkey', fun heq => by rw [heq]⟩

theorem key_mem_of_member (kind : MemberKind) {m : MemberNode} (hm : m ∈ c.members kind) :
    m.key ∈ w.keysBeside c kind :=
  List.mem_append_left _ (List.mem_map_of_mem hm)

theorem key_mem_of_entry (kind : MemberKind) {key : String × String}
    (he : e ∈ w.entriesFor c.name) (hkey : e.target.key? kind = some key) : key ∈ w.keysBeside c kind :=
  List.mem_append_right _ (List.mem_filterMap.mpr ⟨e, he, hkey⟩)

/-- A remapped entry does to the remapped class what the entry does to the class. -/
theorem Moves.applyEntry (h : w.Moves v c) (he : e ∈ w.entriesFor c.name) :
    applyEntry (v.remapNode c) (remapEntry v e) = v.remapNode (Widener.applyEntry c e) := by
  obtain ⟨hmem, howner⟩ := List.mem_filter.mp he
  rw [beq_iff_eq] at howner
  cases htarget : e.target with
  | «class» name =>
    have hown : c.name ∈ w.namesBeside c := by simp [namesBeside]
    have hinner : modifyFirst (·.name == v.mapClassOrKeep c.name)
        (fun ic => { ic with access := Access.widenClass e.access ic.access })
        (c.innerClasses.map v.remapInner) =
          (modifyFirst (·.name == c.name)
            (fun ic => { ic with access := Access.widenClass e.access ic.access })
            c.innerClasses).map v.remapInner := by
      refine modifyFirst_map (fun _ => ?_) ?_
      · rfl
      intro ic hic
      have hrecord : ic.name ∈ w.namesBeside c := by
        simp only [namesBeside, ClassNode.recordNames, List.mem_append, List.mem_cons, List.mem_map]
        exact Or.inl (Or.inr ⟨ic, hic, rfl⟩)
      show (v.mapClassOrKeep ic.name == v.mapClassOrKeep c.name) = _
      rw [Bool.eq_iff_iff, beq_iff_eq, beq_iff_eq]
      exact ⟨h.classes _ hrecord _ hown, fun heq => by rw [heq]⟩
    simp only [Widener.applyEntry, remapEntry, htarget, remapTarget, MappingView.remapNode, hinner]
  | method owner name desc =>
    rw [htarget] at howner
    have hname : owner = c.name := howner
    have hkey := key_mem_of_entry .method he (by rw [htarget]; rfl)
    have hmethods : modifyFirst
        (·.key == ((v.mapMethod owner name (some desc)).getD name, v.mapDescriptor desc))
        (widenMember (Access.widenMethod e.access
          ((v.mapMethod owner name (some desc)).getD name == "<init>")))
        (c.methods.map (v.remapMethod c.name)) =
          (modifyFirst (·.key == (name, desc))
            (widenMember (Access.widenMethod e.access (name == "<init>"))) c.methods).map
              (v.remapMethod c.name) := by
      rw [h.isConstructor hmem htarget, h.newName hmem htarget, hname]
      refine modifyFirst_map (fun _ => ?_) ?_
      · rfl
      intro m hm
      rw [MappingView.key_remapMethod]
      exact h.key_beq (key_mem_of_member .method hm) hkey
    simp only [Widener.applyEntry, remapEntry, htarget, remapTarget, MappingView.remapNode, hmethods]
  | field owner name desc =>
    rw [htarget] at howner
    have hname : owner = c.name := howner
    have hkey := key_mem_of_entry .field he (by rw [htarget]; rfl)
    have hfields : modifyFirst
        (·.key == ((v.mapField owner name (some desc)).getD name, v.mapDescriptor desc))
        (widenMember (Access.widenField e.access)) (c.fields.map (v.remapField c.name)) =
          (modifyFirst (·.key == (name, desc)) (widenMember (Access.widenField e.access))
            c.fields).map (v.remapField c.name) := by
      have hnew : ((v.mapField owner name (some desc)).getD name, v.mapDescriptor desc) =
          v.newKey owner .field (name, desc) := rfl
      rw [hnew, hname]
      refine modifyFirst_map (fun _ => ?_) ?_
      · rfl
      intro m hm
      rw [MappingView.key_remapField]
      exact h.key_beq (key_mem_of_member .field hm) hkey
    simp only [Widener.applyEntry, remapEntry, htarget, remapTarget, MappingView.remapNode, hfields]

/-! ## The whole widener -/

theorem owner_remapTarget (v : MappingView) (target : WidenTarget) :
    (remapTarget v target).owner = v.mapClassOrKeep target.owner := by
  cases target <;> rfl

/-- The entries for the remapped class are the remapped entries for the class. -/
theorem Moves.entriesFor (h : w.Moves v c) :
    (w.remap v).entriesFor (v.mapClassOrKeep c.name) =
      (w.entriesFor c.name).map (remapEntry v) := by
  unfold Widener.entriesFor remap
  rw [List.filter_map]
  congr 1
  apply List.filter_congr
  intro e he
  have howner : e.target.owner ∈ w.namesBeside c := by
    simp only [namesBeside, List.mem_append, List.mem_map]
    exact Or.inr ⟨e, he, rfl⟩
  rw [Function.comp, owner_remapTarget, Bool.eq_iff_iff, beq_iff_eq, beq_iff_eq]
  exact ⟨h.classes _ howner _ (by simp [namesBeside]), fun heq => by rw [heq]⟩

theorem Moves.foldl (h : w.Moves v c) {es : List WidenEntry}
    (hes : ∀ e ∈ es, e ∈ w.entriesFor c.name) :
    (es.map (remapEntry v)).foldl Widener.applyEntry (v.remapNode c) =
      v.remapNode (es.foldl Widener.applyEntry c) := by
  induction es generalizing c with
  | nil => rfl
  | cons e rest ih =>
    have hshape := shape_applyEntry c e
    rw [List.map_cons, List.foldl_cons, List.foldl_cons, h.applyEntry (hes e List.mem_cons_self)]
    apply ih (h.of_shape hshape)
    intro e' he'
    rw [ClassNode.name_of_shape hshape]
    exact hes e' (List.mem_cons_of_mem e he')

/-- Widening the remapped class with the remapped widener is remapping the widened class,
and the one changes the class just when the other does. -/
theorem widening_and_remapping_go_in_lockstep (h : w.Moves v c) :
    (w.remap v).widen (v.remapNode c) = v.remapNode (w.widen c) ∧
      (w.remap v).changes (v.remapNode c) = w.changes c := by
  have hwiden : (w.remap v).widen (v.remapNode c) = v.remapNode (w.widen c) := by
    unfold widen
    rw [show (v.remapNode c).name = v.mapClassOrKeep c.name from rfl, h.entriesFor]
    exact h.foldl fun _ he => he
  refine ⟨hwiden, ?_⟩
  unfold changes
  rw [hwiden, Bool.eq_iff_iff, bne_iff_ne, bne_iff_ne, not_iff_not]
  constructor
  · intro heq
    -- remapping keeps the flags, and widening keeps everything else
    have hflags : (w.widen c).flags = c.flags := by
      rw [← v.flags_remapNode (w.widen c), heq, v.flags_remapNode]
    exact ClassNode.eq_of_shape (shape_widen w c) hflags
  · intro heq
    rw [heq]

/-- A widener that opens up the class `a`, its method and its constructor. -/
def worldWidener : Widener :=
  ⟨2, "official",
    [⟨.extendable, false, .class "a"⟩, ⟨.extendable, true, .method "a" "c" "(La;)V"⟩,
      ⟨.accessible, false, .method "a" "<init>" "()V"⟩, ⟨.accessible, false, .class "a$b"⟩]⟩

/-- The class `a` with private members, a record about the class in it and one about itself. -/
def closedWorld : ClassNode :=
  { access := 0x0010, name := "a", superName := some "java/lang/Object", interfaces := []
    fields := [⟨2, "d", "I", none, none⟩]
    methods := [⟨0x0012, "c", "(La;)V", none, none⟩, ⟨2, "<init>", "()V", none, none⟩]
    innerClasses := [⟨"a$b", some "a", some "b", 2⟩, ⟨"a", none, some "a", 2⟩]
    outerClass := none, side := none }

open MappingTree in
theorem moves_closedWorld :
    worldWidener.Moves ((worldInColumns "World$Inner").fromSource 1) closedWorld where
  classes := by decide
  members := by
    intro kind
    cases kind with
    | field => decide
    | method => decide
  special := by
    intro e he owner name desc htarget hname
    simp only [worldWidener, List.mem_cons, List.not_mem_nil, or_false] at he
    rcases he with rfl | rfl | rfl | rfl <;> cases htarget
    · exact absurd hname (by decide)
    · decide
  plain := by
    intro owner name desc new hnew
    obtain ⟨r, hfind, hname⟩ := Option.bind_eq_some_iff.mp
      (((hopsThrough_worldInColumns "World$Inner").mapMember_fromSource 1 .method owner name
        desc).symm.trans hnew)
    have hr := List.mem_of_find?_eq_some hfind
    unfold rowsOf at hr
    cases hms : ((worldInColumns "World$Inner").findClass owner 0).bind fun row =>
        membersIn (worldInColumns "World$Inner").classes row .method with
    | none =>
      rw [hms] at hr
      cases hr
    | some ms =>
      rw [hms] at hr
      obtain ⟨row, _, hrow⟩ := Option.bind_eq_some_iff.mp hms
      obtain ⟨_, _, rfl⟩ := membersIn_worldInColumns hrow hr
      cases hname
      decide

open MappingTree in
theorem the_world_is_widened_in_lockstep :
    worldWidener.Moves ((worldInColumns "World$Inner").fromSource 1) closedWorld ∧
      (worldWidener.remap ((worldInColumns "World$Inner").fromSource 1)).widen
          (((worldInColumns "World$Inner").fromSource 1).remapNode closedWorld) =
        ((worldInColumns "World$Inner").fromSource 1).remapNode (worldWidener.widen closedWorld) ∧
      (worldWidener.remap ((worldInColumns "World$Inner").fromSource 1)).changes
          (((worldInColumns "World$Inner").fromSource 1).remapNode closedWorld) = true := by
  obtain ⟨hsame, hchanges⟩ := widening_and_remapping_go_in_lockstep moves_closedWorld
  exact ⟨moves_closedWorld, hsame, hchanges.trans (by decide)⟩

end Widener

end JarDerivation
