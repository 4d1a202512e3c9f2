-- An entry that names a member, beside the member itself. A remap looks both of them up in the
-- same way, but it never renames a method whose name begins with `<`, while it takes an entry for
-- one like any other entry. So the two may part at a constructor.
import JarDerivation.Proofs.Widener.Lockstep

namespace JarDerivation

/-- The target that a member of a class is. -/
def WidenTarget.ofMember : MemberKind → String → MemberNode → WidenTarget
  | .field, owner, m => .field owner m.name m.desc
  | .method, owner, m => .method owner m.name m.desc

theorem WidenTarget.ofMember_inj {kind : MemberKind} {owner : String} {m m' : MemberNode} :
    ofMember kind owner m = ofMember kind owner m' ↔ m.key = m'.key := by
  cases kind <;> simp [ofMember, MemberNode.key]

namespace MappingView

variable {v : MappingView} {owner : String} {kind : MemberKind} {m : MemberNode}

/-! ## Members and their entries -/

/-- What a member becomes. -/
def remapped (v : MappingView) (owner : String) : MemberKind → MemberNode → MemberNode
  | .field => v.remapField owner
  | .method => v.remapMethod owner

theorem members_remapNode (v : MappingView) (c : ClassNode) (kind : MemberKind) :
    (v.remapNode c).members kind = (c.members kind).map (v.remapped c.name kind) := by
  cases kind <;> rfl

/-- The name that the view has for a member, or else the one that the member has. -/
def lookedUp (v : MappingView) (owner : String) (kind : MemberKind) (m : MemberNode) : String :=
  (v.mapMember kind owner m.name (some m.desc)).getD m.name

/-- Whether the view has another name for a method whose name begins with `<`. -/
def RenamesSpecial (v : MappingView) (owner : String) (kind : MemberKind) (m : MemberNode) : Prop :=
  kind = .method ∧ Text.startsWith "<" m.name = true ∧ v.lookedUp owner kind m ≠ m.name

instance (v : MappingView) (owner : String) (kind : MemberKind) (m : MemberNode) :
    Decidable (v.RenamesSpecial owner kind m) := inferInstanceAs (Decidable (_ ∧ _ ∧ _))

theorem name_remapped : (v.remapped owner kind m).name =
    if kind = .method ∧ Text.startsWith "<" m.name = true then m.name
    else v.lookedUp owner kind m := by
  cases kind with
  | field => rfl
  | method =>
    simp only [remapped, remapMethod, remapMember, true_and]
    split
    · rfl
    · rfl

theorem name_remapped_eq_lookedUp :
    (v.remapped owner kind m).name = v.lookedUp owner kind m ↔ ¬ v.RenamesSpecial owner kind m := by
  rw [name_remapped, RenamesSpecial]
  split
  · rename_i hspecial
    simp only [hspecial, true_and, ne_eq, not_not]
    exact eq_comm
  · rename_i hplain
    exact ⟨fun _ hrenamed => hplain ⟨hrenamed.1, hrenamed.2.1⟩, fun _ => rfl⟩

/-- The entry for a member becomes the entry for what the view looks up. -/
theorem remapTarget_ofMember : Widener.remapTarget v (.ofMember kind owner m) =
    .ofMember kind (v.mapClassOrKeep owner)
      { v.remapped owner kind m with name := v.lookedUp owner kind m } := by
  cases kind <;> rfl

end MappingView

namespace Widener

/-- Wherever an entry names a member of a class, the remapped entry has the owner and the
descriptor of the remapped member. It has its name too, unless the view has another name for a
method whose name begins with `<`. -/
theorem an_entry_follows_its_member_unless_a_special_method_is_renamed (w : Widener)
    (v : MappingView) (c : ClassNode) (kind : MemberKind) {i j : Nat} {m : MemberNode}
    {e : WidenEntry} (hm : (c.members kind)[i]? = some m) (he : w.entries[j]? = some e)
    (htarget : e.target = .ofMember kind c.name m) :
    ∃ m' e', ((v.remapNode c).members kind)[i]? = some m' ∧ (w.remap v).entries[j]? = some e' ∧
      (∃ name, e'.target = .ofMember kind (v.remapNode c).name { m' with name }) ∧
      (e'.target = .ofMember kind (v.remapNode c).name m' ↔ ¬ v.RenamesSpecial c.name kind m) := by
  refine ⟨v.remapped c.name kind m, remapEntry v e, ?_, ?_, ?_⟩
  · rw [v.members_remapNode, List.getElem?_map, hm]
    rfl
  · rw [remap, List.getElem?_map, he]
    rfl
  have hentry : (remapEntry v e).target = .ofMember kind (v.remapNode c).name
      { v.remapped c.name kind m with name := v.lookedUp c.name kind m } := by
    show remapTarget v e.target = _
    rw [htarget]
    exact MappingView.remapTarget_ofMember
  refine ⟨⟨_, hentry⟩, ?_⟩
  rw [hentry, WidenTarget.ofMember_inj, ← MappingView.name_remapped_eq_lookedUp]
  simp [MemberNode.key, eq_comm]

/-- A view that has a name for a constructor without parameters and for a method `b`, for which
it knows no descriptor. -/
def viewOfConstructor : MappingView :=
  ⟨.rebuildIndex ⟨["official", "named"],
    [⟨[some "a", some "World"], [],
      [⟨[some "<init>", some "create"], some "()V"⟩, ⟨[some "b", some "tick"], none⟩]⟩], []⟩, 0, 0, 1⟩

/-- A class with two constructors and a method that takes one of its kind. -/
def constructedWorld : ClassNode :=
  { access := 1, name := "a", superName := some "java/lang/Object", interfaces := [], fields := []
    methods := [⟨2, "<init>", "()V", none, none⟩, ⟨2, "<init>", "(I)V", none, none⟩,
      ⟨2, "b", "(La;)V", none, none⟩]
    innerClasses := [], outerClass := none, side := none }

/-- A widener with an entry for each of them. -/
def constructorWidener : Widener :=
  ⟨1, "official", constructedWorld.methods.map fun m =>
    ⟨.accessible, false, .ofMember .method constructedWorld.name m⟩⟩

/-- The second constructor has no row of its own, and the row of the method tells nothing of its
descriptor. -/
theorem a_constructor_and_a_method_are_followed :
    ((constructedWorld.members .method)[1]? = some ⟨2, "<init>", "(I)V", none, none⟩ ∧
      constructorWidener.entries[1]? =
        some ⟨.accessible, false, .method "a" "<init>" "(I)V"⟩ ∧
      ∃ m' e', ((viewOfConstructor.remapNode constructedWorld).members .method)[1]? = some m' ∧
        (constructorWidener.remap viewOfConstructor).entries[1]? = some e' ∧
        e'.target = .ofMember .method "World" m' ∧ m'.key = ("<init>", "(I)V")) ∧
    ((constructedWorld.members .method)[2]? = some ⟨2, "b", "(La;)V", none, none⟩ ∧
      constructorWidener.entries[2]? = some ⟨.accessible, false, .method "a" "b" "(La;)V"⟩ ∧
      ∃ m' e', ((viewOfConstructor.remapNode constructedWorld).members .method)[2]? = some m' ∧
        (constructorWidener.remap viewOfConstructor).entries[2]? = some e' ∧
        e'.target = .ofMember .method "World" m' ∧ m'.key = ("tick", "(LWorld;)V")) := by
  refine ⟨⟨rfl, rfl, ?_⟩, rfl, rfl, ?_⟩
  · obtain ⟨m', e', hm', he', _, hfollows⟩ :=
      an_entry_follows_its_member_unless_a_special_method_is_renamed constructorWidener
        viewOfConstructor constructedWorld .method (i := 1) (j := 1) rfl rfl rfl
    refine ⟨m', e', hm', he', hfollows.mpr (by decide), ?_⟩
    cases hm'
    decide
  · obtain ⟨m', e', hm', he', _, hfollows⟩ :=
      an_entry_follows_its_member_unless_a_special_method_is_renamed constructorWidener
        viewOfConstructor constructedWorld .method (i := 2) (j := 2) rfl rfl rfl
    refine ⟨m', e', hm', he', hfollows.mpr (by decide), ?_⟩
    cases hm'
    decide

/-- A constructor keeps its name, and the entry for it does not. -/
theorem an_entry_does_not_always_follow_its_member :
    ¬ ∀ (w : Widener) (v : MappingView) (c : ClassNode) (kind : MemberKind) (i j : Nat)
        (m : MemberNode) (e : WidenEntry), (c.members kind)[i]? = some m → w.entries[j]? = some e →
      e.target = .ofMember kind c.name m →
      ∃ m' e', ((v.remapNode c).members kind)[i]? = some m' ∧ (w.remap v).entries[j]? = some e' ∧
        e'.target = .ofMember kind (v.remapNode c).name m' := by
  intro hall
  obtain ⟨m', e', hm', he', htarget⟩ := hall constructorWidener viewOfConstructor constructedWorld
    .method 0 0 ⟨2, "<init>", "()V", none, none⟩
    ⟨.accessible, false, .method "a" "<init>" "()V"⟩ rfl rfl rfl
  have hmember : ((viewOfConstructor.remapNode constructedWorld).members .method)[0]? =
      some ⟨2, "<init>", "()V", none, none⟩ := by decide
  have hentry : (constructorWidener.remap viewOfConstructor).entries[0]? =
      some ⟨.accessible, false, .method "World" "create" "()V"⟩ := by decide
  rw [hmember] at hm'
  rw [hentry] at he'
  cases hm'
  cases he'
  exact absurd htarget (by decide)

end Widener

end JarDerivation
