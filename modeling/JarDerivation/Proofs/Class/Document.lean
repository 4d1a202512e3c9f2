-- A class is read from its document as it was written. A value that is left out of the
-- document is the one that the reader puts in its place.
import JarDerivation.Class.Codec
import JarDerivation.Proofs.Json.Records

namespace JarDerivation

open Json

/-! ## Parts of a class -/

theorem Json.written_memberIf {α : Type} {f : α → Json} (h : ∀ a, (f a).Written) (key : String)
    (o : Option α) : ∀ m ∈ Json.memberIf key f o, m.2.Written := by
  cases o with
  | none => nofun
  | some a =>
    intro m hm
    cases List.mem_singleton.mp hm
    exact h a

namespace Side

theorem written_toJson (s : Side) : s.toJson.Written := by
  cases s <;> exact .text _

theorem ofJson?_toJson (s : Side) : ofJson? s.toJson = some s := by
  cases s <;> rfl

theorem toJson_ne_null (s : Side) : s.toJson ≠ .null := by
  cases s <;> nofun

end Side

namespace MemberNode

theorem written_toJson (m : MemberNode) : m.toJson.Written := by
  refine written_record ?_
  simp only [List.forall_mem_append, List.forall_mem_cons, List.not_mem_nil, false_imp_iff,
    implies_true, and_true]
  exact ⟨⟨⟨written_nat _, .text _, .text _⟩, written_memberIf .text _ _⟩,
    written_memberIf Side.written_toJson _ _⟩

theorem ofJson?_toJson (m : MemberNode) : ofJson? m.toJson = some m := by
  obtain ⟨access, name, desc, signature, side⟩ := m
  have haccess := uint16?_nat access
  have hsignature := withDefault_optional text?_text text_ne_null signature
  have hside := withDefault_optional Side.ofJson?_toJson Side.toJson_ne_null side
  unfold ofJson? toJson
  rw [fields?_record (by cases signature <;> cases side <;> simp [memberIf])]
  cases signature <;> cases side <;>
    simp_all [memberIf, List.lookup_cons, withDefault, required, text?_text]

end MemberNode

namespace InnerClass

theorem written_toJson (ic : InnerClass) : ic.toJson.Written := by
  refine written_record ?_
  simp only [List.forall_mem_cons, List.not_mem_nil, false_imp_iff, implies_true, and_true]
  exact ⟨.text _, written_optional .text _, written_optional .text _, written_nat _⟩

theorem ofJson?_toJson (ic : InnerClass) : ofJson? ic.toJson = some ic := by
  obtain ⟨name, outerName, innerName, access⟩ := ic
  have haccess := uint16?_nat access
  have houter := optional?_optional text?_text text_ne_null outerName
  have hinner := optional?_optional text?_text text_ne_null innerName
  unfold ofJson? toJson
  rw [fields?_record (by simp)]
  simp [List.lookup_cons, withDefault, required, text?_text, haccess, houter, hinner]

end InnerClass

/-! ## Classes -/

namespace ClassNode

theorem written_toJson (c : ClassNode) : c.toJson.Written := by
  refine written_record ?_
  simp only [List.forall_mem_append, List.forall_mem_cons, List.not_mem_nil, false_imp_iff,
    implies_true, and_true]
  exact ⟨⟨⟨written_nat _, .text _, written_optional .text _, written_list .text _,
    written_list MemberNode.written_toJson _, written_list MemberNode.written_toJson _,
    written_list InnerClass.written_toJson _⟩, written_memberIf .text _ _⟩,
    written_memberIf Side.written_toJson _ _⟩

theorem ofJson?_toJson (c : ClassNode) : ofJson? c.toJson = some c := by
  obtain ⟨access, name, superName, interfaces, fields, methods, innerClasses, outerClass, side⟩ := c
  have haccess := uint16?_nat access
  have hsuper := optional?_optional text?_text text_ne_null superName
  have hinterfaces := list?_list text?_text interfaces
  have hfields := list?_list MemberNode.ofJson?_toJson fields
  have hmethods := list?_list MemberNode.ofJson?_toJson methods
  have hinner := list?_list InnerClass.ofJson?_toJson innerClasses
  have houter := withDefault_optional text?_text text_ne_null outerClass
  have hside := withDefault_optional Side.ofJson?_toJson Side.toJson_ne_null side
  unfold ofJson? toJson
  rw [fields?_record (by cases outerClass <;> cases side <;> simp [memberIf])]
  cases outerClass <;> cases side <;>
    simp_all [memberIf, List.lookup_cons, withDefault, required, text?_text]

theorem decode?_encode (c : ClassNode) : decode? c.encode = some c := by
  unfold decode? encode
  rw [ofBytes?_toBytes (written_toJson c)]
  exact ofJson?_toJson c

end ClassNode

/-- Whatever a class declares, it can be written, and its bytes are those of that class. -/
theorem Codec.a_class_is_read_as_it_was_written (c : ClassNode) :
    ∃ bytes, Codec.json.encode c = .ok bytes ∧ Codec.json.decode bytes = .ok c := by
  refine ⟨c.encode, rfl, ?_⟩
  unfold Codec.json
  dsimp only
  rw [ClassNode.decode?_encode]

end JarDerivation
