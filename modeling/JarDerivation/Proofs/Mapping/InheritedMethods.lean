-- Method rows that a class only inherits. The pass that drops them asks for each row whether
-- the class declares the method and whether a super type does; a class that is not known
-- keeps all its rows.
import JarDerivation.Mapping.Passes
import JarDerivation.Proofs.Class.Ancestors

namespace JarDerivation

open Hierarchy (ofNodes latest? Extends Reaches Climb)

/-- The class that was inserted last under a name declares the method. -/
def Hierarchy.Declares (nodes : List ClassNode) (className : String) (key : String × String) :
    Prop :=
  ∃ c, latest? nodes className = some c ∧ key ∈ c.methods.map MemberNode.key

theorem Hierarchy.contains_ofNodes {nodes : List ClassNode} {className : String} :
    (ofNodes nodes).contains className = true ↔ ∃ c, latest? nodes className = some c := by
  unfold contains
  rw [entry?_ofNodes, Option.isSome_map, Option.isSome_iff_exists]

theorem Hierarchy.declares?_ofNodes {nodes : List ClassNode} {className name desc : String} :
    (ofNodes nodes).declares? className name desc = some true ↔
      Declares nodes className (name, desc) := by
  unfold declares? Declares
  rw [entry?_ofNodes]
  cases latest? nodes className with
  | none => simp
  | some c => simp [entryOf]

/-- A super type that is reached by a step or more declares the method. -/
theorem Hierarchy.inherits_ofNodes {nodes : List ClassNode} {className name desc : String} :
    (ofNodes nodes).inherits className name desc = true ↔
      ∃ n above, Reaches (Extends nodes) className (n + 1) above ∧
        Declares nodes above (name, desc) := by
  obtain ⟨_, _, hmem, _⟩ := ancestors_ofNodes nodes className
  unfold inherits
  simp only [List.any_eq_true, beq_iff_eq, hmem, declares?_ofNodes]
  constructor
  · rintro ⟨above, ⟨n, hreached⟩, hdeclares⟩
    exact ⟨n, above, hreached, hdeclares⟩
  · rintro ⟨n, above, hreached, hdeclares⟩
    exact ⟨above, ⟨n, hreached⟩, hdeclares⟩

namespace MappingTree

/-! ## A method row -/

/-- A method row with a source name and a descriptor, in a class that is known and does not
declare the method while one of its super types does. -/
def OnlyInherited (nodes : List ClassNode) (c : ClassRow) (m : MemberRow) : Prop :=
  ∃ className name desc, c.name 0 = some className ∧ m.name 0 = some name ∧
    m.srcDesc = some desc ∧ (∃ node, latest? nodes className = some node) ∧
    ¬ Hierarchy.Declares nodes className (name, desc) ∧
    ∃ n above, Reaches (Extends nodes) className (n + 1) above ∧
      Hierarchy.Declares nodes above (name, desc)

theorem isOwnMethod_eq_false {h : Hierarchy} {className : String} {m : MemberRow} :
    isOwnMethod h className m = false ↔ ∃ name desc, m.name 0 = some name ∧
      m.srcDesc = some desc ∧ h.declares? className name desc = some false ∧
      h.inherits className name desc = true := by
  unfold isOwnMethod
  cases m.name 0 with
  | none => simp
  | some name =>
    cases m.srcDesc with
    | none => simp
    | some desc => simp

/-- Whether stripping keeps a method row of a class. -/
def staysIn (h : Hierarchy) (c : ClassRow) (m : MemberRow) : Bool :=
  match c.name 0 with
  | some className => !h.contains className || isOwnMethod h className m
  | none => true

theorem staysIn_eq_false {nodes : List ClassNode} {c : ClassRow} {m : MemberRow} :
    staysIn (ofNodes nodes) c m = false ↔ OnlyInherited nodes c m := by
  unfold staysIn OnlyInherited
  cases c.name 0 with
  | none => simp
  | some className =>
    simp only [Bool.or_eq_false_iff, Bool.not_eq_false', Hierarchy.contains_ofNodes,
      isOwnMethod_eq_false, Hierarchy.inherits_ofNodes]
    constructor
    · rintro ⟨hknown, name, desc, hname, hdesc, hfalse, hinherits⟩
      refine ⟨className, name, desc, rfl, hname, hdesc, hknown, fun hdeclares => ?_, hinherits⟩
      rw [Hierarchy.declares?_ofNodes.mpr hdeclares] at hfalse
      cases hfalse
    · rintro ⟨_, name, desc, hclass, hname, hdesc, ⟨node, hnode⟩, hnot, hinherits⟩
      cases hclass
      refine ⟨⟨node, hnode⟩, name, desc, hname, hdesc, ?_, hinherits⟩
      -- The class is known, so there is an answer, and it is not that the method is declared.
      have hanswer : ((ofNodes nodes).declares? className name desc).isSome = true := by
        unfold Hierarchy.declares?
        rw [Hierarchy.entry?_ofNodes, hnode]
        rfl
      obtain ⟨answer, hsome⟩ := Option.isSome_iff_exists.mp hanswer
      cases answer with
      | false => exact hsome
      | true => exact absurd (Hierarchy.declares?_ofNodes.mp hsome) hnot

theorem stripClass_eq (h : Hierarchy) (c : ClassRow) :
    stripClass h c = { c with methods := c.methods.filter (staysIn h c) } := by
  unfold stripClass staysIn
  cases c.name 0 with
  | none => simp
  | some className =>
    by_cases hknown : h.contains className = true
    · simp [hknown]
    · simp [hknown]

/-! ## Stripping -/

theorem stripClass_stripClass (h : Hierarchy) (c : ClassRow) :
    stripClass h (stripClass h c) = stripClass h c := by
  have hstays : staysIn h (stripClass h c) = staysIn h c := by
    rw [stripClass_eq]
    rfl
  rw [stripClass_eq h (stripClass h c), hstays, stripClass_eq, List.filter_filter]
  simp

/-- The search for super types ends in every hierarchy, with the names that are reached by a
step or more, each once and the near ones first. By it, stripping drops just the method rows
that a class only inherits, leaves all else as it is, and finds nothing to drop afterwards. -/
theorem stripping_drops_just_what_is_only_inherited (nodes : List ClassNode) :
    (∀ name,
      Climb (ofNodes nodes) [] [name] ((ofNodes nodes).ancestors name) ∧
      ((ofNodes nodes).ancestors name).Nodup ∧
      (∀ above, above ∈ (ofNodes nodes).ancestors name ↔
        ∃ n, Reaches (Extends nodes) name (n + 1) above) ∧
      ((ofNodes nodes).ancestors name).Pairwise fun near far =>
        ∀ n, Reaches (Extends nodes) name (n + 1) far →
          ∃ m ≤ n, Reaches (Extends nodes) name (m + 1) near) ∧
    ∃ stays : ClassRow → MemberRow → Bool,
      (∀ c m, stays c m = false ↔ OnlyInherited nodes c m) ∧
      ∀ t : MappingTree,
        t.childMethodStrip (ofNodes nodes) = { t with
          classes := t.classes.map fun c => { c with methods := c.methods.filter (stays c) } } ∧
        (t.childMethodStrip (ofNodes nodes)).childMethodStrip (ofNodes nodes) =
          t.childMethodStrip (ofNodes nodes) := by
  refine ⟨Hierarchy.ancestors_ofNodes nodes, staysIn (ofNodes nodes), fun _ _ => staysIn_eq_false,
    fun t => ⟨?_, ?_⟩⟩
  · unfold childMethodStrip
    rw [funext (stripClass_eq (ofNodes nodes))]
  · unfold childMethodStrip
    simp only [List.map_map]
    congr 2
    exact funext (stripClass_stripClass (ofNodes nodes))

/-- Two classes that extend each other. They share an interface that is not known. -/
def loopedNodes : List ClassNode :=
  let node name superName interfaces methods : ClassNode :=
    { access := 1, name, superName, interfaces, fields := [], innerClasses := [],
      outerClass := none, side := none,
      methods := methods.map fun method => ⟨1, method, "()V", none, none⟩ }
  [node "a" (some "b") ["i"] [], node "b" (some "a") ["i", "c"] ["run"], node "c" none [] ["stop"]]

example : (ofNodes loopedNodes).ancestors "a" = ["b", "i", "a", "c"] := by decide

example : (stripClass (ofNodes loopedNodes)
    ⟨[some "a"], [], [⟨[some "run"], some "()V"⟩, ⟨[some "run"], none⟩]⟩).methods =
      [⟨[some "run"], none⟩] := by decide

end MappingTree

end JarDerivation
