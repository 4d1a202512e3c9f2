-- Renaming in a descriptor, name by name. One pass over the text asks for just the names that
-- are listed as its classes, from left to right; and the classes of what it makes are the new
-- names, so that renaming twice is renaming once by both functions.
import JarDerivation.Proofs.Remap.Descriptor
import JarDerivation.Proofs.Text.Split

namespace JarDerivation

namespace Descriptor

/-! ## The pass over the text and the pieces -/

/-- Text without an `L` is copied. -/
theorem scan_plain {l : List Char} (hl : 'L' ∉ l) (rest : List Char) :
    scan none (l ++ rest) = l.map .char ++ scan none rest := by
  induction l with
  | nil => rfl
  | cons c l ih =>
    obtain ⟨hc, hl⟩ : 'L' ≠ c ∧ 'L' ∉ l := by simpa using hl
    simp [scan, Ne.symm hc, ih hl]

section

variable {m : Type → Type} [Monad m]

def Piece.renameM (ask : String → m (Option String)) : Piece → m Piece
  | .char c => pure (.char c)
  | .reference name => do
    let new ← ask (String.ofList name)
    return .reference ((new.map String.toList).getD name)

variable [LawfulMonad m]

/-- Nothing is asked for characters that are copied. -/
theorem mapM_char (ask : String → m (Option String)) (l : List Char) (ps : List Piece) :
    (l.map Piece.char ++ ps).mapM (Piece.renameM ask) =
      (l.map Piece.char ++ ·) <$> ps.mapM (Piece.renameM ask) := by
  induction l with
  | nil => simp
  | cons c l ih =>
    rw [List.map_cons, List.cons_append, List.mapM_cons, ih]
    simp [Piece.renameM]

/-- A text in which no class follows is copied. -/
theorem mapM_copied (ask : String → m (Option String)) (l : List Char) :
    List.flatMap Piece.chars <$> (l.map Piece.char).mapM (Piece.renameM ask) = pure l := by
  have hall := mapM_char ask l []
  rw [List.append_nil] at hall
  rw [hall]
  simp [flatMap_char]

/-- The pass that looks for `L` and `;` in the text renames the pieces one after the other. -/
theorem renameFrom_eq (ask : String → m (Option String)) (text : List Char) :
    renameFrom ask text =
      List.flatMap Piece.chars <$> (scan none text).mapM (Piece.renameM ask) := by
  fun_induction renameFrom ask text with
  | case1 text hclass =>
    have hscan := scan_plain (Text.cutFirst_eq_none.mp hclass) []
    rw [List.append_nil, scan, List.append_nil] at hscan
    rw [hscan, mapM_copied]
  | case2 text before tail hclass hname =>
    obtain ⟨rfl, hbefore⟩ := Text.cutFirst_eq_some hclass
    have hpieces : scan none (before ++ 'L' :: tail) = (before ++ 'L' :: tail).map .char := by
      rw [scan_plain hbefore, scan, if_pos rfl, scan_unended (Text.cutFirst_eq_none.mp hname)]
      simp
    rw [hpieces, mapM_copied]
  | case3 text before tail hclass name rest hname _ ih =>
    obtain ⟨rfl, hbefore⟩ := Text.cutFirst_eq_some hclass
    obtain ⟨rfl, hend⟩ := Text.cutFirst_eq_some hname
    rw [scan_plain hbefore, scan, if_pos rfl, scan_reference hend, mapM_char, List.mapM_cons, ih]
    simp [Piece.renameM, flatMap_char, Piece.chars]

end

/-! ## What is asked -/

theorem run_noting (f : String → Option String) (name : String) (earlier : List String) :
    (noting f name).run earlier = pure (f name, earlier ++ [name]) := rfl

theorem run_mapM_noting (f : String → Option String) (ps : List Piece) (earlier : List String) :
    (ps.mapM (Piece.renameM (noting f))).run earlier =
      pure (ps.map (Piece.rename f), earlier ++ ps.filterMap Piece.name?) := by
  induction ps generalizing earlier with
  | nil => simp
  | cons p ps ih =>
    rw [List.mapM_cons]
    cases p with
    | char c => simp [Piece.renameM, ih, Piece.rename, List.filterMap_cons, Piece.name?]
    | reference name => simp [Piece.renameM, run_noting, ih, Piece.rename, Piece.name?]

theorem run_renameM_noting (f : String → Option String) (desc : String) (earlier : List String) :
    (renameM (noting f) desc).run earlier = pure (rename f desc, earlier ++ classes desc) := by
  unfold renameM
  rw [renameFrom_eq]
  simp [run_mapM_noting, rename, ofPieces, pieces, classes]

/-! ## What it makes -/

theorem classes_rename {f : String → Option String} (hf : Clean f) (desc : String) :
    classes (rename f desc) = (classes desc).map (newName f) := by
  unfold classes
  rw [pieces_rename hf, List.filterMap_map, List.map_filterMap]
  apply List.filterMap_congr
  intro p _
  cases p with
  | char c => rfl
  | reference name => simp [rename_reference, Piece.name?]

/-- The function is asked for the classes of the descriptor, each in its turn, and nothing else. A
function that knows no other names leaves the descriptor as it is. The classes of the renamed
descriptor are the new names, and renaming it again is renaming once by both functions. -/
theorem a_descriptor_is_renamed_class_by_class (desc : String) {f g : String → Option String}
    (hf : Clean f) :
    (∀ (ask : String → Option String) (earlier : List String),
      ((renameM (noting ask) desc).run earlier).run = (rename ask desc, earlier ++ classes desc)) ∧
    (∀ keep : String → Option String, (∀ name, keep name = none ∨ keep name = some name) →
      rename keep desc = desc) ∧
    classes (rename f desc) = (classes desc).map (newName f) ∧
    rename g (rename f desc) = rename (fun name => some (newName g (newName f name))) desc := by
  refine ⟨?_, ?_, classes_rename hf desc, rename_rename hf fun name _ => rfl⟩
  · intro ask earlier
    rw [run_renameM_noting]
    rfl
  · intro keep hkeep
    apply rename_eq_self
    intro name _
    rcases hkeep name with h | h <;> simp [newName, h]

/-- Gives the class `a` a name with an `L` in it. -/
def toLibrary : String → Option String
  | "a" => some "lib/L"
  | _ => none

theorem clean_toLibrary : Clean toLibrary := by
  intro name new h
  unfold toLibrary at h
  split at h
  · cases h
    decide
  · cases h

/-- The names of two classes have an `L` in them, and the last `L` begins no class. -/
theorem a_list_of_classes_is_renamed :
    Clean toLibrary ∧
      ((renameM (noting toLibrary) "(La;[LLL;I)La;Lopen").run []).run =
        ("(Llib/L;[LLL;I)Llib/L;Lopen", ["a", "LL", "a"]) ∧
      classes (rename toLibrary "(La;[LLL;I)La;Lopen") = ["lib/L", "LL", "lib/L"] ∧
      rename (fun _ => some "b") (rename toLibrary "(La;[LLL;I)La;Lopen") =
        "(Lb;[Lb;I)Lb;Lopen" := by
  obtain ⟨hasked, -, hclasses, htwice⟩ := a_descriptor_is_renamed_class_by_class
    "(La;[LLL;I)La;Lopen" (g := fun _ => some "b") clean_toLibrary
  refine ⟨clean_toLibrary, ?_, ?_, ?_⟩
  · rw [hasked]
    decide
  · rw [hclasses]
    decide
  · rw [htwice]
    decide

end Descriptor

end JarDerivation
