-- What globs stand for. A glob is read from left to right, and each wildcard may stand for any
-- run of characters of its kind. The pattern of a glob spells this out between two anchors, so a
-- library that keeps to what is documented of patterns includes a class name just when one of the
-- globs stands for the whole of it.
import JarDerivation.Glob
import JarDerivation.Proofs.Merge.Patterns
import JarDerivation.Proofs.Outcome
import Mathlib.Data.List.Basic

namespace JarDerivation

namespace Glob

/-- The texts that a glob stands for: two stars for any text, a single star for any text without
a slash, a question mark for one character other than a slash, and each other character for
itself. -/
inductive StandsFor : List Char → List Char → Prop where
  | nothing : StandsFor [] []
  | anything {glob rest : List Char} (run : List Char) :
    StandsFor glob rest → StandsFor ('*' :: '*' :: glob) (run ++ rest)
  | segment {glob rest : List Char} (run : List Char) :
    glob.head? ≠ some '*' → '/' ∉ run → StandsFor glob rest → StandsFor ('*' :: glob) (run ++ rest)
  | one {c : Char} {glob rest : List Char} :
    c ≠ '/' → StandsFor glob rest → StandsFor ('?' :: glob) (c :: rest)
  | itself {c : Char} {glob rest : List Char} :
    c ≠ '*' → c ≠ '?' → StandsFor glob rest → StandsFor (c :: glob) (c :: rest)

/-! ## Reading the glob -/

theorem standsFor_anything {glob text : List Char} :
    StandsFor ('*' :: '*' :: glob) text ↔ ∃ run rest, text = run ++ rest ∧ StandsFor glob rest := by
  constructor
  · intro h
    cases h with
    | anything run h => exact ⟨run, _, rfl, h⟩
    | segment run hhead => exact absurd rfl hhead
    | itself hstar => exact absurd rfl hstar
  · rintro ⟨run, rest, rfl, h⟩
    exact .anything run h

theorem standsFor_segment {glob text : List Char} (hhead : glob.head? ≠ some '*') :
    StandsFor ('*' :: glob) text ↔
      ∃ run rest, text = run ++ rest ∧ '/' ∉ run ∧ StandsFor glob rest := by
  constructor
  · intro h
    cases h with
    | anything run h => exact absurd rfl hhead
    | segment run _ hrun h => exact ⟨run, _, rfl, hrun, h⟩
    | itself hstar => exact absurd rfl hstar
  · rintro ⟨run, rest, rfl, hrun, h⟩
    exact .segment run hhead hrun h

theorem standsFor_one {glob text : List Char} :
    StandsFor ('?' :: glob) text ↔ ∃ c rest, text = c :: rest ∧ c ≠ '/' ∧ StandsFor glob rest := by
  constructor
  · intro h
    cases h with
    | one hc h => exact ⟨_, _, rfl, hc, h⟩
    | itself _ hmark => exact absurd rfl hmark
  · rintro ⟨c, rest, rfl, hc, h⟩
    exact .one hc h

theorem standsFor_itself {c : Char} {glob text : List Char} (hstar : c ≠ '*') (hmark : c ≠ '?') :
    StandsFor (c :: glob) text ↔ ∃ rest, text = c :: rest ∧ StandsFor glob rest := by
  constructor
  · intro h
    cases h with
    | anything => exact absurd rfl hstar
    | segment => exact absurd rfl hstar
    | one => exact absurd rfl hmark
    | itself _ _ h => exact ⟨_, rfl, h⟩
  · rintro ⟨rest, rfl, h⟩
    exact .itself hstar hmark h

theorem standsFor_nothing {text : List Char} : StandsFor [] text ↔ text = [] := by
  constructor
  · rintro ⟨⟩
    rfl
  · rintro rfl
    exact .nothing

/-! ## The pattern of a glob -/

/-- What the pattern of a glob says, without the anchors. -/
def bodyPieces : List Char → List Regex.Piece
  | [] => []
  | '*' :: '*' :: rest => .many .dot :: bodyPieces rest
  | '*' :: rest => .many (.except '/') :: bodyPieces rest
  | '?' :: rest => .one (.except '/') :: bodyPieces rest
  | c :: rest => .one (.only c) :: bodyPieces rest

theorem spelled_body {lib : RegexLibrary} {p : List Char} {ps : List Regex.Piece}
    (glob : List Char) (h : Regex.Spelled lib.escape p ps) :
    Regex.Spelled lib.escape ((body lib glob).toList ++ p) (bodyPieces glob ++ ps) := by
  fun_induction bodyPieces glob with
  | case1 => exact h
  | case2 rest ih =>
    rw [body, String.toList_append, List.append_assoc]
    exact .many .dot ih
  | case3 rest hsingle ih =>
    rw [body, String.toList_append, List.append_assoc]
    · exact .many (.except rfl) ih
    · exact hsingle
  | case4 rest ih =>
    rw [body, String.toList_append, List.append_assoc]
    exact .one (.except rfl) ih
  | case5 c rest hpair hstar hmark ih =>
    have hc := Regex.Spelled.literal (String.singleton c) ih
    rw [String.toList_singleton] at hc
    rw [body, String.toList_append, List.append_assoc]
    · exact hc
    · exact hpair
    · exact hstar
    · exact hmark

theorem spelled_pattern (lib : RegexLibrary) (glob : String) :
    Regex.Spelled lib.escape (pattern lib glob).toList
      (.start :: (bodyPieces glob.toList ++ [.stop])) := by
  rw [pattern, String.toList_append, String.toList_append, List.append_assoc]
  exact .start (spelled_body glob.toList (.stop .nothing))

/-- What the pattern says up to the end of a text without a line feed is what the glob stands
for. -/
theorem matches_bodyPieces_iff {glob text : List Char} {atStart : Bool} (htext : '\n' ∉ text) :
    Regex.Matches (bodyPieces glob ++ [.stop]) atStart text ↔ StandsFor glob text := by
  fun_induction bodyPieces glob generalizing text atStart with
  | case1 =>
    rw [standsFor_nothing]
    exact and_iff_left trivial
  | case2 glob ih =>
    rw [standsFor_anything]
    -- a run of a text without a line feed has none either
    constructor
    · rintro ⟨run, rest, rfl, -, h⟩
      exact ⟨run, rest, rfl, (ih fun hrest => htext (List.mem_append_right _ hrest)).mp h⟩
    · rintro ⟨run, rest, rfl, h⟩
      refine ⟨run, rest, rfl, ?_, (ih fun hrest => htext (List.mem_append_right _ hrest)).mpr h⟩
      intro c hc
      exact bne_iff_ne.mpr fun heq => htext (List.mem_append_left _ (heq ▸ hc))
  | case3 glob hsingle ih =>
    have hhead : glob.head? ≠ some '*' := by
      intro h
      obtain ⟨rest, rfl⟩ := List.head?_eq_some_iff.mp h
      exact hsingle rest rfl
    rw [standsFor_segment hhead]
    constructor
    · rintro ⟨run, rest, rfl, hrun, h⟩
      refine ⟨run, rest, rfl, ?_, (ih fun hrest => htext (List.mem_append_right _ hrest)).mp h⟩
      intro hslash
      exact bne_iff_ne.mp (hrun '/' hslash) rfl
    · rintro ⟨run, rest, rfl, hrun, h⟩
      refine ⟨run, rest, rfl, ?_, (ih fun hrest => htext (List.mem_append_right _ hrest)).mpr h⟩
      intro c hc
      exact bne_iff_ne.mpr fun heq => hrun (heq ▸ hc)
  | case4 glob ih =>
    rw [standsFor_one]
    constructor
    · rintro ⟨c, rest, rfl, hc, h⟩
      exact ⟨c, rest, rfl, bne_iff_ne.mp hc, (ih (List.not_mem_of_not_mem_cons htext)).mp h⟩
    · rintro ⟨c, rest, rfl, hc, h⟩
      exact ⟨c, rest, rfl, bne_iff_ne.mpr hc, (ih (List.not_mem_of_not_mem_cons htext)).mpr h⟩
  | case5 c glob _ hstar hmark ih =>
    rw [standsFor_itself hstar hmark]
    constructor
    · rintro ⟨d, rest, rfl, hd, h⟩
      obtain rfl : d = c := beq_iff_eq.mp hd
      exact ⟨rest, rfl, (ih (List.not_mem_of_not_mem_cons htext)).mp h⟩
    · rintro ⟨rest, rfl, h⟩
      exact ⟨c, rest, rfl, beq_self_eq_true c, (ih (List.not_mem_of_not_mem_cons htext)).mpr h⟩

/-- The first anchor leaves no other place for the pattern than the front of a text. -/
theorem found_pattern_iff {glob text : List Char} (htext : '\n' ∉ text) :
    Regex.Found (.start :: (bodyPieces glob ++ [.stop])) text ↔ StandsFor glob text := by
  have hbody : Regex.Matches (bodyPieces glob ++ [.stop]) true text ↔ StandsFor glob text :=
    matches_bodyPieces_iff htext
  rw [← hbody]
  constructor
  · rintro ⟨before, after, rfl, hstart, h⟩
    obtain rfl : before = [] := List.isEmpty_iff.mp hstart
    exact h
  · intro h
    exact ⟨[], text, rfl, rfl, h⟩

end Glob

namespace IncludeFilter

variable {lib : RegexLibrary} {globs : List String} {f : IncludeFilter}

/-- A compiled glob tells of a text without a line feed whether the glob stands for it. -/
theorem isMatch_iff_of_compile (hlib : lib.Documented) {glob : String} {isMatch : String → Bool}
    (h : compile lib glob = .ok isMatch) {text : String} (htext : '\n' ∉ text.toList) :
    isMatch text = true ↔ Glob.StandsFor glob.toList text.toList := by
  rw [← Glob.found_pattern_iff htext]
  apply hlib.found (Glob.spelled_pattern lib glob)
  unfold compile at h
  cases hcompile : lib.compile (Glob.pattern lib glob) with
  | error reason => rw [hcompile] at h; cases h
  | ok found => rw [hcompile] at h; cases h; rfl

/-- A class is included when there are no globs, and otherwise just when a glob stands for its
whole name. -/
theorem a_class_is_included_just_when_a_glob_stands_for_its_name (hlib : lib.Documented)
    (hf : ofGlobs lib globs = .ok f) {className : String} (h : '\n' ∉ className.toList) :
    f.includes className = true ↔
      globs = [] ∨ ∃ g ∈ globs, Glob.StandsFor g.toList className.toList := by
  obtain ⟨patterns, hpatterns, hf⟩ := ok_of_bind hf
  cases hf
  have hmap : globs.map (compile lib) = patterns.map .ok := map_eq_of_mapM hpatterns
  unfold includes
  rw [Bool.or_eq_true, List.isEmpty_iff, List.any_eq_true]
  apply or_congr
  · rw [← List.map_eq_nil_iff (f := compile lib), hmap, List.map_eq_nil_iff]
  constructor
  · rintro ⟨isMatch, hmem, hmatch⟩
    obtain ⟨g, hg, hcompile⟩ := List.mem_map.mp (hmap ▸ List.mem_map_of_mem hmem)
    exact ⟨g, hg, (isMatch_iff_of_compile hlib hcompile h).mp hmatch⟩
  · rintro ⟨g, hg, hstands⟩
    obtain ⟨isMatch, hmem, hcompile⟩ := List.mem_map.mp (hmap ▸ List.mem_map_of_mem hg)
    exact ⟨isMatch, hmem, (isMatch_iff_of_compile hlib hcompile.symm h).mpr hstands⟩

/-- The small library has a pattern for each glob. -/
theorem ofGlobs_plain (globs : List String) : ofGlobs .plain globs =
    .ok ⟨globs.map fun g => Regex.isMatch (.start :: (Glob.bodyPieces g.toList ++ [.stop]))⟩ := by
  have hcompile : compile .plain = fun g =>
      pure (Regex.isMatch (.start :: (Glob.bodyPieces g.toList ++ [.stop]))) := by
    funext g
    rw [compile, RegexLibrary.compile_plain (Glob.spelled_pattern .plain g)]
    rfl
  rw [ofGlobs, hcompile, List.mapM_pure]
  rfl

/-- A glob with a run of three stars and with characters that stand for themselves only. -/
theorem a_nested_class_is_included : RegexLibrary.plain.Documented ∧
    ∃ f, ofGlobs .plain ["*", "net/***.?/W*$1"] = .ok f ∧
      '\n' ∉ "net/a.b/World$1".toList ∧ f.includes "net/a.b/World$1" = true ∧
      (∃ g ∈ ["*", "net/***.?/W*$1"], Glob.StandsFor g.toList "net/a.b/World$1".toList) ∧
      '\n' ∉ "net/a+b/World$1".toList ∧ f.includes "net/a+b/World$1" = false ∧
      ¬ ∃ g ∈ ["*", "net/***.?/W*$1"], Glob.StandsFor g.toList "net/a+b/World$1".toList := by
  have hname := a_class_is_included_just_when_a_glob_stands_for_its_name
    RegexLibrary.documented_plain (ofGlobs_plain ["*", "net/***.?/W*$1"])
    (show '\n' ∉ "net/a.b/World$1".toList by decide)
  have hother := a_class_is_included_just_when_a_glob_stands_for_its_name
    RegexLibrary.documented_plain (ofGlobs_plain ["*", "net/***.?/W*$1"])
    (show '\n' ∉ "net/a+b/World$1".toList by decide)
  refine ⟨RegexLibrary.documented_plain, _, ofGlobs_plain _, by decide, by decide, ?_, by decide,
    by decide, fun hstands => ?_⟩
  · exact (hname.mp (by decide)).resolve_left (by decide)
  · exact absurd (hother.mpr (.inr hstands)) (by decide)

end IncludeFilter

end JarDerivation
