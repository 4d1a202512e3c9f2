-- What is documented of regular expressions, as far as globs need it: what the text of a pattern
-- says, and where a pattern has a match. A library may refuse a pattern, but it may not read it in
-- another way. The small library keeps to that.
import JarDerivation.Regex

namespace JarDerivation

namespace Regex

/-! ## Where a pattern has a match -/

/-- A pattern matches some of a text, from its front on. `atStart` tells whether nothing is before
that text. -/
def Matches : List Piece → Bool → List Char → Prop
  | [], _, _ => True
  | .start :: ps, atStart, text => atStart = true ∧ Matches ps atStart text
  | .stop :: ps, atStart, text => text = [] ∧ Matches ps atStart text
  | .one s :: ps, _, text => ∃ c rest, text = c :: rest ∧ s.admits c = true ∧ Matches ps false rest
  | .many s :: ps, atStart, text => ∃ run rest, text = run ++ rest ∧
    (∀ c ∈ run, s.admits c = true) ∧ Matches ps (atStart && run.isEmpty) rest

/-- A pattern has a match somewhere in a text. -/
def Found (ps : List Piece) (text : List Char) : Prop :=
  ∃ before after, text = before ++ after ∧ Matches ps before.isEmpty after

/-! ## How a pattern is spelled -/

/-- The spelling of a set of characters. -/
inductive SetSpelled : List Char → CharSet → Prop where
  | dot : SetSpelled ['.'] .dot
  | except {c : Char} : isMeta c = false → SetSpelled ['[', '^', c, ']'] (.except c)

/-- The spelling of a pattern, one piece after the other. `escape` spells a text that is to be
taken literally. -/
inductive Spelled (escape : String → String) : List Char → List Piece → Prop where
  | nothing : Spelled escape [] []
  | start {p : List Char} {ps : List Piece} :
    Spelled escape p ps → Spelled escape ('^' :: p) (.start :: ps)
  | stop {p : List Char} {ps : List Piece} :
    Spelled escape p ps → Spelled escape ('$' :: p) (.stop :: ps)
  | one {a p : List Char} {s : CharSet} {ps : List Piece} :
    SetSpelled a s → Spelled escape p ps → Spelled escape (a ++ p) (.one s :: ps)
  | many {a p : List Char} {s : CharSet} {ps : List Piece} :
    SetSpelled a s → Spelled escape p ps → Spelled escape (a ++ '*' :: p) (.many s :: ps)
  | literal {p : List Char} {ps : List Piece} (text : String) : Spelled escape p ps →
    Spelled escape ((escape text).toList ++ p) (text.toList.map (fun c => .one (.only c)) ++ ps)

end Regex

/-- What is documented of a library: a pattern that it compiles is looked for anywhere in a text,
and the pattern is read as it is spelled. -/
structure RegexLibrary.Documented (lib : RegexLibrary) : Prop where
  found : ∀ {pattern : String} {ps : List Regex.Piece} {isMatch : String → Bool},
    Regex.Spelled lib.escape pattern.toList ps → lib.compile pattern = .ok isMatch →
      ∀ text, isMatch text = true ↔ Regex.Found ps text.toList

namespace Regex

/-! ## The small library: reading -/

theorem lexemes_literal (c : Char) (p : List Char) :
    lexemes ((if isMeta c then ['\\', c] else [c]) ++ p) =
      (Lexeme.set (.only c) :: ·) <$> lexemes p := by
  cases hmeta : isMeta c with
  | true =>
    show lexemes ('\\' :: c :: p) = _
    rw [lexemes, if_pos hmeta]
  | false =>
    have hplain : ∀ d, isMeta d = true → c ≠ d := by
      rintro d hd rfl
      rw [hmeta] at hd
      cases hd
    show lexemes (c :: p) = _
    rw [lexemes, hmeta]
    · rfl
    -- each other reading begins with a special character
    · exact hplain '^' rfl
    · exact hplain '$' rfl
    · exact hplain '*' rfl
    · exact hplain '.' rfl
    · exact fun _ _ h => absurd h (hplain '[' rfl)
    · exact fun _ _ h => absurd h (hplain '\\' rfl)

theorem pieces_one {s : CharSet} {ls : List Lexeme} (h : ∀ rest, ls ≠ .star :: rest) :
    pieces (.set s :: ls) = (Piece.one s :: ·) <$> pieces ls := by
  cases ls with
  | nil => rfl
  | cons l rest =>
    cases l with
    | star => exact absurd rfl (h rest)
    | start => rfl
    | stop => rfl
    | set s => rfl

/-- A pattern is read as it is spelled, and what comes first in it is no star. -/
theorem lexemes_of_spelled {p : List Char} {ps : List Piece} (h : Spelled escape p ps) :
    ∃ ls, lexemes p = some ls ∧ pieces ls = some ps ∧ ∀ rest, ls ≠ .star :: rest := by
  induction h with
  | nothing => exact ⟨[], rfl, rfl, nofun⟩
  | start _ ih =>
    obtain ⟨ls, hls, hps, -⟩ := ih
    exact ⟨.start :: ls, by rw [lexemes, hls]; rfl, by rw [pieces, hps]; rfl, nofun⟩
  | stop _ ih =>
    obtain ⟨ls, hls, hps, -⟩ := ih
    exact ⟨.stop :: ls, by rw [lexemes, hls]; rfl, by rw [pieces, hps]; rfl, nofun⟩
  | @one a p s ps hset _ ih =>
    obtain ⟨ls, hls, hps, hstar⟩ := ih
    refine ⟨.set s :: ls, ?_, by rw [pieces_one hstar, hps]; rfl, nofun⟩
    cases hset with
    | dot =>
      show lexemes ('.' :: p) = _
      rw [lexemes, hls]
      rfl
    | @except c hmeta =>
      show lexemes ('[' :: '^' :: c :: ']' :: p) = _
      rw [lexemes, hmeta, hls]
      rfl
  | @many a p s ps hset _ ih =>
    obtain ⟨ls, hls, hps, -⟩ := ih
    refine ⟨.set s :: .star :: ls, ?_, by rw [pieces, hps]; rfl, nofun⟩
    cases hset with
    | dot =>
      show lexemes ('.' :: '*' :: p) = _
      rw [lexemes, lexemes, hls]
      rfl
    | @except c hmeta =>
      show lexemes ('[' :: '^' :: c :: ']' :: '*' :: p) = _
      rw [lexemes, hmeta, lexemes, hls]
      rfl
  | @literal p ps text _ ih =>
    unfold escape
    rw [String.toList_ofList]
    induction text.toList with
    | nil => exact ih
    | cons c rest ih' =>
      obtain ⟨ls, hls, hps, hstar⟩ := ih'
      refine ⟨.set (.only c) :: ls, ?_, by rw [pieces_one hstar, hps]; rfl, nofun⟩
      rw [List.flatMap_cons, List.append_assoc, lexemes_literal, hls]
      rfl

/-! ## The small library: matching -/

/-- A row says of a pattern, and of each end of it, whether that matches. -/
def Right : List Piece → Bool → List Char → List Bool → Prop
  | [], _, _, row => row = [true]
  | p :: ps, atStart, text, row => ∃ here rest, row = here :: rest ∧
    (here = true ↔ Matches (p :: ps) atStart text) ∧ Right ps atStart text rest

variable {ps : List Piece} {atStart : Bool} {text : List Char} {row : List Bool}

theorem Right.headD (h : Right ps atStart text row) :
    row.headD false = true ↔ Matches ps atStart text := by
  cases ps with
  | nil =>
    rw [show row = [true] from h]
    exact ⟨fun _ => trivial, fun _ => rfl⟩
  | cons p ps =>
    obtain ⟨here, rest, rfl, hhere, -⟩ := h
    exact hhere

theorem right_rowAtEnd (atStart : Bool) (ps : List Piece) :
    Right ps atStart [] (rowAtEnd atStart ps) := by
  induction ps with
  | nil => rfl
  | cons p ps ih =>
    refine ⟨_, _, rfl, ?_, ih⟩
    cases p with
    | start =>
      rw [Matches, Bool.and_eq_true, ih.headD]
    | stop =>
      rw [Matches, ih.headD]
      exact (and_iff_right rfl).symm
    | one s => simp [Matches]
    | many s =>
      rw [ih.headD]
      constructor
      · intro h
        exact ⟨[], [], rfl, List.forall_mem_nil _, by simpa using h⟩
      · rintro ⟨run, rest, hsplit, -, h⟩
        obtain ⟨rfl, rfl⟩ := List.append_eq_nil_iff.mp hsplit.symm
        simpa using h

/-- A run of characters is empty, or it begins with one and goes on behind it. -/
theorem matches_many_cons {s : CharSet} {c : Char} :
    Matches (.many s :: ps) atStart (c :: text) ↔
      Matches ps atStart (c :: text) ∨ s.admits c = true ∧ Matches (.many s :: ps) false text := by
  constructor
  · rintro ⟨run, rest, hsplit, hrun, h⟩
    cases run with
    | nil =>
      left
      rw [hsplit]
      simpa using h
    | cons d run =>
      obtain ⟨rfl, rfl⟩ := List.cons.inj hsplit
      obtain ⟨hc, hrun⟩ := List.forall_mem_cons.mp hrun
      exact .inr ⟨hc, run, rest, rfl, hrun, by simpa using h⟩
  · rintro (h | ⟨hc, run, rest, rfl, hrun, h⟩)
    · exact ⟨[], c :: text, rfl, List.forall_mem_nil _, by simpa using h⟩
    · exact ⟨c :: run, rest, rfl, List.forall_mem_cons.mpr ⟨hc, hrun⟩, by simpa using h⟩

theorem right_rowBefore {c : Char} (h : Right ps false text row) :
    Right ps atStart (c :: text) (rowBefore atStart c ps row) := by
  induction ps generalizing row with
  | nil => rfl
  | cons p ps ih =>
    have hnext := h.headD
    obtain ⟨here, rest, rfl, -, hrest⟩ := h
    refine ⟨_, _, rfl, ?_, ih hrest⟩
    have hlater := hrest.headD
    have hsame := (ih hrest).headD
    rw [List.tail_cons]
    cases p with
    | start =>
      rw [Matches, Bool.and_eq_true, hsame]
    | stop => simp [Matches]
    | one s =>
      rw [Bool.and_eq_true, hlater]
      constructor
      · intro hc
        exact ⟨c, text, rfl, hc⟩
      · rintro ⟨d, later, hsplit, hd⟩
        obtain ⟨rfl, rfl⟩ := List.cons.inj hsplit
        exact hd
    | many s =>
      rw [matches_many_cons, ← hsame, ← hnext, Bool.or_eq_true, Bool.and_eq_true]

theorem right_rows : Right ps atStart text ((rows ps atStart text).headD []) := by
  induction text generalizing atStart with
  | nil => exact right_rowAtEnd atStart ps
  | cons c rest ih => exact right_rowBefore ih

theorem any_rows_iff : (rows ps atStart text).any (·.headD false) = true ↔
    ∃ before after, text = before ++ after ∧ Matches ps (atStart && before.isEmpty) after := by
  induction text generalizing atStart with
  | nil =>
    have hrow : Right ps atStart [] (rowAtEnd atStart ps) := right_rowAtEnd atStart ps
    rw [rows, List.any_cons, List.any_nil, Bool.or_false, hrow.headD]
    constructor
    · intro h
      exact ⟨[], [], rfl, by simpa using h⟩
    · rintro ⟨before, after, hsplit, h⟩
      obtain ⟨rfl, rfl⟩ := List.append_eq_nil_iff.mp hsplit.symm
      simpa using h
  | cons c rest ih =>
    have hrow : Right ps atStart (c :: rest) ((rows ps atStart (c :: rest)).headD []) := right_rows
    have hhead := hrow.headD
    rw [rows, List.headD_cons] at hhead
    rw [rows, List.any_cons, Bool.or_eq_true, hhead, ih]
    constructor
    · rintro (h | ⟨before, after, rfl, h⟩)
      · exact ⟨[], c :: rest, rfl, by simpa using h⟩
      · exact ⟨c :: before, after, rfl, by simpa using h⟩
    · rintro ⟨before, after, hsplit, h⟩
      cases before with
      | nil =>
        left
        rw [hsplit]
        simpa using h
      | cons d before =>
        obtain ⟨rfl, rfl⟩ := List.cons.inj hsplit
        exact .inr ⟨before, after, rfl, by simpa using h⟩

theorem isMatch_iff {ps : List Piece} {text : String} :
    isMatch ps text = true ↔ Found ps text.toList := by
  unfold isMatch
  rw [any_rows_iff]
  simp [Found]

end Regex

namespace RegexLibrary

theorem compile_plain {pattern : String} {ps : List Regex.Piece}
    (h : Regex.Spelled Regex.escape pattern.toList ps) :
    plain.compile pattern = .ok (Regex.isMatch ps) := by
  obtain ⟨ls, hls, hps, -⟩ := Regex.lexemes_of_spelled h
  have hparse : Regex.parse pattern = some ps := by rw [Regex.parse, hls, Option.bind_some, hps]
  unfold plain
  dsimp only
  rw [hparse]

/-- The small library reads patterns and looks for them as it is documented. -/
theorem documented_plain : plain.Documented := by
  constructor
  intro pattern ps isMatch hspelled hcompile text
  rw [compile_plain hspelled] at hcompile
  cases hcompile
  exact Regex.isMatch_iff

end RegexLibrary

end JarDerivation
