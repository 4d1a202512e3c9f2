-- How tokens of JSON are spelled, and that the lexer reads every spelling. Blanks may
-- stand between tokens. They have to where a number or a word would go on otherwise.
import JarDerivation.Json.Lexer
import JarDerivation.Json.Printer

namespace JarDerivation

namespace Json

/-! ## Strings -/

theorem hexDigit?_hexChar {n : Nat} (h : n < 16) : hexDigit? (hexChar n) = some n := by
  revert n
  decide

/-- A control character is written as its code in four digits. -/
theorem hex4?_control {n : Nat} (h : n < 0x20) :
    hex4? '0' '0' (hexChar (n / 16)) (hexChar (n % 16)) = some n := by
  have hzero : hexDigit? '0' = some 0 := rfl
  unfold hex4?
  rw [hzero, hexDigit?_hexChar (by omega : n / 16 < 16), hexDigit?_hexChar (by omega : n % 16 < 16)]
  simp only [Option.bind_eq_bind, Option.bind_some, Option.pure_def, Option.some.injEq]
  omega

/-- A character is read as itself, or as a unit with its code. -/
def Piece.Spells (p : Piece) (c : Char) : Prop :=
  p = .char c ∨ c.toNat < 0x20 ∧ p = .unit c.toNat

/-- An escaped character is one piece. -/
theorem pieces_escapeChar (c : Char) :
    ∃ p : Piece, p.Spells c ∧ ∀ rest, pieces ((escapeChar c).map some ++ rest) =
      (pieces rest).map fun (ps, left) => (p :: ps, left) := by
  by_cases hquote : c = '"'
  · exact ⟨.char c, .inl rfl, fun rest => by subst hquote; simp [escapeChar, pieces, escape?]⟩
  by_cases hback : c = '\\'
  · exact ⟨.char c, .inl rfl, fun rest => by subst hback; simp [escapeChar, pieces, escape?]⟩
  by_cases hnamed : c = '\n' ∨ c = '\r' ∨ c = '\t' ∨ c = '\x08' ∨ c = '\x0c'
  · refine ⟨.char c, .inl rfl, fun rest => ?_⟩
    rcases hnamed with rfl | rfl | rfl | rfl | rfl <;> simp [escapeChar, pieces, escape?]
  simp only [not_or] at hnamed
  by_cases hcontrol : c.toNat < 0x20
  · refine ⟨.unit c.toNat, .inr ⟨hcontrol, rfl⟩, fun rest => ?_⟩
    simp [escapeChar, hquote, hback, hnamed, hcontrol, pieces, hex4?_control hcontrol]
  · refine ⟨.char c, .inl rfl, fun rest => ?_⟩
    simp [escapeChar, hquote, hback, hnamed, hcontrol, pieces]

/-- A unit that is no half of a pair is a character, whatever comes after it. -/
theorem characters?_unit {n : Nat} (h : n < 0xD800) (ps : List Piece) :
    characters? (.unit n :: ps) = (characters? ps).map (Char.ofNat n :: ·) := by
  have hhigh : isHigh n = false := by simp [isHigh]; omega
  have hlow : isLow n = false := by simp [isLow]; omega
  cases ps with
  | nil => simp [characters?, hhigh, hlow]
  | cons p ps => cases p <;> simp [characters?, hhigh, hlow]

theorem Piece.Spells.characters? {p : Piece} {c : Char} (h : p.Spells c) (ps : List Piece) :
    Json.characters? (p :: ps) = (Json.characters? ps).map (c :: ·) := by
  rcases h with rfl | ⟨hcontrol, rfl⟩
  · rfl
  · rw [characters?_unit (by omega), Char.ofNat_toNat]

/-- A quoted text is read up to its closing quote, and as it was. -/
theorem pieces_quoted (cs : List Char) (rest : List (Option Char)) :
    ∃ ps, pieces ((cs.flatMap escapeChar).map some ++ some '"' :: rest) = some (ps, rest) ∧
      characters? ps = some cs := by
  induction cs with
  | nil => exact ⟨[], by simp [pieces], rfl⟩
  | cons c cs ih =>
    obtain ⟨ps, hps, hcs⟩ := ih
    obtain ⟨p, hp, hread⟩ := pieces_escapeChar c
    refine ⟨p :: ps, ?_, ?_⟩
    · rw [List.flatMap_cons, List.map_append, List.append_assoc, hread, hps]
      rfl
    · rw [hp.characters?, hcs]
      rfl

/-! ## Numbers -/

theorem isNumberChar_of_isDigit {c : Char} (h : isDigit c = true) : isNumberChar c = true := by
  simp [isNumberChar, h]

theorem areDigits_all {cs : List Char} (h : areDigits cs = true) : cs.all isNumberChar = true := by
  simp only [areDigits, Bool.and_eq_true, List.all_eq_true] at h ⊢
  exact fun c hc => isNumberChar_of_isDigit (h.2 c hc)

theorem isExponent_all {cs : List Char} (h : isExponent cs = true) : cs.all isNumberChar = true := by
  unfold isExponent at h
  split at h
  · exact Bool.and_eq_true_iff.mpr ⟨rfl, areDigits_all h⟩
  · exact Bool.and_eq_true_iff.mpr ⟨rfl, areDigits_all h⟩
  · exact areDigits_all h

/-- The digits in front of a list are characters of a number, and so all are if the others are. -/
theorem all_of_dropWhile {cs : List Char} (h : (cs.dropWhile isDigit).all isNumberChar = true) :
    cs.all isNumberChar = true := by
  rw [← List.takeWhile_append_dropWhile (p := isDigit) (l := cs), List.all_append, h,
    Bool.and_true, List.all_eq_true]
  intro c hc
  exact isNumberChar_of_isDigit (List.all_eq_true.mp List.all_takeWhile c hc)

theorem isNumberTail_all {cs : List Char} (h : isNumberTail cs = true) :
    cs.all isNumberChar = true := by
  unfold isNumberTail at h
  split at h
  · rfl
  · rename_i cs
    obtain ⟨_, hrest⟩ := Bool.and_eq_true_iff.mp h
    refine Bool.and_eq_true_iff.mpr ⟨rfl, all_of_dropWhile ?_⟩
    split at hrest
    · rename_i hnone
      rw [hnone]
      rfl
    · rename_i e rest hsome
      obtain ⟨he, hexp⟩ := Bool.and_eq_true_iff.mp hrest
      rw [hsome, List.all_cons, isExponent_all hexp, Bool.and_true]
      simp only [Bool.or_eq_true, beq_iff_eq] at he
      rcases he with rfl | rfl <;> rfl
  · rename_i c cs _
    obtain ⟨he, hexp⟩ := Bool.and_eq_true_iff.mp h
    rw [List.all_cons, isExponent_all hexp, Bool.and_true]
    simp only [Bool.or_eq_true, beq_iff_eq] at he
    rcases he with rfl | rfl <;> rfl

theorem isUnsigned_all {cs : List Char} (h : isUnsigned cs = true) :
    cs.all isNumberChar = true := by
  unfold isUnsigned at h
  split at h
  · exact Bool.and_eq_true_iff.mpr ⟨rfl, isNumberTail_all h⟩
  · obtain ⟨hdigit, htail⟩ := Bool.and_eq_true_iff.mp h
    rw [List.all_cons, isNumberChar_of_isDigit hdigit, all_of_dropWhile (isNumberTail_all htail)]
    rfl
  · rfl

/-- A number has characters of numbers only, and at least one. -/
theorem isNumber_cons {cs : List Char} (h : isNumber cs = true) :
    ∃ c rest, cs = c :: rest ∧ isNumberChar c = true ∧ rest.all isNumberChar = true := by
  have hall : cs.all isNumberChar = true := by
    unfold isNumber at h
    split at h
    · exact Bool.and_eq_true_iff.mpr ⟨rfl, isUnsigned_all h⟩
    · exact isUnsigned_all h
  cases cs with
  | nil => cases h
  | cons c rest => exact ⟨c, rest, rfl, Bool.and_eq_true_iff.mp hall⟩

/-! ## Single tokens -/

/-- A text that begins with these characters does not go on with a number or a word. -/
def Apart (cs : List Char) : Prop :=
  ∀ c ∈ cs.head?, isNumberChar c = false ∧ isLetter c = false

/-- A run ends where the characters of its kind do. -/
theorem run_append {p : Char → Bool} {cs rest : List Char} (hcs : cs.all p = true)
    (hrest : ∀ c ∈ rest.head?, p c = false) :
    run p (cs.map some ++ rest.map some) = (cs, rest.map some) := by
  induction cs with
  | nil =>
    cases rest with
    | nil => rfl
    | cons c rest => simp [run, hrest c rfl]
  | cons c cs ih =>
    obtain ⟨hc, hcs⟩ := Bool.and_eq_true_iff.mp hcs
    simp [run, hc, ih hcs]

theorem not_punctuation {c : Char} (h : isNumberChar c = true ∨ isLetter c = true ∨ c = '"') :
    punctuation? c = none ∧ isSpace c = false := by
  constructor
  · unfold punctuation?
    split <;> first | rfl | (revert h; decide)
  · cases hspace : isSpace c with
    | false => rfl
    | true =>
      simp only [isSpace, Bool.or_eq_true, beq_iff_eq] at hspace
      rcases hspace with ((rfl | rfl) | rfl) | rfl <;> (revert h; decide)

theorem isSpace_of_punctuation {c : Char} {t : Token} (h : punctuation? c = some t) :
    isSpace c = false := by
  unfold punctuation? at h
  split at h <;> first | rfl | cases h

theorem token?_mark {c : Char} {t : Token} (h : punctuation? c = some t)
    (rest : List (Option Char)) : token? c rest = some (t, rest) := by
  simp [token?, h]

theorem token?_text (s : String) (rest : List (Option Char)) :
    token? '"' ((s.toList.flatMap escapeChar).map some ++ some '"' :: rest) =
      some (.atom (.text s), rest) := by
  obtain ⟨ps, hps, hcs⟩ := pieces_quoted s.toList rest
  simp [token?, not_punctuation, hps, hcs, text]

theorem token?_number {c : Char} {cs rest : List Char} (h : isNumber (c :: cs) = true)
    (hrest : Apart rest) :
    token? c (cs.map some ++ rest.map some) =
      some (.atom (.number (String.ofList (c :: cs))), rest.map some) := by
  obtain ⟨_, _, heq, hc, hcs⟩ := isNumber_cons h
  cases heq
  have hrun := run_append hcs fun d hd => (hrest d hd).1
  have hquote : c ≠ '"' := by
    rintro rfl
    cases hc
  simp [token?, not_punctuation (.inl hc), hquote, hc, hrun, h]

theorem token?_word {c : Char} {cs rest : List Char} {v : Json} (h : word? (c :: cs) = some v)
    (hrest : Apart rest) :
    token? c (cs.map some ++ rest.map some) = some (.atom v, rest.map some) ∧
      isLetter c = true := by
  have hword : (c :: cs).all isLetter = true ∧ isNumberChar c = false := by
    unfold word? at h
    split at h
    · rename_i heq
      cases heq
      decide
    split at h
    · rename_i heq
      cases heq
      decide
    split at h
    · rename_i heq
      cases heq
      decide
    · cases h
  obtain ⟨hall, hnumber⟩ := hword
  obtain ⟨hc, hcs⟩ := Bool.and_eq_true_iff.mp hall
  have hrun := run_append hcs fun d hd => (hrest d hd).2
  have hquote : c ≠ '"' := by
    rintro rfl
    cases hc
  exact ⟨by simp [token?, not_punctuation (.inr (.inl hc)), hquote, hnumber, hrun, h], hc⟩

/-! ## The lexer

Each token takes a character, so the lexer never runs out of fuel, and it can be taken
apart without any. -/

theorem pieces_left {cs left : List (Option Char)} {ps : List Piece}
    (h : pieces cs = some (ps, left)) : left.length ≤ cs.length := by
  fun_induction pieces cs generalizing ps left with
  | case1 => cases h
  | case2 rest =>
    cases h
    simp
  | case3 a b c d rest n hn ih =>
    obtain ⟨⟨_, _⟩, hrest, heq⟩ := Option.map_eq_some_iff.mp h
    cases heq
    have := ih hrest
    simp only [List.length_cons]
    omega
  | case4 => cases h
  | case5 e rest _ c hc ih =>
    obtain ⟨⟨_, _⟩, hrest, heq⟩ := Option.map_eq_some_iff.mp h
    cases heq
    have := ih hrest
    simp only [List.length_cons]
    omega
  | case6 => cases h
  | case7 => cases h
  | case8 => cases h
  | case9 c rest _ _ _ _ _ ih =>
    obtain ⟨⟨_, _⟩, hrest, heq⟩ := Option.map_eq_some_iff.mp h
    cases heq
    exact Nat.le_succ_of_le (ih hrest)
  | case10 rest ih =>
    obtain ⟨⟨_, _⟩, hrest, heq⟩ := Option.map_eq_some_iff.mp h
    cases heq
    exact Nat.le_succ_of_le (ih hrest)

theorem run_left (p : Char → Bool) (cs : List (Option Char)) :
    (run p cs).2.length ≤ cs.length := by
  fun_induction run p cs with
  | case1 c rest _ cs left heq ih =>
    rw [heq] at ih
    exact Nat.le_succ_of_le ih
  | case2 => exact Nat.le_refl _
  | case3 => exact Nat.le_refl _

theorem token?_left {c : Char} {rest left : List (Option Char)} {t : Token}
    (h : token? c rest = some (t, left)) : left.length ≤ rest.length := by
  unfold token? at h
  split at h
  · cases h
    exact Nat.le_refl _
  split at h
  · obtain ⟨⟨_, _⟩, hpieces, heq⟩ := Option.map_eq_some_iff.mp h
    cases heq
    exact pieces_left hpieces
  split at h
  · have hrun := run_left isNumberChar rest
    dsimp only at h
    split at h
    · cases h
      exact hrun
    · cases h
  · have hrun := run_left isLetter rest
    obtain ⟨_, _, heq⟩ := Option.map_eq_some_iff.mp h
    cases heq
    exact hrun

/-- Any fuel above the length gives the same tokens. -/
theorem lexFrom_eq {n m : Nat} {cs : List (Option Char)} (hn : cs.length < n)
    (hm : cs.length < m) : lexFrom n cs = lexFrom m cs := by
  induction n generalizing m cs with
  | zero => cases hn
  | succ n ih =>
    obtain ⟨m, rfl⟩ : ∃ k, m = k + 1 := ⟨m - 1, by omega⟩
    cases cs with
    | nil => rfl
    | cons o rest =>
      simp only [List.length_cons] at hn hm
      cases o with
      | none => rfl
      | some c =>
        rw [lexFrom, lexFrom, ih (by omega) (by omega : rest.length < m)]
        split
        · rfl
        · cases htoken : token? c rest with
          | none => rfl
          | some found =>
            obtain ⟨t, left⟩ := found
            have hleft := token?_left htoken
            dsimp only
            rw [ih (by omega) (by omega : left.length < m)]

theorem lex_blank {c : Char} (h : isSpace c = true) (rest : List (Option Char)) :
    lex (some c :: rest) = lex rest := by
  unfold lex
  rw [List.length_cons, lexFrom, if_pos h]

theorem lex_token {c : Char} {rest left : List (Option Char)} {t : Token}
    (hspace : isSpace c = false) (h : token? c rest = some (t, left)) :
    lex (some c :: rest) = (lex left).map (t :: ·) := by
  have hleft := token?_left h
  unfold lex
  rw [List.length_cons, lexFrom, if_neg (by simp [hspace]), h]
  dsimp only
  rw [lexFrom_eq (by omega : left.length < rest.length + 1) (Nat.lt_succ_self left.length)]

/-! ## Spelled texts -/

/-- The texts that spell a list of tokens. -/
inductive Spells : List Token → List Char → Prop where
  | nothing : Spells [] []
  | blank {c : Char} {ts : List Token} {cs : List Char} :
      isSpace c = true → Spells ts cs → Spells ts (c :: cs)
  | mark {c : Char} {t : Token} {ts : List Token} {cs : List Char} :
      punctuation? c = some t → Spells ts cs → Spells (t :: ts) (c :: cs)
  | text {ts : List Token} {cs : List Char} (s : String) :
      Spells ts cs → Spells (.atom (.text s) :: ts) (quoted s ++ cs)
  | number {w : String} {ts : List Token} {cs : List Char} :
      isNumber w.toList = true → Apart cs → Spells ts cs →
        Spells (.atom (.number w) :: ts) (w.toList ++ cs)
  | word {w : List Char} {v : Json} {ts : List Token} {cs : List Char} :
      word? w = some v → Apart cs → Spells ts cs → Spells (.atom v :: ts) (w ++ cs)

/-- The lexer reads what is spelled. -/
theorem lex_spelled {ts : List Token} {cs : List Char} (h : Spells ts cs) :
    lex (cs.map some) = some ts := by
  induction h with
  | nothing => rfl
  | blank hspace _ ih => rw [List.map_cons, lex_blank hspace, ih]
  | mark hmark _ ih =>
    rw [List.map_cons, lex_token (isSpace_of_punctuation hmark) (token?_mark hmark _), ih]
    rfl
  | text s _ ih =>
    have hspace : isSpace '"' = false := rfl
    simp only [quoted, List.cons_append, List.append_assoc, List.map_cons, List.map_append,
      List.nil_append]
    rw [lex_token hspace (token?_text s _), ih]
    rfl
  | @number w ts cs hw hapart _ ih =>
    obtain ⟨c, rest, heq, hc, _⟩ := isNumber_cons hw
    rw [heq] at hw
    rw [heq, List.cons_append, List.map_cons, List.map_append,
      lex_token (not_punctuation (.inl hc)).2 (token?_number hw hapart), ih, ← heq,
      String.ofList_toList]
    rfl
  | @word w v ts cs hw hapart _ ih =>
    cases w with
    | nil => cases hw
    | cons c rest =>
      obtain ⟨htoken, hc⟩ := token?_word hw hapart
      rw [List.cons_append, List.map_cons, List.map_append,
        lex_token (not_punctuation (.inr (.inl hc))).2 htoken, ih]
      rfl

end Json

end JarDerivation
