-- The laws of words and lines. Words that are joined by blanks are cut apart again, and
-- lines that are ended one by one are read again; what is cut out of a text is part of it.
import JarDerivation.Text.Blank
import JarDerivation.Text.Lines
import Mathlib.Data.List.DropRight

namespace JarDerivation

namespace Text

/-! ## Words -/

/-- A text that is cut out as one word. -/
def IsWord (cs : List Char) : Prop := cs ≠ [] ∧ ∀ c ∈ cs, isBlank c = false

/-- Words side by side. -/
def joined (ws : List (List Char)) : List Char := [' '].intercalate ws

variable {cs w : List Char} {ws : List (List Char)}

theorem joined_singleton (w : List Char) : joined [w] = w := List.intercalate_singleton

theorem joined_cons_cons (w next : List Char) (rest : List (List Char)) :
    joined (w :: next :: rest) = w ++ ' ' :: joined (next :: rest) := by
  unfold joined
  rw [List.intercalate_cons_cons]
  simp

theorem wordsFrom_append (word : List Char) (hw : ∀ c ∈ w, isBlank c = false) (rest : List Char) :
    wordsFrom word (w ++ rest) = wordsFrom (w.reverse ++ word) rest := by
  induction w generalizing word with
  | nil => rfl
  | cons c w ih =>
    obtain ⟨hc, hw⟩ := List.forall_mem_cons.mp hw
    rw [List.cons_append, wordsFrom, hc, if_neg Bool.false_ne_true, ih _ hw]
    simp

theorem words_joined (h : ∀ w ∈ ws, IsWord w) : words (joined ws) = ws := by
  unfold words
  induction ws with
  | nil => rfl
  | cons w rest ih =>
    obtain ⟨⟨hne, hw⟩, hrest⟩ := List.forall_mem_cons.mp h
    cases rest with
    | nil =>
      have hend := wordsFrom_append [] hw []
      simpa [joined_singleton, wordsFrom, hne] using hend
    | cons next rest =>
      have hblank : isBlank ' ' = true := rfl
      rw [joined_cons_cons, wordsFrom_append [] hw, wordsFrom, hblank, ih hrest]
      simp [hne]

theorem isWord_of_mem_wordsFrom {word : List Char} (hword : ∀ c ∈ word, isBlank c = false)
    (h : w ∈ wordsFrom word cs) : IsWord w := by
  have hdone : word ≠ [] → IsWord word.reverse := fun hne => ⟨by simpa using hne, by simpa using hword⟩
  induction cs generalizing word with
  | nil =>
    rw [wordsFrom] at h
    split at h
    · cases h
    · rename_i hne
      rw [List.mem_singleton.mp h]
      exact hdone (by simpa using hne)
  | cons c rest ih =>
    rw [wordsFrom] at h
    split at h
    · split at h
      · exact ih (List.forall_mem_nil _) h (absurd rfl)
      · rename_i hne
        rcases List.mem_cons.mp h with rfl | h
        · exact hdone (by simpa using hne)
        · exact ih (List.forall_mem_nil _) h (absurd rfl)
    · rename_i hc
      have hnext : ∀ d ∈ c :: word, isBlank d = false :=
        List.forall_mem_cons.mpr ⟨by simpa using hc, hword⟩
      refine ih hnext h fun _ => ⟨by simp, fun d hd => hnext d ?_⟩
      exact List.mem_reverse.mp hd

theorem mem_of_mem_wordsFrom {word : List Char} (h : w ∈ wordsFrom word cs) {c : Char}
    (hc : c ∈ w) : c ∈ word ∨ c ∈ cs := by
  induction cs generalizing word with
  | nil =>
    rw [wordsFrom] at h
    split at h
    · cases h
    · rw [List.mem_singleton.mp h] at hc
      exact .inl (List.mem_reverse.mp hc)
  | cons d rest ih =>
    have hmore : w ∈ wordsFrom [] rest → c ∈ word ∨ c ∈ d :: rest := fun hw =>
      .inr (List.mem_cons_of_mem d ((ih hw).resolve_left List.not_mem_nil))
    rw [wordsFrom] at h
    split at h
    · split at h
      · exact hmore h
      · rcases List.mem_cons.mp h with rfl | h
        · exact .inl (List.mem_reverse.mp hc)
        · exact hmore h
    · rcases ih h with hc | hc
      · rcases List.mem_cons.mp hc with rfl | hc
        · exact .inr List.mem_cons_self
        · exact .inl hc
      · exact .inr (List.mem_cons_of_mem d hc)

theorem isWord_of_mem_words (h : w ∈ words cs) : IsWord w := isWord_of_mem_wordsFrom (List.forall_mem_nil _) h

theorem mem_of_mem_words (h : w ∈ words cs) {c : Char} (hc : c ∈ w) : c ∈ cs :=
  (mem_of_mem_wordsFrom h hc).resolve_left List.not_mem_nil

/-! ## Ends -/

theorem mem_of_mem_trim {c : Char} (h : c ∈ trim cs) : c ∈ cs := by
  unfold trim trimEnd trimStart at h
  have hstart := List.mem_reverse.mp ((List.dropWhile_sublist _).subset (List.mem_reverse.mp h))
  exact (List.dropWhile_sublist _).subset hstart

theorem trimStart_eq_self_iff : trimStart cs = cs ↔ ∀ c ∈ cs.head?, isBlank c = false := by
  cases cs with
  | nil => simp [trimStart]
  | cons c rest =>
    cases hc : isBlank c with
    | false => simp [trimStart, hc]
    | true =>
      have hshort : (trimStart rest).length ≤ rest.length := (List.dropWhile_sublist _).length_le
      constructor
      · intro h
        have hlength := congrArg List.length h
        simp only [trimStart, List.dropWhile_cons, hc, if_true, List.length_cons] at hlength hshort
        omega
      · intro h
        have := h c rfl
        rw [hc] at this
        cases this

theorem head?_trimStart (cs : List Char) : ∀ c ∈ (trimStart cs).head?, isBlank c = false := by
  intro c hc
  have h := List.head?_dropWhile_not isBlank cs
  unfold trimStart at hc
  rw [Option.mem_def.mp hc] at h
  exact h

theorem trimEnd_isPrefix (cs : List Char) : trimEnd cs <+: cs := by
  unfold trimEnd
  rw [← List.reverse_suffix, List.reverse_reverse]
  exact List.dropWhile_suffix _

theorem trimEnd_trimEnd (cs : List Char) : trimEnd (trimEnd cs) = trimEnd cs := by
  unfold trimEnd
  rw [List.reverse_reverse, List.dropWhile_idempotent]

/-- Nothing is left to trim. -/
theorem trim_trim (cs : List Char) : trim (trim cs) = trim cs := by
  have hstart : trimStart (trim cs) = trim cs := by
    rw [trimStart_eq_self_iff]
    intro c hc
    obtain ⟨tail, htail⟩ := trimEnd_isPrefix (trimStart cs)
    refine head?_trimStart cs c ?_
    rw [← htail]
    unfold trim at hc
    rw [List.head?_append, Option.mem_def.mp hc]
    rfl
  conv_lhs => rw [trim, hstart]
  exact trimEnd_trimEnd _

theorem head?_of_trim_eq (h : trim cs = cs) : ∀ c ∈ cs.head?, isBlank c = false := by
  rw [← trimStart_eq_self_iff]
  apply (List.dropWhile_suffix _).eq_of_length_le
  calc cs.length = (trim cs).length := by rw [h]
    _ ≤ _ := (trimEnd_isPrefix _).length_le

/-- Joined words begin and end with a character that is not blank. -/
theorem ends_of_joined (h : ∀ w ∈ ws, IsWord w) (hne : ws ≠ []) :
    (∃ c rest, joined ws = c :: rest ∧ isBlank c = false) ∧
      ∃ init c, joined ws = init ++ [c] ∧ isBlank c = false := by
  induction ws with
  | nil => exact absurd rfl hne
  | cons w rest ih =>
    obtain ⟨⟨hword, hw⟩, hrest⟩ := List.forall_mem_cons.mp h
    obtain ⟨c, tail, rfl⟩ := List.exists_cons_of_ne_nil hword
    obtain ⟨init, d, hlast⟩ := (List.eq_nil_or_concat' (c :: tail)).resolve_left hword
    cases rest with
    | nil =>
      rw [joined_singleton]
      exact ⟨⟨c, tail, rfl, hw c List.mem_cons_self⟩, init, d, hlast, hw d (by simp [hlast])⟩
    | cons next others =>
      obtain ⟨_, init', d', hend, hd'⟩ := ih hrest (List.cons_ne_nil _ _)
      rw [joined_cons_cons]
      refine ⟨⟨c, _, rfl, hw c List.mem_cons_self⟩, (c :: tail) ++ ' ' :: init', d', ?_, hd'⟩
      rw [hend]
      simp

theorem trim_joined (h : ∀ w ∈ ws, IsWord w) : trim (joined ws) = joined ws := by
  by_cases hne : ws = []
  · subst hne
    rfl
  · obtain ⟨⟨c, rest, hstart, hc⟩, init, d, hend, hd⟩ := ends_of_joined h hne
    have htrim : trimStart (joined ws) = joined ws := by
      rw [hstart]
      simp [trimStart, hc]
    rw [trim, htrim, hend]
    simp [trimEnd, hd]

/-! ## Lines -/

/-- Lines, each with its end. -/
def ended (ls : List (List Char)) : List Char := ls.flatMap (· ++ ['\n'])

theorem linesFrom_append (line : List Char) {l : List Char} (hl : '\n' ∉ l) (rest : List Char) :
    linesFrom line (l ++ '\n' :: rest) = closeLine (l.reverse ++ line) :: linesFrom [] rest := by
  induction l generalizing line with
  | nil => rfl
  | cons c l ih =>
    obtain ⟨hc, hl⟩ : '\n' ≠ c ∧ '\n' ∉ l := by simpa using hl
    rw [List.cons_append, linesFrom, ih _ hl]
    · simp
    · exact fun heq => hc heq.symm

/-- A line that does not end in CR is closed as it is. -/
theorem closeLine_reverse {l : List Char} (h : l.getLast? ≠ some '\r') :
    closeLine l.reverse = l := by
  unfold closeLine
  split
  · rename_i line heq
    rw [List.getLast?_eq_head?_reverse, heq] at h
    exact absurd rfl h
  · exact List.reverse_reverse l

theorem lines_ended {ls : List (List Char)} (h : ∀ l ∈ ls, '\n' ∉ l ∧ l.getLast? ≠ some '\r') :
    lines (ended ls) = ls := by
  unfold lines ended
  induction ls with
  | nil => rfl
  | cons l rest ih =>
    obtain ⟨⟨hl, hlast⟩, hrest⟩ := List.forall_mem_cons.mp h
    rw [List.flatMap_cons, List.append_assoc, List.singleton_append, linesFrom_append [] hl,
      List.append_nil, closeLine_reverse hlast, ih hrest]

/-- Joined words are a line. -/
theorem line_of_joined (h : ∀ w ∈ ws, IsWord w) :
    '\n' ∉ joined ws ∧ (joined ws).getLast? ≠ some '\r' := by
  refine ⟨fun hmem => ?_, fun hlast => ?_⟩
  · induction ws with
    | nil => cases hmem
    | cons w rest ih =>
      obtain ⟨⟨_, hw⟩, hrest⟩ := List.forall_mem_cons.mp h
      have hnot : '\n' ∉ w := fun hin => by cases hw _ hin
      cases rest with
      | nil => exact hnot (joined_singleton w ▸ hmem)
      | cons next others =>
        rw [joined_cons_cons] at hmem
        exact ih hrest (by simpa [hnot] using hmem)
  · by_cases hne : ws = []
    · subst hne
      cases hlast
    · obtain ⟨_, init, d, hend, hd⟩ := ends_of_joined h hne
      rw [hend, List.getLast?_concat] at hlast
      cases hlast
      cases hd

end Text

end JarDerivation
