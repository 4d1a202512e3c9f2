-- The laws of line ends. CR LF and LF are turned into each other, lines that were ended are read
-- again, and the text before the first empty line is the same whether it is looked for among the
-- characters or among the lines.
import JarDerivation.Proofs.Text.Split
import JarDerivation.Proofs.Text.Words
import Mathlib.Data.List.Infix

namespace JarDerivation

namespace Text

/-! ## CR LF and LF -/

theorem toLf_of_notMem {l : List Char} (h : '\n' ∉ l) : toLf l = l := by
  fun_induction toLf l with
  | case1 => rfl
  | case2 rest ih => simp at h
  | case3 c rest _ ih => rw [ih fun hrest => h (List.mem_cons_of_mem c hrest)]

theorem toLf_eq_nil {l : List Char} (h : toLf l = []) : l = [] := by
  unfold toLf at h
  split at h
  · rfl
  · cases h
  · cases h

/-- A line end is turned by itself. -/
theorem toLf_append_crLf (l rest : List Char) :
    toLf (l ++ '\r' :: '\n' :: rest) = toLf l ++ '\n' :: toLf rest := by
  fun_induction toLf l with
  | case1 => rfl
  | case2 l ih => simp [toLf, ih]
  | case3 c l hnot ih =>
    have hhead : ∀ r, c = '\r' → l ++ '\r' :: '\n' :: rest = '\n' :: r → False := by
      intro r hc hl
      cases l with
      | nil => cases hl
      | cons d l => exact hnot l hc (by rw [(List.cons.inj hl).1])
    rw [List.cons_append, toLf, ih]
    · rfl
    · exact hhead

theorem toLf_toCrLf_append {l : List Char} (h : '\r' ∉ l) (rest : List Char) :
    toLf (toCrLf l ++ rest) = l ++ toLf rest := by
  induction l with
  | nil => rfl
  | cons c l ih =>
    obtain ⟨hc, hl⟩ : '\r' ≠ c ∧ '\r' ∉ l := by simpa using h
    have hcons : toCrLf (c :: l) = (if c = '\n' then ['\r', '\n'] else [c]) ++ toCrLf l := rfl
    by_cases hn : c = '\n'
    · subst hn
      simp [hcons, toLf, ih hl]
    · rw [hcons, if_neg hn, List.append_assoc, List.singleton_append, toLf, ih hl]
      · rfl
      · intro _ heq
        exact absurd heq.symm hc

/-- Each `a` of a list is followed by a `b`. -/
def Paired {α : Type} (a b : α) (l : List α) : Prop :=
  ∀ before after, l = before ++ a :: after → after.head? = some b

theorem Paired.of_append {α : Type} {a b : α} (start : List α) {rest : List α}
    (h : Paired a b (start ++ rest)) : Paired a b rest := by
  rintro before after rfl
  exact h (start ++ before) after (by simp)

theorem paired_iff {α : Type} {a b : α} {l : List α} :
    Paired a b l ↔ ∀ i < l.length, l[i]? = some a → l[i + 1]? = some b := by
  constructor
  · intro h i hi ha
    have hsplit : l = l.take i ++ a :: l.drop (i + 1) := by
      rw [← (List.getElem?_eq_some_iff.mp ha).2, ← List.drop_eq_getElem_cons hi,
        List.take_append_drop]
    simpa using h _ _ hsplit
  · rintro h before after rfl
    have hnext := h before.length (by simp) (by simp)
    rwa [List.getElem?_append_right (by omega), Nat.add_sub_cancel_left, List.getElem?_cons_succ,
      ← List.head?_eq_getElem?] at hnext

instance {α : Type} [DecidableEq α] {a b : α} {l : List α} : Decidable (Paired a b l) :=
  decidable_of_iff _ paired_iff.symm

/-- No carriage return is left if each one belongs to a line end. -/
theorem notMem_toLf {l : List Char} (h : Paired '\r' '\n' l) : '\r' ∉ toLf l := by
  fun_induction toLf l with
  | case1 => exact List.not_mem_nil
  | case2 rest ih => simpa using ih (Paired.of_append ['\r', '\n'] h)
  | case3 c rest hnot ih =>
    have hc : '\r' ≠ c := by
      rintro rfl
      obtain ⟨tail, rfl⟩ := List.head?_eq_some_iff.mp (h [] rest rfl)
      exact hnot tail rfl rfl
    simpa [hc] using ih (Paired.of_append [c] h)

/-- Lines, each ended by CR LF. -/
def crLfEnded (ls : List (List Char)) : List Char := ls.flatMap (· ++ ['\r', '\n'])

theorem toLf_crLfEnded {ls : List (List Char)} (h : ∀ l ∈ ls, '\n' ∉ l) :
    toLf (crLfEnded ls) = ended ls := by
  unfold crLfEnded ended
  induction ls with
  | nil => rfl
  | cons l rest ih =>
    obtain ⟨hl, hrest⟩ := List.forall_mem_cons.mp h
    rw [List.flatMap_cons, List.append_assoc, List.cons_append, List.singleton_append,
      toLf_append_crLf, toLf_of_notMem hl, ih hrest]
    simp

/-- Lines that are ended by CR LF can be told apart. -/
theorem crLfEnded_injective {ls ls' : List (List Char)} (h : ∀ l ∈ ls, '\n' ∉ l)
    (h' : ∀ l ∈ ls', '\n' ∉ l) (heq : crLfEnded ls = crLfEnded ls') : ls = ls' := by
  have hcut : ∀ (l : List Char) (rest : List (List Char)), '\n' ∉ l →
      cutFirst '\n' (crLfEnded (l :: rest)) = some (l ++ ['\r'], crLfEnded rest) := by
    intro l rest hl
    have hline : crLfEnded (l :: rest) = (l ++ ['\r']) ++ '\n' :: crLfEnded rest := by
      simp [crLfEnded]
    rw [hline, cutFirst_append (by simp [hl])]
  induction ls generalizing ls' with
  | nil =>
    cases ls' with
    | nil => rfl
    | cons l' rest' => simp [crLfEnded] at heq
  | cons l rest ih =>
    cases ls' with
    | nil => simp [crLfEnded] at heq
    | cons l' rest' =>
      obtain ⟨hl, hrest⟩ := List.forall_mem_cons.mp h
      obtain ⟨hl', hrest'⟩ := List.forall_mem_cons.mp h'
      have hsame := hcut l rest hl
      rw [heq, hcut l' rest' hl', Option.some.injEq, Prod.mk.injEq] at hsame
      rw [List.append_cancel_right hsame.1, ih hrest hrest' hsame.2.symm]

/-! ## Lines -/

/-- A text without the carriage return that it may end with. -/
def dropCr (l : List Char) : List Char := if l.getLast? = some '\r' then l.dropLast else l

theorem dropCr_concat (l : List Char) (c : Char) :
    dropCr (l ++ [c]) = if c = '\r' then l else l ++ [c] := by
  simp [dropCr]

theorem mem_of_mem_dropCr {l : List Char} {c : Char} (h : c ∈ dropCr l) : c ∈ l := by
  unfold dropCr at h
  split at h
  · exact List.dropLast_subset _ h
  · exact h

theorem closeLine_eq_dropCr (l : List Char) : closeLine l.reverse = dropCr l := by
  unfold dropCr
  split
  · rename_i h
    obtain ⟨init, rfl⟩ := List.getLast?_eq_some_iff.mp h
    simp [closeLine]
  · rename_i h
    exact closeLine_reverse h

/-- Lines that are ended one by one are read without the carriage returns at their ends. -/
theorem lines_ended_eq {ls : List (List Char)} (h : ∀ l ∈ ls, '\n' ∉ l) :
    lines (ended ls) = ls.map dropCr := by
  unfold lines ended
  induction ls with
  | nil => rfl
  | cons l rest ih =>
    obtain ⟨hl, hrest⟩ := List.forall_mem_cons.mp h
    rw [List.flatMap_cons, List.append_assoc, List.singleton_append, linesFrom_append [] hl,
      List.append_nil, closeLine_eq_dropCr, ih hrest, List.map_cons]

theorem mem_of_mem_closeLine {line : List Char} {c : Char} (h : c ∈ closeLine line) : c ∈ line := by
  unfold closeLine at h
  split at h
  · exact List.mem_cons_of_mem _ (List.mem_reverse.mp h)
  · exact List.mem_reverse.mp h

theorem notMem_of_mem_linesFrom {line cs l : List Char} (hline : '\n' ∉ line)
    (h : l ∈ linesFrom line cs) : '\n' ∉ l := by
  induction cs generalizing line with
  | nil =>
    rw [linesFrom] at h
    split at h
    · cases h
    · rw [List.mem_singleton.mp h]
      simpa using hline
  | cons c rest ih =>
    by_cases hc : c = '\n'
    · rw [hc, linesFrom] at h
      rcases List.mem_cons.mp h with rfl | h
      · exact fun hmem => hline (mem_of_mem_closeLine hmem)
      · exact ih List.not_mem_nil h
    · rw [linesFrom] at h
      · exact ih (by simp [hline, Ne.symm hc]) h
      · exact fun heq => hc heq

theorem notMem_of_mem_lines {cs l : List Char} (h : l ∈ lines cs) : '\n' ∉ l :=
  notMem_of_mem_linesFrom List.not_mem_nil h

/-! ## The lines before the first empty one -/

def mainFrom (line cs : List Char) : List (List Char) :=
  (linesFrom line cs).takeWhile (!·.isEmpty)

theorem mainFrom_newline (line rest : List Char) :
    mainFrom line ('\n' :: rest) =
      if (closeLine line).isEmpty then [] else closeLine line :: mainFrom [] rest := by
  unfold mainFrom
  rw [linesFrom, List.takeWhile_cons]
  cases (closeLine line).isEmpty <;> rfl

theorem mainFrom_cons {c : Char} (hc : c ≠ '\n') (line rest : List Char) :
    mainFrom line (c :: rest) = mainFrom (c :: line) rest := by
  unfold mainFrom
  rw [linesFrom]
  exact fun heq => hc heq

/-- What follows an empty line does not matter. -/
theorem mainFrom_append_empty (line start rest : List Char) :
    mainFrom line (start ++ '\n' :: '\n' :: rest) = mainFrom line (start ++ ['\n', '\n']) := by
  induction start generalizing line with
  | nil =>
    rw [List.nil_append, List.nil_append, mainFrom_newline, mainFrom_newline, mainFrom_newline,
      mainFrom_newline]
    rfl
  | cons c start ih =>
    rw [List.cons_append, List.cons_append]
    by_cases hc : c = '\n'
    · rw [hc, mainFrom_newline, mainFrom_newline, ih]
    · rw [mainFrom_cons hc, mainFrom_cons hc, ih]

/-- An empty line at the end does not matter. -/
theorem mainFrom_append_end {line text : List Char} (hline : '\r' ∉ line) (htext : '\r' ∉ text) :
    mainFrom line (text ++ ['\n', '\n']) = mainFrom line text := by
  induction text generalizing line with
  | nil =>
    have hclose : closeLine line = line.reverse := by
      unfold closeLine
      split
      · exact absurd List.mem_cons_self hline
      · rfl
    rw [List.nil_append, mainFrom_newline, hclose]
    cases line with
    | nil => rfl
    | cons d line => simp [mainFrom, linesFrom, closeLine]
  | cons c text ih =>
    obtain ⟨hc, htext⟩ : '\r' ≠ c ∧ '\r' ∉ text := by simpa using htext
    rw [List.cons_append]
    by_cases hn : c = '\n'
    · rw [hn, mainFrom_newline, mainFrom_newline, ih List.not_mem_nil htext]
    · rw [mainFrom_cons hn, mainFrom_cons hn, ih (by simp [hc, hline]) htext]

/-! ## The first section -/

theorem firstSection_cons {c : Char} {rest : List Char} (h : c = '\n' → rest.head? ≠ some '\n') :
    firstSection (c :: rest) = c :: firstSection rest := by
  rw [firstSection]
  intro tail hc hrest
  exact h hc (by rw [hrest]; rfl)

/-- The first section is followed by an empty line, at the latest by one that is added. -/
theorem exists_rest_of_firstSection (text : List Char) :
    ∃ rest, text ++ ['\n', '\n'] = firstSection text ++ '\n' :: '\n' :: rest := by
  fun_induction firstSection text with
  | case1 => exact ⟨[], rfl⟩
  | case2 rest => exact ⟨rest ++ ['\n', '\n'], rfl⟩
  | case3 c rest _ ih =>
    obtain ⟨tail, htail⟩ := ih
    exact ⟨tail, by rw [List.cons_append, htail]; rfl⟩

theorem head?_firstSection {text : List Char} {c : Char} (h : (firstSection text).head? = some c) :
    text.head? = some c := by
  fun_cases firstSection text with
  | case1 => exact h
  | case2 rest => cases h
  | case3 d rest hnot =>
    rw [firstSection] at h
    · exact h
    · exact hnot

theorem not_infix_firstSection (text : List Char) : ¬ ['\n', '\n'] <:+: firstSection text := by
  fun_induction firstSection text with
  | case1 => simp
  | case2 rest => simp
  | case3 c rest hnot ih =>
    rw [List.infix_cons_iff, not_or]
    refine ⟨?_, ih⟩
    rintro ⟨tail, htail⟩
    obtain ⟨rfl, hsection⟩ := List.cons.inj htail
    have hhead : rest.head? = some '\n' := head?_firstSection (by rw [← hsection]; rfl)
    obtain ⟨after, rfl⟩ := List.head?_eq_some_iff.mp hhead
    exact hnot after rfl rfl

/-- A section is read again: there is no empty line in it, and it does not end a line. -/
theorem firstSection_append {start : List Char} (hinner : ¬ ['\n', '\n'] <:+: start)
    (hlast : start.getLast? ≠ some '\n') (rest : List Char) :
    firstSection (start ++ '\n' :: '\n' :: rest) = start := by
  induction start with
  | nil => rfl
  | cons c start ih =>
    rw [List.infix_cons_iff, not_or] at hinner
    have hnext : c = '\n' → (start ++ '\n' :: '\n' :: rest).head? ≠ some '\n' := by
      rintro rfl
      cases start with
      | nil => exact absurd rfl hlast
      | cons d start =>
        intro hd
        cases Option.some.inj hd
        exact hinner.1 ⟨start, rfl⟩
    rw [List.cons_append, firstSection_cons hnext, ih hinner.2]
    cases start with
    | nil => simp
    | cons d start => simpa using hlast

/-- There is no other empty line behind a section than the one that ends it. -/
theorem eq_nil_of_empty_line {start before after : List Char} (hinner : ¬ ['\n', '\n'] <:+: start)
    (hlast : start.getLast? ≠ some '\n')
    (h : start ++ ['\n', '\n'] = before ++ '\n' :: '\n' :: after) : after = [] := by
  rcases List.append_eq_append_iff.mp h with ⟨gap, rfl, hgap⟩ | ⟨gap, rfl, hgap⟩
  · have hlength := congrArg List.length hgap
    simp at hlength
    exact List.eq_nil_of_length_eq_zero (by omega)
  · -- the empty line would begin within the section
    match gap with
    | [] => simpa using hgap
    | [c] =>
      obtain ⟨rfl, -⟩ := List.cons.inj hgap
      exact absurd (by simp) hlast
    | c :: d :: gap =>
      obtain ⟨rfl, hnext⟩ := List.cons.inj hgap
      obtain ⟨rfl, -⟩ := List.cons.inj hnext
      exact absurd ⟨before, gap, by simp⟩ hinner

end Text

end JarDerivation
