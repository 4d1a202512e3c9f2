-- The laws of cutting a text at a separator: at the first and at the last one, where the
-- cut is and what is in the part beside it; and at each one, which undoes joining.
import JarDerivation.Text.Split
import Mathlib.Data.List.Basic

namespace JarDerivation

namespace Text

/-! ## At the first separator -/

theorem cutFirst_eq_none {c : Char} {l : List Char} : cutFirst c l = none ↔ c ∉ l := by
  induction l with
  | nil => simp [cutFirst]
  | cons d rest ih =>
    by_cases hd : d = c
    · simp [cutFirst, hd]
    · simp [cutFirst, hd, ih, Ne.symm hd]

theorem cutFirst_append {c : Char} {a : List Char} (ha : c ∉ a) (b : List Char) :
    cutFirst c (a ++ c :: b) = some (a, b) := by
  induction a with
  | nil => simp [cutFirst]
  | cons d rest ih =>
    obtain ⟨hd, hrest⟩ : c ≠ d ∧ c ∉ rest := by simpa using ha
    simp [cutFirst, Ne.symm hd, ih hrest]

theorem cutFirst_eq_some {c : Char} {l a b : List Char} (h : cutFirst c l = some (a, b)) :
    l = a ++ c :: b ∧ c ∉ a := by
  induction l generalizing a with
  | nil => cases h
  | cons d rest ih =>
    unfold cutFirst at h
    split at h
    · rename_i hd
      cases h
      exact ⟨by rw [hd]; rfl, List.not_mem_nil⟩
    · rename_i hd
      obtain ⟨⟨a', b'⟩, hcut, heq⟩ := Option.map_eq_some_iff.mp h
      cases heq
      obtain ⟨hrest, ha⟩ := ih hcut
      exact ⟨by rw [hrest]; rfl, by simp [Ne.symm hd, ha]⟩

/-! ## At the last separator -/

theorem cutLast_eq_none {c : Char} {l : List Char} : cutLast c l = none ↔ c ∉ l := by
  induction l with
  | nil => simp [cutLast]
  | cons d rest ih =>
    unfold cutLast
    cases h : cutLast c rest with
    | some parts =>
      have hmem : c ∈ rest := by
        by_cases hc : c ∈ rest
        · exact hc
        · rw [ih.mpr hc] at h
          cases h
      simp [hmem]
    | none =>
      have hnot : c ∉ rest := ih.mp h
      by_cases hd : d = c
      · simp [hd]
      · simp [hd, hnot, Ne.symm hd]

theorem cutLast_append {c : Char} {b : List Char} (hb : c ∉ b) (a : List Char) :
    cutLast c (a ++ c :: b) = some (a, b) := by
  induction a with
  | nil => simp [cutLast, cutLast_eq_none.mpr hb]
  | cons d rest ih => simp [cutLast, ih]

theorem cutLast_eq_some {c : Char} {l a b : List Char} (h : cutLast c l = some (a, b)) :
    l = a ++ c :: b ∧ c ∉ b := by
  induction l generalizing a with
  | nil => cases h
  | cons d rest ih =>
    unfold cutLast at h
    cases hrest : cutLast c rest with
    | some parts =>
      rw [hrest] at h
      cases h
      obtain ⟨heq, hb⟩ := ih hrest
      exact ⟨by rw [heq]; rfl, hb⟩
    | none =>
      rw [hrest] at h
      simp only at h
      split at h
      · rename_i hd
        cases h
        exact ⟨by rw [hd]; rfl, cutLast_eq_none.mp hrest⟩
      · cases h

theorem splitLast?_eq_some {c : Char} {s a b : String} (h : splitLast? c s = some (a, b)) :
    s.toList = a.toList ++ c :: b.toList ∧ c ∉ b.toList := by
  obtain ⟨⟨x, y⟩, hcut, heq⟩ := Option.map_eq_some_iff.mp h
  cases heq
  simpa using cutLast_eq_some hcut

theorem splitLast?_eq_none {c : Char} {s : String} : splitLast? c s = none ↔ c ∉ s.toList := by
  unfold splitLast?
  rw [Option.map_eq_none_iff, cutLast_eq_none]

theorem afterLast_of_notMem {c : Char} {s : String} (h : c ∉ s.toList) : afterLast c s = s := by
  unfold afterLast
  rw [splitLast?_eq_none.mpr h]
  rfl

theorem toList_afterLast {c : Char} {s : String} {a b : List Char} (h : s.toList = a ++ c :: b)
    (hb : c ∉ b) : (afterLast c s).toList = b := by
  unfold afterLast splitLast?
  rw [h, cutLast_append hb]
  simp

theorem notMem_afterLast (c : Char) (s : String) : c ∉ (afterLast c s).toList := by
  cases h : splitLast? c s with
  | none =>
    have hc := splitLast?_eq_none.mp h
    rwa [afterLast_of_notMem hc]
  | some parts =>
    obtain ⟨heq, hb⟩ := splitLast?_eq_some h
    rwa [toList_afterLast heq hb]

theorem mem_afterLast {c d : Char} {s : String} (h : d ∈ (afterLast c s).toList) :
    d ∈ s.toList := by
  cases hsplit : splitLast? c s with
  | none => rwa [afterLast_of_notMem (splitLast?_eq_none.mp hsplit)] at h
  | some parts =>
    obtain ⟨heq, hb⟩ := splitLast?_eq_some hsplit
    rw [toList_afterLast heq hb] at h
    rw [heq]
    simp [h]

/-! ## At each separator -/

theorem cutEach_ne_nil (c : Char) (l : List Char) : cutEach c l ≠ [] := by
  cases l with
  | nil => simp [cutEach]
  | cons d rest =>
    unfold cutEach
    split
    · simp
    · split <;> simp

theorem cutEach_of_notMem {c : Char} {l : List Char} (h : c ∉ l) : cutEach c l = [l] := by
  induction l with
  | nil => rfl
  | cons d rest ih =>
    obtain ⟨hd, hrest⟩ : c ≠ d ∧ c ∉ rest := by simpa using h
    simp [cutEach, Ne.symm hd, ih hrest]

theorem notMem_of_mem_cutEach {c : Char} {l part : List Char} (h : part ∈ cutEach c l) :
    c ∉ part := by
  induction l generalizing part with
  | nil =>
    rw [List.mem_singleton.mp h]
    exact List.not_mem_nil
  | cons d rest ih =>
    obtain ⟨first, parts, hcut⟩ := List.exists_cons_of_ne_nil (cutEach_ne_nil c rest)
    rw [hcut] at ih
    by_cases hd : d = c
    · rw [cutEach, if_pos hd, hcut, List.mem_cons] at h
      rcases h with rfl | h
      · exact List.not_mem_nil
      · exact ih h
    · rw [cutEach, if_neg hd, hcut, List.mem_cons] at h
      rcases h with rfl | h
      · exact List.not_mem_cons_of_ne_of_not_mem (Ne.symm hd) (ih List.mem_cons_self)
      · exact ih (List.mem_cons_of_mem first h)

theorem cutEach_append (c : Char) (a b : List Char) :
    cutEach c (a ++ c :: b) = cutEach c a ++ cutEach c b := by
  induction a with
  | nil => simp [cutEach]
  | cons d rest ih =>
    rw [List.cons_append]
    by_cases hd : d = c
    · simp [cutEach, hd, ih]
    · obtain ⟨part, parts, hcut⟩ := List.exists_cons_of_ne_nil (cutEach_ne_nil c rest)
      simp [cutEach, hd, ih, hcut]

theorem notMem_intercalate {c : Char} {sep : List Char} {ls : List (List Char)} (hsep : c ∉ sep)
    (h : ∀ l ∈ ls, c ∉ l) : c ∉ sep.intercalate ls := by
  induction ls with
  | nil => simp [List.intercalate]
  | cons l rest ih =>
    obtain ⟨hl, hrest⟩ := List.forall_mem_cons.mp h
    cases rest with
    | nil => simpa [List.intercalate] using hl
    | cons next others =>
      rw [List.intercalate_cons_cons]
      simp [hl, hsep, ih hrest]

/-- Joining the parts gives the text back. -/
theorem intercalate_cutEach (c : Char) (l : List Char) : [c].intercalate (cutEach c l) = l := by
  induction l with
  | nil => rfl
  | cons d rest ih =>
    obtain ⟨part, parts, hcut⟩ := List.exists_cons_of_ne_nil (cutEach_ne_nil c rest)
    rw [hcut] at ih
    by_cases hd : d = c
    · rw [cutEach, if_pos hd, hcut, List.intercalate_cons_cons, ih, hd]
      rfl
    · rw [cutEach, if_neg hd, hcut]
      cases parts with
      | nil => simpa [List.intercalate] using ih
      | cons next others =>
        rw [List.intercalate_cons_cons] at ih ⊢
        rw [List.cons_append, List.cons_append, ← ih]

theorem intercalate_splitEach (c : Char) (s : String) :
    (String.singleton c).intercalate (splitEach c s) = s := by
  apply String.toList_injective
  have hid : String.toList ∘ String.ofList = id := funext fun _ => String.toList_ofList
  rw [String.toList_intercalate, splitEach, List.map_map, hid, List.map_id,
    String.toList_singleton]
  exact intercalate_cutEach c s.toList

/-- A joined text is cut into the parts of all that was joined. -/
theorem cutEach_intercalate (c : Char) {ls : List (List Char)} (h : ls ≠ []) :
    cutEach c ([c].intercalate ls) = ls.flatMap (cutEach c) := by
  induction ls with
  | nil => exact absurd rfl h
  | cons l rest ih =>
    cases rest with
    | nil => simp [List.intercalate]
    | cons next others =>
      rw [List.intercalate_cons_cons, List.append_assoc, List.singleton_append, cutEach_append,
        ih (List.cons_ne_nil _ _)]
      rfl

end Text

end JarDerivation
