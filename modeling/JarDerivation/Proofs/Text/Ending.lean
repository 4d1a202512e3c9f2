-- The laws of a text's ending: what is left when it is dropped, and how the last
-- part ends when a text is cut at every separator.
import JarDerivation.Text.Split
import Mathlib.Data.List.Basic

namespace JarDerivation

namespace Text

theorem dropEnding?_eq_some {ending s t : String} :
    dropEnding? ending s = some t ↔ t ++ ending = s := by
  unfold dropEnding?
  rw [Option.map_eq_some_iff]
  constructor
  · rintro ⟨l, hl, rfl⟩
    have happ := List.isSuffixOf?_eq_some_iff_append_eq.mp hl
    apply String.toList_injective
    simpa using happ
  · intro h
    refine ⟨t.toList, ?_, String.ofList_toList⟩
    rw [List.isSuffixOf?_eq_some_iff_append_eq, ← h, String.toList_append]

theorem endsWith_append (s ending : String) : endsWith ending (s ++ ending) := by
  simp [endsWith]

/-- A text that ends in no separator has it in its last part: cut at every
separator, the last part ends as the text does. -/
theorem cutEach_append_of_ne {c d : Char} (h : d ≠ c) (l : List Char) :
    ∃ parts part, cutEach c (l ++ [d]) = parts ++ [part ++ [d]] := by
  induction l with
  | nil => exact ⟨[], [], by simp [cutEach, h]⟩
  | cons e rest ih =>
    obtain ⟨parts, part, hcut⟩ := ih
    by_cases he : e = c
    · exact ⟨[] :: parts, part, by simp [cutEach, he, hcut]⟩
    · cases parts with
      | nil => exact ⟨[], e :: part, by simp [cutEach, he, hcut]⟩
      | cons first others => exact ⟨(e :: first) :: others, part, by simp [cutEach, he, hcut]⟩

end Text

end JarDerivation
