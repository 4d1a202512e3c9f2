-- Values of known shape as documents. Each writer of a value has a reader, and the
-- reader gives back what was written: for numbers, lists, optional values and records.
import JarDerivation.Json.Record
import JarDerivation.Proofs.Json.RoundTrip
import Mathlib.Data.List.TakeWhile

namespace JarDerivation

namespace Json

/-! ## Numbers -/

/-- The digits of a number that is not zero do not begin with a zero. -/
theorem toDigits_cons {n : Nat} (h : 0 < n) :
    ∃ c cs, Nat.toDigits 10 n = c :: cs ∧ c ≠ '0' := by
  induction n using Nat.strongRecOn with
  | ind n ih =>
    rw [Nat.toDigits_eq_if (by decide)]
    split
    · refine ⟨n.digitChar, [], rfl, fun hzero => ?_⟩
      have := Nat.digitChar_eq_zero.mp hzero
      omega
    · obtain ⟨c, cs, heq, hc⟩ := ih (n / 10) (by omega) (by omega)
      exact ⟨c, cs ++ [(n % 10).digitChar], by rw [heq, List.cons_append], hc⟩

theorem isDigit_of_mem_toDigits {n : Nat} {c : Char} (h : c ∈ Nat.toDigits 10 n) :
    isDigit c = true := by
  have hc := Nat.isDigit_of_mem_toDigits (by decide) (by decide) h
  simpa [isDigit, Char.isDigit, Char.le_def] using hc

theorem isNumber_repr (n : Nat) : isNumber (Nat.repr n).toList = true := by
  rw [Nat.toList_repr]
  rcases Nat.eq_zero_or_pos n with rfl | hpos
  · rfl
  · obtain ⟨c, cs, heq, hc⟩ := toDigits_cons hpos
    have hall : ∀ d ∈ c :: cs, isDigit d = true := fun d hd =>
      isDigit_of_mem_toDigits (heq ▸ hd)
    obtain ⟨hdigit, hrest⟩ := List.forall_mem_cons.mp hall
    have hsign : c ≠ '-' := fun heq => by cases heq ▸ hdigit
    have hdrop : cs.dropWhile isDigit = [] := List.dropWhile_eq_nil_iff.mpr hrest
    simp [heq, isNumber, isUnsigned, hsign, hdigit, hdrop, isNumberTail]

theorem written_nat (n : Nat) : (nat n).Written := .number (isNumber_repr n)

theorem uint16?_nat (n : UInt16) : uint16? (nat n.toNat) = some n := by
  have hdigits : (Nat.repr n.toNat).toList.all (fun c => '0' ≤ c && c ≤ '9') = true := by
    rw [Nat.toList_repr, List.all_eq_true]
    exact fun c hc => isDigit_of_mem_toDigits hc
  have hvalue : (Nat.repr n.toNat).toList.foldl (fun n c => n * 10 + (c.toNat - '0'.toNat)) 0 =
      n.toNat := by
    rw [Nat.toList_repr]
    calc _ = Nat.ofDigitChars 10 (Nat.toDigits 10 n.toNat) 0 := by
          rw [Nat.ofDigitChars_eq_foldl]
          simp only [Nat.mul_comm]
      _ = n.toNat := Nat.ofDigitChars_ten_toDigits
  have hlt : n.toNat < 65536 := n.toNat_lt
  unfold uint16? nat
  dsimp only
  rw [if_pos hdigits, hvalue, if_pos hlt, UInt16.ofNat_toNat]

/-! ## Lists and optional values -/

variable {α : Type} {f : Json → Option α} {g : α → Json}

theorem written_list (h : ∀ a, (g a).Written) (items : List α) : (list g items).Written := by
  refine .array fun v hv => ?_
  obtain ⟨a, _, rfl⟩ := List.mem_map.mp hv
  exact h a

theorem list?_list (h : ∀ a, f (g a) = some a) (items : List α) :
    list? f (list g items) = some items := by
  unfold list? list
  induction items with
  | nil => rfl
  | cons a rest ih =>
    dsimp only at ih ⊢
    rw [List.map_cons, List.mapM_cons, h, ih]
    rfl

theorem written_optional (h : ∀ a, (g a).Written) (o : Option α) : (optional g o).Written := by
  cases o with
  | none => exact .null
  | some a => exact h a

/-- A value that is not null is read as it is. -/
theorem optional?_value (h : ∀ a, f (g a) = some a) (hnull : ∀ a, g a ≠ .null) (a : α) :
    optional? f (g a) = some (some a) := by
  unfold optional?
  split
  · rename_i heq
    exact absurd heq (hnull a)
  · rw [h]
    rfl

theorem optional?_optional (h : ∀ a, f (g a) = some a) (hnull : ∀ a, g a ≠ .null)
    (o : Option α) : optional? f (optional g o) = some o := by
  cases o with
  | none => rfl
  | some a => exact optional?_value h hnull a

/-- A member that is left out is read as no value. -/
theorem withDefault_optional (h : ∀ a, f (g a) = some a) (hnull : ∀ a, g a ≠ .null)
    (o : Option α) : withDefault none (optional? f) (o.map g) = some o := by
  cases o with
  | none => rfl
  | some a => exact optional?_value h hnull a

theorem text?_text (s : String) : text? (text s) = some s := rfl

theorem text_ne_null (s : String) : text s ≠ .null := nofun

/-! ## Records -/

variable {ms : List (String × Json)}

theorem written_record (h : ∀ m ∈ ms, m.2.Written) : (record ms).Written := by
  refine .object (fun m hm => ?_) (fun m hm => ?_)
  · obtain ⟨_, _, rfl⟩ := List.mem_map.mp hm
    rfl
  · obtain ⟨m', hm', rfl⟩ := List.mem_map.mp hm
    exact h m' hm'

/-- Of keys that are there once, each is found with its value. -/
theorem member?_record (h : (ms.map Prod.fst).Nodup) (key : String) :
    member? (ms.map fun m => (some m.1, m.2)) key = some (ms.lookup key) := by
  induction ms with
  | nil => rfl
  | cons m rest ih =>
    obtain ⟨k, v⟩ := m
    obtain ⟨hk, hrest⟩ := List.nodup_cons.mp h
    by_cases hkey : k = key
    · subst hkey
      have hnone : (rest.map fun m => (some m.1, m.2)).filter (·.1 == some k) = [] := by
        rw [List.filter_eq_nil_iff]
        intro m hm heq
        obtain ⟨m', hm', rfl⟩ := List.mem_map.mp hm
        have hsame : m'.1 = k := by simpa using heq
        exact hk (List.mem_map.mpr ⟨m', hm', hsame⟩)
      simp [member?, hnone]
    · have hne : (key == k) = false := beq_eq_false_iff_ne.mpr (Ne.symm hkey)
      rw [List.lookup_cons, hne, ← ih hrest]
      simp [member?, hkey]

/-- The values of a record are found by its keys; a key that is not there has none. -/
theorem fields?_record (h : (ms.map Prod.fst).Nodup) (keys : List String) (least : Nat) :
    fields? keys least (record ms) = some (keys.map fun key => ms.lookup key) := by
  have hkeys : (ms.map fun m => ((some m.1 : Option String), m.2)).all (·.1.isSome) = true := by
    simp
  have hmember : member? (ms.map fun m => (some m.1, m.2)) = fun key => pure (ms.lookup key) :=
    funext (member?_record h)
  show (if _ then _ else _) = _
  rw [if_pos hkeys, hmember, List.mapM_pure]
  rfl

end Json

end JarDerivation
