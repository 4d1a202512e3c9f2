-- Texts as bytes and back. Each character is written as one to four bytes, and the
-- reader makes one part of them: so a text that was encoded is read as it was.
import JarDerivation.Text.Utf8
import Mathlib.Tactic.IntervalCases

namespace JarDerivation

namespace Utf8

/-! ## The first byte of a character -/

/-- The first of two bytes. -/
theorem lead?_two {n : Nat} (hlow : 2 ≤ n) (hhigh : n < 32) :
    lead? (UInt8.ofNat (n + 192)) = some ⟨1, n, 1, 0x80, 0xBF⟩ := by
  interval_cases n <;> rfl

/-- The first of three bytes. The ranges of the second one rule out long forms and
surrogates. -/
theorem lead?_three {n : Nat} (h : n < 16) :
    lead? (UInt8.ofNat (n + 224)) =
      some ⟨1, n, 2, if n = 0 then 0xA0 else 0x80, if n = 13 then 0x9F else 0xBF⟩ := by
  interval_cases n <;> rfl

/-- The first of four bytes. The ranges of the second one rule out long forms and what
lies above U+10FFFF. -/
theorem lead?_four {n : Nat} (h : n < 5) :
    lead? (UInt8.ofNat (n + 240)) =
      some ⟨1, n, 3, if n = 0 then 0x90 else 0x80, if n = 4 then 0x8F else 0xBF⟩ := by
  interval_cases n <;> rfl

/-- A byte above the ASCII range opens the character that it says. -/
theorem scan_lead {b : UInt8} {p : Pending} (hhigh : 128 ≤ b.toNat) (hlead : lead? b = some p)
    (rest : Bytes) : scan none (b :: rest) = scan (some p) rest := by
  have hnot : ¬ b < 0x80 := by
    rw [UInt8.lt_iff_toNat_lt]
    exact Nat.not_lt.mpr hhigh
  simp [scan, step, begin, hnot, hlead]

/-! ## The bytes after it -/

/-- A byte that goes on with a character carries six more bits of it. -/
theorem step_next {p : Pending} {n : Nat} (hn : n < 64) (hlow : p.low.toNat ≤ n + 128)
    (hhigh : n + 128 ≤ p.high.toNat) :
    step (some p) (UInt8.ofNat (n + 128)) =
      if p.more = 1 then ([.scalar (Char.ofNat (p.code * 64 + n))], none)
      else ([], some ⟨p.size + 1, p.code * 64 + n, p.more - 1, 0x80, 0xBF⟩) := by
  have hbyte : (UInt8.ofNat (n + 128)).toNat = n + 128 := by
    rw [UInt8.toNat_ofNat']
    omega
  have hrange : p.low ≤ UInt8.ofNat (n + 128) ∧ UInt8.ofNat (n + 128) ≤ p.high := by
    rw [UInt8.le_iff_toNat_le, UInt8.le_iff_toNat_le, hbyte]
    exact ⟨hlow, hhigh⟩
  have hbits : (n + 128) % 64 = n := by omega
  simp only [step, if_pos hrange, hbyte, hbits]

theorem scan_last {p : Pending} {n : Nat} (hmore : p.more = 1) (hn : n < 64)
    (hlow : p.low.toNat ≤ n + 128) (hhigh : n + 128 ≤ p.high.toNat) (rest : Bytes) :
    scan (some p) (UInt8.ofNat (n + 128) :: rest) =
      .scalar (Char.ofNat (p.code * 64 + n)) :: scan none rest := by
  rw [scan, step_next hn hlow hhigh, if_pos hmore]
  rfl

theorem scan_inner {p : Pending} {n : Nat} (hmore : p.more ≠ 1) (hn : n < 64)
    (hlow : p.low.toNat ≤ n + 128) (hhigh : n + 128 ≤ p.high.toNat) (rest : Bytes) :
    scan (some p) (UInt8.ofNat (n + 128) :: rest) =
      scan (some ⟨p.size + 1, p.code * 64 + n, p.more - 1, 0x80, 0xBF⟩) rest := by
  rw [scan, step_next hn hlow hhigh, if_neg hmore]
  rfl

/-! ## Characters and texts -/

/-- The bytes of a character are one part. -/
theorem scan_character (c : Char) (rest : Bytes) :
    scan none (String.utf8EncodeChar c ++ rest) = .scalar c :: scan none rest := by
  have hvalid : c.val.toNat < 0xD800 ∨ 0xDFFF < c.val.toNat ∧ c.val.toNat < 0x110000 := c.valid
  have hchar : ∀ n, n = c.val.toNat → Char.ofNat n = c := fun n hn => hn ▸ Char.ofNat_toNat c
  unfold String.utf8EncodeChar
  generalize c.val.toNat = v at hvalid hchar
  dsimp only
  -- The four cases are the lengths that the writer tells apart.
  split
  · have hbyte : (UInt8.ofNat v).toNat = v := by
      rw [UInt8.toNat_ofNat']
      omega
    have hascii : UInt8.ofNat v < 0x80 := by
      rw [UInt8.lt_iff_toNat_lt, hbyte]
      exact Nat.lt_succ_of_le ‹_›
    simp [scan, step, begin, hascii, hbyte, hchar v rfl]
  split
  · have hlead := lead?_two (n := v / 64 % 32) (by omega) (by omega)
    simp only [List.cons_append, List.nil_append]
    rw [scan_lead (by rw [UInt8.toNat_ofNat']; omega) hlead,
      scan_last rfl (by omega) (by simp) (by simp; omega), hchar _ (by dsimp only; omega)]
  split
  · have hlead := lead?_three (n := v / 4096 % 16) (by omega)
    simp only [List.cons_append, List.nil_append]
    rw [scan_lead (by rw [UInt8.toNat_ofNat']; omega) hlead,
      scan_inner (by simp) (by omega) (by dsimp only; split <;> simp; omega)
        (by dsimp only; split <;> simp <;> omega),
      scan_last rfl (by omega) (by simp) (by simp; omega), hchar _ (by dsimp only; omega)]
  · have hlead := lead?_four (n := v / 262144 % 8) (by omega)
    simp only [List.cons_append, List.nil_append]
    rw [scan_lead (by rw [UInt8.toNat_ofNat']; omega) hlead,
      scan_inner (by simp) (by omega) (by dsimp only; split <;> simp; omega)
        (by dsimp only; split <;> simp <;> omega),
      scan_inner (by simp) (by omega) (by simp) (by simp; omega),
      scan_last rfl (by omega) (by simp) (by simp; omega), hchar _ (by dsimp only; omega)]

theorem parts_encode (s : String) : parts (encode s) = s.toList.map .scalar := by
  unfold parts encode
  induction s.toList with
  | nil => rfl
  | cons c rest ih => rw [List.flatMap_cons, scan_character, ih, List.map_cons]

/-- A text that was encoded has its own characters and no damage. -/
theorem scalars_encode (s : String) : scalars (encode s) = s.toList.map some := by
  unfold scalars
  rw [parts_encode, List.map_map]
  rfl

theorem decodeLossy_encode (s : String) : decodeLossy (encode s) = s := by
  unfold decodeLossy
  rw [scalars_encode, List.map_map]
  simp [Function.comp_def]

theorem encode_injective {s t : String} (h : encode s = encode t) : s = t := by
  rw [← decodeLossy_encode s, h, decodeLossy_encode]

theorem characters_scalars (cs : List Char) (index : Nat) :
    characters index (cs.map .scalar) = .ok cs := by
  induction cs generalizing index with
  | nil => rfl
  | cons c rest ih =>
    rw [List.map_cons, characters, ih]
    rfl

theorem decode_encode (s : String) : decode (encode s) = .ok s := by
  unfold decode
  rw [parts_encode, characters_scalars]
  exact congrArg Except.ok String.ofList_toList

end Utf8

end JarDerivation
