-- Reading bytes that may be damaged. Whatever stands around it, a byte of the ASCII range is read
-- as its character, and apart from NUL such a character is read from no other bytes.
import JarDerivation.Proofs.Text.Lines
import JarDerivation.Proofs.Text.Utf8
import Mathlib

namespace JarDerivation

namespace Utf8

/-- What is read of parts. -/
def reading (ps : List Part) : List Char := ps.map fun part => part.scalar?.getD '\uFFFD'

theorem toList_decodeLossy (bytes : Bytes) :
    (decodeLossy bytes).toList = reading (parts bytes) := by
  unfold decodeLossy scalars reading
  rw [String.toList_ofList, List.map_map]
  rfl

/-! ## Characters under way -/

/-- A character under way takes no byte of the ASCII range, and will lie above it. -/
structure Pending.High (p : Pending) : Prop where
  low : 128 ≤ p.low.toNat
  high : p.high.toNat < 192
  more : 0 < p.more
  code : 128 ≤ (p.code * 64 + (p.low.toNat - 128)) * 64 ^ (p.more - 1)

theorem high_of_lead? {b : UInt8} {p : Pending} (h : lead? b = some p) : p.High := by
  unfold lead? at h
  simp only [UInt8.le_iff_toNat_le, ← UInt8.toNat_inj] at h
  repeat' split at h
  all_goals first
    | cases h; constructor <;> simp at * <;> omega
    | cases h

theorem high_next {p : Pending} (hp : p.High) {b : UInt8} (hlow : p.low ≤ b) (hhigh : b ≤ p.high)
    (hmore : p.more ≠ 1) :
    Pending.High ⟨p.size + 1, p.code * 64 + b.toNat % 64, p.more - 1, 0x80, 0xBF⟩ := by
  obtain ⟨hplow, hphigh, hpmore, hcode⟩ := hp
  rw [UInt8.le_iff_toNat_le] at hlow hhigh
  obtain ⟨n, hn⟩ : ∃ n, p.more = n + 2 := ⟨p.more - 2, by omega⟩
  have hbits : p.low.toNat - 128 ≤ b.toNat % 64 := by omega
  refine ⟨by simp, by simp, by simp [hn], ?_⟩
  simp only [hn] at hcode ⊢
  calc 128 ≤ (p.code * 64 + (p.low.toNat - 128)) * 64 ^ (n + 1) := hcode
    _ ≤ (p.code * 64 + b.toNat % 64) * 64 ^ (n + 1) := Nat.mul_le_mul_right _ (by omega)
    _ = _ := by simp [Nat.pow_succ', Nat.mul_assoc]

theorem high_last {p : Pending} (hp : p.High) {b : UInt8} (hlow : p.low ≤ b) (hhigh : b ≤ p.high)
    (hmore : p.more = 1) : 128 ≤ p.code * 64 + b.toNat % 64 := by
  obtain ⟨hplow, hphigh, hpmore, hcode⟩ := hp
  rw [UInt8.le_iff_toNat_le] at hlow hhigh
  simp [hmore] at hcode
  omega

/-- A state between two bytes: a character under way, or none. -/
def HighOnly (pending : Option Pending) : Prop := ∀ p, pending = some p → p.High

theorem highOnly_none : HighOnly none := by
  rintro p ⟨⟩

theorem begin_cases (b : UInt8) :
    (b < 0x80 ∧ begin b = ([.scalar (Char.ofNat b.toNat)], none)) ∨
      begin b = ([.invalid 1], none) ∨ ∃ p, p.High ∧ begin b = ([], some p) := by
  unfold begin
  split
  · exact .inl ⟨‹_›, rfl⟩
  · cases h : lead? b with
    | none => exact .inr (.inl rfl)
    | some p => exact .inr (.inr ⟨p, high_of_lead? h, rfl⟩)

theorem highOnly_begin (b : UInt8) : HighOnly (begin b).2 := by
  rintro p hp
  rcases begin_cases b with ⟨-, h⟩ | h | ⟨q, hq, h⟩ <;> rw [h] at hp <;> cases hp
  exact hq

theorem highOnly_step {pending : Option Pending} (h : HighOnly pending) (b : UInt8) :
    HighOnly (step pending b).2 := by
  cases pending with
  | none => exact highOnly_begin b
  | some p =>
    rw [step]
    split
    · rename_i hrange
      split
      · exact highOnly_none
      · rename_i hmore
        rintro q ⟨⟩
        exact high_next (h p rfl) hrange.1 hrange.2 hmore
    · exact highOnly_begin b

/-! ## Bytes of the ASCII range -/

/-- A byte of the ASCII range is a character of its own, wherever it stands. -/
theorem reading_scan_ascii {pending : Option Pending} (h : HighOnly pending) (before : Bytes)
    {b : UInt8} (hb : b < 0x80) (after : Bytes) :
    reading (scan pending (before ++ b :: after)) =
      reading (scan pending before) ++ Char.ofNat b.toNat :: reading (scan none after) := by
  induction before generalizing pending with
  | nil =>
    have hbegin : begin b = ([.scalar (Char.ofNat b.toNat)], none) := by simp [begin, hb]
    cases pending with
    | none => simp [scan, step, hbegin, reading, Part.scalar?]
    | some p =>
      have hout : ¬ (p.low ≤ b ∧ b ≤ p.high) := by
        rintro ⟨hlow, -⟩
        have hp := (h p rfl).low
        rw [UInt8.le_iff_toNat_le] at hlow
        rw [UInt8.lt_iff_toNat_lt] at hb
        simp at hb
        omega
      simp [scan, step, hout, hbegin, reading, Part.scalar?]
  | cons c before ih =>
    rw [List.cons_append, scan, scan, reading, List.map_append]
    have hrest := ih (highOnly_step h c)
    unfold reading at hrest ⊢
    rw [hrest]
    simp

theorem decodeLossy_ascii (before : Bytes) {b : UInt8} (hb : b < 0x80) (after : Bytes) :
    (decodeLossy (before ++ b :: after)).toList =
      (decodeLossy before).toList ++ Char.ofNat b.toNat :: (decodeLossy after).toList := by
  simp only [toList_decodeLossy]
  exact reading_scan_ascii highOnly_none before hb after

/-! ## Bytes of which nothing is read -/

/-- A byte that completes nothing opens a character or goes on with one. -/
theorem open_of_silent {pending : Option Pending} {b : UInt8} (h : (step pending b).1 = []) :
    (step pending b).2.isSome := by
  cases pending with
  | none =>
    rw [step] at h ⊢
    rcases begin_cases b with ⟨-, hb⟩ | hb | ⟨p, -, hb⟩ <;> simp_all
  | some p =>
    rw [step] at h ⊢
    split
    · split
      · simp_all
      · rfl
    · simp_all

theorem silent_iff {pending : Option Pending} {bytes : Bytes} :
    scan pending bytes = [] ↔ pending = none ∧ bytes = [] := by
  induction bytes generalizing pending with
  | nil => cases pending <;> simp [scan]
  | cons b rest ih =>
    rw [scan, List.append_eq_nil_iff, ih]
    refine iff_of_false ?_ fun h => List.cons_ne_nil _ _ h.2
    rintro ⟨hsilent, hnone, -⟩
    have hopen := open_of_silent hsilent
    rw [hnone] at hopen
    cases hopen

theorem decodeLossy_eq_nil {bytes : Bytes} (h : (decodeLossy bytes).toList = []) : bytes = [] := by
  rw [toList_decodeLossy, reading, List.map_eq_nil_iff] at h
  exact (silent_iff.mp h).2

/-! ## Characters of the ASCII range -/

/-- A number above the ASCII range stands for no character of it. Where it stands for no character
at all, it gives NUL. -/
theorem ofNat_ne_ascii {n : Nat} (hn : 128 ≤ n) {c : Char} (hc : c.toNat < 128)
    (hnul : c ≠ '\x00') : Char.ofNat n ≠ c := by
  rintro rfl
  by_cases hvalid : n.isValidChar
  · rw [Char.toNat_ofNat, if_pos hvalid] at hc
    omega
  · apply hnul
    rw [Char.ofNat, dif_neg hvalid]
    rfl

/-- A character of the ASCII range that a byte completes is that byte. -/
theorem ascii_of_begin {b : UInt8} {c : Char} (hc : c.toNat < 128) {u v : List Char}
    (h : reading (begin b).1 = u ++ c :: v) :
    v = [] ∧ (begin b).2 = none ∧ b = UInt8.ofNat c.toNat := by
  rcases begin_cases b with ⟨hb, hbegin⟩ | hbegin | ⟨p, -, hbegin⟩ <;> rw [hbegin] at h ⊢
  · obtain ⟨rfl, rfl, rfl⟩ : u = [] ∧ c = Char.ofNat b.toNat ∧ v = [] := by
      simpa [reading, Part.scalar?, List.append_eq_singleton_iff, eq_comm] using h
    rw [UInt8.lt_iff_toNat_lt] at hb
    have hvalid : b.toNat.isValidChar := .inl (Nat.lt_trans hb (by decide))
    exact ⟨rfl, rfl, by simp [Char.toNat_ofNat, hvalid]⟩
  · obtain ⟨-, rfl, -⟩ : u = [] ∧ c = '\uFFFD' ∧ v = [] := by
      simpa [reading, Part.scalar?, List.append_eq_singleton_iff, eq_comm] using h
    exact absurd hc (by decide)
  · simp [reading] at h

theorem ascii_of_step {pending : Option Pending} (h : HighOnly pending) {b : UInt8} {c : Char}
    (hc : c.toNat < 128) (hnul : c ≠ '\x00') {u v : List Char}
    (hstep : reading (step pending b).1 = u ++ c :: v) :
    v = [] ∧ (step pending b).2 = none ∧ b = UInt8.ofNat c.toNat := by
  cases pending with
  | none => exact ascii_of_begin hc hstep
  | some p =>
    rw [step] at hstep ⊢
    split at hstep
    · rename_i hrange
      split at hstep
      · -- a character that was under way lies above the ASCII range
        rename_i hmore
        have hhigh := high_last (h p rfl) hrange.1 hrange.2 hmore
        obtain ⟨-, hchar, -⟩ : u = [] ∧ c = Char.ofNat (p.code * 64 + b.toNat % 64) ∧ v = [] := by
          simpa [reading, Part.scalar?, List.append_eq_singleton_iff, eq_comm] using hstep
        exact absurd hchar.symm (ofNat_ne_ascii hhigh hc hnul)
      · simp [reading] at hstep
    · -- the character is broken off by a byte that begins anew
      rename_i hout
      rw [if_neg hout]
      cases u with
      | nil =>
        obtain ⟨rfl, -⟩ : '\uFFFD' = c ∧ _ := by simpa [reading, Part.scalar?] using hstep
        exact absurd hc (by decide)
      | cons d u =>
        obtain ⟨-, hbegin⟩ : '\uFFFD' = d ∧ reading (begin b).1 = u ++ c :: v := by
          simpa [reading, Part.scalar?] using hstep
        exact ascii_of_begin hc hbegin

theorem exists_byte_of_ascii {pending : Option Pending} (h : HighOnly pending) {bytes : Bytes}
    {c : Char} (hc : c.toNat < 128) (hnul : c ≠ '\x00') {u v : List Char}
    (hread : reading (scan pending bytes) = u ++ c :: v) :
    ∃ before after, bytes = before ++ UInt8.ofNat c.toNat :: after ∧
      reading (scan none after) = v := by
  induction bytes generalizing pending u with
  | nil =>
    cases pending with
    | none => simp [scan, reading] at hread
    | some p =>
      obtain ⟨-, rfl, -⟩ : u = [] ∧ c = '\uFFFD' ∧ v = [] := by
        simpa [scan, reading, Part.scalar?, List.append_eq_singleton_iff, eq_comm] using hread
      exact absurd hc (by decide)
  | cons b rest ih =>
    have hsplit : reading (step pending b).1 ++ reading (scan (step pending b).2 rest) =
        u ++ c :: v := by
      rw [← hread, scan]
      simp [reading]
    have hlater : ∀ u', reading (scan (step pending b).2 rest) = u' ++ c :: v →
        ∃ before after, b :: rest = before ++ UInt8.ofNat c.toNat :: after ∧
          reading (scan none after) = v := by
      intro u' hu'
      obtain ⟨before, after, rfl, hafter⟩ := ih (highOnly_step h b) hu'
      exact ⟨b :: before, after, rfl, hafter⟩
    -- the character is read either behind this byte or at it
    rcases List.append_eq_append_iff.mp hsplit with ⟨u', -, hu'⟩ | ⟨v', hstep, hv'⟩
    · exact hlater u' hu'
    · cases v' with
      | nil => exact hlater [] (by simpa using hv'.symm)
      | cons d v' =>
        obtain ⟨rfl, rfl⟩ := List.cons.inj hv'
        obtain ⟨rfl, hnone, rfl⟩ := ascii_of_step h hc hnul hstep
        rw [hnone]
        exact ⟨[], rest, rfl, rfl⟩

/-- The rest after a character of the ASCII range, other than NUL, is read from the rest after its
byte. -/
theorem exists_split_of_ascii {bytes : Bytes} {c : Char} (hc : c.toNat < 128) (hnul : c ≠ '\x00')
    {u v : List Char} (h : (decodeLossy bytes).toList = u ++ c :: v) :
    ∃ before after, bytes = before ++ UInt8.ofNat c.toNat :: after ∧
      (decodeLossy after).toList = v := by
  simp only [toList_decodeLossy] at h ⊢
  exact exists_byte_of_ascii highOnly_none hc hnul h

theorem paired_decodeLossy {bytes : Bytes} (h : Text.Paired 13 10 bytes) :
    Text.Paired '\r' '\n' (decodeLossy bytes).toList := by
  intro before after hsplit
  obtain ⟨start, rest, rfl, rfl⟩ := exists_split_of_ascii (by decide) (by decide) hsplit
  obtain ⟨tail, rfl⟩ := List.head?_eq_some_iff.mp (h start rest rfl)
  rw [← List.nil_append (10 :: tail), decodeLossy_ascii [] (by decide)]
  rfl

end Utf8

end JarDerivation
