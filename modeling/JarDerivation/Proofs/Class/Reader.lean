-- What a reader of a class file does with its bytes. It reads a given beginning of them whatever
-- comes after it; and a reader for which that is all never gets by with a part of that beginning.
import JarDerivation.Class.Outline
import Mathlib.Algebra.Group.Nat.Defs
import Mathlib.Data.List.Forall2

namespace JarDerivation

namespace Outline

variable {α β γ : Type}

/-! ## What is read -/

/-- The reader takes these bytes, whatever comes after them, and makes this of them. -/
def Reads (r : Reader α) (bytes : Bytes) (a : α) : Prop :=
  ∀ offset rest, r.run ⟨offset, bytes ++ rest⟩ = .ok (a, ⟨offset + bytes.length, rest⟩)

theorem reads_pure (a : α) : Reads (pure a) [] a := fun _ _ => rfl

theorem Reads.bind {x : Reader α} {f : α → Reader β} {first second : Bytes} {a : α} {b : β}
    (hx : Reads x first a) (hf : Reads (f a) second b) :
    Reads (x >>= f) (first ++ second) b := by
  intro offset rest
  rw [StateT.run_bind, List.append_assoc, hx, List.length_append, ← Nat.add_assoc]
  exact hf _ rest

/-- A step that takes no bytes. -/
theorem Reads.bind_nil {x : Reader α} {f : α → Reader β} {bytes : Bytes} {a : α} {b : β}
    (hx : Reads x [] a) (hf : Reads (f a) bytes b) : Reads (x >>= f) bytes b :=
  hx.bind hf

/-- Steps may be taken together. -/
theorem Reads.nested {x : Reader α} {f : α → Reader β} {g : β → Reader γ} {bytes : Bytes} {c : γ}
    (h : Reads (x >>= f >>= g) bytes c) : Reads (x >>= fun a => f a >>= g) bytes c := by
  rwa [bind_assoc] at h

theorem Reads.then_pure {x : Reader α} {f : α → β} {bytes : Bytes} {a : α} (hx : Reads x bytes a) :
    Reads (x >>= fun a => pure (f a)) bytes (f a) := by
  have h := hx.bind (f := fun a => pure (f a)) (reads_pure (f a))
  rwa [List.append_nil] at h

theorem Reads.map {x : Reader α} {bytes : Bytes} {a : α} (f : α → β) (hx : Reads x bytes a) :
    Reads (f <$> x) bytes (f a) := by
  rw [map_eq_pure_bind]
  exact hx.then_pure

theorem reads_takeOr {n : Nat} {bytes : Bytes} (fault : Nat → Fault) (hlength : bytes.length = n) :
    Reads (takeOr n fault) bytes bytes := by
  intro offset rest
  subst hlength
  simp [takeOr, StateT.run]

theorem reads_take {n : Nat} {bytes : Bytes} (what : String) (hlength : bytes.length = n) :
    Reads (take n what) bytes bytes :=
  reads_takeOr _ hlength

/-- Bytes that are passed over. -/
theorem reads_passed {n : Nat} {bytes : Bytes} (what : String) (a : α)
    (hlength : bytes.length = n) : Reads (take n what >>= fun _ => pure a) bytes a :=
  (reads_take what hlength).then_pure

theorem reads_times {read : Reader α} {bytesOf : γ → Bytes} {l : List γ} {as : List α}
    (h : List.Forall₂ (fun x a => Reads read (bytesOf x) a) l as) :
    Reads (times read l.length) (l.flatMap bytesOf) as := by
  induction h with
  | nil => exact reads_pure []
  | cons hx _ ih => exact hx.bind ih.then_pure

/-! ## Numbers -/

/-- A number in this many bytes, the highest first. -/
def bigEndian : Nat → Nat → Bytes
  | 0, _ => []
  | width + 1, n => bigEndian width (n / 256) ++ [UInt8.ofNat n]

theorem length_bigEndian (width n : Nat) : (bigEndian width n).length = width := by
  induction width generalizing n with
  | zero => rfl
  | succ width ih => rw [bigEndian, List.length_append, ih]; rfl

theorem number_bigEndian {width n : Nat} (h : n < 256 ^ width) :
    number (bigEndian width n) = n := by
  induction width generalizing n with
  | zero =>
    rw [Nat.pow_zero, Nat.lt_one_iff] at h
    rw [h]
    rfl
  | succ width ih =>
    have hhigh : n / 256 < 256 ^ width := by
      rw [Nat.pow_succ, Nat.mul_comm] at h
      exact Nat.div_lt_of_lt_mul h
    rw [bigEndian, number, List.foldl_append, ← number, ih hhigh]
    show n / 256 * 256 + (UInt8.ofNat n).toNat = n
    rw [UInt8.toNat_ofNat']
    omega

theorem reads_u8 (what : String) (b : UInt8) : Reads (u8 what) [b] b.toNat := by
  have h := (reads_take what (show [b].length = 1 from rfl)).map number
  rwa [show number [b] = b.toNat by simp [number]] at h

theorem reads_u16 {n : Nat} (what : String) (h : n < 65536) :
    Reads (u16 what) (bigEndian 2 n) n := by
  have hread := (reads_take what (length_bigEndian 2 n)).map number
  rwa [number_bigEndian h] at hread

theorem reads_u32 {n : Nat} (what : String) (h : n < 4294967296) :
    Reads (u32 what) (bigEndian 4 n) n := by
  have hread := (reads_take what (length_bigEndian 4 n)).map number
  rwa [number_bigEndian h] at hread

end Outline

end JarDerivation
