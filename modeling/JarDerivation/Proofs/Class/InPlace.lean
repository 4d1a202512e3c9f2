-- The reader of class files with the accesses that it makes. It moves a position through the bytes,
-- takes slices and single bytes of them, and stores constants in the slots of a pool. An access
-- outside would end it without an outcome; but each has been checked before, and it ends as the
-- reader without positions does.
import JarDerivation.Class.Outline

namespace JarDerivation

namespace InPlace

open Outline (Fault Constant Pool number)

/-! ## Accesses -/

/-- Moves a position. There is no outcome after an access outside the bytes or the pool. -/
abbrev Reader := StateT Nat (ExceptT Fault Option)

/-- What an access gives, if it is not outside. -/
def access {α : Type} (found : Option α) : Reader α := fun pos =>
  ExceptT.mk (found.map fun a => .ok (a, pos))

theorem access_some {α : Type} (a : α) : access (some a) = pure a := rfl

def slice? (bytes : Bytes) (first last : Nat) : Option Bytes :=
  if first ≤ last ∧ last ≤ bytes.length then some ((bytes.take last).drop first) else none

/-- Puts a constant into a slot. -/
def store? (p : Pool) (slot : Nat) (c : Constant) : Option Pool :=
  if slot < p.length then some (p.set slot c) else none

/-! ## The cursor -/

variable (data : Bytes)

def takeOr (n : Nat) (fault : Nat → Fault) : Reader Bytes := do
  let pos ← get
  if data.length < pos + n then throw (fault pos)
  else
    let taken ← access (slice? data pos (pos + n))
    set (pos + n)
    return taken

def take (n : Nat) (what : String) : Reader Bytes := takeOr data n (.truncated what)

def u8 (what : String) : Reader Nat := do
  let b ← take data 1 what
  return number [← access b[0]?]

def u16 (what : String) : Reader Nat := do
  let b ← take data 2 what
  return number [← access b[0]?, ← access b[1]?]

def u32 (what : String) : Reader Nat := do
  let b ← take data 4 what
  return number [← access b[0]?, ← access b[1]?, ← access b[2]?, ← access b[3]?]

def times {α : Type} (read : Reader α) : Nat → Reader (List α)
  | 0 => return []
  | n + 1 => do
    let a ← read
    let rest ← times read n
    return a :: rest

/-! ## The constant pool -/

/-- Reads the constant of a slot, and says whether it takes the next one as well. -/
def constant (p : Pool) (slot : Nat) : Reader (Pool × Bool) := do
  let tag ← u8 data "constant tag"
  match tag with
  | 1 =>
    let n ← u16 data "UTF8 entry"
    let bytes ← take data n "UTF8 string"
    return (← access (store? p slot (.utf8 (Utf8.decodeLossy bytes))), false)
  | 7 =>
    let i ← u16 data "class entry"
    return (← access (store? p slot (.class i)), false)
  | 5 | 6 =>
    let _ ← take data 8 "wide constant"
    return (p, true)
  | 3 | 4 | 9 | 10 | 11 | 12 | 17 | 18 =>
    let _ ← take data 4 "constant"
    return (p, false)
  | 15 =>
    let _ ← take data 3 "method handle"
    return (p, false)
  | 8 | 16 | 19 | 20 =>
    let _ ← take data 2 "constant"
    return (p, false)
  | t => throw (.unknownTag t slot)

/-- Reads the constants from a slot on. -/
def fill (count : Nat) (p : Pool) (slot : Nat) : Reader Pool :=
  if slot < count then do
    let (p, wide) ← constant data p slot
    if wide then fill count p (slot + 2) else fill count p (slot + 1)
  else return p
termination_by count - slot

def pool : Reader Pool := do
  let count ← u16 data "constant pool count"
  fill data count (List.replicate count .other) 1

def utf8At (p : Pool) (index : Nat) : Reader String :=
  match p[index]? with
  | some (.utf8 s) => return s
  | _ => throw (.notUtf8 index)

def classAt (p : Pool) (index : Nat) : Reader String :=
  match p[index]? with
  | some (.class nameIndex) => utf8At p nameIndex
  | _ => throw (.notClass index)

/-! ## Header and members -/

def skipAttribute : Reader Unit := do
  let _ ← u16 data "attribute name"
  let n ← u32 data "attribute length"
  let _ ← takeOr data n .truncatedAttribute

def skipAttributes : Reader Unit := do
  let count ← u16 data "attribute count"
  let _ ← times (skipAttribute data) count

def member (p : Pool) (what : String) : Reader MemberNode := do
  let access ← u16 data what
  let name ← utf8At p (← u16 data what)
  let desc ← utf8At p (← u16 data what)
  skipAttributes data
  return ⟨UInt16.ofNat access, name, desc, none, none⟩

def members (p : Pool) (what : String) : Reader (List MemberNode) := do
  let count ← u16 data what
  times (member data p what) count

def superAt (p : Pool) (index : Nat) : Reader (Option String) :=
  if index = 0 then return none else some <$> classAt p index

def body : Reader ClassNode := do
  let p ← pool data
  let access ← u16 data "access flags"
  let name ← classAt p (← u16 data "this class")
  let superName ← superAt p (← u16 data "super class")
  let count ← u16 data "interface count"
  let interfaces ← times (do classAt p (← u16 data "interface")) count
  let fields ← members data p "field"
  let methods ← members data p "method"
  return ⟨UInt16.ofNat access, name, superName, interfaces, fields, methods, [], none, none⟩

def isClassFile : Option Bool :=
  if 4 ≤ data.length then do
    return number [← data[0]?, ← data[1]?, ← data[2]?, ← data[3]?] == 0xCAFEBABE
  else return false

/-- Reads an outline, if no access is outside. -/
def read : Option (Except Fault ClassNode) := do
  if data.length < 10 then return .error .tooSmall
  if !(← isClassFile data) then return .error .wrongMagic
  ((body data).run' 8).run

/-! ## The two readers side by side -/

variable {α β γ δ : Type} {data}

/-- Both readers fail alike, or both end at one position within the bytes, with results that
belong together. -/
def Follows (data : Bytes) (R : α → β → Prop) (x : Reader α) (y : Outline.Reader β) : Prop :=
  ∀ pos ≤ data.length,
    (∃ f, x.run pos = ExceptT.mk (some (.error f)) ∧ y.run ⟨pos, data.drop pos⟩ = .error f) ∨
      ∃ a b next, R a b ∧ next ≤ data.length ∧ x.run pos = ExceptT.mk (some (.ok (a, next))) ∧
        y.run ⟨pos, data.drop pos⟩ = .ok (b, ⟨next, data.drop next⟩)

variable {R : α → β → Prop} {S : γ → δ → Prop}

theorem follows_pure {a : α} {b : β} (h : R a b) : Follows data R (pure a) (pure b) :=
  fun pos hpos => .inr ⟨a, b, pos, h, hpos, rfl, rfl⟩

theorem follows_fail (f : Fault) : Follows data R (throw f) (Outline.fail f) :=
  fun _ _ => .inl ⟨f, rfl, rfl⟩

theorem Follows.bind {x : Reader α} {y : Outline.Reader β} {f : α → Reader γ}
    {g : β → Outline.Reader δ} (hxy : Follows data R x y)
    (hfg : ∀ a b, R a b → Follows data S (f a) (g b)) : Follows data S (x >>= f) (y >>= g) := by
  intro pos hpos
  rcases hxy pos hpos with ⟨fault, hx, hy⟩ | ⟨a, b, next, hab, hnext, hx, hy⟩
  · refine .inl ⟨fault, ?_, ?_⟩
    · rw [StateT.run_bind, hx]
      rfl
    · rw [StateT.run_bind, hy]
      rfl
  · have hrest := hfg a b hab next hnext
    rw [StateT.run_bind, StateT.run_bind, hx, hy]
    exact hrest

theorem Follows.step {x : Reader α} {y : Outline.Reader α} {f : α → Reader γ}
    {g : α → Outline.Reader δ} (hxy : Follows data Eq x y)
    (hfg : ∀ a, Follows data S (f a) (g a)) : Follows data S (x >>= f) (y >>= g) :=
  hxy.bind fun a _ hab => hab ▸ hfg a

theorem Follows.followed {x : Reader α} {y : Outline.Reader β} {f : β → γ} {T : α → γ → Prop}
    (h : Follows data R x y) (hf : ∀ a b, R a b → T a (f b)) :
    Follows data T x (y >>= fun b => pure (f b)) := by
  rw [← bind_pure x]
  exact h.bind fun a b hab => follows_pure (hf a b hab)

theorem follows_takeOr (n : Nat) (fault : Nat → Fault) :
    Follows data (fun a b => a = b ∧ a.length = n) (takeOr data n fault)
      (Outline.takeOr n fault) := by
  intro pos hpos
  have hleft : ((data.drop pos).take n).length = min n (data.length - pos) := by
    rw [List.length_take, List.length_drop]
  have hx : (takeOr data n fault).run pos = StateT.run (if data.length < pos + n then
      throw (fault pos) else do
        let taken ← access (slice? data pos (pos + n))
        set (pos + n)
        return taken : Reader Bytes) pos := rfl
  have hy : (Outline.takeOr n fault).run ⟨pos, data.drop pos⟩ =
      if ((data.drop pos).take n).length < n then .error (fault pos)
      else .ok ((data.drop pos).take n, ⟨pos + n, (data.drop pos).drop n⟩) := rfl
  rw [hx, hy]
  by_cases hshort : data.length < pos + n
  · refine .inl ⟨fault pos, ?_, if_pos (by omega)⟩
    rw [if_pos hshort]
    rfl
  · have hslice : slice? data pos (pos + n) = some ((data.drop pos).take n) := by
      rw [slice?, if_pos ⟨Nat.le_add_right _ _, by omega⟩, List.drop_take, Nat.add_sub_cancel_left]
    refine .inr ⟨(data.drop pos).take n, _, pos + n, ⟨rfl, by omega⟩, by omega, ?_, ?_⟩
    · rw [if_neg hshort, hslice]
      rfl
    · rw [if_neg (by omega), List.drop_drop]

theorem follows_take (n : Nat) (what : String) :
    Follows data (fun a b => a = b ∧ a.length = n) (take data n what) (Outline.take n what) :=
  follows_takeOr n _

/-- A number is made of as many bytes as were taken for it. -/
theorem follows_number {n : Nat} {what : String} {read : Bytes → Reader Nat}
    (h : ∀ b, b.length = n → read b = pure (number b)) :
    Follows data Eq (take data n what >>= read) (number <$> Outline.take n what) := by
  rw [map_eq_pure_bind]
  refine (follows_take n what).bind ?_
  rintro a _ ⟨rfl, hlength⟩
  rw [h a hlength]
  exact follows_pure rfl

theorem follows_u8 (what : String) : Follows data Eq (u8 data what) (Outline.u8 what) := by
  refine follows_number fun b hb => ?_
  match b, hb with
  | [_], _ => rfl

theorem follows_u16 (what : String) : Follows data Eq (u16 data what) (Outline.u16 what) := by
  refine follows_number fun b hb => ?_
  match b, hb with
  | [_, _], _ => rfl

theorem follows_u32 (what : String) : Follows data Eq (u32 data what) (Outline.u32 what) := by
  refine follows_number fun b hb => ?_
  match b, hb with
  | [_, _, _, _], _ => rfl

theorem follows_times {x : Reader α} {y : Outline.Reader α} (h : Follows data Eq x y) (n : Nat) :
    Follows data Eq (times x n) (Outline.times y n) := by
  induction n with
  | zero => exact follows_pure rfl
  | succ n ih =>
    refine h.step fun a => ?_
    refine ih.step fun rest => ?_
    exact follows_pure rfl

/-! ## The pool -/

theorem follows_constant {p : Pool} {slot : Nat} (hslot : p[slot]? = some .other) :
    Follows data (fun a b => a = (p.set slot b.1, b.2)) (constant data p slot)
      (Outline.constant slot) := by
  have hlt : slot < p.length := (List.getElem?_eq_some_iff.mp hslot).1
  have hsame : p.set slot .other = p := by
    rw [← (List.getElem?_eq_some_iff.mp hslot).2, List.set_getElem_self]
  have hstore : ∀ c, store? p slot c = some (p.set slot c) := fun c => if_pos hlt
  refine (follows_u8 _).step fun tag => ?_
  have hpassed : ∀ (n : Nat) (what : String) (wide : Bool),
      Follows data (fun a b => a = (p.set slot b.1, b.2))
        (take data n what >>= fun _ => pure (p, wide))
        (Outline.take n what >>= fun _ => pure (Constant.other, wide)) := by
    intro n what wide
    refine (follows_take n what).bind ?_
    rintro bytes _ ⟨rfl, _⟩
    exact follows_pure (by rw [hsame])
  match tag with
  | 1 =>
    refine (follows_u16 _).step fun n => ?_
    refine (follows_take n _).bind ?_
    rintro bytes _ ⟨rfl, _⟩
    rw [hstore, access_some, pure_bind]
    exact follows_pure rfl
  | 7 =>
    refine (follows_u16 _).step fun i => ?_
    rw [hstore, access_some, pure_bind]
    exact follows_pure rfl
  | 5 | 6 => exact hpassed 8 _ true
  | 3 | 4 | 9 | 10 | 11 | 12 | 17 | 18 => exact hpassed 4 _ false
  | 15 => exact hpassed 3 _ false
  | 8 | 16 | 19 | 20 => exact hpassed 2 _ false
  | 0 | 2 | 13 | 14 => exact follows_fail _
  | n + 21 => exact follows_fail _

/-- The slots before `slot` are done, and the others are still empty. -/
theorem follows_fill {count slots slot : Nat} (done : Pool) (hdone : done.length = slot)
    (hcount : slot + slots = count) :
    Follows data (fun a b => a = done ++ b)
      (fill data count (done ++ List.replicate slots .other) slot)
      (Outline.constants slots slot) := by
  induction slots, slot using Outline.constants.induct generalizing done with
  | case1 slot =>
    rw [fill, if_neg (by omega)]
    exact follows_pure rfl
  | case2 slots slot hwide hnarrow =>
    have hempty : (done ++ List.replicate (slots + 1) Constant.other)[slot]? = some .other := by
      rw [List.getElem?_append_right (by omega), hdone, Nat.sub_self]
      rfl
    have hset : ∀ c, (done ++ List.replicate (slots + 1) Constant.other).set slot c =
        (done ++ [c]) ++ List.replicate slots .other := by
      intro c
      rw [List.set_append_right _ _ (by omega), hdone, Nat.sub_self, List.append_assoc]
      rfl
    rw [fill, if_pos (by omega), Outline.constants]
    refine (follows_constant hempty).bind ?_
    rintro _ ⟨c, wide⟩ rfl
    rw [hset]
    cases wide with
    | false =>
      refine (hnarrow (done ++ [c]) (by simp [hdone]) (by omega)).followed ?_
      rintro _ rest rfl
      exact List.append_assoc done [c] rest
    | true =>
      cases slots with
      | zero =>
        rw [List.replicate_zero, List.append_nil]
        show Follows data _ (fill data count (done ++ [c]) (slot + 2)) (pure [c])
        rw [fill, if_neg (by omega)]
        exact follows_pure rfl
      | succ left =>
        have hnext : (done ++ [c]) ++ List.replicate (left + 1) .other =
            (done ++ [c, .other]) ++ List.replicate left .other := by
          rw [List.replicate_succ, List.append_assoc, List.append_assoc]
          rfl
        rw [hnext]
        refine (hwide (done ++ [c, .other]) (by simp [hdone]) (by omega)).followed ?_
        rintro _ rest rfl
        exact List.append_assoc done [c, .other] rest

/-- The same is found in each slot, a slot beyond the end being empty. -/
def Alike (p q : Pool) : Prop := ∀ i : Nat, p[i]?.getD .other = q[i]?.getD .other

theorem follows_pool : Follows data Alike (pool data) Outline.pool := by
  refine (follows_u16 _).step fun count => ?_
  cases count with
  | zero =>
    have hempty : Alike [] [.other] := by
      intro i
      cases i <;> rfl
    show Follows data Alike (fill data 0 [] 1) (pure [.other])
    rw [fill, if_neg (by omega)]
    exact follows_pure hempty
  | succ slots =>
    refine (follows_fill [.other] rfl (Nat.add_comm 1 slots)).followed ?_
    rintro _ rest rfl
    exact fun i => rfl

variable {p q : Pool}

theorem Alike.found_iff (h : Alike p q) {i : Nat} {c : Constant} (hc : c ≠ .other) :
    p[i]? = some c ↔ q[i]? = some c := by
  have hgetD : ∀ o : Option Constant, o.getD .other = c ↔ o = some c := by
    rintro (_ | d)
    · exact ⟨fun h => absurd h.symm hc, nofun⟩
    · exact ⟨congrArg some, Option.some.inj⟩
  rw [← hgetD, ← hgetD, h i]

/-! ## Lookups -/

theorem follows_utf8At (h : Alike p q) (i : Nat) :
    Follows data Eq (utf8At p i) (Outline.utf8At q i) := by
  unfold utf8At
  split
  · rename_i s hp
    rw [Outline.utf8At, (h.found_iff (by nofun)).mp hp]
    exact follows_pure rfl
  · rename_i hnone
    have hfail : Outline.utf8At q i = Outline.fail (.notUtf8 i) := by
      unfold Outline.utf8At
      split
      · rename_i s hq
        exact absurd ((h.found_iff (by nofun)).mpr hq) (hnone s)
      · rfl
    rw [hfail]
    exact follows_fail _

theorem follows_classAt (h : Alike p q) (i : Nat) :
    Follows data Eq (classAt p i) (Outline.classAt q i) := by
  unfold classAt
  split
  · rename_i j hp
    rw [Outline.classAt, (h.found_iff (by nofun)).mp hp]
    exact follows_utf8At h j
  · rename_i hnone
    have hfail : Outline.classAt q i = Outline.fail (.notClass i) := by
      unfold Outline.classAt
      split
      · rename_i j hq
        exact absurd ((h.found_iff (by nofun)).mpr hq) (hnone j)
      · rfl
    rw [hfail]
    exact follows_fail _

theorem follows_superAt (h : Alike p q) (i : Nat) :
    Follows data Eq (superAt p i) (Outline.superAt q i) := by
  unfold superAt Outline.superAt
  split
  · exact follows_pure rfl
  · rw [map_eq_pure_bind, map_eq_pure_bind]
    refine (follows_classAt h i).step fun name => ?_
    exact follows_pure rfl

/-! ## Header and members -/

theorem follows_skipAttribute :
    Follows data Eq (skipAttribute data) Outline.skipAttribute := by
  refine (follows_u16 _).bind fun _ _ _ => (follows_u32 _).step fun n => ?_
  exact (follows_takeOr n _).bind fun _ _ _ => follows_pure rfl

theorem follows_skipAttributes :
    Follows data Eq (skipAttributes data) Outline.skipAttributes := by
  refine (follows_u16 _).step fun count => ?_
  exact (follows_times follows_skipAttribute count).bind fun _ _ _ => follows_pure rfl

theorem follows_member (h : Alike p q) (what : String) :
    Follows data Eq (member data p what) (Outline.member q what) := by
  refine (follows_u16 what).step fun access => ?_
  refine (follows_u16 what).step fun i => ?_
  refine (follows_utf8At h i).step fun name => ?_
  refine (follows_u16 what).step fun j => ?_
  refine (follows_utf8At h j).step fun desc => ?_
  exact follows_skipAttributes.bind fun _ _ _ => follows_pure rfl

theorem follows_members (h : Alike p q) (what : String) :
    Follows data Eq (members data p what) (Outline.members q what) := by
  refine (follows_u16 what).step fun count => ?_
  exact follows_times (follows_member h what) count

theorem follows_body : Follows data Eq (body data) Outline.body := by
  refine follows_pool.bind fun p q hpool => ?_
  refine (follows_u16 _).step fun access => ?_
  refine (follows_u16 _).step fun i => ?_
  refine (follows_classAt hpool i).step fun name => ?_
  refine (follows_u16 _).step fun j => ?_
  refine (follows_superAt hpool j).step fun superName => ?_
  refine (follows_u16 _).step fun count => ?_
  have hinterface : Follows data Eq (u16 data "interface" >>= classAt p)
      (Outline.u16 "interface" >>= Outline.classAt q) := by
    refine (follows_u16 _).step fun k => ?_
    exact follows_classAt hpool k
  refine (follows_times hinterface count).step fun interfaces => ?_
  refine (follows_members hpool _).step fun fields => ?_
  refine (follows_members hpool _).step fun methods => ?_
  exact follows_pure rfl

/-! ## Class files -/

theorem number_eq_magic_iff (a b c d : UInt8) (rest : Bytes) :
    number [a, b, c, d] = 0xCAFEBABE ↔ Outline.magic <+: a :: b :: c :: d :: rest := by
  have hbyte : ∀ x y : UInt8, x = y ↔ x.toNat = y.toNat := fun x y => UInt8.toNat_inj.symm
  have ha := a.toNat_lt
  have hb := b.toNat_lt
  have hc := c.toNat_lt
  have hd := d.toNat_lt
  simp only [Outline.magic, List.cons_prefix_cons, List.nil_prefix, and_true, hbyte, number,
    List.foldl_cons, List.foldl_nil, UInt8.reduceToNat]
  omega

theorem isClassFile_eq : isClassFile data = some (Outline.isClassFile data) := by
  have hmagic : Outline.isClassFile data = true ↔ Outline.magic <+: data :=
    List.isPrefixOf_iff_prefix
  unfold isClassFile
  split
  · match data with
    | a :: b :: c :: d :: rest =>
      have hsame : (number [a, b, c, d] == 0xCAFEBABE) =
          Outline.isClassFile (a :: b :: c :: d :: rest) := by
        rw [Bool.eq_iff_iff, beq_iff_eq, hmagic, number_eq_magic_iff]
      exact congrArg some hsame
  · rename_i hshort
    have hother : Outline.isClassFile data = false := by
      rw [Bool.eq_false_iff, Ne, hmagic]
      exact fun h => hshort h.length_le
    rw [hother]
    rfl

/-- No access is outside, and the outcome is that of the reader without positions. -/
theorem read_eq (data : Bytes) : read data = some (Outline.read data) := by
  have hshort : ((data.take 10).length < 10) ↔ data.length < 10 := by
    rw [List.length_take]
    omega
  unfold read Outline.read
  simp only [hshort]
  split
  · rfl
  · rw [isClassFile_eq]
    cases Outline.isClassFile data with
    | false => rfl
    | true =>
      show ((body data).run' 8).run = some (((Outline.body).run ⟨8, data.drop 8⟩).map Prod.fst)
      have hbody : Follows data Eq (body data) Outline.body := follows_body
      rcases hbody 8 (by omega) with ⟨f, hx, hy⟩ |
        ⟨o, _, next, rfl, _, hx, hy⟩
      · rw [StateT.run'_eq, hx, hy]
        rfl
      · rw [StateT.run'_eq, hx, hy]
        rfl

end InPlace

end JarDerivation
