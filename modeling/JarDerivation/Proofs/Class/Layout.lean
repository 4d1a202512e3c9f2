-- Class files as the format lays them out: a pool of constants, two kinds of which take two slots,
-- then the header and the members, which point into it. Reading such a file gives back what it
-- says, whatever attributes it has and whatever bytes follow it.
import JarDerivation.Proofs.Class.Reader
import JarDerivation.Proofs.Text.Utf8

namespace JarDerivation

namespace Layout

open Outline (bigEndian length_bigEndian)

/-- An index in its two bytes. -/
def index (i : UInt16) : Bytes := bigEndian 2 i.toNat

theorem length_index (i : UInt16) : (index i).length = 2 := length_bigEndian 2 i.toNat

/-- Things one after another, with their count before them. -/
def counted {α : Type} (bytesOf : α → Bytes) (l : List α) : Bytes :=
  bigEndian 2 l.length ++ l.flatMap bytesOf

/-! ## Constants -/

/-- A text that fits into a constant. -/
structure ShortText where
  text : String
  short : (Utf8.encode text).length < 65536

/-- The kinds of constants. Their indices are slots of the pool, or count bootstrap methods. -/
inductive PoolEntry where
  | utf8 (text : ShortText)
  | integer (bits : UInt32)
  | float (bits : UInt32)
  | long (bits : UInt64)
  | double (bits : UInt64)
  | class (name : UInt16)
  | string (text : UInt16)
  | field (owner nameAndType : UInt16)
  | method (owner nameAndType : UInt16)
  | interfaceMethod (owner nameAndType : UInt16)
  | nameAndType (name descriptor : UInt16)
  | methodHandle (kind : UInt8) (target : UInt16)
  | methodType (descriptor : UInt16)
  | dynamic (bootstrap nameAndType : UInt16)
  | invokeDynamic (bootstrap nameAndType : UInt16)
  | module (name : UInt16)
  | package (name : UInt16)

namespace PoolEntry

def tag : PoolEntry → UInt8
  | utf8 _ => 1
  | integer _ => 3
  | float _ => 4
  | long _ => 5
  | double _ => 6
  | .class _ => 7
  | string _ => 8
  | field .. => 9
  | method .. => 10
  | interfaceMethod .. => 11
  | nameAndType .. => 12
  | methodHandle .. => 15
  | methodType _ => 16
  | dynamic .. => 17
  | invokeDynamic .. => 18
  | .module _ => 19
  | package _ => 20

def payload : PoolEntry → Bytes
  | utf8 t => bigEndian 2 (Utf8.encode t.text).length ++ Utf8.encode t.text
  | integer bits | float bits => bigEndian 4 bits.toNat
  | long bits | double bits => bigEndian 8 bits.toNat
  | .class i | string i | methodType i | .module i | package i => index i
  | field i j | method i j | interfaceMethod i j | nameAndType i j | dynamic i j
  | invokeDynamic i j => index i ++ index j
  | methodHandle kind i => kind :: index i

def bytes (c : PoolEntry) : Bytes := c.tag :: c.payload

/-- How many slots of the pool it takes. -/
def slots : PoolEntry → Nat
  | long _ | double _ => 2
  | _ => 1

end PoolEntry

/-- A constant begins in this slot. Slots are counted from 1 on. -/
def At (pool : List PoolEntry) (slot : UInt16) (c : PoolEntry) : Prop :=
  ∃ before after, pool = before ++ c :: after ∧
    slot.toNat = 1 + (before.map PoolEntry.slots).sum

def TextAt (pool : List PoolEntry) (slot : UInt16) (s : String) : Prop :=
  ∃ t : ShortText, At pool slot (.utf8 t) ∧ t.text = s

def ClassAt (pool : List PoolEntry) (slot : UInt16) (name : String) : Prop :=
  ∃ i, At pool slot (.class i) ∧ TextAt pool i name

/-! ## Members -/

structure Attribute where
  name : UInt16
  body : Bytes
  short : body.length < 4294967296

def Attribute.bytes (a : Attribute) : Bytes :=
  index a.name ++ (bigEndian 4 a.body.length ++ a.body)

structure Attributes where
  all : List Attribute
  few : all.length < 65536

def Attributes.bytes (as : Attributes) : Bytes := counted Attribute.bytes as.all

structure Member where
  access : Access
  name : UInt16
  descriptor : UInt16
  attributes : Attributes

namespace Member

def bytes (m : Member) : Bytes :=
  bigEndian 2 m.access.toNat ++ (index m.name ++ (index m.descriptor ++ m.attributes.bytes))

/-- What a member is, by what it points at. -/
structure Describes (pool : List PoolEntry) (m : Member) (node : MemberNode) : Prop where
  access : node.access = m.access
  name : TextAt pool m.name node.name
  descriptor : TextAt pool m.descriptor node.desc
  plain : node.signature = none ∧ node.side = none

end Member

end Layout

/-! ## Classes -/

open Layout

/-- A class as a file has it. -/
structure CompiledClass where
  minorVersion : UInt16
  majorVersion : UInt16
  pool : List PoolEntry
  access : Access
  thisClass : UInt16
  superClass : Option UInt16
  interfaces : List UInt16
  fields : List Member
  methods : List Member
  attributes : Attributes
  poolFits : 1 + (pool.map PoolEntry.slots).sum < 65536
  interfacesFit : interfaces.length < 65536
  fieldsFit : fields.length < 65536
  methodsFit : methods.length < 65536

namespace CompiledClass

open Outline (bigEndian)

/-- The count of the pool is that of its slots, with slot 0, which no constant has. An index of 0
stands for no superclass. -/
def body (d : CompiledClass) : Bytes :=
  (bigEndian 2 (1 + (d.pool.map PoolEntry.slots).sum) ++ d.pool.flatMap PoolEntry.bytes) ++
    (bigEndian 2 d.access.toNat ++ (index d.thisClass ++ (index (d.superClass.getD 0) ++
      (counted index d.interfaces ++
        (counted Member.bytes d.fields ++ counted Member.bytes d.methods)))))

def bytes (d : CompiledClass) : Bytes :=
  Outline.magic ++ (index d.minorVersion ++ index d.majorVersion) ++ d.body ++ d.attributes.bytes

/-- Each index that the header or a member has points at a constant of the kind it should. -/
structure Pointed (d : CompiledClass) : Prop where
  thisClass : ∃ name, ClassAt d.pool d.thisClass name
  superClass : ∀ i ∈ d.superClass, ∃ name, ClassAt d.pool i name
  interfaces : ∀ i ∈ d.interfaces, ∃ name, ClassAt d.pool i name
  members : ∀ m ∈ d.fields ++ d.methods,
    (∃ s, TextAt d.pool m.name s) ∧ ∃ s, TextAt d.pool m.descriptor s

/-- What a class is, by what it points at. -/
structure Describes (d : CompiledClass) (node : ClassNode) : Prop where
  access : node.access = d.access
  name : ClassAt d.pool d.thisClass node.name
  superName : Option.Rel (ClassAt d.pool) d.superClass node.superName
  interfaces : List.Forall₂ (ClassAt d.pool) d.interfaces node.interfaces
  fields : List.Forall₂ (Member.Describes d.pool) d.fields node.fields
  methods : List.Forall₂ (Member.Describes d.pool) d.methods node.methods
  plain : node.innerClasses = [] ∧ node.outerClass = none ∧ node.side = none

theorem exists_forall₂ {α β : Type} {R : α → β → Prop} {l : List α} (h : ∀ a ∈ l, ∃ b, R a b) :
    ∃ bs, List.Forall₂ R l bs := by
  induction l with
  | nil => exact ⟨[], .nil⟩
  | cons a rest ih =>
    obtain ⟨b, hb⟩ := h a List.mem_cons_self
    obtain ⟨bs, hbs⟩ := ih fun c hc => h c (List.mem_cons_of_mem a hc)
    exact ⟨b :: bs, .cons hb hbs⟩

theorem Pointed.describes {d : CompiledClass} (h : d.Pointed) : ∃ node, d.Describes node := by
  have hmember : ∀ m ∈ d.fields ++ d.methods, ∃ node, m.Describes d.pool node := by
    intro m hm
    obtain ⟨⟨name, hname⟩, desc, hdesc⟩ := h.members m hm
    exact ⟨⟨m.access, name, desc, none, none⟩, rfl, hname, hdesc, rfl, rfl⟩
  have hsuper : ∃ superName, Option.Rel (ClassAt d.pool) d.superClass superName := by
    cases hsuper : d.superClass with
    | none => exact ⟨none, .none⟩
    | some i =>
      obtain ⟨s, hs⟩ := h.superClass i hsuper
      exact ⟨some s, .some hs⟩
  obtain ⟨name, hname⟩ := h.thisClass
  obtain ⟨superName, hsuperName⟩ := hsuper
  obtain ⟨interfaces, hinterfaces⟩ := exists_forall₂ h.interfaces
  obtain ⟨fields, hfields⟩ := exists_forall₂ fun m hm => hmember m (List.mem_append_left _ hm)
  obtain ⟨methods, hmethods⟩ := exists_forall₂ fun m hm => hmember m (List.mem_append_right _ hm)
  exact ⟨⟨d.access, name, superName, interfaces, fields, methods, [], none, none⟩, rfl, hname,
    hsuperName, hinterfaces, hfields, hmethods, rfl, rfl, rfl⟩

end CompiledClass

namespace Layout

open Outline

/-! ## Reading the pool -/

theorem reads_index (what : String) (i : UInt16) : Reads (u16 what) (index i) i.toNat :=
  reads_u16 what i.toNat_lt

namespace PoolEntry

/-- What the reader keeps of a constant. -/
def kept : PoolEntry → Constant
  | utf8 t => .utf8 t.text
  | .class i => .class i.toNat
  | _ => .other

def isWide : PoolEntry → Bool
  | long _ | double _ => true
  | _ => false

/-- What the reader has in the slots of a constant. -/
def kepts (c : PoolEntry) : List Constant :=
  if c.isWide then [c.kept, .other] else [c.kept]

theorem length_kepts (c : PoolEntry) : c.kepts.length = c.slots := by
  cases c <;> rfl

theorem reads_constant (c : PoolEntry) (slot : Nat) :
    Reads (constant slot) c.bytes (c.kept, c.isWide) := by
  have htwo : ∀ i j, (index i ++ index j).length = 4 := fun i j => by
    rw [List.length_append, length_index, length_index]
  apply (reads_u8 "constant tag" c.tag).bind
  -- the tag has chosen the branch that passes over the payload
  cases c with
  | utf8 t =>
    refine (reads_u16 _ t.short).bind ?_
    have htext : (Utf8.encode t.text).length = (Utf8.encode t.text).length := rfl
    have hread := (reads_take "UTF8 string" htext).then_pure
      (f := fun bytes => (Constant.utf8 (Utf8.decodeLossy bytes), false))
    rwa [Utf8.decodeLossy_encode] at hread
  | «class» i => exact (reads_index _ i).then_pure
  | long bits | double bits => exact reads_passed _ _ (length_bigEndian 8 _)
  | integer bits | float bits => exact reads_passed _ _ (length_bigEndian 4 _)
  | field i j | method i j | interfaceMethod i j | nameAndType i j | dynamic i j
  | invokeDynamic i j => exact reads_passed _ _ (htwo i j)
  | methodHandle kind i => exact reads_passed _ _ (congrArg Nat.succ (length_index i))
  | string i | methodType i | «module» i | package i => exact reads_passed _ _ (length_index i)

/-- The slots of a pool are filled in their order, wherever the pool begins. -/
theorem reads_constants (pool : List PoolEntry) (slot : Nat) :
    Reads (constants (pool.map slots).sum slot) (pool.flatMap bytes) (pool.flatMap kepts) := by
  induction pool generalizing slot with
  | nil => exact reads_pure []
  | cons c rest ih =>
    have hc := reads_constant c slot
    have hslots := length_kepts c
    rw [List.map_cons, List.sum_cons, List.flatMap_cons, List.flatMap_cons, ← hslots, kepts]
    cases hwide : c.isWide with
    | true =>
      rw [hwide] at hc
      show Reads (constants (2 + (rest.map slots).sum) slot) _ _
      rw [Nat.add_comm, constants]
      exact hc.bind (ih (slot + 2)).then_pure
    | false =>
      rw [hwide] at hc
      show Reads (constants (1 + (rest.map slots).sum) slot) _ _
      rw [Nat.add_comm, constants]
      exact hc.bind (ih (slot + 1)).then_pure

end PoolEntry

variable {pool : List PoolEntry} {slot : UInt16} {s : String}

/-- The pool as the reader has it. -/
def poolOf (pool : List PoolEntry) : Pool := .other :: pool.flatMap PoolEntry.kepts

theorem reads_pool (hfits : 1 + (pool.map PoolEntry.slots).sum < 65536) :
    Reads Outline.pool
      (bigEndian 2 (1 + (pool.map PoolEntry.slots).sum) ++ pool.flatMap PoolEntry.bytes)
      (poolOf pool) := by
  refine (reads_u16 _ hfits).bind ?_
  rw [Nat.add_sub_cancel_left]
  exact (PoolEntry.reads_constants pool 1).then_pure

/-! ## Looking constants up -/

theorem length_poolOf (pool : List PoolEntry) :
    (poolOf pool).length = 1 + (pool.map PoolEntry.slots).sum := by
  rw [poolOf, List.length_cons, List.length_flatMap, Nat.add_comm]
  exact congrArg (1 + ·) (congrArg List.sum (List.map_congr_left fun c _ => c.length_kepts))

/-- A constant is found in the first of its slots. -/
theorem get?_poolOf {c : PoolEntry} (h : At pool slot c) :
    (poolOf pool)[slot.toNat]? = some c.kept := by
  obtain ⟨before, after, rfl, hslot⟩ := h
  have hfirst : ∃ rest, c.kepts = c.kept :: rest := by
    unfold PoolEntry.kepts
    split
    · exact ⟨_, rfl⟩
    · exact ⟨_, rfl⟩
  obtain ⟨rest, hrest⟩ := hfirst
  have hpool : poolOf (before ++ c :: after) =
      poolOf before ++ c.kept :: (rest ++ after.flatMap PoolEntry.kepts) := by
    simp [poolOf, hrest]
  rw [hpool, hslot, ← length_poolOf, List.getElem?_append_right le_rfl, Nat.sub_self]
  rfl

theorem reads_utf8At (h : TextAt pool slot s) : Reads (utf8At (poolOf pool) slot.toNat) [] s := by
  obtain ⟨t, hat, rfl⟩ := h
  rw [utf8At, get?_poolOf hat]
  exact reads_pure t.text

theorem reads_classAt (h : ClassAt pool slot s) :
    Reads (classAt (poolOf pool) slot.toNat) [] s := by
  obtain ⟨i, hat, htext⟩ := h
  rw [classAt, get?_poolOf hat]
  exact reads_utf8At htext

theorem reads_superAt {superClass : Option UInt16} {superName : Option String}
    (h : Option.Rel (ClassAt pool) superClass superName) :
    Reads (superAt (poolOf pool) (superClass.getD 0).toNat) [] superName := by
  cases h with
  | none => exact reads_pure none
  | @some i name hclass =>
    have hnot : i.toNat ≠ 0 := by
      obtain ⟨_, ⟨_, _, _, hslot⟩, _⟩ := hclass
      omega
    rw [Option.getD_some, superAt, if_neg hnot]
    exact (reads_classAt hclass).map some

/-! ## Reading members -/

theorem reads_counted {α γ : Type} {read : Reader α} {bytesOf : γ → Bytes} {l : List γ}
    {as : List α} (what : String) (hfit : l.length < 65536)
    (h : List.Forall₂ (fun x a => Reads read (bytesOf x) a) l as) :
    Reads (u16 what >>= times read) (counted bytesOf l) as :=
  (reads_u16 what hfit).bind (reads_times h)

theorem reads_attribute (a : Attribute) : Reads skipAttribute a.bytes () := by
  refine (reads_index _ a.name).bind ((reads_u32 _ a.short).bind ?_)
  exact (reads_takeOr _ rfl).then_pure

theorem reads_attributes (as : Attributes) : Reads skipAttributes as.bytes () := by
  have hall : List.Forall₂ (fun a u => Reads skipAttribute a.bytes u) as.all
      (as.all.map fun _ => ()) := by
    rw [List.forall₂_map_right_iff, List.forall₂_same]
    exact fun a _ => reads_attribute a
  exact (reads_counted _ as.few hall).then_pure.nested

theorem reads_member {m : Member} {node : MemberNode} (what : String) (h : m.Describes pool node) :
    Reads (member (poolOf pool) what) m.bytes node := by
  obtain ⟨access, name, desc, signature, side⟩ := node
  obtain ⟨rfl, hname, hdesc, rfl, rfl⟩ := h
  have hread : Reads (member (poolOf pool) what) m.bytes
      ⟨UInt16.ofNat m.access.toNat, name, desc, none, none⟩ := by
    refine (reads_u16 _ m.access.toNat_lt).bind ?_
    refine (reads_index _ m.name).bind ((reads_utf8At hname).bind_nil ?_)
    refine (reads_index _ m.descriptor).bind ((reads_utf8At hdesc).bind_nil ?_)
    exact (reads_attributes m.attributes).then_pure
  rwa [UInt16.ofNat_toNat] at hread

theorem reads_members {ms : List Member} {nodes : List MemberNode} (what : String)
    (hfit : ms.length < 65536) (h : List.Forall₂ (Member.Describes pool) ms nodes) :
    Reads (members (poolOf pool) what) (counted Member.bytes ms) nodes :=
  reads_counted what hfit (h.imp fun _ _ => reads_member what)

theorem reads_interfaces {is : List UInt16} {names : List String} (hfit : is.length < 65536)
    (h : List.Forall₂ (ClassAt pool) is names) :
    Reads (u16 "interface count" >>= times (u16 "interface" >>= classAt (poolOf pool)))
      (counted index is) names := by
  refine reads_counted _ hfit (h.imp fun i name hclass => ?_)
  have hread := (reads_index "interface" i).bind (reads_classAt hclass)
  rwa [List.append_nil] at hread

end Layout

/-! ## Reading classes -/

namespace CompiledClass

open Outline

variable {d : CompiledClass} {node : ClassNode}

theorem Describes.reads_body (h : d.Describes node) : Reads Outline.body d.body node := by
  obtain ⟨access, name, superName, interfaces, fields, methods, inner, outer, side⟩ := node
  obtain ⟨rfl, hname, hsuper, hinterfaces, hfields, hmethods, rfl, rfl, rfl⟩ := h
  have hread : Reads Outline.body d.body ⟨UInt16.ofNat d.access.toNat, name, superName,
      interfaces, fields, methods, [], none, none⟩ := by
    refine (reads_pool d.poolFits).bind ((reads_u16 _ d.access.toNat_lt).bind ?_)
    refine (reads_index _ d.thisClass).bind ((reads_classAt hname).bind_nil ?_)
    refine (reads_index _ (d.superClass.getD 0)).bind ((reads_superAt hsuper).bind_nil ?_)
    refine ((reads_interfaces d.interfacesFit hinterfaces).bind ?_).nested
    refine (reads_members _ d.fieldsFit hfields).bind ?_
    exact (reads_members _ d.methodsFit hmethods).then_pure
  rwa [UInt16.ofNat_toNat] at hread

theorem Describes.read (h : d.Describes node) (trailing : Bytes) :
    Outline.read (d.bytes ++ trailing) = .ok node := by
  have hversion : (index d.minorVersion ++ index d.majorVersion).length = 4 := by
    rw [List.length_append, length_index, length_index]
  have hbytes : d.bytes ++ trailing = magic ++ ((index d.minorVersion ++ index d.majorVersion) ++
      (d.body ++ (d.attributes.bytes ++ trailing))) := by
    simp only [CompiledClass.bytes, List.append_assoc]
  have hlong : ¬ ((d.bytes ++ trailing).take 10).length < 10 := by
    have hmagic : magic.length = 4 := rfl
    have hbody : 2 ≤ d.body.length := by
      simp only [CompiledClass.body, List.length_append, length_bigEndian]
      omega
    rw [hbytes, List.length_take]
    simp only [List.length_append] at hversion ⊢
    omega
  have hmagic : isClassFile (d.bytes ++ trailing) = true := by
    rw [hbytes, isClassFile, List.isPrefixOf_iff_prefix]
    exact List.prefix_append _ _
  have hrest : (d.bytes ++ trailing).drop 8 = d.body ++ (d.attributes.bytes ++ trailing) := by
    rw [hbytes, ← List.append_assoc]
    exact List.drop_left' (by rw [List.length_append, hversion]; rfl)
  rw [Outline.read, if_neg hlong, hmagic, hrest, h.reads_body]
  rfl

/-- A class whose indices point at what they should is read as what it says, and as nothing
else, whatever bytes follow it. -/
theorem a_laid_out_class_is_read_as_described (h : d.Pointed) :
    ∃ node, (∀ other, d.Describes other ↔ other = node) ∧
      ∀ trailing, Outline.read (d.bytes ++ trailing) = .ok node := by
  obtain ⟨node, hnode⟩ := h.describes
  refine ⟨node, fun other => ⟨fun hother => ?_, fun heq => heq ▸ hnode⟩, hnode.read⟩
  have hsame := (hother.read []).symm.trans (hnode.read [])
  exact Except.ok.inj hsame

/-- A class with wide constants among the others, and a method with an attribute. -/
def runner : CompiledClass where
  minorVersion := 0
  majorVersion := 52
  pool := [.long 7, .utf8 ⟨"a/B", by decide⟩, .class 3, .double 0, .utf8 ⟨"a/A", by decide⟩,
    .class 7, .utf8 ⟨"run", by decide⟩, .utf8 ⟨"()V", by decide⟩]
  access := 0x21
  thisClass := 4
  superClass := some 8
  interfaces := []
  fields := []
  methods := [⟨1, 9, 10, ⟨[⟨9, [1, 2, 3], by decide⟩], by decide⟩⟩]
  attributes := ⟨[], by decide⟩
  poolFits := by decide
  interfacesFit := by decide
  fieldsFit := by decide
  methodsFit := by decide

def runnerNode : ClassNode where
  access := 0x21
  name := "a/B"
  superName := some "a/A"
  interfaces := []
  fields := []
  methods := [⟨1, "run", "()V", none, none⟩]
  innerClasses := []
  outerClass := none
  side := none

theorem runner_describes : runner.Describes runnerNode where
  access := rfl
  name := ⟨3, ⟨[.long 7, .utf8 ⟨"a/B", _⟩], _, rfl, rfl⟩, _, ⟨[.long 7], _, rfl, rfl⟩, rfl⟩
  superName := .some ⟨7, ⟨runner.pool.take 5, _, rfl, rfl⟩, _, ⟨runner.pool.take 4, _, rfl, rfl⟩,
    rfl⟩
  interfaces := .nil
  fields := .nil
  methods := .cons ⟨rfl, ⟨_, ⟨runner.pool.take 6, _, rfl, rfl⟩, rfl⟩,
    ⟨_, ⟨runner.pool.take 7, _, rfl, rfl⟩, rfl⟩, rfl, rfl⟩ .nil
  plain := ⟨rfl, rfl, rfl⟩

theorem pointed_runner : runner.Pointed where
  thisClass := ⟨_, runner_describes.name⟩
  superClass := by
    rintro i ⟨⟩
    cases runner_describes.superName with
    | some h => exact ⟨_, h⟩
  interfaces := nofun
  members := by
    intro m hm
    cases runner_describes.methods with
    | cons h _ =>
      cases List.mem_singleton.mp hm
      exact ⟨⟨_, h.name⟩, _, h.descriptor⟩

theorem the_runner_is_read_before_other_bytes :
    Outline.read (runner.bytes ++ [1, 2, 3]) = .ok runnerNode := by
  obtain ⟨node, honly, hread⟩ := a_laid_out_class_is_read_as_described pointed_runner
  rw [hread, (honly runnerNode).mp runner_describes]

end CompiledClass

end JarDerivation
