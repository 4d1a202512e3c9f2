-- Class files that were cut off. A reader that succeeds has used a beginning of the bytes. Each
-- file with that beginning is read alike, and no file that ends before it is read at all.
import JarDerivation.Proofs.Class.InPlace
import JarDerivation.Proofs.Class.Layout
import JarDerivation.Proofs.Outcome
import Mathlib.Data.List.Infix

namespace JarDerivation

namespace Outline

variable {α β : Type}

/-! ## What a success needs -/

/-- The reader makes this of these bytes, whatever comes after them, and fails on each shorter
part of them. -/
structure Needs (r : Reader α) (used : Bytes) (a : α) : Prop where
  reads : Reads r used a
  fails : ∀ offset part, part <+: used → part.length < used.length →
    ∃ f, r.run ⟨offset, part⟩ = .error f

theorem Needs.bind {x : Reader α} {f : α → Reader β} {first second : Bytes} {a : α} {b : β}
    (hx : Needs x first a) (hf : Needs (f a) second b) :
    Needs (x >>= f) (first ++ second) b where
  reads := hx.reads.bind hf.reads
  fails := by
    intro offset part hpart hshort
    rw [StateT.run_bind]
    -- the part ends within the bytes of the first step, or within those of the second
    by_cases hwithin : part.length < first.length
    · have hfirst : part <+: first :=
        List.prefix_of_prefix_length_le hpart (List.prefix_append _ _) (Nat.le_of_lt hwithin)
      obtain ⟨fault, hfault⟩ := hx.fails offset part hfirst hwithin
      exact ⟨fault, by rw [hfault]; rfl⟩
    · obtain ⟨left, rfl⟩ := List.prefix_of_prefix_length_le (List.prefix_append first second)
        hpart (Nat.le_of_not_lt hwithin)
      have hleft : left <+: second := (List.prefix_append_right_inj first).mp hpart
      rw [List.length_append, List.length_append] at hshort
      obtain ⟨fault, hfault⟩ := hf.fails (offset + first.length) left hleft (by omega)
      exact ⟨fault, by rw [hx.reads]; exact hfault⟩

/-- Each success of the reader needs the bytes that it has taken. -/
def Framed (r : Reader α) : Prop :=
  ∀ c a c', r.run c = .ok (a, c') → ∃ used, c.rest = used ++ c'.rest ∧ Needs r used a

theorem framed_pure (a : α) : Framed (pure a : Reader α) := by
  rintro c _ _ ⟨⟩
  exact ⟨[], rfl, reads_pure a, fun _ _ _ hshort => absurd hshort (Nat.not_lt_zero _)⟩

theorem framed_fail (f : Fault) : Framed (fail f : Reader α) := nofun

theorem Framed.bind {x : Reader α} {f : α → Reader β} (hx : Framed x) (hf : ∀ a, Framed (f a)) :
    Framed (x >>= f) := by
  intro c b c' h
  obtain ⟨⟨a, c₁⟩, hfirst, hsecond⟩ := ok_of_bind h
  obtain ⟨first, hc, hneeds⟩ := hx c a c₁ hfirst
  obtain ⟨second, hc₁, hneeds'⟩ := hf a c₁ b c' hsecond
  exact ⟨first ++ second, by rw [hc, hc₁, List.append_assoc], hneeds.bind hneeds'⟩

theorem Framed.map {x : Reader α} (f : α → β) (hx : Framed x) : Framed (f <$> x) := by
  rw [map_eq_pure_bind]
  exact hx.bind fun a => framed_pure (f a)

theorem framed_takeOr (n : Nat) (fault : Nat → Fault) : Framed (takeOr n fault) := by
  intro c a c' h
  by_cases hshort : (c.rest.take n).length < n
  · rw [StateT.run, takeOr, if_pos hshort] at h
    cases h
  · rw [StateT.run, takeOr, if_neg hshort] at h
    cases h
    have hlength : (c.rest.take n).length = n := by
      have hle := List.length_take_le n c.rest
      omega
    refine ⟨c.rest.take n, (List.take_append_drop n c.rest).symm, reads_takeOr fault hlength, ?_⟩
    intro offset part _ hpart
    rw [hlength] at hpart
    refine ⟨fault offset, ?_⟩
    rw [StateT.run, takeOr, List.take_of_length_le (Nat.le_of_lt hpart), if_pos hpart]

theorem framed_take (n : Nat) (what : String) : Framed (take n what) := framed_takeOr n _

theorem framed_u8 (what : String) : Framed (u8 what) := (framed_take 1 what).map number

theorem framed_u16 (what : String) : Framed (u16 what) := (framed_take 2 what).map number

theorem framed_u32 (what : String) : Framed (u32 what) := (framed_take 4 what).map number

theorem framed_times {read : Reader α} (h : Framed read) (n : Nat) : Framed (times read n) := by
  induction n with
  | zero => exact framed_pure []
  | succ n ih => exact h.bind fun a => ih.bind fun rest => framed_pure (a :: rest)

/-! ## The readers of a class file -/

theorem framed_constant (index : Nat) : Framed (constant index) := by
  refine (framed_u8 _).bind fun tag => ?_
  split
  · exact (framed_u16 _).bind fun n => (framed_take n _).bind fun bytes => framed_pure _
  · exact (framed_u16 _).bind fun i => framed_pure _
  all_goals first
    | exact (framed_take _ _).bind fun _ => framed_pure _
    | exact framed_fail _

theorem framed_constants (slots index : Nat) : Framed (constants slots index) := by
  induction slots, index using constants.induct with
  | case1 index => exact framed_pure []
  | case2 slots index hwide hnarrow =>
    rw [constants]
    refine (framed_constant index).bind fun read => ?_
    obtain ⟨c, wide⟩ := read
    cases wide with
    | false => exact hnarrow.bind fun rest => framed_pure (c :: rest)
    | true =>
      cases slots with
      | zero => exact framed_pure [c]
      | succ left => exact hwide.bind fun rest => framed_pure (c :: .other :: rest)

theorem framed_pool : Framed pool :=
  (framed_u16 _).bind fun _ => (framed_constants _ 1).bind fun _ => framed_pure _

theorem framed_utf8At (p : Pool) (index : Nat) : Framed (utf8At p index) := by
  unfold utf8At
  split
  · exact framed_pure _
  · exact framed_fail _

theorem framed_classAt (p : Pool) (index : Nat) : Framed (classAt p index) := by
  unfold classAt
  split
  · exact framed_utf8At p _
  · exact framed_fail _

theorem framed_superAt (p : Pool) (index : Nat) : Framed (superAt p index) := by
  unfold superAt
  split
  · exact framed_pure none
  · exact (framed_classAt p index).map some

theorem framed_skipAttributes : Framed skipAttributes := by
  have hone : Framed skipAttribute :=
    (framed_u16 _).bind fun _ => (framed_u32 _).bind fun n =>
      (framed_takeOr n _).bind fun _ => framed_pure ()
  exact (framed_u16 _).bind fun count => (framed_times hone count).bind fun _ => framed_pure ()

theorem framed_member (p : Pool) (what : String) : Framed (member p what) :=
  (framed_u16 what).bind fun _ => (framed_u16 what).bind fun i => (framed_utf8At p i).bind
    fun _ => (framed_u16 what).bind fun j => (framed_utf8At p j).bind fun _ =>
      framed_skipAttributes.bind fun _ => framed_pure _

theorem framed_members (p : Pool) (what : String) : Framed (members p what) :=
  (framed_u16 what).bind (framed_times (framed_member p what))

theorem framed_body : Framed body := by
  refine framed_pool.bind fun p => (framed_u16 _).bind fun access => ?_
  refine (framed_u16 _).bind fun i => (framed_classAt p i).bind fun name => ?_
  refine (framed_u16 _).bind fun j => (framed_superAt p j).bind fun superName => ?_
  refine (framed_u16 _).bind fun count => ?_
  refine (framed_times ((framed_u16 _).bind (framed_classAt p)) count).bind fun interfaces => ?_
  refine (framed_members p _).bind fun fields => (framed_members p _).bind fun methods => ?_
  exact framed_pure _

/-! ## Class files -/

theorem read_eq_ok {d : Bytes} {o : ClassNode} :
    read d = .ok o ↔ 10 ≤ d.length ∧ magic <+: d ∧ ∃ c, body.run ⟨8, d.drop 8⟩ = .ok (o, c) := by
  have hlong : ((d.take 10).length < 10) ↔ ¬ 10 ≤ d.length := by
    rw [List.length_take]
    omega
  have hmagic : (!isClassFile d) = true ↔ ¬ magic <+: d := by
    rw [isClassFile, ← List.isPrefixOf_iff_prefix, Bool.not_eq_true', Bool.not_eq_true]
  unfold read
  split
  · rename_i hshort
    exact iff_of_false (fun h => by cases h) fun h => hlong.mp hshort h.1
  split
  · rename_i hother
    exact iff_of_false (fun h => by cases h) fun h => hmagic.mp hother h.2.1
  · rename_i hshort hother
    rw [hlong, not_not] at hshort
    rw [hmagic, not_not] at hother
    cases body.run ⟨8, d.drop 8⟩ with
    | error f =>
      refine iff_of_false (fun h => by cases h) ?_
      rintro ⟨-, -, c, h⟩
      cases h
    | ok r =>
      constructor
      · intro h
        cases h
        exact ⟨hshort, hother, r.2, rfl⟩
      · rintro ⟨-, -, c, h⟩
        cases h
        rfl

/-- A success needs a beginning of the file: each file that begins so is read alike, and none that
ends sooner is read. -/
theorem read_needs_a_beginning {d : Bytes} {o : ClassNode} (h : read d = .ok o) :
    ∃ n ≤ d.length, (∀ d', d.take n <+: d' → read d' = .ok o) ∧
      ∀ p, p <+: d → p.length < n → ∃ f, read p = .error f := by
  obtain ⟨hlong, hmagic, c, hbody⟩ := read_eq_ok.mp h
  obtain ⟨used, (hused : d.drop 8 = used ++ c.rest), hneeds⟩ := framed_body _ o c hbody
  have hlength : used.length ≤ d.length - 8 := by
    rw [← List.length_drop, hused, List.length_append]
    exact Nat.le_add_right _ _
  refine ⟨max 10 (8 + used.length), by omega, fun d' hbegin => ?_, fun p hp hshort => ?_⟩
  · have hwhole : magic <+: d' := by
      refine (List.prefix_of_prefix_length_le hmagic (List.take_prefix _ d) ?_).trans hbegin
      rw [List.length_take, show magic.length = 4 from rfl]
      omega
    have hlong' : 10 ≤ d'.length := by
      have hle := hbegin.length_le
      rw [List.length_take] at hle
      omega
    have hbegins : used <+: d'.drop 8 := by
      refine List.IsPrefix.trans ?_ (hbegin.drop 8)
      rw [List.drop_take, hused]
      exact List.prefix_take_iff.mpr ⟨List.prefix_append _ _, by omega⟩
    obtain ⟨rest, hrest⟩ := hbegins
    exact read_eq_ok.mpr ⟨hlong', hwhole, _, hrest ▸ hneeds.reads 8 rest⟩
  · cases hread : read p with
    | error f => exact ⟨f, rfl⟩
    | ok o' =>
      obtain ⟨hlong', _, c', hbody'⟩ := read_eq_ok.mp hread
      have hshort' : (p.drop 8).length < used.length := by
        rw [List.length_drop]
        omega
      have hpart : p.drop 8 <+: used := by
        refine List.prefix_of_prefix_length_le (hp.drop 8) ?_ (Nat.le_of_lt hshort')
        rw [hused]
        exact List.prefix_append _ _
      obtain ⟨f, hf⟩ := hneeds.fails 8 _ hpart hshort'
      rw [hf] at hbody'
      cases hbody'

/-- No file makes the reader look outside the file or its constant pool. A file that is read has
a beginning that decides the outcome for each file that begins so, and each shorter part of it is
rejected. -/
theorem a_cut_off_class_file_is_rejected (d : Bytes) :
    InPlace.read d = some (read d) ∧
      ∀ o, read d = .ok o → ∃ n ≤ d.length, (∀ d', d.take n <+: d' → read d' = .ok o) ∧
        ∀ p, p <+: d → p.length < n → ∃ f, read p = .error f :=
  ⟨InPlace.read_eq d, fun _ => read_needs_a_beginning⟩

theorem the_runner_is_rejected_when_it_is_cut_off :
    ∃ n ≤ CompiledClass.runner.bytes.length,
      (∀ d', CompiledClass.runner.bytes.take n <+: d' → read d' = .ok CompiledClass.runnerNode) ∧
        ∀ p, p <+: CompiledClass.runner.bytes → p.length < n → ∃ f, read p = .error f := by
  have hread : read CompiledClass.runner.bytes = .ok CompiledClass.runnerNode := by
    have h := CompiledClass.runner_describes.read []
    rwa [List.append_nil] at h
  exact (a_cut_off_class_file_is_rejected _).2 _ hread

end Outline

end JarDerivation
