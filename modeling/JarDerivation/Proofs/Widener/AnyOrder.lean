-- A widener is a set of demands. Its entries change the first item that they name, and what they
-- do to a flag word can be done in any order and any number of times; so only which demands
-- there are decides what becomes of a class.
import JarDerivation.Proofs.Widener.Flags
import JarDerivation.Proofs.Widener.Lockstep

namespace JarDerivation

/-! ## Steps in any order -/

/-- From a good state, steps can be taken in any order, and taking one again changes nothing. -/
structure Settles {σ α : Type} (good : σ → Prop) (step : σ → α → σ) : Prop where
  keeps : ∀ {s} a, good s → good (step s a)
  swap : ∀ {s} a b, good s → step (step s a) b = step (step s b) a
  again : ∀ {s} a, good s → step (step s a) a = step s a

namespace Settles

variable {σ α : Type} {good : σ → Prop} {step : σ → α → σ} {s : σ} {a : α} {l l' : List α}

theorem good_foldl (h : Settles good step) (hs : good s) : good (l.foldl step s) := by
  induction l generalizing s with
  | nil => exact hs
  | cons a rest ih => exact ih (h.keeps a hs)

/-- A step after a run might have come before it. -/
theorem step_foldl (h : Settles good step) (hs : good s) :
    step (l.foldl step s) a = l.foldl step (step s a) := by
  induction l generalizing s with
  | nil => rfl
  | cons b rest ih => rw [List.foldl_cons, List.foldl_cons, ih (h.keeps b hs), h.swap b a hs]

/-- A step of a run is in force when the run is over. -/
theorem step_foldl_of_mem (h : Settles good step) (hs : good s) (ha : a ∈ l) :
    step (l.foldl step s) a = l.foldl step s := by
  induction l generalizing s with
  | nil => cases ha
  | cons b rest ih =>
    rcases List.mem_cons.mp ha with rfl | ha
    · rw [List.foldl_cons, h.step_foldl (h.keeps a hs), h.again a hs]
    · exact ih (h.keeps b hs) ha

/-- A run in which each step is one of another run changes nothing after it. -/
theorem foldl_foldl_of_mem (h : Settles good step) (hs : good s)
    (hall : ∀ a ∈ l', ∃ b ∈ l, ∀ t, step t a = step t b) :
    l'.foldl step (l.foldl step s) = l.foldl step s := by
  induction l' with
  | nil => rfl
  | cons a rest ih =>
    obtain ⟨b, hb, hsame⟩ := hall a List.mem_cons_self
    rw [List.foldl_cons, hsame, h.step_foldl_of_mem hs hb]
    exact ih fun a ha => hall a (List.mem_cons_of_mem _ ha)

theorem foldl_foldl (h : Settles good step) (hs : good s) :
    l'.foldl step (l.foldl step s) = l.foldl step (l'.foldl step s) := by
  induction l' generalizing s with
  | nil => rfl
  | cons a rest ih => rw [List.foldl_cons, List.foldl_cons, h.step_foldl hs, ih (h.keeps a hs)]

/-- Two runs with the same steps end in the same state. -/
theorem foldl_eq (h : Settles good step) (hs : good s)
    (hl : ∀ a ∈ l, ∃ b ∈ l', ∀ t, step t a = step t b)
    (hl' : ∀ a ∈ l', ∃ b ∈ l, ∀ t, step t a = step t b) : l.foldl step s = l'.foldl step s :=
  calc
    l.foldl step s = l'.foldl step (l.foldl step s) := (h.foldl_foldl_of_mem hs hl').symm
    _ = l.foldl step (l'.foldl step s) := h.foldl_foldl hs
    _ = l'.foldl step s := h.foldl_foldl_of_mem hs hl

end Settles

/-! ## Changes of first items -/

section

variable {α : Type} {p q : α → Bool} {f g : α → α} {l : List α}

/-- Two changes commute that commute on the items that both of them may meet. -/
theorem modifyFirst_comm (hp : ∀ a, p (g a) = p a) (hq : ∀ a, q (f a) = q a)
    (hfg : ∀ a ∈ l, p a = true → q a = true → f (g a) = g (f a)) :
    modifyFirst p f (modifyFirst q g l) = modifyFirst q g (modifyFirst p f l) := by
  induction l with
  | nil => rfl
  | cons a rest ih =>
    have hrest := ih fun b hb => hfg b (List.mem_cons_of_mem a hb)
    cases hpa : p a with
    | false =>
      cases hqa : q a with
      | false => simp [modifyFirst, hpa, hqa, hrest]
      | true => simp [modifyFirst, hpa, hqa, hp]
    | true =>
      cases hqa : q a with
      | false => simp [modifyFirst, hpa, hqa, hq]
      | true => simp [modifyFirst, hpa, hqa, hp, hq, hfg a List.mem_cons_self hpa hqa]

theorem modifyFirst_again (hp : ∀ a, p (f a) = p a) (hf : ∀ a, f (f a) = f a) :
    modifyFirst p f (modifyFirst p f l) = modifyFirst p f l := by
  induction l with
  | nil => rfl
  | cons a rest ih =>
    cases hpa : p a with
    | false => simp [modifyFirst, hpa, ih]
    | true => simp [modifyFirst, hpa, hp, hf]

theorem forall_mem_modifyFirst {P : α → Prop} (hf : ∀ a, P a → P (f a)) (hl : ∀ a ∈ l, P a) :
    ∀ a ∈ modifyFirst p f l, P a := by
  induction l with
  | nil => exact hl
  | cons a rest ih =>
    obtain ⟨ha, hrest⟩ := List.forall_mem_cons.mp hl
    unfold modifyFirst
    cases p a with
    | false => exact List.forall_mem_cons.mpr ⟨ha, ih hrest⟩
    | true => exact List.forall_mem_cons.mpr ⟨hf a ha, hrest⟩

end

/-! ## Entries in any order -/

namespace ClassNode

/-- No method has more than one bit that says who may see it. -/
def ClearMethods (c : ClassNode) : Prop := ∀ m ∈ c.methods, m.access.Unambiguous

instance : DecidablePred ClearMethods := fun c =>
  inferInstanceAs (Decidable (∀ m ∈ c.methods, m.access.Unambiguous))

end ClassNode

namespace Widener

variable {c : ClassNode}

theorem clearMethods_applyEntry (e : WidenEntry) (h : c.ClearMethods) :
    (applyEntry c e).ClearMethods := by
  unfold applyEntry
  cases e.target with
  | «class» name => exact h
  | method owner name desc =>
    exact forall_mem_modifyFirst (fun _ hm => Access.unambiguous_widenMethod hm) h
  | field owner name desc => exact h

theorem applyEntry_comm (e e' : WidenEntry) (h : c.ClearMethods) :
    applyEntry (applyEntry c e) e' = applyEntry (applyEntry c e') e := by
  unfold applyEntry
  cases e.target with
  | «class» name =>
    cases e'.target with
    | «class» name' =>
      simp only [ClassNode.mk.injEq, true_and, and_true]
      refine ⟨Access.widenClass_comm _ _, modifyFirst_comm ?_ ?_ ?_⟩
      · intro
        rfl
      · intro
        rfl
      · intro ic _ _ _
        simp only [Access.widenClass_comm e.access]
    | method owner' name' desc' => rfl
    | field owner' name' desc' => rfl
  | method owner name desc =>
    cases e'.target with
    | «class» name' => rfl
    | method owner' name' desc' =>
      simp only [ClassNode.mk.injEq, true_and, and_true]
      refine modifyFirst_comm ?_ ?_ ?_
      · intro
        rfl
      · intro
        rfl
      · intro m hm hkey' hkey
        -- the names are the same, so both entries take it for a constructor or neither does
        obtain rfl : name' = name :=
          congrArg Prod.fst ((beq_iff_eq.mp hkey').symm.trans (beq_iff_eq.mp hkey))
        simp only [widenMember, Access.widenMethod_comm e.access _ (h m hm)]
    | field owner' name' desc' => rfl
  | field owner name desc =>
    cases e'.target with
    | «class» name' => rfl
    | method owner' name' desc' => rfl
    | field owner' name' desc' =>
      simp only [ClassNode.mk.injEq, true_and, and_true]
      refine modifyFirst_comm ?_ ?_ ?_
      · intro
        rfl
      · intro
        rfl
      · intro m _ _ _
        simp only [widenMember, Access.widenField_comm e.access]

theorem applyEntry_again (c : ClassNode) (e : WidenEntry) :
    applyEntry (applyEntry c e) e = applyEntry c e := by
  unfold applyEntry
  cases e.target with
  | «class» name =>
    simp only [ClassNode.mk.injEq, true_and, and_true]
    refine ⟨Access.widenClass_again, modifyFirst_again ?_ ?_⟩
    · intro
      rfl
    · intro
      simp only [Access.widenClass_again]
  | method owner name desc =>
    simp only [ClassNode.mk.injEq, true_and, and_true]
    refine modifyFirst_again ?_ ?_
    · intro
      rfl
    · intro
      simp only [widenMember, Access.widenMethod_again]
  | field owner name desc =>
    simp only [ClassNode.mk.injEq, true_and, and_true]
    refine modifyFirst_again ?_ ?_
    · intro
      rfl
    · intro
      simp only [widenMember, Access.widenField_again]

theorem settles_applyEntry : Settles ClassNode.ClearMethods applyEntry where
  keeps e h := clearMethods_applyEntry e h
  swap e e' h := applyEntry_comm e e' h
  again e _ := applyEntry_again _ e

theorem changes_eq_false_iff {w : Widener} : w.changes c = false ↔ w.widen c = c :=
  bne_eq_false_iff_eq

/-- What an entry asks for, and for which target. Being transitive is no part of it. -/
def demands (w : Widener) : List (AccessKind × WidenTarget) :=
  w.entries.map fun e => (e.access, e.target)

theorem exists_entry_of_demands {w w' : Widener} {name : String}
    (h : ∀ d, d ∈ w.demands → d ∈ w'.demands) :
    ∀ e ∈ w.entriesFor name, ∃ e' ∈ w'.entriesFor name, ∀ c, applyEntry c e = applyEntry c e' := by
  intro e he
  obtain ⟨hmem, howner⟩ := List.mem_filter.mp he
  obtain ⟨e', hmem', hsame⟩ := List.mem_map.mp (h _ (List.mem_map_of_mem hmem))
  obtain ⟨haccess, htarget⟩ := Prod.mk.inj hsame
  refine ⟨e', List.mem_filter.mpr ⟨hmem', by rw [htarget, howner]⟩, fun c => ?_⟩
  unfold applyEntry
  rw [haccess, htarget]

/-- Two wideners with the same demands make the same of a class and change it alike, and a
second pass of a widener changes nothing. -/
theorem only_its_demands_matter_and_they_are_met_at_once (h : c.ClearMethods) :
    (∀ w w' : Widener, (∀ d, d ∈ w.demands ↔ d ∈ w'.demands) →
      w.widen c = w'.widen c ∧ w.changes c = w'.changes c) ∧
    ∀ w : Widener, w.widen (w.widen c) = w.widen c ∧ w.changes (w.widen c) = false := by
  constructor
  · intro w w' hsame
    have hwiden : w.widen c = w'.widen c :=
      settles_applyEntry.foldl_eq h (exists_entry_of_demands fun d => (hsame d).mp)
        (exists_entry_of_demands fun d => (hsame d).mpr)
    refine ⟨hwiden, ?_⟩
    unfold changes
    rw [hwiden]
  · intro w
    have hwiden : w.widen (w.widen c) = w.widen c := by
      have hname : (w.widen c).name = c.name := ClassNode.name_of_shape (shape_widen w c)
      unfold widen at hname ⊢
      rw [hname]
      exact settles_applyEntry.foldl_foldl_of_mem h fun e he => ⟨e, he, fun _ => rfl⟩
    exact ⟨hwiden, changes_eq_false_iff.mpr hwiden⟩

/-- A class that is final, with members and a record about itself that are private. -/
def lockedWorld : ClassNode :=
  { access := 0x0010, name := "a", superName := some "java/lang/Object", interfaces := []
    fields := [⟨0x0012, "d", "I", none, none⟩]
    methods := [⟨0x0002, "b", "()V", none, none⟩, ⟨0x0012, "c", "()V", none, none⟩,
      ⟨0x0002, "<init>", "()V", none, none⟩]
    innerClasses := [⟨"a", some "o", some "a", 0x0012⟩], outerClass := none, side := none }

/-- A widener that opens up all of it, one of the methods both ways. -/
def unlocker : Widener :=
  ⟨2, "official",
    [⟨.accessible, false, .method "a" "b" "()V"⟩, ⟨.accessible, false, .method "a" "c" "()V"⟩,
      ⟨.extendable, true, .method "a" "c" "()V"⟩, ⟨.accessible, false, .method "a" "<init>" "()V"⟩,
      ⟨.mutable, true, .field "a" "d" "I"⟩, ⟨.accessible, false, .field "a" "d" "I"⟩,
      ⟨.accessible, false, .class "a"⟩, ⟨.extendable, false, .class "a"⟩]⟩

/-- The same demands from the last one on, and a second time in their order. -/
def unlockerBackwards : Widener :=
  ⟨1, "official", (unlocker.entries.reverse ++ unlocker.entries).map fun e =>
    { e with transitive := false }⟩

theorem the_locked_world_opens_in_any_order : lockedWorld.ClearMethods ∧
    (∀ d, d ∈ unlocker.demands ↔ d ∈ unlockerBackwards.demands) ∧
    unlocker.widen lockedWorld = unlockerBackwards.widen lockedWorld ∧
    unlocker.changes lockedWorld = unlockerBackwards.changes lockedWorld ∧
    unlocker.changes lockedWorld = true ∧
    unlocker.changes (unlocker.widen lockedWorld) = false := by
  have h : lockedWorld.ClearMethods := by decide
  have hforth : ∀ d ∈ unlocker.demands, d ∈ unlockerBackwards.demands := by decide
  have hback : ∀ d ∈ unlockerBackwards.demands, d ∈ unlocker.demands := by decide
  have hsame := fun d => Iff.intro (hforth d) (hback d)
  obtain ⟨horder, hagain⟩ := only_its_demands_matter_and_they_are_met_at_once h
  obtain ⟨hwiden, hchanges⟩ := horder unlocker unlockerBackwards hsame
  exact ⟨h, hsame, hwiden, hchanges, by decide, (hagain unlocker).2⟩

end Widener

end JarDerivation
