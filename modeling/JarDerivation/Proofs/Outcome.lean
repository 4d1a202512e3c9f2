-- What the outcome of a computation says of its steps. If it succeeded, each of
-- them has; and what it fails with is what one of them fails with.
import Mathlib.Data.List.Basic

namespace JarDerivation

variable {ε α β : Type}

/-! ## Success -/

theorem ok_of_bind {x : Except ε α} {f : α → Except ε β} {b : β} (h : x >>= f = .ok b) :
    ∃ a, x = .ok a ∧ f a = .ok b := by
  cases x with
  | error e => cases h
  | ok a => exact ⟨a, rfl, h⟩

/-- A pass over a list that succeeds has succeeded on each element. -/
theorem map_eq_of_mapM {f : α → Except ε β} {l : List α} {bs : List β} (h : l.mapM f = .ok bs) :
    l.map f = bs.map .ok := by
  induction l generalizing bs with
  | nil =>
    cases h
    rfl
  | cons a rest ih =>
    rw [List.mapM_cons] at h
    obtain ⟨b, hb, h⟩ := ok_of_bind h
    obtain ⟨others, hothers, h⟩ := ok_of_bind h
    cases h
    rw [List.map_cons, List.map_cons, hb, ih hothers]

theorem forM_eq_ok {f : α → Except ε Unit} {l : List α} :
    l.forM f = .ok () ↔ ∀ a ∈ l, f a = .ok () := by
  induction l with
  | nil => exact ⟨fun _ => List.forall_mem_nil _, fun _ => rfl⟩
  | cons a rest ih =>
    rw [List.forall_mem_cons, ← ih]
    constructor
    · intro h
      obtain ⟨_, ha, hrest⟩ := ok_of_bind h
      exact ⟨ha, hrest⟩
    · rintro ⟨ha, hrest⟩
      show (f a >>= fun _ => rest.forM f) = .ok ()
      rw [ha]
      exact hrest

/-- A pass that goes well for some elements, and only for these. -/
theorem mapM_eq_ok {f : α → Except ε β} {good : α → Prop} {g : α → β}
    (hf : ∀ a b, f a = .ok b ↔ good a ∧ g a = b) {l : List α} {bs : List β} :
    l.mapM f = .ok bs ↔ (∀ a ∈ l, good a) ∧ l.map g = bs := by
  induction l generalizing bs with
  | nil =>
    exact ⟨fun h => ⟨List.forall_mem_nil _, Except.ok.inj h⟩, fun h => congrArg Except.ok h.2⟩
  | cons a rest ih =>
    rw [List.mapM_cons, List.forall_mem_cons, List.map_cons]
    constructor
    · intro h
      obtain ⟨b, hb, h⟩ := ok_of_bind h
      obtain ⟨others, hothers, h⟩ := ok_of_bind h
      cases h
      obtain ⟨hgood, rfl⟩ := (hf a b).mp hb
      obtain ⟨hrest, rfl⟩ := ih.mp hothers
      exact ⟨⟨hgood, hrest⟩, rfl⟩
    · rintro ⟨⟨hgood, hrest⟩, rfl⟩
      rw [(hf a _).mpr ⟨hgood, rfl⟩, ih.mpr ⟨hrest, rfl⟩]
      rfl

/-- A fold that goes well for some elements, and only for these. -/
theorem foldlM_eq_ok {step : β → α → Except ε β} {good : α → Prop} {add : β → α → β}
    (hstep : ∀ b a c, step b a = .ok c ↔ good a ∧ add b a = c) {l : List α} {b c : β} :
    l.foldlM step b = .ok c ↔ (∀ a ∈ l, good a) ∧ l.foldl add b = c := by
  induction l generalizing b with
  | nil => exact ⟨fun h => ⟨List.forall_mem_nil _, Except.ok.inj h⟩, fun h => congrArg _ h.2⟩
  | cons a rest ih =>
    rw [List.foldlM_cons, List.forall_mem_cons, List.foldl_cons]
    constructor
    · intro h
      obtain ⟨next, hnext, hrest⟩ := ok_of_bind h
      obtain ⟨hgood, rfl⟩ := (hstep b a next).mp hnext
      obtain ⟨hothers, hc⟩ := ih.mp hrest
      exact ⟨⟨hgood, hothers⟩, hc⟩
    · rintro ⟨⟨hgood, hothers⟩, hc⟩
      rw [(hstep b a _).mpr ⟨hgood, rfl⟩]
      exact ih.mpr ⟨hothers, hc⟩

theorem eq_of_map_ok {l l' : List α} (h : l.map (Except.ok : α → Except ε α) = l'.map .ok) :
    l = l' :=
  List.map_injective_iff.mpr (fun _ _ heq => Except.ok.inj heq) h

/-! ## Failure -/

/-- Whatever the computation fails with is of this kind. -/
def FailsOnlyWith (kind : ε → Prop) (x : Except ε α) : Prop := ∀ e, x = .error e → kind e

variable {kind : ε → Prop}

theorem failsOnlyWith_ok (a : α) : FailsOnlyWith kind (.ok a) := by
  intro e h
  cases h

theorem failsOnlyWith_error {e : ε} (h : kind e) : FailsOnlyWith kind (.error e : Except ε α) := by
  intro e' heq
  cases heq
  exact h

theorem failsOnlyWith_bind {x : Except ε α} {f : α → Except ε β} (hx : FailsOnlyWith kind x)
    (hf : ∀ a, FailsOnlyWith kind (f a)) : FailsOnlyWith kind (x >>= f) := by
  intro e h
  cases x with
  | error e' =>
    cases h
    exact hx e rfl
  | ok a => exact hf a e h

theorem failsOnlyWith_mapM {f : α → Except ε β} (hf : ∀ a, FailsOnlyWith kind (f a)) (l : List α) :
    FailsOnlyWith kind (l.mapM f) := by
  induction l with
  | nil => exact failsOnlyWith_ok []
  | cons a rest ih =>
    rw [List.mapM_cons]
    exact failsOnlyWith_bind (hf a) fun b => failsOnlyWith_bind ih fun bs => failsOnlyWith_ok _

theorem failsOnlyWith_forM {f : α → Except ε Unit} (hf : ∀ a, FailsOnlyWith kind (f a))
    (l : List α) : FailsOnlyWith kind (l.forM f) := by
  induction l with
  | nil => exact failsOnlyWith_ok ()
  | cons a rest ih => exact failsOnlyWith_bind (hf a) fun _ => ih

theorem failsOnlyWith_foldlM {f : β → α → Except ε β} (hf : ∀ b a, FailsOnlyWith kind (f b a))
    (l : List α) (b : β) : FailsOnlyWith kind (l.foldlM f b) := by
  induction l generalizing b with
  | nil => exact failsOnlyWith_ok b
  | cons a rest ih =>
    rw [List.foldlM_cons]
    exact failsOnlyWith_bind (hf b a) ih

end JarDerivation
