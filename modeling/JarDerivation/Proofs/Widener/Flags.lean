-- What widening does to one flag word, bit by bit. From the bits it follows that the kinds of
-- access can be asked for in any order and any number of times, and that none of them takes back
-- what another one gave.
import JarDerivation.Widener.Apply

namespace JarDerivation

namespace Access

variable {f g : Access} {kind kind' : AccessKind} {isConstructor : Bool}

/-! ## Bits -/

/-- Whether a bit is set. -/
def bit (flags : Access) (i : Fin 16) : Bool := flags.toBitVec[i]

theorem eq_of_bit (h : ∀ i, f.bit i = g.bit i) : f = g :=
  UInt16.toBitVec_inj.mp (BitVec.eq_of_getElem_eq fun i hi => h ⟨i, hi⟩)

theorem bit_or (i : Fin 16) : (f ||| g : Access).bit i = (f.bit i || g.bit i) := by
  simp [bit]

theorem bit_and (i : Fin 16) : (f &&& g : Access).bit i = (f.bit i && g.bit i) := by
  simp [bit]

theorem bit_clear (i : Fin 16) : (clear f g).bit i = (f.bit i && !g.bit i) := by
  simp [bit, clear]

theorem bit_zero : ∀ i, (0 : Access).bit i = false := by decide

theorem bit_public : ∀ i, «public».bit i = decide (i = 0) := by decide

theorem bit_private : ∀ i, «private».bit i = decide (i = 1) := by decide

theorem bit_protected : ∀ i, «protected».bit i = decide (i = 2) := by decide

theorem bit_final : ∀ i, final.bit i = decide (i = 4) := by decide

theorem bit_visibility : ∀ i, visibility.bit i = decide (i = 0 ∨ i = 1 ∨ i = 2) := by decide

/-- A flag of one bit is there just when that bit is set. -/
theorem has_eq_bit (i : Fin 16) (hg : ∀ j, g.bit j = decide (j = i)) : has f g = f.bit i := by
  unfold has
  cases hbit : f.bit i with
  | false =>
    have hnone : f &&& g = 0 := by
      apply eq_of_bit
      intro j
      rw [bit_and, hg, bit_zero]
      grind
    rw [hnone]
    rfl
  | true =>
    rw [bne_iff_ne]
    intro hnone
    have hall : (f &&& g : Access).bit i = (0 : Access).bit i := by rw [hnone]
    rw [bit_and, hbit, hg, bit_zero] at hall
    simp at hall

theorem has_public : has f «public» = f.bit 0 := has_eq_bit 0 bit_public

theorem has_private : has f «private» = f.bit 1 := has_eq_bit 1 bit_private

theorem has_protected : has f «protected» = f.bit 2 := has_eq_bit 2 bit_protected

theorem has_static : has f static = f.bit 3 := has_eq_bit 3 (by decide)

theorem has_final : has f final = f.bit 4 := has_eq_bit 4 bit_final

/-! ## Who may see it -/

theorem and_visibility_eq_iff (hg : ∀ i, g.bit i = true → i = 0 ∨ i = 1 ∨ i = 2) :
    f &&& visibility = g ↔ f.bit 0 = g.bit 0 ∧ f.bit 1 = g.bit 1 ∧ f.bit 2 = g.bit 2 := by
  constructor
  · rintro rfl
    simp [bit_and, bit_visibility]
  · rintro ⟨hpublic, hprivate, hprotected⟩
    apply eq_of_bit
    intro i
    rw [bit_and, bit_visibility]
    grind

/-- Everyone may see it, and no other bit says who may. -/
def IsPublic (flags : Access) : Prop := flags &&& visibility = «public»

def IsProtected (flags : Access) : Prop := flags &&& visibility = «protected»

/-- At most one bit says who may see it. -/
def Unambiguous (flags : Access) : Prop :=
  flags &&& visibility ∈ [0, «public», «private», «protected»]

instance : DecidablePred Unambiguous := fun flags =>
  inferInstanceAs (Decidable (flags &&& visibility ∈ _))

theorem isPublic_iff :
    f.IsPublic ↔ f.bit 0 = true ∧ f.bit 1 = false ∧ f.bit 2 = false :=
  and_visibility_eq_iff (by decide)

theorem isProtected_iff :
    f.IsProtected ↔ f.bit 0 = false ∧ f.bit 1 = false ∧ f.bit 2 = true :=
  and_visibility_eq_iff (by decide)

theorem unambiguous_iff : f.Unambiguous ↔
    ¬ (f.bit 0 ∧ f.bit 1) ∧ ¬ (f.bit 0 ∧ f.bit 2) ∧ ¬ (f.bit 1 ∧ f.bit 2) := by
  have hzero : f &&& visibility = 0 ↔ f.bit 0 = false ∧ f.bit 1 = false ∧ f.bit 2 = false :=
    and_visibility_eq_iff (by decide)
  have hprivate : f &&& visibility = «private» ↔
      f.bit 0 = false ∧ f.bit 1 = true ∧ f.bit 2 = false :=
    and_visibility_eq_iff (by decide)
  have hpublic := isPublic_iff (f := f)
  have hprotected := isProtected_iff (f := f)
  unfold IsPublic at hpublic
  unfold IsProtected at hprotected
  simp only [Unambiguous, List.mem_cons, List.not_mem_nil, or_false, hzero, hpublic, hprivate,
    hprotected]
  cases f.bit 0 <;> cases f.bit 1 <;> cases f.bit 2 <;> decide

/-- How far it is seen: in its class only, in its package, by subclasses too, or by everyone. -/
def reach (flags : Access) : Nat :=
  if has flags «public» then 3
  else if has flags «protected» then 2
  else if has flags «private» then 0
  else 1

/-! ## The bits after widening -/

theorem bit_makePublic (i : Fin 16) : f.makePublic.bit i =
    if i = 0 then true else if i = 1 ∨ i = 2 then false else f.bit i := by
  unfold makePublic
  rw [bit_or, bit_clear, bit_visibility, bit_public]
  grind

theorem bit_widenClass (i : Fin 16) : (widenClass kind f).bit i =
    if i = 0 then true else if i = 1 ∨ i = 2 then false
    else if i = 4 ∧ kind = .extendable then false else f.bit i := by
  unfold widenClass
  split
  · rw [bit_clear, bit_makePublic, bit_final]
    grind
  · rw [bit_makePublic]
    grind

theorem bit_widenField (i : Fin 16) : (widenField kind f).bit i =
    match kind with
    | .accessible => if i = 0 then true else if i = 1 ∨ i = 2 then false else f.bit i
    | .mutable => if i = 4 then false else f.bit i
    | .extendable => f.bit i := by
  cases kind with
  | accessible => exact bit_makePublic i
  | mutable =>
    show (clear f final).bit i = _
    rw [bit_clear, bit_final]
    grind
  | extendable => rfl

theorem bit_widenMethod (i : Fin 16) : (widenMethod kind isConstructor f).bit i =
    match kind with
    | .accessible =>
      if i = 0 then true else if i = 1 ∨ i = 2 then false
      else if i = 4 then f.bit 4 || (f.bit 1 && !f.bit 3 && !isConstructor) else f.bit i
    | .extendable =>
      if i = 4 then false else if f.bit 0 then f.bit i
      else if i = 0 ∨ i = 1 then false else if i = 2 then true else f.bit i
    | .mutable => f.bit i := by
  cases kind with
  | accessible =>
    simp only [widenMethod, has_private, has_static]
    split
    · rw [bit_or, bit_makePublic, bit_final]
      grind
    · rw [bit_makePublic]
      grind
  | extendable =>
    simp only [widenMethod, has_public]
    split
    · rw [bit_clear, bit_final]
      grind
    · rw [bit_clear, bit_or, bit_clear, bit_final, bit_visibility, bit_protected]
      grind
  | mutable => rfl

/-! ## Any order, any number of times -/

theorem widenClass_comm (kind kind' : AccessKind) :
    widenClass kind (widenClass kind' f) = widenClass kind' (widenClass kind f) := by
  apply eq_of_bit
  intro i
  simp only [bit_widenClass]
  grind

theorem widenClass_again : widenClass kind (widenClass kind f) = widenClass kind f := by
  apply eq_of_bit
  intro i
  simp only [bit_widenClass]
  grind

theorem widenField_comm (kind kind' : AccessKind) :
    widenField kind (widenField kind' f) = widenField kind' (widenField kind f) := by
  apply eq_of_bit
  intro i
  simp only [bit_widenField]
  cases kind <;> cases kind' <;> grind

theorem widenField_again : widenField kind (widenField kind f) = widenField kind f := by
  apply eq_of_bit
  intro i
  simp only [bit_widenField]
  cases kind <;> grind

theorem unambiguous_widenMethod (h : f.Unambiguous) :
    (widenMethod kind isConstructor f).Unambiguous := by
  rw [unambiguous_iff] at h ⊢
  simp only [bit_widenMethod]
  cases kind <;> grind

/-- Beside a `public` bit, a `private` one is kept by extending and cleared by making accessible,
which adds `final` for it; so a word with both would show the order. -/
theorem widenMethod_comm (kind kind' : AccessKind) (h : f.Unambiguous) :
    widenMethod kind isConstructor (widenMethod kind' isConstructor f) =
      widenMethod kind' isConstructor (widenMethod kind isConstructor f) := by
  rw [unambiguous_iff] at h
  apply eq_of_bit
  intro i
  simp only [bit_widenMethod]
  cases kind <;> cases kind' <;> grind

example : widenMethod .accessible false (widenMethod .extendable false («public» ||| «private»)) ≠
    widenMethod .extendable false (widenMethod .accessible false («public» ||| «private»)) := by
  decide

theorem widenMethod_again :
    widenMethod kind isConstructor (widenMethod kind isConstructor f) =
      widenMethod kind isConstructor f := by
  apply eq_of_bit
  intro i
  simp only [bit_widenMethod]
  cases kind <;> grind

/-! ## Nothing is taken back -/

theorem isPublic_makePublic : f.makePublic.IsPublic := by
  rw [isPublic_iff]
  simp [bit_makePublic]

theorem isPublic_widenClass : (widenClass kind f).IsPublic := by
  rw [isPublic_iff]
  simp [bit_widenClass]

theorem notFinal_widenClass : has (widenClass .extendable f) final = false := by
  rw [has_final]
  simp [bit_widenClass]

theorem notFinal_widenField : has (widenField .mutable f) final = false := by
  rw [has_final]
  simp [bit_widenField]

theorem isPublic_widenMethod : (widenMethod .accessible isConstructor f).IsPublic := by
  rw [isPublic_iff]
  simp [bit_widenMethod]

theorem notFinal_widenMethod : has (widenMethod .extendable isConstructor f) final = false := by
  rw [has_final]
  simp [bit_widenMethod]

theorem seen_widenMethod (h : f.Unambiguous) :
    (widenMethod .extendable isConstructor f).IsPublic ∨
      (widenMethod .extendable isConstructor f).IsProtected := by
  rw [unambiguous_iff] at h
  rw [isPublic_iff, isProtected_iff]
  simp only [bit_widenMethod]
  grind

/-- What may become of a flag word. It is seen as far as before, and of all other bits only
`final` may differ. Without a reason to touch it, it stays as it is; and it becomes final only
for a reason to close it. -/
structure Widens (touch close : Prop) (old new : Access) : Prop where
  reach : old.reach ≤ new.reach
  others : clear new (visibility ||| final) = clear old (visibility ||| final)
  untouched : ¬ touch → new = old
  private_before : has new «private» = true → has old «private» = true
  final_before : has new final = true → has old final = true ∨ close

namespace Widens

variable {touch close touch' close' : Prop} {old mid new : Access}

theorem refl (touch close : Prop) (flags : Access) : Widens touch close flags flags :=
  ⟨Nat.le_refl _, rfl, fun _ => rfl, id, Or.inl⟩

theorem trans (h : Widens touch close old mid) (h' : Widens touch' close' mid new) :
    Widens (touch ∨ touch') (close ∨ close') old new where
  reach := Nat.le_trans h.reach h'.reach
  others := h'.others.trans h.others
  untouched hnone := (h'.untouched (hnone ∘ Or.inr)).trans (h.untouched (hnone ∘ Or.inl))
  private_before hnew := h.private_before (h'.private_before hnew)
  final_before hnew := by
    rcases h'.final_before hnew with hmid | hclose
    · rcases h.final_before hmid with hold | hclose
      · exact Or.inl hold
      · exact Or.inr (Or.inl hclose)
    · exact Or.inr (Or.inr hclose)

theorem mono (h : Widens touch close old new) (ht : touch → touch') (hc : close → close') :
    Widens touch' close' old new :=
  ⟨h.reach, h.others, fun hnone => h.untouched (hnone ∘ ht), h.private_before,
    fun hnew => (h.final_before hnew).imp_right hc⟩

/-- Being static is never changed. -/
theorem static_eq (h : Widens touch close old new) : has new static = has old static := by
  have hbit := congrArg (bit · 3) h.others
  simpa [bit_clear, bit_or, bit_visibility, bit_final, has_static] using hbit

end Widens

/-- A word that differs in these bits only, each of them in the right direction. -/
theorem widens_of_bits {touch close : Prop} (ht : touch)
    (hothers : ∀ i, i ≠ 0 → i ≠ 1 → i ≠ 2 → i ≠ 4 → g.bit i = f.bit i)
    (hpublic : f.bit 0 = true → g.bit 0 = true)
    (hprotected : f.bit 2 = true → g.bit 0 = true ∨ g.bit 2 = true)
    (hprivate : g.bit 1 = true → f.bit 1 = true)
    (hfinal : g.bit 4 = true → f.bit 4 = true ∨ close) : Widens touch close f g where
  reach := by
    simp only [reach, has_public, has_private, has_protected]
    grind
  others := by
    apply eq_of_bit
    intro i
    simp only [bit_clear, bit_or, bit_visibility, bit_final]
    grind
  untouched hnone := absurd ht hnone
  private_before := by rwa [has_private, has_private]
  final_before := by rwa [has_final, has_final]

theorem widens_widenClass {touch : Prop} (close : Prop) (ht : touch) :
    Widens touch close f (widenClass kind f) := by
  apply widens_of_bits ht
  all_goals simp only [bit_widenClass]
  all_goals grind

theorem widens_widenField {touch : Prop} (close : Prop) (ht : touch) :
    Widens touch close f (widenField kind f) := by
  apply widens_of_bits ht
  all_goals simp only [bit_widenField]
  all_goals cases kind <;> grind

/-- A method is closed only if it is private, neither static nor a constructor, and made
accessible. -/
theorem widens_widenMethod {touch close : Prop} (ht : touch)
    (hc : kind = .accessible → has f «private» = true → has f static = false →
      isConstructor = false → close) :
    Widens touch close f (widenMethod kind isConstructor f) := by
  rw [has_private, has_static] at hc
  apply widens_of_bits ht
  all_goals simp only [bit_widenMethod]
  all_goals cases kind <;> grind

end Access

end JarDerivation
