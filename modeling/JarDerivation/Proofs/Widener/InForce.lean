-- After a widening, each entry that names the class or one of its members is in force, whatever
-- the entries before and after it. Nothing but flags has changed, and of these only the ones that
-- an entry names, none of them to be seen less far than before.
import JarDerivation.Proofs.Widener.AnyOrder
import JarDerivation.Proofs.Widener.MemberNames

namespace JarDerivation

/-! ## What an entry promises -/

/-- Open to everyone, and not final if it is to be extended. -/
def Access.Opened (kind : AccessKind) (flags : Access) : Prop :=
  flags.IsPublic ∧ (kind = .extendable → Access.has flags Access.final = false)

/-- What an entry promises of a class. Of several members with its key it means the first. -/
def WidenEntry.HoldsIn (e : WidenEntry) (c : ClassNode) : Prop :=
  match e.target with
  | .class _ =>
    c.access.Opened e.access ∧ ∀ ic, c.ownRecord? = some ic → ic.access.Opened e.access
  | .method _ name desc =>
    ∀ m, c.method? name desc = some m →
      (e.access = .accessible → m.access.IsPublic) ∧
      (e.access = .extendable →
        (m.access.IsPublic ∨ m.access.IsProtected) ∧ Access.has m.access Access.final = false)
  | .field _ name desc =>
    ∀ m, c.field? name desc = some m →
      (e.access = .accessible → m.access.IsPublic) ∧
      (e.access = .mutable → Access.has m.access Access.final = false)

theorem Access.opened_widenClass {kind : AccessKind} {flags : Access} :
    (Access.widenClass kind flags).Opened kind := by
  refine ⟨isPublic_widenClass, ?_⟩
  rintro rfl
  exact notFinal_widenClass

section

variable {α : Type} {p : α → Bool} {f : α → α} {l : List α}

theorem find?_modifyFirst (hp : ∀ a, p (f a) = p a) :
    (modifyFirst p f l).find? p = (l.find? p).map f := by
  induction l with
  | nil => rfl
  | cons a rest ih =>
    cases hpa : p a with
    | false => simp [modifyFirst, hpa, ih]
    | true => simp [modifyFirst, hpa, hp]

/-- At each place there is what was there before, but for the place of the first item. -/
theorem getElem?_modifyFirst (i : Nat) :
    (modifyFirst p f l)[i]? = if l.findIdx? p = some i then l[i]?.map f else l[i]? := by
  induction l generalizing i with
  | nil => simp [modifyFirst]
  | cons a rest ih =>
    rw [List.findIdx?_cons]
    cases hpa : p a with
    | true => cases i <;> simp [modifyFirst, hpa]
    | false =>
      cases i with
      | zero => simp [modifyFirst, hpa]
      | succ i => simp [modifyFirst, hpa, ih]

end

namespace Widener

variable {c : ClassNode}

theorem ownRecord?_applyEntry {e : WidenEntry} {name : String} (htarget : e.target = .class name) :
    (applyEntry c e).ownRecord? =
      c.ownRecord?.map fun ic => { ic with access := Access.widenClass e.access ic.access } := by
  unfold applyEntry ClassNode.ownRecord?
  rw [htarget]
  exact find?_modifyFirst fun _ => rfl

theorem method?_applyEntry {e : WidenEntry} {owner name desc : String}
    (htarget : e.target = .method owner name desc) : (applyEntry c e).method? name desc =
      (c.method? name desc).map (widenMember (Access.widenMethod e.access (name == "<init>"))) := by
  unfold applyEntry ClassNode.method?
  rw [htarget]
  exact find?_modifyFirst fun _ => rfl

theorem field?_applyEntry {e : WidenEntry} {owner name desc : String}
    (htarget : e.target = .field owner name desc) : (applyEntry c e).field? name desc =
      (c.field? name desc).map (widenMember (Access.widenField e.access)) := by
  unfold applyEntry ClassNode.field?
  rw [htarget]
  exact find?_modifyFirst fun _ => rfl

theorem access_widenMember (f : Access → Access) (m : MemberNode) :
    (widenMember f m).access = f m.access := rfl

/-- Right after an entry was applied, it is in force. -/
theorem holdsIn_applyEntry (e : WidenEntry) (h : c.ClearMethods) :
    e.HoldsIn (applyEntry c e) := by
  unfold WidenEntry.HoldsIn
  cases htarget : e.target with
  | «class» name =>
    constructor
    · unfold applyEntry
      rw [htarget]
      exact Access.opened_widenClass
    · intro ic hic
      rw [ownRecord?_applyEntry htarget] at hic
      obtain ⟨old, _, rfl⟩ := Option.map_eq_some_iff.mp hic
      exact Access.opened_widenClass
  | method owner name desc =>
    intro m hm
    rw [method?_applyEntry htarget] at hm
    obtain ⟨old, hold, rfl⟩ := Option.map_eq_some_iff.mp hm
    have hclear := h old (List.mem_of_find?_eq_some hold)
    rw [access_widenMember]
    constructor
    · intro hkind
      rw [hkind]
      exact Access.isPublic_widenMethod
    · intro hkind
      rw [hkind]
      exact ⟨Access.seen_widenMethod hclear, Access.notFinal_widenMethod⟩
  | field owner name desc =>
    intro m hm
    rw [field?_applyEntry htarget] at hm
    obtain ⟨old, _, rfl⟩ := Option.map_eq_some_iff.mp hm
    rw [access_widenMember]
    constructor
    · intro hkind
      rw [hkind]
      exact Access.isPublic_makePublic
    · intro hkind
      rw [hkind]
      exact Access.notFinal_widenField

/-- Since each entry might have been the last one, all of them are in force at the end. -/
theorem holdsIn_widen (w : Widener) (h : c.ClearMethods) {e : WidenEntry} (he : e ∈ w.entries)
    (howner : e.target.owner = c.name) : e.HoldsIn (w.widen c) := by
  have hmem : e ∈ w.entriesFor c.name := List.mem_filter.mpr ⟨he, beq_iff_eq.mpr howner⟩
  have hlast : applyEntry (w.widen c) e = w.widen c := settles_applyEntry.step_foldl_of_mem h hmem
  rw [← hlast]
  exact holdsIn_applyEntry e (settles_applyEntry.good_foldl h)

end Widener

/-! ## What else may change -/

/-- Lists that agree in one way have items that agree at each place, -/
theorem getElem?_of_map_eq {α β : Type} {g : α → β} {l l' : List α} (h : l'.map g = l.map g) {i : Nat}
    {a : α} (ha : l[i]? = some a) : ∃ a', l'[i]? = some a' ∧ g a' = g a := by
  have hplace : (l'.map g)[i]? = some (g a) := by rw [h, List.getElem?_map, ha]; rfl
  rw [List.getElem?_map] at hplace
  exact Option.map_eq_some_iff.mp hplace

/-- and the first item of a kind at the same place. -/
theorem findIdx?_of_map_eq {α β : Type} {g : α → β} {l l' : List α} (h : l'.map g = l.map g)
    (q : β → Bool) : l'.findIdx? (q ∘ g) = l.findIdx? (q ∘ g) := by
  rw [← List.findIdx?_map, h, List.findIdx?_map]

namespace ClassNode

variable {c c' c'' : ClassNode} {es es' : List WidenEntry}

theorem members_of_shape (h : c'.shape = c.shape) (kind : MemberKind) :
    (c'.members kind).map MemberNode.shape = (c.members kind).map MemberNode.shape := by
  cases kind with
  | field => exact congrArg ClassNode.fields h
  | method => exact congrArg ClassNode.methods h

theorem records_of_shape (h : c'.shape = c.shape) :
    c'.innerClasses.map InnerClass.shape = c.innerClasses.map InnerClass.shape :=
  congrArg ClassNode.innerClasses h

/-- One class beside another: a flag word differs only if an entry names what it belongs to, and
only in ways in which widening may change it. All else is the same. -/
structure OpenedBy (es : List WidenEntry) (c c' : ClassNode) : Prop where
  shape : c'.shape = c.shape
  own : Access.Widens (∃ e ∈ es, e.target = .class c.name) False c.access c'.access
  records : ∀ i ic ic', c.innerClasses[i]? = some ic → c'.innerClasses[i]? = some ic' →
    Access.Widens
      (c.innerClasses.findIdx? (·.name == c.name) = some i ∧ ∃ e ∈ es, e.target = .class c.name)
      False ic.access ic'.access
  members : ∀ kind i m m', (c.members kind)[i]? = some m → (c'.members kind)[i]? = some m' →
    Access.Widens
      ((c.members kind).findIdx? (·.key == m.key) = some i ∧
        ∃ e ∈ es, e.target = .ofMember kind c.name m)
      (kind = .method ∧ Access.has m.access Access.private = true ∧
        Access.has m.access Access.static = false ∧ m.name ≠ "<init>" ∧
        ∃ e ∈ es, e.access = .accessible ∧ e.target = .ofMember kind c.name m)
      m.access m'.access

namespace OpenedBy

/-! ## One entry, and then the next -/

theorem refl (c : ClassNode) : OpenedBy es c c where
  shape := rfl
  own := .refl _ _ _
  records i ic ic' hic hic' := by
    cases hic.symm.trans hic'
    exact .refl _ _ _
  members kind i m m' hm hm' := by
    cases hm.symm.trans hm'
    exact .refl _ _ _

theorem trans (h : OpenedBy es c c') (h' : OpenedBy es' c' c'') :
    OpenedBy (es ++ es') c c'' := by
  have hname := name_of_shape h.shape
  refine ⟨h'.shape.trans h.shape, ?_, ?_, ?_⟩
  · refine (h.own.trans h'.own).mono ?_ (by simp)
    rw [hname]
    grind
  · intro i ic ic'' hic hic''
    obtain ⟨ic', hic', _⟩ := getElem?_of_map_eq (records_of_shape h.shape) hic
    have hplace : c'.innerClasses.findIdx? (·.name == c.name) =
        c.innerClasses.findIdx? (·.name == c.name) :=
      findIdx?_of_map_eq (records_of_shape h.shape) (·.name == c.name)
    refine ((h.records i ic ic' hic hic').trans (h'.records i ic' ic'' hic' hic'')).mono ?_ (by simp)
    rw [hname, hplace]
    grind
  · intro kind i m m'' hm hm''
    obtain ⟨m', hm', hshape⟩ := getElem?_of_map_eq (members_of_shape h.shape kind) hm
    have hplace : (c'.members kind).findIdx? (·.key == m.key) =
        (c.members kind).findIdx? (·.key == m.key) :=
      findIdx?_of_map_eq (members_of_shape h.shape kind) (·.key == m.key)
    have hkey : m'.key = m.key := by
      show m'.shape.key = m.shape.key
      rw [hshape]
    have hmember : m'.name = m.name := congrArg Prod.fst hkey
    have htarget : WidenTarget.ofMember kind c.name m' = .ofMember kind c.name m :=
      WidenTarget.ofMember_inj.mpr hkey
    have hfirst := h.members kind i m m' hm hm'
    refine (hfirst.trans (h'.members kind i m' m'' hm' hm'')).mono ?_ ?_
    · rw [hname, hkey, hplace, htarget]
      grind
    · rw [hname, hmember, htarget, hfirst.static_eq]
      have hprivate := hfirst.private_before
      grind

theorem mono (h : OpenedBy es c c') (hes : ∀ e ∈ es, e ∈ es') : OpenedBy es' c c' where
  shape := h.shape
  own := h.own.mono (by grind) id
  records i ic ic' hic hic' := (h.records i ic ic' hic hic').mono (by grind) id
  members kind i m m' hm hm' :=
    (h.members kind i m m' hm hm').mono (by grind) (by grind)

end OpenedBy

end ClassNode

namespace Widener

variable {c : ClassNode} {e : WidenEntry} {kind : MemberKind}

/-- What an entry does to the flags of the member that it names. -/
def widenFlags (access : AccessKind) (name : String) : MemberKind → Access → Access
  | .field => Access.widenField access
  | .method => Access.widenMethod access (name == "<init>")

theorem members_applyEntry {key : String × String} (hkey : e.target.key? kind = some key) :
    (applyEntry c e).members kind =
      modifyFirst (·.key == key) (widenMember (widenFlags e.access key.1 kind)) (c.members kind) := by
  obtain ⟨access, transitive, target⟩ := e
  cases kind <;> cases target <;> cases hkey <;> rfl

theorem members_applyEntry_other (hkey : e.target.key? kind = none) :
    (applyEntry c e).members kind = c.members kind := by
  obtain ⟨access, transitive, target⟩ := e
  cases kind with
  | field =>
    cases target with
    | «class» name => rfl
    | method owner name desc => rfl
    | field owner name desc => cases hkey
  | method =>
    cases target with
    | «class» name => rfl
    | method owner name desc => cases hkey
    | field owner name desc => rfl

theorem target_of_key? {target : WidenTarget} {m : MemberNode}
    (hkey : target.key? kind = some m.key) : target = .ofMember kind target.owner m := by
  cases kind <;> cases target <;> cases hkey <;> rfl

theorem widens_widenFlags {touch close : Prop} {access : AccessKind} {name : String}
    {flags : Access} (ht : touch)
    (hc : kind = .method → access = .accessible → Access.has flags Access.private = true →
      Access.has flags Access.static = false → name ≠ "<init>" → close) :
    Access.Widens touch close flags (widenFlags access name kind flags) := by
  cases kind with
  | field => exact Access.widens_widenField close ht
  | method =>
    refine Access.widens_widenMethod ht fun haccess hprivate hstatic hname => ?_
    exact hc rfl haccess hprivate hstatic (beq_eq_false_iff_ne.mp hname)

theorem class_applyEntry (htarget : e.target = .class c.name) :
    (applyEntry c e).access = Access.widenClass e.access c.access ∧
      (applyEntry c e).innerClasses = modifyFirst (·.name == c.name)
        (fun ic => { ic with access := Access.widenClass e.access ic.access }) c.innerClasses := by
  unfold applyEntry
  rw [htarget]
  exact ⟨rfl, rfl⟩

theorem class_applyEntry_other (howner : e.target.owner = c.name)
    (htarget : e.target ≠ .class c.name) :
    (applyEntry c e).access = c.access ∧ (applyEntry c e).innerClasses = c.innerClasses := by
  unfold applyEntry
  cases hkind : e.target with
  | «class» name =>
    rw [hkind] at howner htarget
    exact absurd (congrArg WidenTarget.class howner) htarget
  | method owner name desc => exact ⟨rfl, rfl⟩
  | field owner name desc => exact ⟨rfl, rfl⟩

/-- Of the records, an entry changes the class's own one at most. -/
theorem records_applyEntry (howner : e.target.owner = c.name) {i : Nat} {ic ic' : InnerClass}
    (hic : c.innerClasses[i]? = some ic) (hic' : (applyEntry c e).innerClasses[i]? = some ic') :
    Access.Widens
      (c.innerClasses.findIdx? (·.name == c.name) = some i ∧ e.target = .class c.name) False
      ic.access ic'.access := by
  by_cases htarget : e.target = .class c.name
  · rw [(class_applyEntry htarget).2, getElem?_modifyFirst, hic] at hic'
    split at hic'
    next hfirst =>
      cases hic'
      exact Access.widens_widenClass _ ⟨hfirst, htarget⟩
    next =>
      cases hic'
      exact .refl _ _ _
  · rw [(class_applyEntry_other howner htarget).2] at hic'
    cases hic.symm.trans hic'
    exact .refl _ _ _

/-- Of the members, an entry changes the first one with its key at most. -/
theorem member_applyEntry (howner : e.target.owner = c.name) {i : Nat} {m m' : MemberNode}
    (hm : (c.members kind)[i]? = some m) (hm' : ((applyEntry c e).members kind)[i]? = some m') :
    Access.Widens
      ((c.members kind).findIdx? (·.key == m.key) = some i ∧ e.target = .ofMember kind c.name m)
      (kind = .method ∧ Access.has m.access Access.private = true ∧
        Access.has m.access Access.static = false ∧ m.name ≠ "<init>" ∧
        e.access = .accessible ∧ e.target = .ofMember kind c.name m)
      m.access m'.access := by
  cases hkey : e.target.key? kind with
  | none =>
    rw [members_applyEntry_other hkey] at hm'
    cases hm.symm.trans hm'
    exact .refl _ _ _
  | some key =>
    rw [members_applyEntry hkey, getElem?_modifyFirst, hm] at hm'
    split at hm'
    next hfirst =>
      cases hm'
      obtain rfl : m.key = key := by
        obtain ⟨hlt, hsame, _⟩ := List.findIdx?_eq_some_iff_getElem.mp hfirst
        rw [List.getElem?_eq_getElem hlt] at hm
        rw [← Option.some.inj hm]
        exact beq_iff_eq.mp hsame
      have htarget := target_of_key? hkey
      rw [howner] at htarget
      refine widens_widenFlags ⟨hfirst, htarget⟩ ?_
      intro hkind haccess hprivate hstatic hname
      exact ⟨hkind, hprivate, hstatic, hname, haccess, htarget⟩
    next =>
      cases hm'
      exact .refl _ _ _

/-- What an entry for a class may change in it, and in which ways. -/
theorem openedBy_applyEntry (howner : e.target.owner = c.name) :
    c.OpenedBy [e] (applyEntry c e) where
  shape := shape_applyEntry c e
  own := by
    by_cases htarget : e.target = .class c.name
    · rw [(class_applyEntry htarget).1]
      exact Access.widens_widenClass _ ⟨e, List.mem_singleton_self e, htarget⟩
    · rw [(class_applyEntry_other howner htarget).1]
      exact .refl _ _ _
  records i ic ic' hic hic' := by
    simpa only [List.mem_singleton, exists_eq_left] using records_applyEntry howner hic hic'
  members kind i m m' hm hm' := by
    simpa only [List.mem_singleton, exists_eq_left] using member_applyEntry howner hm hm'

/-- What the entries for a class may change in it, one after the other. -/
theorem openedBy_foldl_applyEntry {es : List WidenEntry} (hes : ∀ e ∈ es, e.target.owner = c.name) :
    c.OpenedBy es (es.foldl applyEntry c) := by
  induction es generalizing c with
  | nil => exact .refl c
  | cons e rest ih =>
    obtain ⟨howner, hrest⟩ := List.forall_mem_cons.mp hes
    have hname := ClassNode.name_of_shape (shape_applyEntry c e)
    exact (openedBy_applyEntry howner).trans (ih (by rwa [hname]))

theorem openedBy_widen (w : Widener) (c : ClassNode) : c.OpenedBy w.entries (w.widen c) := by
  have hfor : ∀ e ∈ w.entriesFor c.name, e.target.owner = c.name := by
    intro e he
    exact beq_iff_eq.mp (List.mem_filter.mp he).2
  exact (openedBy_foldl_applyEntry hfor).mono fun e he => (List.mem_filter.mp he).1

/-- After a widening each entry for the class is in force, and nothing has changed but flags that
an entry names, none of them to be seen less far. A method that has become final was private,
neither static nor a constructor, and was to be accessible; and it was not to be extended. -/
theorem every_entry_is_in_force_and_nothing_else_has_changed (w : Widener) (h : c.ClearMethods) :
    (∀ e ∈ w.entries, e.target.owner = c.name → e.HoldsIn (w.widen c)) ∧
    c.OpenedBy w.entries (w.widen c) ∧
    ∀ (i : Nat) (m m' : MemberNode), c.methods[i]? = some m → (w.widen c).methods[i]? = some m' →
      Access.has m.access Access.final = false → Access.has m'.access Access.final = true →
      ∀ e ∈ w.entries, e.target = .ofMember .method c.name m → e.access ≠ .extendable := by
  have hopened := openedBy_widen w c
  refine ⟨fun e he howner => holdsIn_widen w h he howner, hopened, ?_⟩
  intro i m m' hm hm' hbefore hafter e he htarget hextendable
  have hwidens := hopened.members .method i m m' hm hm'
  -- it has changed, so it is the first with its key, and the entry is about it
  have hfirst : c.methods.findIdx? (·.key == m.key) = some i := by
    by_contra hlater
    have hsame := hwidens.untouched fun htouch => hlater htouch.1
    rw [hsame, hbefore] at hafter
    cases hafter
  have hplace : (w.widen c).methods.findIdx? (·.key == m.key) = some i :=
    (findIdx?_of_map_eq (ClassNode.members_of_shape hopened.shape .method)
      (·.key == m.key)).trans hfirst
  have hfound : (w.widen c).method? m.name m.desc = some m' := by
    unfold ClassNode.method?
    rw [List.find?_eq_bind_findIdx?_getElem?]
    show ((w.widen c).methods.findIdx? (·.key == m.key)).bind _ = _
    rw [hplace]
    exact hm'
  have hholds := holdsIn_widen w h he (by rw [htarget]; rfl)
  unfold WidenEntry.HoldsIn at hholds
  rw [htarget] at hholds
  have hopen := ((hholds m' hfound).2 hextendable).2
  rw [hafter] at hopen
  cases hopen

/-- Of the two methods that were private, only the one that is not to be extended becomes final. -/
theorem the_locked_world_is_open : lockedWorld.ClearMethods ∧
    (∀ e ∈ unlocker.entries, e.target.owner = "a" → e.HoldsIn (unlocker.widen lockedWorld)) ∧
    lockedWorld.OpenedBy unlocker.entries (unlocker.widen lockedWorld) ∧
    (unlocker.widen lockedWorld).flags = (0x0001, [0x0001], [0x0011, 0x0001, 0x0001], [0x0001]) ∧
    ∀ e ∈ unlocker.entries, e.target = .ofMember .method "a" ⟨0x0002, "b", "()V", none, none⟩ →
      e.access ≠ .extendable := by
  have h : lockedWorld.ClearMethods := by decide
  obtain ⟨hholds, hopened, hfinal⟩ := every_entry_is_in_force_and_nothing_else_has_changed unlocker h
  exact ⟨h, hholds, hopened, by decide, hfinal 0 _ _ rfl rfl (by decide) (by decide)⟩

end Widener

end JarDerivation
