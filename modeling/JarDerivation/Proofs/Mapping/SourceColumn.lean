-- The source column under the passes. Fields, methods and their descriptors always
-- stay what the joins have left. Class names stay too, unless a pass nests the source
-- column itself, which it does for an input that brings the source namespace out.
import JarDerivation.Proofs.Mapping.Nesting
import JarDerivation.Proofs.Mapping.Writes
import Mathlib.Data.List.Induction

namespace JarDerivation

namespace MappingTree

/-! ## Nesting several columns -/

/-- Trees that agree on the columns of a pass have the same rows in their place. -/
theorem inPlace_congr {t s : MappingTree} (ht : t.Indexed) (hs : s.Indexed) {p : PassColumns}
    (hsrc : ∀ row, s.className row p.src = t.className row p.src)
    (hdst : ∀ row, s.className row p.dst = t.className row p.dst) (row : Nat) :
    s.InPlace p row ↔ t.InPlace p row := by
  have hfind : ∀ name, s.findClass name p.dst = t.findClass name p.dst := by
    intro name
    rw [hs, ht]
    exact firstHolder_congr hdst name
  unfold InPlace
  simp only [enclosing?_congr ht hs hsrc, hdst, hfind]

/-- Nests some columns by the same source column. -/
def nestColumns (src : Nat) (shared : Bool) (t : MappingTree) (cols : List Nat) : MappingTree :=
  cols.foldl (fun t dst => t.renest ⟨src, dst, shared⟩) t

/-- A tree with the names of `t` in the column that outer classes are found by. -/
structure Follows (src : Nat) (t s : MappingTree) : Prop where
  indexed : s.Indexed
  names : ∀ row, s.className row src = t.className row src

theorem Follows.enclosing? {src : Nat} {t s : MappingTree} (h : Follows src t s) (ht : t.Indexed)
    (row : Nat) : s.enclosing? src row = t.enclosing? src row :=
  enclosing?_congr ht h.indexed h.names row

theorem Follows.renest {src dst : Nat} {t s : MappingTree} (h : Follows src t s) (hdst : src ≠ dst)
    (shared : Bool) : Follows src t (s.renest ⟨src, dst, shared⟩) := by
  obtain ⟨hindexed, _, _, _, hothers⟩ := frame_renest h.indexed (p := ⟨src, dst, shared⟩) hdst
  exact ⟨hindexed, fun row => (hothers row src hdst).trans (h.names row)⟩

/-- Nesting columns touches nothing but the class names in them. -/
theorem frame_nestColumns {src : Nat} (shared : Bool) {t : MappingTree} (ht : t.Indexed)
    {cols : List Nat} (hsrc : src ∉ cols) :
    (nestColumns src shared t cols).Indexed ∧
      (nestColumns src shared t cols).classes.length = t.classes.length ∧
      (∀ row kind, membersIn (nestColumns src shared t cols).classes row kind =
        membersIn t.classes row kind) ∧
      ∀ row col, col ∉ cols →
        (nestColumns src shared t cols).className row col = t.className row col := by
  induction cols generalizing t with
  | nil => exact ⟨ht, rfl, fun _ _ => rfl, fun _ _ _ => rfl⟩
  | cons dst rest ih =>
    have hne : src ≠ dst := fun h => hsrc (h ▸ List.mem_cons_self)
    obtain ⟨hindexed, _, hlen, hmembers, hothers⟩ :=
      frame_renest ht (p := ⟨src, dst, shared⟩) hne
    obtain ⟨hindexed', hlen', hmembers', hothers'⟩ :=
      ih hindexed fun h => hsrc (List.mem_cons_of_mem dst h)
    refine ⟨hindexed', hlen'.trans hlen, fun row kind => (hmembers' row kind).trans
      (hmembers row kind), fun row col hcol => ?_⟩
    rw [List.mem_cons, not_or] at hcol
    exact (hothers' row col hcol.2).trans (hothers row col hcol.1)

/-- A row that is nested below a name keeps its own while the outer class keeps that name. -/
theorem className_nestColumns_nested {src row parent : Nat} {shared : Bool} {simple outer name : String}
    {t s : MappingTree} (ht : t.Indexed) {cols : List Nat} (hs : Follows src t s)
    (hsrc : src ∉ cols) (henc : t.enclosing? src row = some (parent, simple))
    (hparent : ∀ before, before <+: cols →
      (nestColumns src shared s before).className parent 0 = some outer)
    (hnested : nestedName outer (some name) simple = name)
    (hrow : s.className row 0 = some name) :
    (nestColumns src shared s cols).className row 0 = some name := by
  induction cols generalizing s with
  | nil => exact hrow
  | cons dst rest ih =>
    have hne : src ≠ dst := fun h => hsrc (h ▸ List.mem_cons_self)
    refine ih (hs.renest hne shared) (fun h => hsrc (List.mem_cons_of_mem dst h)) ?_ ?_
    · intro before hbefore
      exact hparent (dst :: before) (List.cons_prefix_cons.mpr ⟨rfl, hbefore⟩)
    · by_cases hdst : dst = 0
      · subst hdst
        rcases className_renest hs.indexed (p := ⟨src, 0, shared⟩) hne row with
          hold | ⟨parent', simple', outer', henc', hparent', hname⟩
        · exact hold.trans hrow
        · rw [hs.enclosing? ht, henc] at henc'
          cases henc'
          have hafter := hparent [0] (List.cons_prefix_cons.mpr ⟨rfl, List.nil_prefix⟩)
          rw [show nestColumns src shared s [0] = s.renest ⟨src, 0, shared⟩ from rfl,
            hparent'] at hafter
          cases hafter
          rw [hname, hrow, hnested]
      · obtain ⟨_, _, _, _, hothers⟩ := frame_renest hs.indexed (p := ⟨src, dst, shared⟩) hne
        exact (hothers row 0 (Ne.symm hdst)).trans hrow

/-- Each row of which the source name says that it is nested has a name in column 0. -/
def NestsNamed (src : Nat) (t : MappingTree) : Prop :=
  ∀ row, t.enclosing? src row ≠ none → ∃ name, t.className row 0 = some name

/-- A row that changes while its outer class does not never gets its old name back. -/
theorem className_nestColumns_prefix {src row : Nat} {shared : Bool} {t s : MappingTree}
    (ht : t.Indexed) (hnamed : NestsNamed src t) {cols : List Nat} (hs : Follows src t s)
    (hsrc : src ∉ cols)
    (houter : ∀ before j, before <+: cols → t.depth src j < t.depth src row →
      (nestColumns src shared s before).className j 0 = t.className j 0)
    (hstart : s.className row 0 = t.className row 0)
    (hend : (nestColumns src shared s cols).className row 0 = t.className row 0) :
    ∀ before, before <+: cols →
      (nestColumns src shared s before).className row 0 = t.className row 0 := by
  induction cols generalizing s with
  | nil =>
    intro before hbefore
    rw [List.prefix_nil.mp hbefore]
    exact hstart
  | cons dst rest ih =>
    have hne : src ≠ dst := fun h => hsrc (h ▸ List.mem_cons_self)
    have hrest : src ∉ rest := fun h => hsrc (List.mem_cons_of_mem dst h)
    have hfollows := hs.renest hne shared
    have houterRest : ∀ before j, before <+: rest → t.depth src j < t.depth src row →
        (nestColumns src shared (s.renest ⟨src, dst, shared⟩) before).className j 0 =
          t.className j 0 := fun before j hbefore =>
      houter (dst :: before) j (List.cons_prefix_cons.mpr ⟨rfl, hbefore⟩)
    have hnext : (s.renest ⟨src, dst, shared⟩).className row 0 = t.className row 0 := by
      by_cases hdst : dst = 0
      · subst hdst
        rcases className_renest hs.indexed (p := ⟨src, 0, shared⟩) hne row with
          hold | ⟨parent, simple, outer, henc, hparent, hname⟩
        · exact hold.trans hstart
        · rw [hs.enclosing? ht] at henc
          have hlt := depth_lt_of_enclosing? ht henc
          obtain ⟨name, hrow⟩ := hnamed row (by rw [henc]; simp)
          rw [hstart, hrow] at hname
          have houterStays : ∀ before, before <+: rest →
              (nestColumns src shared (s.renest ⟨src, 0, shared⟩) before).className parent 0 =
                some outer := by
            intro before hbefore
            rw [houterRest before parent hbefore hlt, ← houterRest [] parent List.nil_prefix hlt]
            exact hparent
          -- The new name stays to the end, where it is the old one.
          have hstays := className_nestColumns_nested ht hfollows hrest henc houterStays
            (nestedName_nested outer name simple) hname
          rw [hname, ← hend]
          exact hstays.symm
      · obtain ⟨_, _, _, _, hothers⟩ := frame_renest hs.indexed (p := ⟨src, dst, shared⟩) hne
        exact (hothers row 0 (Ne.symm hdst)).trans hstart
    intro before hbefore
    rcases List.prefix_cons_iff.mp hbefore with rfl | ⟨after, rfl, hafter⟩
    · exact hstart
    · exact ih hfollows hrest houterRest hnext hend after hafter

/-- Nesting columns keeps the names of column 0 to the end just when it keeps them all along. -/
theorem nestColumns_keeps_prefix {src : Nat} {shared : Bool} {t : MappingTree} (ht : t.Indexed)
    (hnamed : NestsNamed src t) {cols : List Nat} (hsrc : src ∉ cols)
    (hend : ∀ row, (nestColumns src shared t cols).className row 0 = t.className row 0) :
    ∀ row before, before <+: cols →
      (nestColumns src shared t before).className row 0 = t.className row 0 := by
  have hdepth : ∀ d row, t.depth src row < d → ∀ before, before <+: cols →
      (nestColumns src shared t before).className row 0 = t.className row 0 := by
    intro d
    induction d with
    | zero =>
      intro row hrow
      omega
    | succ d ih =>
      intro row hrow
      refine className_nestColumns_prefix ht hnamed ⟨ht, fun _ => rfl⟩ hsrc ?_ rfl (hend row)
      intro before j hbefore hj
      exact ih j (by omega) before hbefore
  exact fun row => hdepth (t.depth src row + 1) row (Nat.lt_succ_self _)

/-- Nesting columns keeps the names of column 0 just when it is not one of them or all
rows are in their place there. -/
theorem nestColumns_keeps_iff {src : Nat} {shared : Bool} {t : MappingTree} (ht : t.Indexed)
    (hnamed : NestsNamed src t) {cols : List Nat} (hsrc : src ∉ cols) :
    (∀ row, (nestColumns src shared t cols).className row 0 = t.className row 0) ↔
      (0 ∈ cols → ∀ row, t.InPlace ⟨src, 0, shared⟩ row) := by
  constructor
  · intro hend hmem row
    have hkeeps := nestColumns_keeps_prefix ht hnamed hsrc hend
    obtain ⟨before, after, hcols⟩ := List.append_of_mem hmem
    have hbefore : before <+: cols := ⟨0 :: after, hcols.symm⟩
    have hnext : before ++ [0] <+: cols := ⟨after, by rw [hcols]; simp⟩
    have hout : src ∉ before := fun h => hsrc (hbefore.subset h)
    obtain ⟨hindexed, _, _, hothers⟩ := frame_nestColumns shared ht hout
    have hzero : src ≠ 0 := fun h => hsrc (h ▸ hmem)
    have hplace : ∀ row, (nestColumns src shared t before).InPlace ⟨src, 0, shared⟩ row := by
      apply (renest_keeps_iff hindexed hzero).mp
      intro j
      have hafter := hkeeps j (before ++ [0]) hnext
      unfold nestColumns at hafter
      rw [List.foldl_append] at hafter
      exact hafter.trans (hkeeps j before hbefore).symm
    exact (inPlace_congr ht hindexed (fun j => hothers j src hout)
      (fun j => hkeeps j before hbefore) row).mp (hplace row)
  · intro hplace
    have hall : ∀ cols' s, Follows src t s → (∀ j, s.className j 0 = t.className j 0) →
        (∀ dst ∈ cols', dst ∈ cols) →
        ∀ row, (nestColumns src shared s cols').className row 0 = t.className row 0 := by
      intro cols'
      induction cols' with
      | nil => exact fun s _ hsame _ => hsame
      | cons dst rest ih =>
        intro s hs hsame hsub
        have hdst : dst ∈ cols := hsub dst List.mem_cons_self
        have hne : src ≠ dst := fun h => hsrc (h ▸ hdst)
        refine ih _ (hs.renest hne shared) ?_ fun j hj => hsub j (List.mem_cons_of_mem dst hj)
        intro row
        rw [← hsame row]
        by_cases hzero : dst = 0
        · subst hzero
          refine (renest_keeps_iff hs.indexed (p := ⟨src, 0, shared⟩) hne).mpr ?_ row
          intro j
          exact (inPlace_congr ht hs.indexed (p := ⟨src, 0, shared⟩) hs.names hsame j).mpr
            (hplace hdst j)
        · obtain ⟨_, _, _, _, hothers⟩ := frame_renest hs.indexed (p := ⟨src, dst, shared⟩) hne
          exact hothers row 0 (Ne.symm hzero)
    exact hall cols t ⟨ht, fun _ => rfl⟩ (fun _ => rfl) fun _ h => h

/-! ## What every pass keeps -/

/-- What a member row says in the source namespace. -/
def sourceOf (m : MemberRow) : Option String × Option String := (m.name 0, m.srcDesc)

/-- What the members of a class say in the source namespace. -/
def memberSources (t : MappingTree) (row : Nat) (kind : MemberKind) :
    List (Option String × Option String) :=
  ((membersIn t.classes row kind).getD []).map sourceOf

theorem memberSources_congr {t t' : MappingTree} {row : Nat} {kind : MemberKind}
    (h : membersIn t'.classes row kind = membersIn t.classes row kind) :
    t'.memberSources row kind = t.memberSources row kind := by
  unfold memberSources
  rw [h]

/-- No class is lost, none loses its source name, and the members that are left say
in the source namespace what they said. -/
structure Kept (t t' : MappingTree) : Prop where
  indexed : t'.Indexed
  size : t'.classes.length = t.classes.length
  named : ∀ row name, t.className row 0 = some name → ∃ name', t'.className row 0 = some name'
  members : ∀ row kind, (memberSources t' row kind).Sublist (memberSources t row kind)

theorem Kept.refl {t : MappingTree} (ht : t.Indexed) : Kept t t :=
  ⟨ht, rfl, fun _ name h => ⟨name, h⟩, fun _ _ => .refl _⟩

theorem Kept.trans {t s u : MappingTree} (h : Kept t s) (h' : Kept s u) : Kept t u := by
  refine ⟨h'.indexed, h'.size.trans h.size, ?_, fun row kind => (h'.members row kind).trans
    (h.members row kind)⟩
  intro row name hname
  obtain ⟨name', hname'⟩ := h.named row name hname
  exact h'.named row name' hname'

theorem Kept.sourced {t t' : MappingTree} (h : Kept t t') (ht : t.Sourced) : t'.Sourced := by
  refine ⟨?_, ?_⟩
  · intro row hrow
    obtain ⟨name, hname⟩ := ht.classes row (h.size ▸ hrow)
    exact h.named row name hname
  · intro row kind ms hms m hm
    have hmem : sourceOf m ∈ memberSources t' row kind := by
      unfold memberSources
      rw [hms]
      exact List.mem_map_of_mem hm
    obtain ⟨m', hm', hsame⟩ := List.mem_map.mp ((h.members row kind).subset hmem)
    cases hold : membersIn t.classes row kind with
    | none =>
      rw [hold] at hm'
      cases hm'
    | some old =>
      rw [hold] at hm'
      obtain ⟨name, hname⟩ := ht.members row kind old hold m' hm'
      exact ⟨name, (congrArg Prod.fst hsame).symm.trans hname⟩

/-! ## Nesting and filling -/

theorem kept_renest {t : MappingTree} (ht : t.Indexed) {p : PassColumns} (hcols : p.src ≠ p.dst) :
    Kept t (t.renest p) := by
  obtain ⟨hindexed, _, hlen, hmembers, hothers⟩ := frame_renest ht hcols
  refine ⟨hindexed, hlen, ?_, ?_⟩
  · intro row name hname
    by_cases hdst : p.dst = 0
    · rcases className_renest ht hcols row with hold | ⟨_, _, _, _, _, hnew⟩
      · rw [hdst] at hold
        exact ⟨name, hold.trans hname⟩
      · rw [hdst] at hnew
        exact ⟨_, hnew⟩
    · exact ⟨name, (hothers row 0 (Ne.symm hdst)).trans hname⟩
  · intro row kind
    exact memberSources_congr (hmembers row kind) ▸ .refl _

theorem kept_nestColumns {src : Nat} (shared : Bool) {t : MappingTree} (ht : t.Indexed)
    {cols : List Nat} (hsrc : src ∉ cols) : Kept t (nestColumns src shared t cols) := by
  unfold nestColumns
  refine List.foldlRecOn (motive := Kept t) cols _ (.refl ht) ?_
  intro s hs dst hdst
  have hne : src ≠ dst := fun h => hsrc (h ▸ hdst)
  exact hs.trans (kept_renest hs.indexed (p := ⟨src, dst, shared⟩) hne)

/-- Filling in a name leaves a member that has a source name as it is there. -/
theorem sourceOf_fillMember (p : PassColumns) {m : MemberRow} {name : String}
    (h : m.name 0 = some name) : sourceOf (fillMember p m) = sourceOf m := by
  unfold fillMember
  split
  · rename_i hnone
    unfold sourceOf
    rw [MemberRow.name_setName, if_neg]
    · rfl
    · intro hdst
      rw [← hdst, h] at hnone
      cases hnone
  · rfl

/-- The first half of `fillClass`. -/
def fillName (p : PassColumns) (t : MappingTree) (row : Nat) : MappingTree :=
  match t.className row p.dst, t.className row p.src with
  | none, some name => t.setOutputName row p.dst name p.shared
  | _, _ => t

/-- The second half of `fillClass`. -/
def fillMembers (p : PassColumns) (t : MappingTree) (row : Nat) : MappingTree :=
  match t.classes[row]? with
  | some c => t.setClass row
      { c with fields := c.fields.map (fillMember p), methods := c.methods.map (fillMember p) }
  | none => t

theorem fillClass_eq (p : PassColumns) (t : MappingTree) (row : Nat) :
    fillClass p t row = fillMembers p (fillName p t row) row := rfl

/-- A class name that is missing is not the source name. -/
theorem kept_fillName (p : PassColumns) {t : MappingTree} (ht : t.Indexed) (hs : t.Sourced)
    (row : Nat) :
    Kept t (fillName p t row) ∧ ∀ j, (fillName p t row).className j 0 = t.className j 0 := by
  unfold fillName
  split
  · rename_i name hdst hsrc
    unfold setOutputName
    obtain ⟨_, hlen, hmembers⟩ := frame_renameClass t row p.dst (some name) p.shared
    have hnames : ∀ j, (t.renameClass row p.dst (some name) p.shared).2.className j 0 =
        t.className j 0 := by
      intro j
      rw [className_eq_nameIn, nameIn_renameClass, if_neg]
      · rfl
      · rintro ⟨_, rfl, hzero⟩
        obtain ⟨own, hown⟩ := hs.classes j (lt_of_className hsrc)
        rw [← hzero, className_eq_nameIn, hown] at hdst
        cases hdst
    refine ⟨⟨indexed_renameClass ht _ _ _ _, hlen, ?_, ?_⟩, hnames⟩
    · intro j own hown
      exact ⟨own, (hnames j).trans hown⟩
    · intro j kind
      exact memberSources_congr (hmembers j kind) ▸ .refl _
  · exact ⟨.refl ht, fun _ => rfl⟩

theorem membersIn_fillMembers (p : PassColumns) (t : MappingTree) (row j : Nat)
    (kind : MemberKind) :
    membersIn (fillMembers p t row).classes j kind =
      if j = row then (membersIn t.classes j kind).map (·.map (fillMember p))
      else membersIn t.classes j kind := by
  unfold fillMembers
  cases hc : t.classes[row]? with
  | none =>
    simp only
    split
    · rename_i hj
      unfold membersIn
      rw [hj, hc]
      rfl
    · rfl
  | some c =>
    simp only
    rw [membersIn_setClass t hc]
    split
    · rename_i hj
      unfold membersIn
      rw [hj, hc]
      cases kind <;> rfl
    · rfl

theorem length_fillMembers (p : PassColumns) (t : MappingTree) (row : Nat) :
    (fillMembers p t row).classes.length = t.classes.length := by
  unfold fillMembers
  cases t.classes[row]? with
  | none => rfl
  | some c => exact List.length_set

/-- A tree with other members, but with the class names and the look-ups of `t`. -/
structure SameClasses (t t' : MappingTree) : Prop where
  namespaces : t'.namespaces = t.namespaces
  index : t'.index = t.index
  names : ∀ k row, nameIn t'.classes k row = nameIn t.classes k row

theorem sameClasses_fillMembers (p : PassColumns) (t : MappingTree) (row : Nat) :
    SameClasses t (fillMembers p t row) := by
  unfold fillMembers
  cases hc : t.classes[row]? with
  | none => exact ⟨rfl, rfl, fun _ _ => rfl⟩
  | some c => exact ⟨rfl, rfl, nameIn_setClass t hc fun _ => rfl⟩

/-- Filling in members that have source names leaves what they say in the source namespace. -/
theorem memberSources_fillMembers (p : PassColumns) {t : MappingTree} {j : Nat} {kind : MemberKind}
    (hnamed : ∀ ms, membersIn t.classes j kind = some ms → ∀ m ∈ ms, ∃ name, m.name 0 = some name)
    (row : Nat) : (fillMembers p t row).memberSources j kind = t.memberSources j kind := by
  unfold memberSources
  rw [membersIn_fillMembers]
  split
  · cases hms : membersIn t.classes j kind with
    | none => rfl
    | some ms =>
      rw [Option.map_some, Option.getD_some, Option.getD_some, List.map_map]
      apply List.map_congr_left
      intro m hm
      obtain ⟨name, hname⟩ := hnamed ms hms m hm
      exact sourceOf_fillMember p hname
  · rfl

theorem kept_fillMembers (p : PassColumns) {t : MappingTree} (ht : t.Indexed) (hs : t.Sourced)
    (row : Nat) :
    Kept t (fillMembers p t row) ∧ ∀ j, (fillMembers p t row).className j 0 = t.className j 0 := by
  have hmembers : ∀ j kind, (fillMembers p t row).memberSources j kind = t.memberSources j kind :=
    fun j kind => memberSources_fillMembers p (hs.members j kind) row
  obtain ⟨_, hindex, hnames⟩ := sameClasses_fillMembers p t row
  refine ⟨⟨indexed_of_names ht hindex hnames, length_fillMembers p t row, ?_, ?_⟩, fun j =>
    hnames 0 j⟩
  · intro j name hname
    exact ⟨name, (hnames 0 j).trans hname⟩
  · intro j kind
    exact hmembers j kind ▸ .refl _

/-- Filling in names never touches what the source namespace says. -/
theorem kept_copyUnnamed (p : PassColumns) {t : MappingTree} (ht : t.Indexed) (hs : t.Sourced) :
    Kept t (t.copyUnnamed p) ∧ ∀ j, (t.copyUnnamed p).className j 0 = t.className j 0 := by
  unfold copyUnnamed
  refine List.foldlRecOn
    (motive := fun s => Kept t s ∧ ∀ j, s.className j 0 = t.className j 0) _ _
    ⟨.refl ht, fun _ => rfl⟩ ?_
  rintro s ⟨hkept, hnames⟩ row _
  have hsourced := hkept.sourced hs
  obtain ⟨hkeptName, hnamesName⟩ := kept_fillName p hkept.indexed hsourced row
  obtain ⟨hkeptMembers, hnamesMembers⟩ :=
    kept_fillMembers p hkeptName.indexed (hkeptName.sourced hsourced) row
  rw [fillClass_eq]
  exact ⟨hkept.trans (hkeptName.trans hkeptMembers), fun j =>
    (hnamesMembers j).trans ((hnamesName j).trans (hnames j))⟩

/-! ## Stripping -/

theorem name_stripClass (h : Hierarchy) (c : ClassRow) (col : Nat) :
    (stripClass h c).name col = c.name col := by
  unfold stripClass
  split
  · split
    · rfl
    · rfl
  · rfl

theorem members_stripClass (h : Hierarchy) (c : ClassRow) (kind : MemberKind) :
    ((stripClass h c).members kind).Sublist (c.members kind) := by
  unfold stripClass
  split
  · split
    · cases kind with
      | field => exact .refl _
      | method => exact List.filter_sublist
    · exact .refl _
  · exact .refl _

/-- Stripping drops methods and changes nothing else. -/
theorem kept_childMethodStrip (h : Hierarchy) {t : MappingTree} (ht : t.Indexed) :
    Kept t (t.childMethodStrip h) ∧
      ∀ j, (t.childMethodStrip h).className j 0 = t.className j 0 := by
  have hcells : ∀ col j, nameIn (t.childMethodStrip h).classes col j = nameIn t.classes col j := by
    intro col j
    unfold nameIn childMethodStrip
    rw [List.getElem?_map]
    cases t.classes[j]? with
    | none => rfl
    | some c => exact name_stripClass h c col
  refine ⟨⟨indexed_of_names ht rfl hcells, List.length_map _, ?_, ?_⟩, fun j => hcells 0 j⟩
  · intro j name hname
    exact ⟨name, (hcells 0 j).trans hname⟩
  · intro j kind
    unfold memberSources membersIn childMethodStrip
    rw [List.getElem?_map]
    cases t.classes[j]? with
    | none => exact .refl _
    | some c => exact (members_stripClass h c kind).map sourceOf

/-! ## A run of passes -/

/-- The columns that an input brings out are not the one that is left out. -/
theorem notMem_outputColumns (i : MappingInput) (t : MappingTree) (exclude : Nat) :
    exclude ∉ i.outputColumns t exclude := by
  unfold MappingInput.outputColumns
  simp

/-- A tree whose classes have source names has them where rows are nested. -/
theorem Sourced.nestsNamed {t : MappingTree} (hs : t.Sourced) (src : Nat) : NestsNamed src t := by
  intro row henc
  rcases Nat.lt_or_ge row t.classes.length with hlt | hge
  · exact hs.classes row hlt
  · refine absurd ?_ henc
    unfold enclosing?
    rw [className_eq_nameIn, nameIn_eq_none hge]
    rfl

/-- A renest of the input that writes to column 0 finds all rows in place there. -/
def NestsInPlace (t : MappingTree) (i : MappingInput) : Prop :=
  ∀ src, t.passSource i "renest" = .ok src → 0 ∈ i.outputColumns t src →
    ∀ row, t.InPlace ⟨src, 0, i.allowDuplicates⟩ row

/-- A pass keeps what the source namespace says, but for class names that it nests. -/
theorem runPass_keeps {t t' : MappingTree} {h : Option Hierarchy} {i : MappingInput}
    {pass : MappingAction} (ht : t.Indexed) (hs : t.Sourced) (hrun : t.runPass h i pass = .ok t') :
    Kept t t' ∧ ((∀ row, t'.className row 0 = t.className row 0) ↔
      (pass = .renest → t.NestsInPlace i)) := by
  unfold runPass at hrun
  split at hrun
  · obtain ⟨src, hsrc, hrun⟩ := ok_of_bind hrun
    cases hrun
    have hout := notMem_outputColumns i t src
    refine ⟨kept_nestColumns i.allowDuplicates ht hout, ?_⟩
    rw [show (i.outputColumns t src).foldl (fun t dst => t.renest ⟨src, dst, i.allowDuplicates⟩) t =
      nestColumns src i.allowDuplicates t (i.outputColumns t src) from rfl,
      nestColumns_keeps_iff ht (hs.nestsNamed src) hout]
    refine ⟨fun hplace _ src' hsrc' => ?_, fun hplace => hplace rfl src hsrc⟩
    rw [hsrc] at hsrc'
    cases hsrc'
    exact hplace
  · obtain ⟨src, _, hrun⟩ := ok_of_bind hrun
    cases hrun
    have hfill : Kept t ((i.outputColumns t src).foldl
          (fun t dst => t.copyUnnamed ⟨src, dst, i.allowDuplicates⟩) t) ∧
        ∀ row, ((i.outputColumns t src).foldl
          (fun t dst => t.copyUnnamed ⟨src, dst, i.allowDuplicates⟩) t).className row 0 =
            t.className row 0 := by
      refine List.foldlRecOn
        (motive := fun s => Kept t s ∧ ∀ row, s.className row 0 = t.className row 0) _ _
        ⟨.refl ht, fun _ => rfl⟩ ?_
      rintro s ⟨hkept, hnames⟩ dst _
      obtain ⟨hkept', hnames'⟩ := kept_copyUnnamed ⟨src, dst, i.allowDuplicates⟩ hkept.indexed
        (hkept.sourced hs)
      exact ⟨hkept.trans hkept', fun row => (hnames' row).trans (hnames row)⟩
    exact ⟨hfill.1, fun _ => nofun, fun _ => hfill.2⟩
  · split at hrun
    · rename_i hier
      cases hrun
      obtain ⟨hkept, hnames⟩ := kept_childMethodStrip hier ht
      exact ⟨hkept, fun _ => nofun, fun _ => hnames⟩
    · cases hrun
  · rename_i hother _ _
    cases hrun
    exact ⟨.refl ht, fun _ hpass => absurd hpass hother, fun _ _ => rfl⟩

/-- Runs passes of inputs one after the other. -/
def runSteps (h : Option Hierarchy) (t : MappingTree)
    (steps : List (MappingInput × MappingAction)) : Except Error MappingTree :=
  steps.foldlM (fun t (i, pass) => t.runPass h i pass) t

theorem kept_runSteps {h : Option Hierarchy} {t t' : MappingTree} (ht : t.Indexed) (hs : t.Sourced)
    {steps : List (MappingInput × MappingAction)} (hrun : t.runSteps h steps = .ok t') :
    Kept t t' := by
  induction steps generalizing t with
  | nil =>
    cases hrun
    exact .refl ht
  | cons step rest ih =>
    obtain ⟨s, hstep, hrest⟩ := ok_of_bind hrun
    obtain ⟨hkept, _⟩ := runPass_keeps ht hs hstep
    exact hkept.trans (ih hkept.indexed (hkept.sourced hs) hrest)

theorem runSteps_snoc (h : Option Hierarchy) (t : MappingTree)
    (steps : List (MappingInput × MappingAction)) (step : MappingInput × MappingAction) :
    t.runSteps h (steps ++ [step]) = t.runSteps h steps >>= fun s => s.runPass h step.1 step.2 := by
  unfold runSteps
  rw [List.foldlM_append]
  simp

/-- A renest with a declared source column succeeds. -/
theorem runPass_renest {t : MappingTree} {h : Option Hierarchy} {i : MappingInput} {src : Nat}
    (hsrc : t.passSource i "renest" = .ok src) : ∃ t', t.runPass h i .renest = .ok t' := by
  unfold runPass overOutputs
  rw [hsrc]
  exact ⟨_, rfl⟩

/-- All along a run of passes the classes keep their source names just when each renest
finds the rows of column 0 in place. -/
theorem runSteps_keeps_iff {h : Option Hierarchy} {t : MappingTree} (ht : t.Indexed)
    (hs : t.Sourced) (steps : List (MappingInput × MappingAction)) :
    (∀ before t', before <+: steps → t.runSteps h before = .ok t' →
        ∀ row, t'.className row 0 = t.className row 0) ↔
      ∀ before i t', before ++ [(i, .renest)] <+: steps → t.runSteps h before = .ok t' →
        t'.NestsInPlace i := by
  constructor
  · intro hnames before i s hbefore hrun src hsrc
    have hkept := kept_runSteps ht hs hrun
    obtain ⟨s', hstep⟩ := runPass_renest (h := h) hsrc
    have hafter : t.runSteps h (before ++ [(i, .renest)]) = .ok s' := by
      rw [runSteps_snoc, hrun]
      exact hstep
    refine (runPass_keeps hkept.indexed (hkept.sourced hs) hstep).2.mp ?_ rfl src hsrc
    intro row
    rw [hnames _ s' hbefore hafter, hnames before s ((List.prefix_append _ _).trans hbefore) hrun]
  · intro hplace before
    induction before using List.reverseRecOn with
    | nil =>
      intro s _ hrun row
      cases hrun
      rfl
    | append_singleton before step ih =>
      intro s' hbefore hrun row
      rw [runSteps_snoc] at hrun
      obtain ⟨s, hfirst, hstep⟩ := ok_of_bind hrun
      have hkept := kept_runSteps ht hs hfirst
      obtain ⟨i, pass⟩ := step
      have hnext := (runPass_keeps hkept.indexed (hkept.sourced hs) hstep).2.mpr fun hpass =>
        hplace before i s (hpass ▸ hbefore) hfirst
      rw [hnext row, ih s ((List.prefix_append _ _).trans hbefore) hfirst]

end MappingTree

namespace MappingBuilder

/-! ## The build -/

/-- The tree that the joins leave, and the inputs in the order in which they were joined. -/
def merge (b : MappingBuilder) (disk : Files) (r : Registry) :
    Except Error (MappingTree × List MappingInput) :=
  match finalizeAll r b.dependencies with
  | (.error e, _, _) => .error e
  | (.ok _, ds, _) => do
    let is ← inputs disk ds
    joinAll is.length is .empty

/-- The passes of inputs, in the order in which they run. -/
def passesOf (order : List MappingInput) : List (MappingInput × MappingAction) :=
  order.flatMap fun i => i.postPasses.map fun pass => (i, pass)

theorem runSteps_passesOf (h : Option Hierarchy) (order : List MappingInput) (t : MappingTree) :
    order.foldlM (fun t i => t.runPasses h i) t = t.runSteps h (passesOf order) := by
  unfold MappingTree.runSteps passesOf
  induction order generalizing t with
  | nil => rfl
  | cons i rest ih =>
    rw [List.flatMap_cons, List.foldlM_append, List.foldlM_cons]
    simp only [ih, List.foldlM_map]
    rfl

/-- A build is its merge and then the passes of all inputs. -/
theorem build_ok {b : MappingBuilder} {disk : Files} {h : Option Hierarchy} {r : Registry}
    {t : MappingTree} (hbuild : (b.build disk h r).1 = .ok t) :
    ∃ merged order, b.merge disk r = .ok (merged, order) ∧ merged.Built ∧
      merged.runSteps h (passesOf order) = .ok t := by
  unfold build at hbuild
  unfold merge
  generalize finalizeAll r b.dependencies = frozen at hbuild ⊢
  obtain ⟨e | _, ds, r'⟩ := frozen
  · cases hbuild
  · obtain ⟨is, his, hbuild⟩ := ok_of_bind hbuild
    obtain ⟨⟨merged, order⟩, hjoin, hrun⟩ := ok_of_bind hbuild
    refine ⟨merged, order, ?_, MappingTree.built_joinAll hjoin .empty, ?_⟩
    · simp only [his]
      exact hjoin
    · rw [← runSteps_passesOf]
      exact hrun

/-- Passes leave what fields, methods and descriptors are in the source namespace, but
may drop a method. They leave the source names of all classes just when each renest
that writes to the source column finds its rows in place there. -/
theorem source_names_stay_just_when_they_are_in_place {b : MappingBuilder} {disk : Files}
    {h : Option Hierarchy} {r : Registry} {t : MappingTree} (hbuild : (b.build disk h r).1 = .ok t) :
    ∃ merged order, b.merge disk r = .ok (merged, order) ∧
      merged.runSteps h (passesOf order) = .ok t ∧
      ∀ steps : List (MappingInput × MappingAction),
        (∀ t', merged.runSteps h steps = .ok t' →
          t'.classes.length = merged.classes.length ∧
          ∀ row kind, (t'.memberSources row kind).Sublist (merged.memberSources row kind)) ∧
        ((∀ before t', before <+: steps → merged.runSteps h before = .ok t' →
            ∀ row, t'.className row 0 = merged.className row 0) ↔
          ∀ before i t', before ++ [(i, .renest)] <+: steps →
            merged.runSteps h before = .ok t' → t'.NestsInPlace i) := by
  obtain ⟨merged, order, hmerge, hbuilt, hrun⟩ := build_ok hbuild
  refine ⟨merged, order, hmerge, hrun, fun steps => ⟨?_, ?_⟩⟩
  · intro t' hsteps
    have hkept := MappingTree.kept_runSteps hbuilt.indexed hbuilt.sourced hsteps
    exact ⟨hkept.size, hkept.members⟩
  · exact MappingTree.runSteps_keeps_iff hbuilt.indexed hbuilt.sourced steps

/-- A file that gives nothing but class names. -/
def classFile (namespaces : List String) (classes : List (List String)) : MappingFile :=
  ⟨namespaces, classes.map fun names => ⟨names.map some, [], []⟩⟩

/-- A dependency with one file under a block of actions. -/
def fileDependency (name : String) (file : MappingFile) (actions : List MappingAction) :
    MappingDependency :=
  { MappingDependency.ofSource (.memory name [MappingSource.memoryFile "mappings.json" file]) with
    defaultBlock := ⟨actions, [], false⟩ }

/-- The second file is joined on `intermediary`, has the source namespace as well, and nests. -/
def flatInner : MappingBuilder :=
  ⟨[fileDependency "base"
      (classFile ["official", "intermediary"] [["a", "Outer"], ["b", "Outer$Inner"]]) [],
    fileDependency "nests" (classFile ["intermediary", "official"] [["Outer", "a"]])
      [.sourceNamespace "intermediary", .renest]]⟩

/-- The tree of `flatInner` with a source name for its inner class. -/
def flatInnerTree (inner : String) : MappingTree :=
  ⟨["official", "intermediary"],
    [⟨[some "a", some "Outer"], [], []⟩, ⟨[some inner, some "Outer$Inner"], [], []⟩],
    [[(inner, 1), ("a", 0)], [("Outer$Inner", 1), ("Outer", 0)]]⟩

theorem flatInner_build : (flatInner.build .empty none .empty).1 = .ok (flatInnerTree "a$b") := by
  decide

theorem flatInner_merge :
    ∃ order, flatInner.merge .empty .empty = .ok (flatInnerTree "b", order) := by
  have htree : (flatInner.merge .empty .empty).map (·.1) = .ok (flatInnerTree "b") := by decide
  cases hmerge : flatInner.merge .empty .empty with
  | error e =>
    rw [hmerge] at htree
    cases htree
  | ok merged =>
    rw [hmerge] at htree
    exact ⟨merged.2, by rw [← Except.ok.inj htree]⟩

theorem a_flat_source_name_is_out_of_place :
    (flatInner.build .empty none .empty).1 = .ok (flatInnerTree "a$b") ∧
      ∃ order, flatInner.merge .empty .empty = .ok (flatInnerTree "b", order) ∧
        ¬ ∀ before i t', before ++ [(i, .renest)] <+: passesOf order →
          (flatInnerTree "b").runSteps none before = .ok t' → t'.NestsInPlace i := by
  refine ⟨flatInner_build, ?_⟩
  obtain ⟨order, hmerge⟩ := flatInner_merge
  obtain ⟨merged, order', hmerge', hrun, hsteps⟩ :=
    source_names_stay_just_when_they_are_in_place flatInner_build
  rw [hmerge] at hmerge'
  cases hmerge'
  refine ⟨order, hmerge, fun hplace => ?_⟩
  have hname := (hsteps (passesOf order)).2.mpr hplace _ _ List.prefix_rfl hrun 1
  exact absurd hname (by decide)

/-- The passes of a build can change a source name. -/
theorem source_names_do_not_always_stay :
    ¬ ∀ (b : MappingBuilder) (disk : Files) (h : Option Hierarchy) (r : Registry)
      (t merged : MappingTree) (order : List MappingInput), (b.build disk h r).1 = .ok t →
        b.merge disk r = .ok (merged, order) → ∀ row, t.className row 0 = merged.className row 0 := by
  intro hall
  obtain ⟨order, hmerge⟩ := flatInner_merge
  have hname := hall flatInner .empty none .empty _ _ order flatInner_build hmerge 1
  exact absurd hname (by decide)

end MappingBuilder

end JarDerivation
