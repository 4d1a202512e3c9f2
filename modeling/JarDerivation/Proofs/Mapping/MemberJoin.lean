-- How a join changes members. The members of one class and kind are joined on their
-- own: a fold over the entries of the file that belong to the class.
import JarDerivation.Proofs.Mapping.Writes

namespace JarDerivation

namespace MappingTree

/-! ## One list of members -/

/-- `findMember` on a list of members. -/
def findIn (ms : List MemberRow) (name : String) (col : Nat) (srcDesc : Option String) :
    Option Nat :=
  ms.findIdx? fun m => m.name col == some name && descAgrees srcDesc m.srcDesc

/-- `addMember` on a list of members, in a tree of some width. -/
def addIn (width : Nat) (ms : List MemberRow) (srcName : String) (srcDesc : Option String) :
    Nat × List MemberRow :=
  match findIn ms srcName 0 srcDesc with
  | some idx => (idx, ms)
  | none => (ms.length, ms ++ [memberRow width srcName srcDesc])

/-- `placeMember` on a list of members. -/
def placeIn (p : JoinPlan) (width : Nat) (ms : List MemberRow) (m : MemberEntry)
    (srcDesc : Option String) : Option (Nat × List MemberRow) := do
  let key ← m.names.at? p.keyFileCol
  match findIn ms key p.keyCol srcDesc with
  | some idx => return (idx, ms)
  | none =>
    if p.filtered then none
    else if p.keyCol = 0 then return addIn width ms key srcDesc
    else
      let src ← p.srcFileCol.bind m.names.at?
      return ((addIn width ms src srcDesc).1, (addIn width ms src srcDesc).2.modify
        (addIn width ms src srcDesc).1 fun r => r.setName p.keyCol (some key))

/-- `joinMember` on a list of members. -/
def joinIn (p : JoinPlan) (width : Nat) (ms : List MemberRow) (m : MemberEntry)
    (srcDesc : Option String) : List MemberRow :=
  match placeIn p width ms m srcDesc with
  | none => ms
  | some (idx, ms) =>
    match ms[idx]? with
    | none => ms
    | some r =>
      if p.skipCols.any fun col => (r.name col).isNone then ms else ms.modify idx (nameMember p m)

/-! ## One class of the tree -/

/-- A tree that differs in the members of one class and kind only, which are `ms`. -/
structure Relisted (t : MappingTree) (row : Nat) (kind : MemberKind) (ms : List MemberRow)
    (t' : MappingTree) : Prop where
  namespaces : t'.namespaces = t.namespaces
  names : ∀ col j, nameIn t'.classes col j = nameIn t.classes col j
  members : ∀ j k, membersIn t'.classes j k =
    if j = row ∧ k = kind then some ms else membersIn t.classes j k

variable {t t' : MappingTree} {row : Nat} {kind : MemberKind} {ms : List MemberRow}

theorem relisted_self (h : membersIn t.classes row kind = some ms) : Relisted t row kind ms t := by
  refine ⟨rfl, fun _ _ => rfl, fun j k => ?_⟩
  split
  · rename_i hjk
    rw [hjk.1, hjk.2, h]
  · rfl

theorem Relisted.self (h : Relisted t row kind ms t') :
    membersIn t'.classes row kind = some ms := by
  rw [h.members, if_pos ⟨rfl, rfl⟩]

theorem Relisted.findMember (h : Relisted t row kind ms t') (name : String) (col : Nat)
    (srcDesc : Option String) :
    t'.findMember row kind name col srcDesc = findIn ms name col srcDesc := by
  rw [findMember_eq, h.self]
  rfl

theorem Relisted.modifyMember (h : Relisted t row kind ms t') (idx : Nat)
    (f : MemberRow → MemberRow) :
    Relisted t row kind (ms.modify idx f) (t'.modifyMember row kind idx f) := by
  refine ⟨(frame_modifyMember t' row kind idx f).1.trans h.namespaces, fun col j => ?_,
    fun j k => ?_⟩
  · rw [nameIn_modifyMember]
    exact h.names col j
  · rw [membersIn_modifyMember]
    split
    · rename_i hjk
      rw [hjk.1, hjk.2, h.self]
      rfl
    · rename_i hjk
      rw [h.members, if_neg hjk]

theorem Relisted.addMember (h : Relisted t row kind ms t') (srcName : String)
    (srcDesc : Option String) :
    ∃ s, t'.addMember row kind srcName srcDesc =
        some ((addIn t.namespaces.length ms srcName srcDesc).1, s) ∧
      Relisted t row kind (addIn t.namespaces.length ms srcName srcDesc).2 s := by
  have hfind := h.findMember srcName 0 srcDesc
  unfold addIn
  cases hf : findIn ms srcName 0 srcDesc with
  | some idx =>
    rw [hf] at hfind
    refine ⟨t', ?_, h⟩
    unfold MappingTree.addMember
    rw [hfind]
  | none =>
    rw [hf] at hfind
    rcases addMember_cases t' row kind srcName srcDesc with
      ⟨_, hfound, _⟩ | ⟨hrow, _⟩ | ⟨c, _, hc, _, rfl, heq⟩
    · rw [hfind] at hfound
      cases hfound
    · have hself := h.self
      unfold membersIn at hself
      rw [hrow] at hself
      cases hself
    · obtain ⟨ms', hms', hidx, hns, _, hnames, hmembers⟩ := addMember_new hfind heq
      rw [h.self] at hms'
      cases hms'
      refine ⟨_, by rw [heq, hidx], hns.trans h.namespaces, ?_, ?_⟩
      · exact fun col j => (hnames col j).trans (h.names col j)
      · intro j k
        rw [hmembers, h.namespaces]
        split
        · rfl
        · rename_i hjk
          rw [h.members, if_neg hjk]

/-- A member entry has the same row in the tree as in the list. -/
theorem Relisted.placeMember (h : Relisted t row kind ms t') (p : JoinPlan) (m : MemberEntry)
    (srcDesc : Option String) :
    match placeIn p t.namespaces.length ms m srcDesc with
    | none => t'.placeMember p row kind m srcDesc = none
    | some (idx, ms') => ∃ s, t'.placeMember p row kind m srcDesc = some (idx, s) ∧
        Relisted t row kind ms' s := by
  unfold placeIn MappingTree.placeMember
  cases m.names.at? p.keyFileCol with
  | none => rfl
  | some key =>
    simp only [Option.bind_eq_bind, Option.bind_some, h.findMember]
    cases findIn ms key p.keyCol srcDesc with
    | some idx => exact ⟨t', rfl, h⟩
    | none =>
      simp only
      by_cases hfiltered : p.filtered = true
      · simp only [if_pos hfiltered]
      · simp only [if_neg hfiltered]
        by_cases hcol : p.keyCol = 0
        · simp only [if_pos hcol]
          exact h.addMember key srcDesc
        · simp only [if_neg hcol]
          cases p.srcFileCol.bind m.names.at? with
          | none => rfl
          | some src =>
            obtain ⟨s, hadd, hs⟩ := h.addMember src srcDesc
            simp only [Option.bind_some, hadd]
            exact ⟨_, rfl, hs.modifyMember _ _⟩

/-- A member entry changes the members of its class and kind only, as it does on their list. -/
theorem Relisted.joinMember (h : Relisted t row kind ms t') (p : JoinPlan) (m : MemberEntry)
    (srcDesc : Option String) :
    Relisted t row kind (joinIn p t.namespaces.length ms m srcDesc)
      (t'.joinMember p row kind m srcDesc) := by
  have hplace := h.placeMember p m srcDesc
  unfold joinIn MappingTree.joinMember
  cases hin : placeIn p t.namespaces.length ms m srcDesc with
  | none =>
    rw [hin] at hplace
    rw [hplace]
    exact h
  | some found =>
    obtain ⟨idx, ms'⟩ := found
    rw [hin] at hplace
    obtain ⟨s, hs, hrel⟩ := hplace
    rw [hs]
    simp only [member?_eq, hrel.self, Option.bind_some]
    cases ms'[idx]? with
    | none => exact hrel
    | some r =>
      simp only
      split
      · exact hrel
      · exact hrel.modifyMember idx _

/-- There is nothing to join in a class row that does not exist. -/
theorem joinMember_missing (h : membersIn t.classes row kind = none) (p : JoinPlan) (m : MemberEntry)
    (srcDesc : Option String) : t.joinMember p row kind m srcDesc = t := by
  have hrow : t.classes[row]? = none := by
    unfold membersIn at h
    exact Option.map_eq_none_iff.mp h
  have hadd : ∀ srcName, t.addMember row kind srcName srcDesc = none := by
    intro srcName
    unfold addMember findMember
    simp [hrow]
  have hplace : t.placeMember p row kind m srcDesc = none := by
    unfold placeMember findMember
    cases m.names.at? p.keyFileCol with
    | none => rfl
    | some key => simp [hrow, hadd]
  unfold joinMember
  rw [hplace]

/-! ## All entries -/

/-- Joins entries into a list of members. -/
def joinList (p : JoinPlan) (names : Option DescNames) (width : Nat) (ms : List MemberRow)
    (es : List MemberEntry) : List MemberRow :=
  es.foldl (fun ms m => joinIn p width ms m (m.desc.map (sourceDescriptor names))) ms

/-- The tree differs in members only, which entries have been joined into. -/
structure Joined (p : JoinPlan) (names : Option DescNames) (t : MappingTree)
    (entries : Nat → MemberKind → List MemberEntry) (t' : MappingTree) : Prop where
  namespaces : t'.namespaces = t.namespaces
  classNames : ∀ col j, nameIn t'.classes col j = nameIn t.classes col j
  members : ∀ j k, membersIn t'.classes j k =
    (membersIn t.classes j k).map (joinList p names t.namespaces.length · (entries j k))

theorem joined_joinMembers (p : JoinPlan) (names : Option DescNames) (t : MappingTree) (row : Nat)
    (kind : MemberKind) (es : List MemberEntry) :
    Joined p names t (fun j k => if j = row ∧ k = kind then es else [])
      (t.joinMembers p names row kind es) := by
  cases hms : membersIn t.classes row kind with
  | none =>
    have hsame : t.joinMembers p names row kind es = t := by
      unfold joinMembers
      refine List.foldlRecOn (motive := fun s : MappingTree => s = t) es _ rfl ?_
      intro s hs m _
      rw [hs]
      exact joinMember_missing hms p m _
    rw [hsame]
    refine ⟨rfl, fun _ _ => rfl, fun j k => ?_⟩
    by_cases hjk : j = row ∧ k = kind
    · rw [hjk.1, hjk.2, hms]
      rfl
    · rw [if_neg hjk]
      exact Option.map_id'.symm
  | some ms =>
    have hall : ∀ ms' s, Relisted t row kind ms' s →
        Relisted t row kind (joinList p names t.namespaces.length ms' es)
          (s.joinMembers p names row kind es) := by
      clear hms
      induction es with
      | nil => exact fun ms' s hs => hs
      | cons m rest ih => exact fun ms' s hs => ih _ _ (hs.joinMember p m _)
    have hrel := hall ms t (relisted_self hms)
    refine ⟨hrel.namespaces, hrel.names, fun j k => ?_⟩
    rw [hrel.members]
    by_cases hjk : j = row ∧ k = kind
    · rw [if_pos hjk, if_pos hjk, hjk.1, hjk.2, hms]
      rfl
    · rw [if_neg hjk, if_neg hjk]
      exact Option.map_id'.symm

/-- Entries that are joined one after the other are joined together. -/
theorem Joined.trans {p : JoinPlan} {names : Option DescNames} {t s u : MappingTree}
    {first second : Nat → MemberKind → List MemberEntry} (h : Joined p names t first s)
    (h' : Joined p names s second u) :
    Joined p names t (fun j k => first j k ++ second j k) u := by
  refine ⟨h'.namespaces.trans h.namespaces, fun col j =>
    (h'.classNames col j).trans (h.classNames col j), fun j k => ?_⟩
  rw [h'.members, h.members, h.namespaces, Option.map_map]
  unfold joinList
  congr 1
  funext ms
  simp

/-- The member entries of the class entries that have a row. -/
def entriesOf (es : List (ClassEntry × Option Nat)) (row : Nat) (kind : MemberKind) :
    List MemberEntry :=
  es.flatMap fun (e, row') => if row' = some row then e.members kind else []

theorem joined_joinAllMembers (p : JoinPlan) (names : Option DescNames) (t : MappingTree)
    (es : List (ClassEntry × Option Nat)) :
    Joined p names t (entriesOf es) (t.joinAllMembers p names es) := by
  induction es generalizing t with
  | nil => exact ⟨rfl, fun _ _ => rfl, fun _ _ => Option.map_id'.symm⟩
  | cons entry rest ih =>
    obtain ⟨e, _ | row⟩ := entry
    · exact ih t
    · have hfields := joined_joinMembers p names t row .field e.fields
      have hmethods := joined_joinMembers p names (t.joinMembers p names row .field e.fields) row
        .method e.methods
      have hall := (hfields.trans hmethods).trans (ih _)
      have hentries : (fun j k => ((if j = row ∧ k = .field then e.fields else []) ++
          if j = row ∧ k = .method then e.methods else []) ++ entriesOf rest j k) =
          entriesOf ((e, some row) :: rest) := by
        funext j k
        unfold entriesOf
        rw [List.flatMap_cons]
        congr 1
        by_cases hj : j = row
        · subst hj
          cases k <;> simp [ClassEntry.members]
        · simp [hj, Ne.symm hj]
      rw [hentries] at hall
      exact hall

/-! ## Which row an entry reaches -/

/-- A member row answers to a name in a column and to a descriptor. -/
def AnswersTo (r : MemberRow) (name : String) (col : Nat) (srcDesc : Option String) : Prop :=
  r.name col = some name ∧ descAgrees srcDesc r.srcDesc = true

theorem findIn_eq_some {ms : List MemberRow} {name : String} {col : Nat} {srcDesc : Option String}
    {idx : Nat} :
    findIn ms name col srcDesc = some idx ↔
      (∃ r, ms[idx]? = some r ∧ AnswersTo r name col srcDesc) ∧
        ∀ j < idx, ∀ r, ms[j]? = some r → ¬ AnswersTo r name col srcDesc := by
  unfold findIn AnswersTo
  rw [List.findIdx?_eq_some_iff_getElem]
  constructor
  · rintro ⟨hlt, hidx, hfirst⟩
    refine ⟨⟨ms[idx], List.getElem?_eq_getElem hlt, by simpa using hidx⟩, ?_⟩
    intro j hj r hr
    obtain ⟨hlt', rfl⟩ := List.getElem?_eq_some_iff.mp hr
    simpa using hfirst j hj
  · rintro ⟨⟨r, hr, hidx⟩, hfirst⟩
    obtain ⟨hlt, rfl⟩ := List.getElem?_eq_some_iff.mp hr
    refine ⟨hlt, by simpa using hidx, ?_⟩
    intro j hj
    simpa using hfirst j hj _ (List.getElem?_eq_getElem (Nat.lt_trans hj hlt))

/-- The member that is there, or a new one at the end. -/
theorem addIn_cases (width : Nat) (ms : List MemberRow) (srcName : String)
    (srcDesc : Option String) :
    (∃ idx r, addIn width ms srcName srcDesc = (idx, ms) ∧ ms[idx]? = some r ∧
        AnswersTo r srcName 0 srcDesc) ∨
      addIn width ms srcName srcDesc = (ms.length, ms ++ [memberRow width srcName srcDesc]) := by
  unfold addIn
  cases hf : findIn ms srcName 0 srcDesc with
  | some idx =>
    obtain ⟨⟨r, hr, hanswers⟩, _⟩ := findIn_eq_some.mp hf
    exact Or.inl ⟨idx, r, rfl, hr, hanswers⟩
  | none => exact Or.inr rfl

/-- The source name of an entry, if its file has a column for it. -/
def entrySource (p : JoinPlan) (m : MemberEntry) : Option String := p.srcFileCol.bind m.names.at?

/-- What becomes of a row when an entry is joined on another column than the source:
nothing, or the entry reaches the row by its name in the key column, or by its source
name, and then the row gets the name in the key column too. -/
inductive Fate (p : JoinPlan) (m : MemberEntry) (srcDesc : Option String) (r r' : MemberRow) :
    Prop where
  | spared (h : r' = r)
  | byKey (key : String) (hkey : m.names.at? p.keyFileCol = some key)
      (hr : AnswersTo r key p.keyCol srcDesc) (hname : r'.name p.keyCol = r.name p.keyCol)
      (hsrc : r'.name 0 = r.name 0) (hdesc : r'.srcDesc = r.srcDesc)
  | bySource (key src : String) (hkey : m.names.at? p.keyFileCol = some key)
      (hsrcName : entrySource p m = some src) (hr : AnswersTo r src 0 srcDesc)
      (hname : r'.name p.keyCol = some key) (hsrc : r'.name 0 = r.name 0)
      (hdesc : r'.srcDesc = r.srcDesc)

theorem placeIn_cases {p : JoinPlan} {width : Nat} {ms ms' : List MemberRow} {m : MemberEntry}
    {srcDesc : Option String} {idx : Nat} (hcol : p.keyCol ≠ 0)
    (h : placeIn p width ms m srcDesc = some (idx, ms')) :
    ∃ key, m.names.at? p.keyFileCol = some key ∧
      ((findIn ms key p.keyCol srcDesc = some idx ∧ ms' = ms) ∨
        ∃ src, entrySource p m = some src ∧ idx = (addIn width ms src srcDesc).1 ∧
          ms' = (addIn width ms src srcDesc).2.modify idx fun r => r.setName p.keyCol (some key)) := by
  unfold placeIn at h
  obtain ⟨key, hkey, h⟩ := Option.bind_eq_some_iff.mp h
  refine ⟨key, hkey, ?_⟩
  cases hf : findIn ms key p.keyCol srcDesc with
  | some found =>
    rw [hf] at h
    cases h
    exact Or.inl ⟨rfl, rfl⟩
  | none =>
    rw [hf] at h
    simp only at h
    split at h
    · cases h
    · obtain ⟨src, hsrc, h⟩ := Option.bind_eq_some_iff.mp h
      cases h
      exact Or.inr ⟨src, hsrc, rfl, rfl⟩

/-- Placing an entry leaves a row as it is, unless it reaches the row by its source name. -/
theorem placeIn_row {p : JoinPlan} {width : Nat} {ms ms' : List MemberRow} {m : MemberEntry}
    {srcDesc : Option String} {idx j : Nat} {r : MemberRow} (hcol : p.keyCol ≠ 0)
    (h : placeIn p width ms m srcDesc = some (idx, ms')) (hr : ms[j]? = some r) :
    (j ≠ idx ∧ ms'[j]? = some r) ∨
      ∃ key, j = idx ∧ m.names.at? p.keyFileCol = some key ∧
        ((AnswersTo r key p.keyCol srcDesc ∧ ms'[j]? = some r) ∨
          ∃ src, entrySource p m = some src ∧ AnswersTo r src 0 srcDesc ∧
            ms'[j]? = some (r.setName p.keyCol (some key))) := by
  obtain ⟨key, hkey, ⟨hfound, rfl⟩ | ⟨src, hsrc, hidx, rfl⟩⟩ := placeIn_cases hcol h
  · by_cases hj : j = idx
    · subst hj
      obtain ⟨⟨r', hr', hanswers⟩, _⟩ := findIn_eq_some.mp hfound
      rw [hr] at hr'
      cases hr'
      exact Or.inr ⟨key, rfl, hkey, Or.inl ⟨hanswers, hr⟩⟩
    · exact Or.inl ⟨hj, hr⟩
  · rcases addIn_cases width ms src srcDesc with ⟨idx', r', hadd, hr', hanswers⟩ | hadd
    · rw [hadd] at hidx ⊢
      simp only at hidx ⊢
      subst hidx
      rw [List.getElem?_modify, hr]
      by_cases hj : j = idx
      · subst hj
        rw [hr] at hr'
        cases hr'
        exact Or.inr ⟨key, rfl, hkey, Or.inr ⟨src, hsrc, hanswers, by simp⟩⟩
      · exact Or.inl ⟨hj, by simp [Ne.symm hj]⟩
    · have hlt : j < ms.length := (List.getElem?_eq_some_iff.mp hr).1
      rw [hadd] at hidx ⊢
      simp only at hidx ⊢
      subst hidx
      refine Or.inl ⟨by omega, ?_⟩
      rw [List.getElem?_modify, List.getElem?_append_left hlt, hr]
      simp [show ms.length ≠ j by omega]

/-- Every row stays, and meets one of the fates. -/
theorem fate_joinIn {p : JoinPlan} (hp : Proper p) (hcol : p.keyCol ≠ 0) (width : Nat)
    (m : MemberEntry) (srcDesc : Option String) {ms : List MemberRow} {j : Nat} {r : MemberRow}
    (hr : ms[j]? = some r) :
    ∃ r', (joinIn p width ms m srcDesc)[j]? = some r' ∧ Fate p m srcDesc r r' := by
  unfold joinIn
  cases hplace : placeIn p width ms m srcDesc with
  | none => exact ⟨r, hr, .spared rfl⟩
  | some found =>
    obtain ⟨idx, ms'⟩ := found
    -- The row after the place was found, and the same row with the names of the entry.
    have hafter : ∃ r₁, ms'[j]? = some r₁ ∧ Fate p m srcDesc r r₁ ∧
        (j = idx → Fate p m srcDesc r (nameMember p m r₁)) := by
      rcases placeIn_row hcol hplace hr with ⟨hj, hsame⟩ |
        ⟨key, _, hkey, ⟨hanswers, hsame⟩ | ⟨src, hsrc, hanswers, hset⟩⟩
      · exact ⟨r, hsame, .spared rfl, fun h => absurd h hj⟩
      · exact ⟨r, hsame, .spared rfl, fun _ => .byKey key hkey hanswers (hp.nameMember_key m r)
          (hp.nameMember_source m r) (nameMember_srcDesc p m r)⟩
      · refine ⟨_, hset, .bySource key src hkey hsrc hanswers (by simp) (by simp [Ne.symm hcol]) rfl,
          fun _ => .bySource key src hkey hsrc hanswers ?_ ?_ ?_⟩
        · rw [hp.nameMember_key]
          simp
        · rw [hp.nameMember_source]
          simp [Ne.symm hcol]
        · rw [nameMember_srcDesc]
          rfl
    obtain ⟨r₁, hr₁, hplaced, hnamed⟩ := hafter
    simp only
    split
    · exact ⟨r₁, hr₁, hplaced⟩
    · split
      · exact ⟨r₁, hr₁, hplaced⟩
      · rw [List.getElem?_modify, hr₁]
        by_cases hj : j = idx
        · subst hj
          exact ⟨nameMember p m r₁, by simp, hnamed rfl⟩
        · exact ⟨r₁, by simp [Ne.symm hj], hplaced⟩

end MappingTree

end JarDerivation
