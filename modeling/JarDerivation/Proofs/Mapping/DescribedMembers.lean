-- Members that a file describes. A file that is joined on another namespace than the
-- source gives a member its names if the descriptor of the entry, translated by the
-- classes of the file itself, is the source descriptor of the member's row.
import JarDerivation.Proofs.Mapping.ClassJoin

namespace JarDerivation

namespace MappingTree

variable {p : JoinPlan} {names : Option DescNames} {width : Nat}
  {t t' : MappingTree} {keyCol row : Nat} {key : String}

/-! ## The other entries of a class -/

/-- The source descriptor that an entry asks for. -/
def wanted (names : Option DescNames) (m : MemberEntry) : Option String :=
  m.desc.map (sourceDescriptor names)

/-- An entry with the name of a row in the key column, or with its source name, asks for
another descriptor. -/
def Spares (p : JoinPlan) (names : Option DescNames) (r : MemberRow) (m : MemberEntry) : Prop :=
  ∀ key, m.names.at? p.keyFileCol = some key →
    (r.name p.keyCol = some key ∨ ∃ src, entrySource p m = some src ∧ r.name 0 = some src) →
    descAgrees (wanted names m) r.srcDesc = false

/-- An entry leaves a row that it spares as it is. -/
theorem joinIn_spared (hp : Proper p) (hcol : p.keyCol ≠ 0) {ms : List MemberRow} {m : MemberEntry}
    {idx : Nat} {r : MemberRow} (hr : ms[idx]? = some r) (hspares : Spares p names r m) :
    (joinIn p width ms m (wanted names m))[idx]? = some r := by
  obtain ⟨r', hr', hfate⟩ := fate_joinIn hp hcol width m (wanted names m) hr
  rw [hr']
  cases hfate with
  | spared h => rw [h]
  | byKey key hkey hanswers =>
    have hdiffers := hspares key hkey (Or.inl hanswers.1)
    rw [hanswers.2] at hdiffers
    cases hdiffers
  | bySource key src hkey hsrc hanswers =>
    have hdiffers := hspares key hkey (Or.inr ⟨src, hsrc, hanswers.1⟩)
    rw [hanswers.2] at hdiffers
    cases hdiffers

theorem joinList_spared (hp : Proper p) (hcol : p.keyCol ≠ 0) {idx : Nat} {r : MemberRow}
    {es : List MemberEntry} {ms : List MemberRow} (hr : ms[idx]? = some r)
    (hspares : ∀ m ∈ es, Spares p names r m) : (joinList p names width ms es)[idx]? = some r := by
  unfold joinList
  refine List.foldlRecOn (motive := fun s : List MemberRow => s[idx]? = some r) es _ hr ?_
  intro s hs m hm
  exact joinIn_spared hp hcol hs (hspares m hm)

/-! ## The rows before -/

/-- A row does not answer to a name and a descriptor, and if it has no descriptor itself,
no entry of that name has the source name of the row. -/
def Quiet (p : JoinPlan) (others : List MemberEntry) (name desc : String) (r : MemberRow) : Prop :=
  ¬ AnswersTo r name p.keyCol (some desc) ∧
    (r.srcDesc = none → ∀ m ∈ others, m.names.at? p.keyFileCol = some name →
      ∀ src, entrySource p m = some src → r.name 0 ≠ some src)

/-- A quiet row stays quiet. -/
theorem Quiet.fate {others : List MemberEntry} {name desc : String} {r r' : MemberRow}
    {m : MemberEntry} (h : Quiet p others name desc r) (hm : m ∈ others)
    (hrival : m.names.at? p.keyFileCol = some name →
      descAgrees (wanted names m) (some desc) = false)
    (hfate : Fate p m (wanted names m) r r') : Quiet p others name desc r' := by
  obtain ⟨hanswer, hwild⟩ := h
  cases hfate with
  | spared h => exact h ▸ ⟨hanswer, hwild⟩
  | byKey key hkey _ hname hsrc hdesc =>
    unfold Quiet AnswersTo
    rw [hname, hsrc, hdesc]
    exact ⟨hanswer, hwild⟩
  | bySource key src hkey hsrcName hreached hname hsrc hdesc =>
    unfold Quiet AnswersTo
    rw [hname, hsrc, hdesc]
    refine ⟨?_, hwild⟩
    rintro ⟨hkeyName, hagrees⟩
    rw [Option.some.inj hkeyName] at hkey
    obtain ⟨a, b, hwant, hb, hne⟩ := descAgrees_eq_false.mp (hrival hkey)
    cases hb
    -- The row agrees with two descriptors, so it has none.
    cases hown : r.srcDesc with
    | none => exact hwild hown m hm hkey src hsrcName hreached.1
    | some own =>
      have hfirst := hreached.2
      rw [hwant, hown] at hfirst
      rw [hown] at hagrees
      simp only [descAgrees, beq_iff_eq] at hfirst hagrees
      exact hne (hfirst.trans hagrees.symm)

theorem quiet_joinList (names : Option DescNames) (width : Nat) (hp : Proper p)
    (hcol : p.keyCol ≠ 0) {others es : List MemberEntry}
    {name desc : String} {idx : Nat} {ms : List MemberRow} (hidx : idx ≤ ms.length)
    (hquiet : ∀ j < idx, ∀ r, ms[j]? = some r → Quiet p others name desc r)
    (hes : ∀ m ∈ es, m ∈ others) (hrival : ∀ m ∈ others, m.names.at? p.keyFileCol = some name →
      descAgrees (wanted names m) (some desc) = false) :
    ∀ j < idx, ∀ r, (joinList p names width ms es)[j]? = some r → Quiet p others name desc r := by
  intro j hj r hr
  have hlt : j < ms.length := by omega
  have hstays : ∃ r', (joinList p names width ms es)[j]? = some r' ∧
      Quiet p others name desc r' := by
    unfold joinList
    refine List.foldlRecOn (motive := fun s : List MemberRow =>
      ∃ r', s[j]? = some r' ∧ Quiet p others name desc r') es _ ?_ ?_
    · have hget := List.getElem?_eq_getElem hlt
      exact ⟨_, hget, hquiet j hj _ hget⟩
    · rintro s ⟨r', hr', hq⟩ m hm
      obtain ⟨r'', hr'', hfate⟩ :=
        fate_joinIn hp hcol width m (wanted names m) hr'
      exact ⟨r'', hr'', hq.fate (hes m hm) (hrival m (hes m hm)) hfate⟩
  obtain ⟨r', hr', hq⟩ := hstays
  rw [hr] at hr'
  cases hr'
  exact hq

/-! ## The entry itself -/

/-- An entry reaches the first row that answers to it, and gives it its names. -/
theorem joinIn_reached (hskip : p.skipCols = []) {ms : List MemberRow} {idx : Nat} {r : MemberRow}
    {m : MemberEntry} {name srcDesc : String} (hr : ms[idx]? = some r)
    (hname : r.name p.keyCol = some name) (hdesc : r.srcDesc = some srcDesc)
    (hkey : m.names.at? p.keyFileCol = some name)
    (hearly : ∀ j < idx, ∀ o, ms[j]? = some o → ¬ AnswersTo o name p.keyCol (some srcDesc)) :
    (joinIn p width ms m (some srcDesc))[idx]? = some (nameMember p m r) := by
  have hfind : findIn ms name p.keyCol (some srcDesc) = some idx := by
    refine findIn_eq_some.mpr ⟨⟨r, hr, hname, ?_⟩, hearly⟩
    rw [hdesc]
    simp [descAgrees]
  have hplace : placeIn p width ms m (some srcDesc) = some (idx, ms) := by
    unfold placeIn
    rw [hkey]
    simp [hfind]
  unfold joinIn
  rw [hplace]
  simp only [hr, hskip, List.any_nil]
  rw [if_neg (by simp), List.getElem?_modify, hr]
  simp

/-- The entry of a row gives it its names just when its descriptor is the one of the row,
whatever other entries there are that spare the row. -/
theorem joinList_described (hp : Proper p) (hcol : p.keyCol ≠ 0) (hskip : p.skipCols = [])
    {ms : List MemberRow} {idx : Nat} {r : MemberRow} {m : MemberEntry}
    {before after : List MemberEntry} {name desc srcDesc : String} (hr : ms[idx]? = some r)
    (hname : r.name p.keyCol = some name) (hsrcDesc : r.srcDesc = some srcDesc)
    (hkey : m.names.at? p.keyFileCol = some name) (hdesc : m.desc = some desc)
    (hspares : ∀ o ∈ before ++ after, Spares p names r o)
    (hquiet : ∀ j < idx, ∀ o, ms[j]? = some o → Quiet p (before ++ after) name srcDesc o) :
    (joinList p names width ms (before ++ m :: after))[idx]? =
      some (if sourceDescriptor names desc = srcDesc then nameMember p m r else r) := by
  have hwant : wanted names m = some (sourceDescriptor names desc) := by
    unfold wanted
    rw [hdesc]
    rfl
  have hlt : idx < ms.length := (List.getElem?_eq_some_iff.mp hr).1
  have hbefore : (joinList p names width ms before)[idx]? = some r :=
    joinList_spared hp hcol hr fun o ho => hspares o (List.mem_append_left _ ho)
  have hearly := quiet_joinList names width hp hcol (Nat.le_of_lt hlt) hquiet
    (fun o ho => List.mem_append_left after ho) fun o ho hrival => by
      rw [← hsrcDesc]
      exact hspares o ho name hrival (Or.inl hname)
  generalize hms : joinList p names width ms before = ms' at hbefore hearly
  have hhere : (joinIn p width ms' m (wanted names m))[idx]? =
      some (if sourceDescriptor names desc = srcDesc then nameMember p m r else r) := by
    rw [hwant]
    split
    · rename_i hsame
      rw [hsame]
      exact joinIn_reached hskip hbefore hname hsrcDesc hkey fun j hj o ho => (hearly j hj o ho).1
    · rename_i hother
      rw [← hwant]
      refine joinIn_spared hp hcol hbefore ?_
      intro _ _ _
      rw [hwant, hsrcDesc]
      simp [descAgrees, hother]
  have hsplit : joinList p names width ms (before ++ m :: after) =
      joinList p names width (joinIn p width ms' m (wanted names m)) after := by
    rw [← hms]
    unfold joinList
    rw [List.foldl_append]
    rfl
  rw [hsplit]
  refine joinList_spared hp hcol hhere fun o ho => ?_
  have hspared := hspares o (List.mem_append_right _ ho)
  split
  · unfold Spares
    rw [hp.nameMember_key, hp.nameMember_source, nameMember_srcDesc]
    exact hspared
  · exact hspared

/-! ## The law -/

/-- The file of an input is joined on its first namespace, which the tree has, but not
as its source, and no entry is left out. -/
structure JoinsOnFirst (t : MappingTree) (i : MappingInput) (keyCol : Nat) : Prop where
  first : i.file.namespaces.head? = some i.keyNs
  distinct : i.file.namespaces.Nodup
  column : t.namespaceId? i.keyNs = some keyCol
  notSource : keyCol ≠ 0
  allClasses : i.onlyExistingSrc = false
  noSkip : i.skipIfNotIn = []

/-- The source name of an entry, if the file has the source namespace of the tree. -/
def sourceName (t : MappingTree) (i : MappingInput) (names : Names) : Option String :=
  (t.source?.bind i.file.column?).bind names.at?

/-- The classes that a file lists, with the source names of their rows in the tree. -/
def listed (t : MappingTree) (i : MappingInput) : DescNames :=
  match t.planJoin i with
  | .ok (p, s) => (s.joinClasses p i.file.classes).descNames
  | .error _ => []

/-- An entry and a member row have the same name in the key column, and the descriptor
of the row, written with the class names of that column, is the one of the entry. -/
def Describes (t : MappingTree) (keyCol : Nat) (m : MemberEntry) (r : MemberRow) : Prop :=
  ∃ name desc srcDesc, m.names.at? 0 = some name ∧ r.name keyCol = some name ∧
    m.desc = some desc ∧ r.srcDesc = some srcDesc ∧ t.mapDescriptor srcDesc 0 keyCol = desc

/-- A member row has all the names that an entry brings in written columns other than
the key and the source. -/
def Carries (t : MappingTree) (i : MappingInput) (m : MemberEntry) (r : MemberRow) : Prop :=
  ∀ j ∈ i.written, ∀ ns col name, i.file.namespaces[j]? = some ns → ns ≠ i.keyNs →
    t.namespaceId? ns = some col → col ≠ 0 → m.names.at? j = some name → r.name col = some name

/-- Nothing else in the file is about the class row, or about a member row `r` at `idx`
and those before it. `others` are the other entries for members of the class. -/
structure Undisturbed (t : MappingTree) (i : MappingInput) (keyCol row : Nat) (key : String)
    (kind : MemberKind) (m : MemberEntry) (idx : Nat) (r : MemberRow) (others : List MemberEntry) :
    Prop where
  /-- No other class entry has the source name of the class. -/
  oneClass : ∀ e ∈ i.file.classes, ∀ other src, e.names.at? 0 = some other →
    sourceName t i e.names = some src → t.className row 0 = some src → other = key
  /-- Another entry with a name of the member asks for another descriptor. -/
  rivals : ∀ o ∈ others, ∀ other, o.names.at? 0 = some other →
    (r.name keyCol = some other ∨ ∃ src, sourceName t i o.names = some src ∧ r.name 0 = some src) →
    descAgrees (o.desc.map (Descriptor.rename (List.lookup · (listed t i)))) r.srcDesc = false
  /-- A row without a descriptor before the member does not have its name and does not get it. -/
  wild : ∀ j < idx, ∀ w, t.member? row kind j = some w → w.srcDesc = none →
    w.name keyCol ≠ r.name keyCol ∧ ∀ o ∈ others, o.names.at? 0 = m.names.at? 0 →
      ∀ src, sourceName t i o.names = some src → w.name 0 ≠ some src

theorem name_nameMember {p : JoinPlan} {j col : Nat} {name : String} {m : MemberEntry}
    (hmem : (j, col) ∈ p.columns) (hunique : ∀ j', (j', col) ∈ p.columns → j' = j)
    (hname : m.names.at? j = some name) (r : MemberRow) :
    (nameMember p m r).name col = some name := by
  unfold nameMember
  generalize p.columns = cols at hmem hunique
  -- Either the name is written already, or its column is still to come.
  have hwritten : r.name col = some name ∨ (j, col) ∈ cols := Or.inr hmem
  clear hmem
  induction cols generalizing r with
  | nil =>
    rcases hwritten with hset | hmem
    · exact hset
    · cases hmem
  | cons c rest ih =>
    obtain ⟨j', col'⟩ := c
    rw [List.foldl_cons]
    refine ih _ (fun k hk => hunique k (List.mem_cons_of_mem _ hk)) ?_
    by_cases hcol : col' = col
    · subst hcol
      have hj : j' = j := hunique j' List.mem_cons_self
      subst hj
      exact Or.inl (by simp [hname])
    · rcases hwritten with hset | hmem
      · left
        simp only
        cases m.names.at? j' with
        | none => exact hset
        | some other => simpa [Ne.symm hcol] using hset
      · rcases List.mem_cons.mp hmem with heq | hmem
        · cases heq
          exact absurd rfl hcol
        · exact Or.inr hmem

/-- The plan of a file that is joined on its first namespace. -/
theorem JoinsOnFirst.plan {i : MappingInput} (hi : JoinsOnFirst t i keyCol) :
    ∃ p s, t.planJoin i = .ok (p, s) ∧ p.keyCol = keyCol ∧ p.keyFileCol = 0 ∧ p.skipCols = [] ∧
      s = (t.addColumns i.file.namespaces keyCol i.written).1 ∧
      p.columns = (t.addColumns i.file.namespaces keyCol i.written).2 ∧
      s.source? = t.source? ∧ p.srcFileCol = t.source?.bind i.file.column? := by
  have hcolumn := getElem?_of_namespaceId? hi.column
  have hne : t.namespaces ≠ [] := by
    intro hnil
    rw [hnil] at hcolumn
    cases hcolumn
  have hkey : t.withKey i = t := by
    unfold withKey
    rw [if_neg (by simpa using hne)]
  have hok : ∃ p s, t.planJoin i = .ok (p, s) := by
    unfold planJoin requireNamespace
    rw [if_neg (by simpa using hne)]
    simp only [hi.column, hi.noSkip]
    exact ⟨_, _, rfl⟩
  obtain ⟨p, s, hplan⟩ := hok
  obtain ⟨hid, hs, hcolumns, hfile, hsrc, _, _, hskip⟩ := planJoin_ok hplan
  rw [hkey] at hid hs hcolumns
  rw [hi.column] at hid
  cases hid
  have hsource : s.source? = t.source? := by
    rw [hs]
    exact (frame_addColumns t _ _ _).2.2 hne
  refine ⟨p, s, hplan, rfl, ?_, ?_, hs, hcolumns, hsource, by rw [hsrc, hsource]⟩
  · rw [hfile]
    unfold MappingFile.column? List.idxOf?
    obtain ⟨first, others, hns⟩ := List.exists_cons_of_ne_nil (l := i.file.namespaces) (by
      intro hnil
      have hfirst := hi.first
      rw [hnil] at hfirst
      cases hfirst)
    have hfirst := hi.first
    rw [hns] at hfirst ⊢
    simp only [List.head?_cons, Option.some.injEq] at hfirst
    simp [hfirst, List.findIdx?_cons]
  · rw [hi.noSkip] at hskip
    exact (Except.ok.inj hskip).symm

/-- A written column of the file is where its namespace is, and no other one is there. -/
theorem JoinsOnFirst.columns {i : MappingInput} (hi : JoinsOnFirst t i keyCol) {j col : Nat}
    {ns : String} (hj : j ∈ i.written) (hns : i.file.namespaces[j]? = some ns) (hne : ns ≠ i.keyNs)
    (hcol : (t.addColumns i.file.namespaces keyCol i.written).1.namespaceId? ns = some col)
    (hzero : col ≠ 0) :
    (j, col) ∈ (t.addColumns i.file.namespaces keyCol i.written).2 ∧
      ∀ j', (j', col) ∈ (t.addColumns i.file.namespaces keyCol i.written).2 → j' = j := by
  refine ⟨mem_addColumns.mpr ⟨hj, ⟨ns, hns, hcol⟩, ?_, hzero⟩, fun j' hmem => ?_⟩
  · rintro rfl
    have hkey := getElem?_of_namespaceId?
      (namespaceId?_addColumns hi.column i.file.namespaces col i.written)
    rw [getElem?_of_namespaceId? hcol] at hkey
    exact hne (Option.some.inj hkey)
  · obtain ⟨_, ⟨ns', hns', hcol'⟩, _⟩ := mem_addColumns.mp hmem
    have hsame := getElem?_of_namespaceId? hcol'
    rw [getElem?_of_namespaceId? hcol] at hsame
    cases hsame
    obtain ⟨hlt, hget⟩ := List.getElem?_eq_some_iff.mp hns
    obtain ⟨hlt', hget'⟩ := List.getElem?_eq_some_iff.mp hns'
    exact (List.getElem_inj hi.distinct).mp (hget'.trans hget.symm)

/-- A plan with these columns writes neither to the key column nor to the source column. -/
theorem proper_addColumns {i : MappingInput} {p : JoinPlan} (hkeyCol : p.keyCol = keyCol)
    (hcolumns : p.columns = (t.addColumns i.file.namespaces keyCol i.written).2) : Proper p := by
  intro j col hmem
  rw [hcolumns] at hmem
  rw [hkeyCol]
  exact (mem_addColumns.mp hmem).2.2

/-- The first namespace of the file is not the source of the tree. -/
theorem JoinsOnFirst.ne_source {i : MappingInput} (hi : JoinsOnFirst t i keyCol) :
    i.file.namespaces.head? ≠ t.source? := by
  rw [hi.first]
  intro hfirst
  have hcolumn := hi.column
  obtain ⟨rest, hns⟩ := List.head?_eq_some_iff.mp hfirst.symm
  unfold namespaceId? List.idxOf? at hcolumn
  rw [hns] at hcolumn
  simp [List.findIdx?_cons] at hcolumn
  exact hi.notSource hcolumn.symm

/-- The join of such a file translates the descriptors by the classes that the file lists. -/
theorem JoinsOnFirst.join_listed {i : MappingInput} {p : JoinPlan} {s : MappingTree}
    (hi : JoinsOnFirst t i keyCol) (hplan : t.planJoin i = .ok (p, s))
    (hsource : s.source? = t.source?)
    (hns : (s.joinClasses p i.file.classes).tree.namespaces = s.namespaces) :
    t.join i = .ok ((s.joinClasses p i.file.classes).tree.joinAllMembers p (some (listed t i))
      (i.file.classes.zip (s.joinClasses p i.file.classes).rows)) := by
  have hnames : (i.file.namespaces.head? ==
      (s.joinClasses p i.file.classes).tree.source?) = false := by
    rw [show (s.joinClasses p i.file.classes).tree.source? = t.source? by
      rw [← hsource]
      exact congrArg List.head? hns]
    exact beq_eq_false_iff_ne.mpr hi.ne_source
  have hlisted : listed t i = (s.joinClasses p i.file.classes).descNames := by
    unfold listed
    rw [hplan]
  unfold join
  rw [hplan]
  simp only [hlisted]
  change Except.ok _ = _
  rw [hnames]
  rfl

/-- The join of such a file joins the entries for a class into the members of its row, if
no other entry has the source name of the row. -/
theorem JoinsOnFirst.members {i : MappingInput} (ht : t.Indexed) (hi : JoinsOnFirst t i keyCol)
    (hrow : t.findClass key keyCol = some row)
    (hone : ∀ e ∈ i.file.classes, ∀ other src, e.names.at? 0 = some other →
      sourceName t i e.names = some src → t.className row 0 = some src → other = key) :
    ∃ p t' width, t.join i = .ok t' ∧ Proper p ∧ p.keyCol = keyCol ∧ p.keyFileCol = 0 ∧
      p.skipCols = [] ∧ p.srcFileCol = t.source?.bind i.file.column? ∧
      p.columns = (t.addColumns i.file.namespaces keyCol i.written).2 ∧
      t'.namespaces = (t.addColumns i.file.namespaces keyCol i.written).1.namespaces ∧
      ∀ kind, membersIn t'.classes row kind = (membersIn t.classes row kind).map
        (joinList p (some (listed t i)) width · (entriesFor 0 key kind i.file.classes)) := by
  obtain ⟨p, s, hplan, hkeyCol, hfileCol, hskip, hs, hcolumns, hsource, hsrcCol⟩ := hi.plan
  obtain ⟨hclasses, hfind, _⟩ := frame_addColumns t i.file.namespaces keyCol i.written
  have hproper := proper_addColumns hkeyCol hcolumns
  rw [← hs] at hclasses hfind
  -- The row is settled when all columns are there, and stays so.
  have hstart : Settled s p.keyCol row key s := by
    refine ⟨?_, rfl, ?_, by rw [hfind, hkeyCol, hrow], rfl, fun _ => rfl⟩
    · intro col n
      rw [hfind, ht, hclasses]
    · have hfirst := hrow
      rw [ht] at hfirst
      rw [className_eq_nameIn, hclasses, hkeyCol]
      exact (firstHolder_eq_some.mp hfirst).1
  obtain ⟨hsettled, rows, hrows, hentries⟩ := settled_joinClasses hproper
    (hkeyCol ▸ hi.notSource) hskip i.file.classes (by
      intro e he other src hother hsrc hbase
      rw [hfileCol] at hother
      rw [hsrcCol] at hsrc
      rw [className_eq_nameIn, hclasses] at hbase
      exact hone e he other src hother hsrc hbase) ⟨s, [], []⟩ hstart
  rw [List.nil_append] at hrows
  rw [hfileCol] at hentries
  have hns : (s.joinClasses p i.file.classes).tree.namespaces = s.namespaces := hsettled.namespaces
  have hjoin := hi.join_listed hplan hsource hns
  rw [show (s.joinClasses p i.file.classes).rows = rows from hrows] at hjoin
  have hjoined := joined_joinAllMembers p (some (listed t i))
    (s.joinClasses p i.file.classes).tree (i.file.classes.zip rows)
  refine ⟨p, _, (s.joinClasses p i.file.classes).tree.namespaces.length, hjoin, hproper, hkeyCol,
    hfileCol, hskip, hsrcCol, hcolumns, ?_, fun kind => ?_⟩
  · rw [hjoined.namespaces, hns, hs]
  · have hold : membersIn (s.joinClasses p i.file.classes).tree.classes row kind =
        membersIn s.classes row kind := hsettled.members kind
    rw [hjoined.members, hold, hclasses, hentries]

/-- The other entries spare a member row that nothing disturbs. -/
theorem Undisturbed.spares {i : MappingInput} {kind : MemberKind} {m : MemberEntry} {idx : Nat}
    {r : MemberRow} {others : List MemberEntry}
    (h : Undisturbed t i keyCol row key kind m idx r others) (hkeyCol : p.keyCol = keyCol)
    (hfileCol : p.keyFileCol = 0) (hsrcCol : p.srcFileCol = t.source?.bind i.file.column?) :
    ∀ o ∈ others, Spares p (some (listed t i)) r o := by
  intro o ho other hother hreaches
  rw [hfileCol] at hother
  rw [hkeyCol] at hreaches
  refine h.rivals o ho other hother ?_
  rcases hreaches with hsame | ⟨src, hsrc, hsame⟩
  · exact Or.inl hsame
  · unfold entrySource at hsrc
    rw [hsrcCol] at hsrc
    exact Or.inr ⟨src, hsrc, hsame⟩

/-- The rows before the one that an entry describes are quiet if nothing disturbs them. -/
theorem Undisturbed.quiet {i : MappingInput} {kind : MemberKind} {m : MemberEntry} {idx : Nat}
    {r : MemberRow} {others : List MemberEntry}
    (h : Undisturbed t i keyCol row key kind m idx r others) (hkeyCol : p.keyCol = keyCol)
    (hfileCol : p.keyFileCol = 0) (hsrcCol : p.srcFileCol = t.source?.bind i.file.column?)
    {name desc srcDesc : String} (hname : m.names.at? 0 = some name)
    (hrname : r.name keyCol = some name) (hdesc : m.desc = some desc)
    (hmap : t.mapDescriptor srcDesc 0 keyCol = desc)
    (honly : ∀ j o, t.member? row kind j = some o → Describes t keyCol m o → j = idx) :
    ∀ j < idx, ∀ o, t.member? row kind j = some o → Quiet p others name srcDesc o := by
  intro j hj o ho
  refine ⟨?_, fun hwild o' ho' hkey src hsrc => ?_⟩
  · rw [hkeyCol]
    rintro ⟨honame, hagrees⟩
    cases hodesc : o.srcDesc with
    | none =>
      refine (h.wild j hj o ho hodesc).1 ?_
      rw [honame, hrname]
    | some own =>
      rw [hodesc] at hagrees
      simp only [descAgrees, beq_iff_eq] at hagrees
      have hsame := honly j o ho ⟨name, desc, own, hname, honame, hdesc, hodesc, hagrees ▸ hmap⟩
      omega
  · rw [hfileCol] at hkey
    unfold entrySource at hsrc
    rw [hsrcCol] at hsrc
    exact (h.wild j hj o ho hwild).2 o' ho' (hkey.trans hname.symm) src hsrc

/-- What the join makes of a member row that an entry of the file describes. -/
theorem member?_join {i : MappingInput} (ht : t.Indexed) (hi : JoinsOnFirst t i keyCol)
    {kind : MemberKind} {m : MemberEntry} {before after : List MemberEntry} {idx : Nat}
    {r : MemberRow} (hrow : t.findClass key keyCol = some row)
    (hentries : entriesFor 0 key kind i.file.classes = before ++ m :: after)
    (hr : t.member? row kind idx = some r) (hdescribes : Describes t keyCol m r)
    (honly : ∀ j o, t.member? row kind j = some o → Describes t keyCol m o → j = idx)
    (hfree : Undisturbed t i keyCol row key kind m idx r (before ++ after)) :
    ∃ p t', t.join i = .ok t' ∧
      p.columns = (t.addColumns i.file.namespaces keyCol i.written).2 ∧
      t'.namespaces = (t.addColumns i.file.namespaces keyCol i.written).1.namespaces ∧
      t'.member? row kind idx = some
        (if m.desc.map (Descriptor.rename (List.lookup · (listed t i))) = r.srcDesc
          then nameMember p m r else r) := by
  obtain ⟨p, t', width, hjoin, hproper, hkeyCol, hfileCol, hskip, hsrcCol, hcolumns, hns,
    hmembers⟩ := hi.members ht hrow hfree.oneClass
  refine ⟨p, t', hjoin, hcolumns, hns, ?_⟩
  obtain ⟨name, desc, srcDesc, hname, hrname, hdesc, hrdesc, hmap⟩ := hdescribes
  have hspares := hfree.spares hkeyCol hfileCol hsrcCol
  have hquiet := hfree.quiet hkeyCol hfileCol hsrcCol hname hrname hdesc hmap honly
  cases hms : membersIn t.classes row kind with
  | none =>
    rw [member?_eq, hms] at hr
    cases hr
  | some ms =>
    simp only [member?_eq, hms, Option.bind_some] at hr hquiet
    rw [member?_eq, hmembers, hms, hentries, Option.map_some, Option.bind_some, hrdesc, hdesc,
      Option.map_some]
    simp only [Option.some.injEq]
    exact joinList_described hproper (hkeyCol ▸ hi.notSource) hskip hr (hkeyCol ▸ hrname) hrdesc
      (hfileCol ▸ hname) hdesc hspares hquiet

/-- A file that is joined on its first namespace gives the one member row that an entry
describes all of its names just when the descriptor of the entry, translated by the
classes that the file lists, is the one of the row, or when the row has the names already. -/
theorem a_described_member_gets_its_names_just_when_its_descriptor_is_translated
    {i : MappingInput} (ht : t.Built) (hi : JoinsOnFirst t i keyCol) {kind : MemberKind}
    {m : MemberEntry} {before after : List MemberEntry} {idx : Nat} {r : MemberRow}
    (hrow : t.findClass key keyCol = some row)
    (hentries : entriesFor 0 key kind i.file.classes = before ++ m :: after)
    (hr : t.member? row kind idx = some r) (hdescribes : Describes t keyCol m r)
    (honly : ∀ j o, t.member? row kind j = some o → Describes t keyCol m o → j = idx)
    (hfree : Undisturbed t i keyCol row key kind m idx r (before ++ after)) :
    ∃ t' r', t.join i = .ok t' ∧ t'.member? row kind idx = some r' ∧
      (Carries t' i m r' ↔
        m.desc.map (Descriptor.rename (List.lookup · (listed t i))) = r.srcDesc ∨
          Carries t' i m r) := by
  obtain ⟨p, t', hjoin, hcolumns, hns, hmember⟩ :=
    member?_join ht.indexed hi hrow hentries hr hdescribes honly hfree
  refine ⟨t', _, hjoin, hmember, ?_⟩
  split
  · rename_i htranslated
    refine ⟨fun _ => Or.inl htranslated, fun _ => ?_⟩
    intro j hj ns col name hnsj hne hcol hzero hname
    unfold namespaceId? at hcol
    rw [hns] at hcol
    obtain ⟨hmem, hunique⟩ := hi.columns hj hnsj hne hcol hzero
    rw [← hcolumns] at hmem hunique
    exact name_nameMember hmem hunique hname r
  · rename_i hother
    exact ⟨Or.inr, fun h => h.resolve_left hother⟩

/-- A method of class `a` that takes a `b`, with names in a second namespace. -/
def worldFile : MappingFile :=
  ⟨["official", "intermediary"],
    [⟨[some "a", some "class_1"], [], [⟨[some "c", some "method_1"], some "(Lb;)V"⟩]⟩,
      ⟨[some "b", some "class_2"], [], []⟩]⟩

def worldInput : MappingInput :=
  { MappingInput.plain "world" worldFile with keyNs := "official", written := [0, 1] }

/-- The row of the method. -/
def tickRow : MemberRow := ⟨[some "c", some "method_1"], some "(Lb;)V"⟩

def worldTree : MappingTree :=
  ⟨["official", "intermediary"],
    [⟨[some "a", some "class_1"], [], [tickRow]⟩, ⟨[some "b", some "class_2"], [], []⟩],
    [[("b", 1), ("a", 0)], [("class_2", 1), ("class_1", 0)]]⟩

theorem built_worldTree : worldTree.Built := .join .empty (i := worldInput) rfl

/-- The method in the second namespace, with a name in a third one. -/
def tickEntry : MemberEntry := ⟨[some "method_1", some "tick"], some "(Lclass_2;)V"⟩

/-- A file that is joined on the second namespace and lists the class of the method and
some others. -/
def tickInput (others : List ClassEntry) : MappingInput :=
  { MappingInput.plain "names"
      ⟨["intermediary", "named"], ⟨[some "class_1", some "World"], [], [tickEntry]⟩ :: others⟩ with
    keyNs := "intermediary", written := [0, 1] }

theorem joinsOnFirst_tickInput (others : List ClassEntry) :
    JoinsOnFirst worldTree (tickInput others) 1 :=
  ⟨rfl, by simp [tickInput, MappingInput.plain], rfl, by decide, rfl, rfl⟩

theorem describes_tickEntry : Describes worldTree 1 tickEntry tickRow :=
  ⟨"method_1", "(Lclass_2;)V", "(Lb;)V", by decide, by decide, by decide, by decide, by decide⟩

theorem only_tickRow (j : Nat) (o : MemberRow) (h : worldTree.member? 0 .method j = some o) :
    j = 0 := by
  cases j with
  | zero => rfl
  | succ j =>
    rw [show worldTree.member? 0 .method (j + 1) = none from rfl] at h
    cases h

/-- A file that lists the class in the descriptor too. -/
theorem tick_gets_its_name_with_its_parameter_class :
    ∃ t' r', worldTree.join (tickInput [⟨[some "class_2"], [], []⟩]) = .ok t' ∧
      t'.member? 0 .method 0 = some r' ∧
      Carries t' (tickInput [⟨[some "class_2"], [], []⟩]) tickEntry r' := by
  have hfree : Undisturbed worldTree (tickInput [⟨[some "class_2"], [], []⟩]) 1 0 "class_1" .method
      tickEntry 0 tickRow ([] ++ []) := by
    refine ⟨fun e _ other src _ hsrc _ => ?_, nofun, nofun⟩
    rw [show sourceName worldTree (tickInput [⟨[some "class_2"], [], []⟩]) e.names = none from rfl]
      at hsrc
    cases hsrc
  have hentries : entriesFor 0 "class_1" .method
      (tickInput [⟨[some "class_2"], [], []⟩]).file.classes = [] ++ tickEntry :: [] := by decide
  have hrow : worldTree.member? 0 .method 0 = some tickRow := by decide
  obtain ⟨t', r', hjoin, hmember, hcarries⟩ :=
    a_described_member_gets_its_names_just_when_its_descriptor_is_translated built_worldTree
      (joinsOnFirst_tickInput _) (by decide) hentries hrow describes_tickEntry
      (fun j o h _ => only_tickRow j o h) hfree
  exact ⟨t', r', hjoin, hmember, hcarries.mpr (Or.inl (by decide))⟩

/-- A file that does not list the class in a descriptor loses the names of the member. -/
theorem a_described_member_can_lose_its_names :
    ¬ ∀ (t t' : MappingTree) (i : MappingInput) (keyCol row : Nat) (key : String)
      (kind : MemberKind) (m : MemberEntry) (idx : Nat) (r : MemberRow),
      t.Built → JoinsOnFirst t i keyCol → t.findClass key keyCol = some row →
      m ∈ entriesFor 0 key kind i.file.classes → t.member? row kind idx = some r →
      Describes t keyCol m r →
      (∀ j o, t.member? row kind j = some o → Describes t keyCol m o → j = idx) →
      t.join i = .ok t' → ∃ r', t'.member? row kind idx = some r' ∧ Carries t' i m r' := by
  intro hall
  have hjoin : worldTree.join (tickInput []) = .ok ⟨["official", "intermediary", "named"],
      [⟨[some "a", some "class_1", some "World"], [], [tickRow]⟩,
        ⟨[some "b", some "class_2"], [], []⟩],
      [[("b", 1), ("a", 0)], [("class_2", 1), ("class_1", 0)], [("World", 0)]]⟩ := rfl
  obtain ⟨r', hmember, hcarries⟩ := hall worldTree _ (tickInput []) 1 0 "class_1" .method tickEntry
    0 tickRow built_worldTree (joinsOnFirst_tickInput []) (by decide) (by decide) (by decide)
    describes_tickEntry (fun j o h _ => only_tickRow j o h) hjoin
  have hsame : r' = tickRow := (Option.some.inj hmember).symm
  have hname := hcarries 1 (by decide) "named" 2 "tick" (by decide) (by decide) (by decide)
    (by decide) (by decide)
  rw [hsame] at hname
  exact absurd hname (by decide)

end MappingTree

end JarDerivation
