-- How a join finds the row of a class. A row that answers to a name in the key column
-- keeps it while the classes of the file are joined, if no other entry has the source
-- name of the row; and then the entries with that name are the ones joined to the row.
import JarDerivation.Proofs.Mapping.MemberJoin

namespace JarDerivation

namespace MappingTree

/-! ## A settled row -/

/-- A class row answers to its name in the key column, and its source name and members
are those of `base`. -/
structure Settled (base : MappingTree) (keyCol row : Nat) (key : String) (t : MappingTree) :
    Prop where
  indexed : t.Indexed
  namespaces : t.namespaces = base.namespaces
  named : t.className row keyCol = some key
  finds : t.findClass key keyCol = some row
  source : t.className row 0 = base.className row 0
  members : ∀ kind, membersIn t.classes row kind = membersIn base.classes row kind

variable {p : JoinPlan} {base t t' : MappingTree} {keyCol row : Nat} {key : String}

theorem Settled.row_lt (h : Settled base keyCol row key t) : row < t.classes.length :=
  lt_of_className h.named

/-- A row stays settled while it keeps its names and no other row takes its name. -/
theorem Settled.congr (h : Settled base keyCol row key t) (hindexed : t'.Indexed)
    (hns : t'.namespaces = t.namespaces)
    (hnames : ∀ j, t'.className j keyCol = t.className j keyCol ∨
      j ≠ row ∧ t'.className j keyCol ≠ some key)
    (hsrc : t'.className row 0 = t.className row 0)
    (hmembers : ∀ kind, membersIn t'.classes row kind = membersIn t.classes row kind) :
    Settled base keyCol row key t' := by
  have hkey : t'.className row keyCol = some key := by
    rcases hnames row with hsame | ⟨hne, _⟩
    · rw [hsame, h.named]
    · exact absurd rfl hne
  have hfinds := h.finds
  rw [h.indexed] at hfinds
  refine ⟨hindexed, hns.trans h.namespaces, hkey, ?_, hsrc.trans h.source, fun kind =>
    (hmembers kind).trans (h.members kind)⟩
  rw [hindexed]
  refine firstHolder_eq_some.mpr ⟨hkey, fun j hj => ?_⟩
  rcases hnames j with hsame | ⟨_, hother⟩
  · rw [← className_eq_nameIn, hsame]
    exact (firstHolder_eq_some.mp hfinds).2 j hj
  · exact hother

theorem Settled.nameClass (h : Settled base p.keyCol row key t) (hp : Proper p) (j : Nat)
    (e : ClassEntry) : Settled base p.keyCol row key (t.nameClass p j e) := by
  refine nameClass_induction h ?_
  intro s _ col name hmem hs
  obtain ⟨hkeyCol, hzero⟩ := hp _ col hmem
  have hcells := nameIn_renameClass s j col (some name) p.allowDuplicates
  obtain ⟨hns, _, hmembers⟩ := frame_renameClass s j col (some name) p.allowDuplicates
  refine hs.congr (indexed_renameClass hs.indexed _ _ _ _) hns (fun k => Or.inl ?_) ?_
    (hmembers row)
  · rw [className_eq_nameIn, hcells, if_neg fun hk => hkeyCol hk.2.2.symm]
    rfl
  · rw [className_eq_nameIn, hcells, if_neg fun hk => hzero hk.2.2.symm]
    rfl

/-- A class entry that is placed by its source name is placed on another row. -/
theorem Settled.addClass (h : Settled base keyCol row key t) (hcol : keyCol ≠ 0) (src : String)
    (hother : base.className row 0 ≠ some src) :
    Settled base keyCol row key (t.addClass src).2 ∧ (t.addClass src).1 ≠ row := by
  rcases addClass_cases t src with ⟨found, hfound, heq⟩ | ⟨hnone, _⟩
  · rw [heq]
    refine ⟨h, ?_⟩
    rintro rfl
    rw [h.indexed] at hfound
    rw [← h.source] at hother
    exact hother (firstHolder_eq_some.mp hfound).1
  · obtain ⟨hrow, hns, _, hnames, hmembers⟩ := addClass_new hnone
    have hlt := h.row_lt
    refine ⟨h.congr (indexed_addClass h.indexed src) hns (fun j => Or.inl ?_) ?_ fun kind => ?_,
      by omega⟩
    · rw [className_eq_nameIn, hnames, if_neg fun hj => hcol hj.2]
      rfl
    · rw [className_eq_nameIn, hnames, if_neg fun hj => by omega]
      rfl
    · rw [hmembers, if_neg (by omega)]

/-- Only entries with the name of a settled row are joined to it, if no other entry has
its source name. -/
theorem Settled.placeClass (h : Settled base p.keyCol row key t) (hcol : p.keyCol ≠ 0)
    {e : ClassEntry} {j : Nat} (hown : ∀ other src, e.names.at? p.keyFileCol = some other →
      p.srcFileCol.bind e.names.at? = some src → base.className row 0 = some src → other = key)
    (hplace : t.placeClass p e = some (j, t')) :
    Settled base p.keyCol row key t' ∧ (j = row ↔ e.names.at? p.keyFileCol = some key) := by
  obtain ⟨other, hother, ⟨hfound, ht⟩ | ⟨_, _, hzero, _⟩ | ⟨hnone, _, _, src, hsrc, hj, ht⟩⟩ :=
    placeClass_cases hplace
  · subst ht
    refine ⟨h, ?_⟩
    rw [hother, Option.some.injEq]
    constructor
    · rintro rfl
      rw [h.indexed] at hfound
      exact Option.some.inj ((firstHolder_eq_some.mp hfound).1.symm.trans h.named)
    · rintro rfl
      exact Option.some.inj (hfound.symm.trans h.finds)
  · exact absurd hzero hcol
  · have hne : other ≠ key := by
      rintro rfl
      rw [h.finds] at hnone
      cases hnone
    obtain ⟨hadded, hrow⟩ :=
      h.addClass hcol src fun hsame => hne (hown other src hother hsrc hsame)
    have hcells := nameIn_renameClass (t.addClass src).2 j p.keyCol (some other) false
    obtain ⟨hns, _, hmembers⟩ := frame_renameClass (t.addClass src).2 j p.keyCol (some other) false
    rw [← hj] at hrow
    subst ht
    refine ⟨hadded.congr (indexed_renameClass hadded.indexed _ _ _ _) hns (fun k => ?_) ?_
      (hmembers row), ?_⟩
    · rw [className_eq_nameIn, hcells]
      split
      · rename_i hk
        exact Or.inr ⟨hk.2.1 ▸ hrow, by simpa using hne⟩
      · exact Or.inl rfl
    · rw [className_eq_nameIn, hcells, if_neg fun hk => hcol hk.2.2.symm]
      rfl
    · rw [hother, Option.some.injEq]
      exact ⟨fun hsame => absurd hsame hrow, fun hsame => absurd hsame hne⟩

theorem Settled.joinClass (h : Settled base p.keyCol row key t) (hp : Proper p) (hcol : p.keyCol ≠ 0)
    (hskip : p.skipCols = []) {e : ClassEntry}
    (hown : ∀ other src, e.names.at? p.keyFileCol = some other →
      p.srcFileCol.bind e.names.at? = some src → base.className row 0 = some src → other = key) :
    Settled base p.keyCol row key (t.joinClass p e).2 ∧
      ((t.joinClass p e).1 = some row ↔ e.names.at? p.keyFileCol = some key) := by
  unfold MappingTree.joinClass
  cases hplace : t.placeClass p e with
  | none =>
    refine ⟨h, nofun, fun hkey => ?_⟩
    unfold MappingTree.placeClass at hplace
    rw [hkey] at hplace
    simp [h.finds] at hplace
  | some found =>
    obtain ⟨j, s⟩ := found
    obtain ⟨hs, hj⟩ := h.placeClass hcol hown hplace
    simp only [hskip, List.any_nil, Bool.false_eq_true, if_false, Option.some.injEq]
    exact ⟨hs.nameClass hp j e, hj⟩

/-- The class entries that a file has for a name in a column, and their members. -/
def entriesFor (keyFileCol : Nat) (key : String) (kind : MemberKind) (es : List ClassEntry) :
    List MemberEntry :=
  es.flatMap fun e => if e.names.at? keyFileCol = some key then e.members kind else []

/-- After all classes the row is still settled, and it belongs to the entries with its name. -/
theorem settled_joinClasses (hp : Proper p) (hcol : p.keyCol ≠ 0) (hskip : p.skipCols = [])
    (es : List ClassEntry)
    (hown : ∀ e ∈ es, ∀ other src, e.names.at? p.keyFileCol = some other →
      p.srcFileCol.bind e.names.at? = some src → base.className row 0 = some src → other = key)
    (s : ClassJoin) (h : Settled base p.keyCol row key s.tree) :
    Settled base p.keyCol row key (es.foldl (joinNextClass p) s).tree ∧
      ∃ rows, (es.foldl (joinNextClass p) s).rows = s.rows ++ rows ∧
        ∀ kind, entriesOf (es.zip rows) row kind = entriesFor p.keyFileCol key kind es := by
  induction es generalizing s with
  | nil => exact ⟨h, [], by simp, fun _ => rfl⟩
  | cons e rest ih =>
    obtain ⟨hnext, hrow⟩ := h.joinClass hp hcol hskip (hown e List.mem_cons_self)
    obtain ⟨hrest, rows, hrows, hentries⟩ := ih (fun e he => hown e (List.mem_cons_of_mem _ he))
      (joinNextClass p s e) hnext
    refine ⟨hrest, (s.tree.joinClass p e).1 :: rows, ?_, fun kind => ?_⟩
    · rw [List.foldl_cons, hrows]
      simp [joinNextClass]
    · unfold entriesOf entriesFor at hentries ⊢
      rw [List.zip_cons_cons, List.flatMap_cons, List.flatMap_cons, hentries]
      simp only [hrow]

end MappingTree

end JarDerivation
