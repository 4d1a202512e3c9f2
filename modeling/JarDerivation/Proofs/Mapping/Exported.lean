-- A tree that is exported is read back. The index is not in the file: it is built anew,
-- and gives the same answers as the one that was kept up to date name by name.
import JarDerivation.Mapping.TreeJson
import JarDerivation.Mapping.View
import JarDerivation.Proofs.Files.Walk
import JarDerivation.Proofs.Json.Records
import JarDerivation.Proofs.Mapping.OwnColumns

namespace JarDerivation

/-! ## The document -/

namespace Names

theorem written_toJson (names : Names) : names.toJson.Written :=
  Json.written_list (Json.written_optional .text) names

theorem ofJson?_toJson (names : Names) : ofJson? names.toJson = some names :=
  Json.list?_list (Json.optional?_optional Json.text?_text Json.text_ne_null) names

end Names

namespace MemberRow

theorem written_toJson (m : MemberRow) : m.toJson.Written := by
  refine Json.written_record ?_
  simp only [List.forall_mem_cons, List.not_mem_nil, false_imp_iff, implies_true, and_true]
  exact ⟨m.names.written_toJson, Json.written_optional .text _⟩

theorem ofJson?_toJson (m : MemberRow) : ofJson? m.toJson = some m := by
  have hnames := m.names.ofJson?_toJson
  have hdesc := Json.optional?_optional Json.text?_text Json.text_ne_null m.srcDesc
  unfold ofJson? toJson
  rw [Json.fields?_record (by simp)]
  simp [List.lookup_cons, Json.withDefault, Json.required, hnames, hdesc]

end MemberRow

namespace ClassRow

theorem written_toJson (c : ClassRow) : c.toJson.Written := by
  refine Json.written_record ?_
  simp only [List.forall_mem_cons, List.not_mem_nil, false_imp_iff, implies_true, and_true]
  exact ⟨c.names.written_toJson, Json.written_list MemberRow.written_toJson _,
    Json.written_list MemberRow.written_toJson _⟩

theorem ofJson?_toJson (c : ClassRow) : ofJson? c.toJson = some c := by
  have hnames := c.names.ofJson?_toJson
  have hfields := Json.list?_list MemberRow.ofJson?_toJson c.fields
  have hmethods := Json.list?_list MemberRow.ofJson?_toJson c.methods
  unfold ofJson? toJson
  rw [Json.fields?_record (by simp)]
  simp [List.lookup_cons, Json.required, hnames, hfields, hmethods]

end ClassRow

namespace MappingTree

theorem written_toJson (t : MappingTree) : t.toJson.Written := by
  refine Json.written_record ?_
  simp only [List.forall_mem_cons, List.not_mem_nil, false_imp_iff, implies_true, and_true]
  exact ⟨Json.written_list .text _, Json.written_list ClassRow.written_toJson _⟩

theorem ofJson?_toJson (t : MappingTree) : ofJson? t.toJson = some ⟨t.namespaces, t.classes, []⟩ := by
  have hnamespaces := Json.list?_list Json.text?_text t.namespaces
  have hclasses := Json.list?_list ClassRow.ofJson?_toJson t.classes
  unfold ofJson? toJson
  rw [Json.fields?_record (by simp)]
  simp [List.lookup_cons, Json.required, hnamespaces, hclasses]

/-- All of a tree is in its document, but for the index. -/
theorem imported_exported (t : MappingTree) : imported t.exported = .ok t.rebuildIndex := by
  unfold imported exported
  rw [Json.ofBytes?_toPrettyBytes t.written_toJson, Option.bind_some, ofJson?_toJson]
  rfl

end MappingTree

/-! ## The file -/

/-- A file that was written took the place of its path. -/
theorem FileWork.placed_of_write {f f' : Files} {path : String} {c : Content}
    (h : (change (·.write path c)).exec f = (.ok (), f')) :
    ∃ place, f.target path = .ok place ∧ f' = f.putAt place (.file c) := by
  cases htarget : f.target path with
  | error fault =>
    rw [exec_change_error (by rw [Files.write, htarget]; rfl)] at h
    cases h
  | ok place =>
    rw [exec_change_ok (by rw [Files.write, htarget]; rfl)] at h
    cases h
    exact ⟨place, rfl, rfl⟩

namespace MappingTree

variable {t : MappingTree}

/-- An export that succeeds leaves its document at the path. -/
theorem look_exportTo {f f' : Files} {path : String}
    (h : (t.exportTo path).exec f = (.ok (), f')) :
    f'.look path = .ok (.file (.raw t.exported)) := by
  unfold exportTo at h
  rw [FileWork.exec_bind] at h
  cases hensure : (FileWork.ensureAround path).exec f with
  | mk r g =>
    rw [hensure] at h
    cases r with
    | error fault => cases h
    | ok _ =>
      obtain ⟨place, htarget, hput⟩ := FileWork.placed_of_write h
      rw [hput]
      exact Files.look_putAt (Files.places_of_target htarget)

theorem importFrom_exportTo {f f' : Files} {path : String}
    (h : (t.exportTo path).exec f = (.ok (), f')) : importFrom f' path = .ok t.rebuildIndex := by
  unfold importFrom
  rw [look_exportTo h]
  exact imported_exported t

end MappingTree

/-! ## The answers -/

/-- Both views are between the same columns and answer every question alike. -/
structure MappingView.SameAnswers (v w : MappingView) : Prop where
  columns : v.source = w.source ∧ v.fallback = w.fallback ∧ v.target = w.target
  sourceName : v.sourceName = w.sourceName
  targetName : v.targetName = w.targetName
  classes : ∀ name, v.mapClass name = w.mapClass name
  kept : ∀ name, v.mapClassOrKeep name = w.mapClassOrKeep name
  descriptors : ∀ desc, v.mapDescriptor desc = w.mapDescriptor desc
  fields : ∀ owner name desc, v.mapField owner name desc = w.mapField owner name desc
  methods : ∀ owner name desc, v.mapMethod owner name desc = w.mapMethod owner name desc

namespace MappingTree

variable {t : MappingTree}

/-- The index that is built anew gives the first holder of a name, as the old one does. -/
theorem Tidy.findClass_rebuildIndex (h : t.Tidy) :
    t.rebuildIndex.findClass = t.findClass := by
  funext name col
  rw [h.indexed, indexed_rebuildIndex h.narrow]
  rfl

theorem Tidy.mapDescriptor_rebuildIndex (h : t.Tidy) (desc : String) (source target : Nat) :
    t.rebuildIndex.mapDescriptor desc source target = t.mapDescriptor desc source target := by
  unfold mapDescriptor
  rw [h.findClass_rebuildIndex]
  rfl

theorem view_rebuildIndex (t : MappingTree) (source fallback target : String) :
    t.rebuildIndex.view source fallback target =
      (t.view source fallback target).map ({ · with tree := t.rebuildIndex }) := by
  have hrequire : t.rebuildIndex.requireNamespace = t.requireNamespace := rfl
  unfold view
  rw [hrequire]
  cases t.requireNamespace source "remap view source" <;>
    cases t.requireNamespace fallback "remap view fallback" <;>
      cases t.requireNamespace target "remap view target" <;> rfl

theorem tree_of_view {source fallback target : String} {v : MappingView}
    (h : t.view source fallback target = .ok v) : v.tree = t := by
  obtain ⟨_, _, h⟩ := ok_of_bind h
  obtain ⟨_, _, h⟩ := ok_of_bind h
  obtain ⟨_, _, h⟩ := ok_of_bind h
  cases h
  rfl

/-- A view asks its tree for rows by class name, and then for what is in a row. -/
theorem Tidy.sameAnswers_rebuildIndex {v : MappingView} (h : v.tree.Tidy) :
    MappingView.SameAnswers { v with tree := v.tree.rebuildIndex } v := by
  have hrow : ({ v with tree := v.tree.rebuildIndex } : MappingView).classRow = v.classRow := by
    funext name
    unfold MappingView.classRow
    rw [h.findClass_rebuildIndex]
  have hclass : ({ v with tree := v.tree.rebuildIndex } : MappingView).mapClass = v.mapClass := by
    funext name
    unfold MappingView.mapClass
    rw [hrow]
    rfl
  have hcaller : ({ v with tree := v.tree.rebuildIndex } : MappingView).callerDescriptor =
      v.callerDescriptor := by
    funext desc
    unfold MappingView.callerDescriptor
    rw [h.findClass_rebuildIndex]
    rfl
  have hmember : ({ v with tree := v.tree.rebuildIndex } : MappingView).mapMember =
      v.mapMember := by
    funext kind owner name desc
    unfold MappingView.mapMember MappingView.matchesMember
    rw [hrow, hcaller]
    rfl
  refine ⟨⟨rfl, rfl, rfl⟩, rfl, rfl, fun name => by rw [hclass], fun name => ?_, fun desc => ?_,
    fun owner name desc => ?_, fun owner name desc => ?_⟩
  · unfold MappingView.mapClassOrKeep
    rw [hclass]
  · unfold MappingView.mapDescriptor
    rw [hclass]
  · unfold MappingView.mapField
    rw [hmember]
  · unfold MappingView.mapMethod
    rw [hmember]

/-- A tree that was exported to a file is imported from it with the same namespaces and
the same rows, and with the same answers, also where classes share a name. -/
theorem an_exported_tree_is_imported_with_its_answers (h : t.Made) {f f' : Files} {path : String}
    (hexport : (t.exportTo path).exec f = (.ok (), f')) :
    ∃ t', importFrom f' path = .ok t' ∧ t'.namespaces = t.namespaces ∧ t'.classes = t.classes ∧
      (∀ name col, t'.findClass name col = t.findClass name col) ∧
      (∀ row kind name col desc,
        t'.findMember row kind name col desc = t.findMember row kind name col desc) ∧
      (∀ desc source target,
        t'.mapDescriptor desc source target = t.mapDescriptor desc source target) ∧
      ∀ source fallback target,
        (∀ e, t'.view source fallback target = .error e ↔ t.view source fallback target = .error e) ∧
        ∀ v, t.view source fallback target = .ok v →
          ∃ v', t'.view source fallback target = .ok v' ∧ v'.SameAnswers v := by
  have htidy := h.tidy
  refine ⟨t.rebuildIndex, importFrom_exportTo hexport, rfl, rfl, fun name col => ?_,
    fun _ _ _ _ _ => rfl, htidy.mapDescriptor_rebuildIndex, fun source fallback target => ?_⟩
  · rw [htidy.findClass_rebuildIndex]
  · rw [view_rebuildIndex]
    cases hview : t.view source fallback target with
    | error e => exact ⟨fun _ => Iff.rfl, nofun⟩
    | ok v =>
      refine ⟨fun e => ⟨nofun, nofun⟩, ?_⟩
      rintro w hw
      cases hw
      obtain rfl := tree_of_view hview
      exact ⟨_, rfl, htidy.sameAnswers_rebuildIndex⟩

/-- Two classes share the name `World`, and the first of them answers to it. -/
theorem a_shared_name_is_imported_with_its_first_holder :
    ∃ f t, (MappingBuilder.sharedOutputTree.exportTo "out/mappings.json").exec .empty = (.ok (), f) ∧
      importFrom f "out/mappings.json" = .ok t ∧ t.findClass "World" 2 = some 0 ∧
      t.className 1 2 = some "World" := by
  have hbuild : (MappingBuilder.sharedOutput.build .empty none .empty).1 =
      .ok MappingBuilder.sharedOutputTree := by decide
  cases hexport : (MappingBuilder.sharedOutputTree.exportTo "out/mappings.json").exec .empty with
  | mk outcome f =>
    have hdone : ((MappingBuilder.sharedOutputTree.exportTo "out/mappings.json").exec .empty).1 =
        .ok () := by decide +kernel
    rw [hexport] at hdone
    cases hdone
    obtain ⟨t, himport, _, hclasses, hfind, _⟩ :=
      an_exported_tree_is_imported_with_its_answers (.built hbuild) hexport
    refine ⟨f, t, rfl, himport, (hfind "World" 2).trans (by decide), ?_⟩
    unfold className
    rw [hclasses]
    rfl

end MappingTree

end JarDerivation
