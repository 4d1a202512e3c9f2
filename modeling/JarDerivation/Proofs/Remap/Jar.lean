-- What a remapped jar holds. The new names of the classes come from the view, so
-- two classes may end under one name, and then the jar has the first of them only.
import JarDerivation.Proofs.Jar.Entries
import JarDerivation.Proofs.Text.Ending
import JarDerivation.Proofs.Work
import JarDerivation.Remap.Jar

namespace JarDerivation

/-- The jar entry of a class, if it can be encoded. -/
def ClassNode.toEntry (codec : Codec) (c : ClassNode) : Except String Entry :=
  (codec.encode c).map fun bytes => ⟨ClassNode.entryName c.name, bytes⟩

/-! ## Entries of classes and other entries -/

theorem ClassNode.nameOfEntry?_entryName (name : String) :
    nameOfEntry? (entryName name) = some name :=
  Text.dropEnding?_eq_some.mpr rfl

theorem ClassNode.entryName_inj {name other : String} :
    entryName name = entryName other ↔ name = other := by
  simp [entryName]

theorem ClassNode.toEntry_eq_ok {codec : Codec} {c : ClassNode} {e : Entry} :
    c.toEntry codec = .ok e ↔ e.name = entryName c.name ∧ codec.encode c = .ok e.bytes := by
  obtain ⟨name, bytes⟩ := e
  unfold toEntry
  cases codec.encode c with
  | error reason => exact ⟨nofun, fun h => nomatch h.2⟩
  | ok made => simp [Except.map, eq_comm]

/-- The bytes of a class, without the text in between. -/
theorem ClassNode.encode_eq (c : ClassNode) :
    c.encode = (Json.compact c.toJson).flatMap String.utf8EncodeChar := by
  simp [ClassNode.encode, Json.toBytes, Utf8.encode]

namespace RemapEngine

/-- The engine decodes every class, and hands them on renamed and encoded. -/
theorem nodes_of_remapClasses {codec : Codec} {v : MappingView} {cs cs' : List ClassFile}
    (h : (remapClasses codec v cs).outcome = .ok (.ok cs')) :
    ∃ nodes : List ClassNode, cs.map (fun c => codec.decode c.bytes) = nodes.map .ok ∧
      nodes.map (fun c => (v.remapNode c).toEntry codec) =
        (cs'.map ClassFile.toEntry).map .ok := by
  induction cs generalizing cs' with
  | nil =>
    cases h
    exact ⟨[], rfl, rfl⟩
  | cons c rest ih =>
    unfold remapClasses at h
    rw [Traced.outcome_bind] at h
    obtain ⟨_, _, h⟩ := ok_of_bind h
    unfold ClassFile.remap at h
    cases hdecode : codec.decode c.bytes with
    | error reason =>
      rw [hdecode] at h
      cases h
    | ok node =>
      rw [hdecode] at h
      dsimp only at h
      cases hencode : codec.encode (v.remapNode node) with
      | error reason =>
        rw [hencode] at h
        cases h
      | ok bytes =>
        rw [hencode, Traced.outcome_bind] at h
        obtain ⟨others, hothers, h⟩ := ok_of_bind h
        cases others with
        | error reason => cases h
        | ok others =>
          cases h
          obtain ⟨nodes, hnodes, hentries⟩ := ih hothers
          refine ⟨node :: nodes, ?_, ?_⟩
          · rw [List.map_cons, List.map_cons, hdecode, hnodes]
          · rw [List.map_cons, hentries, ClassNode.toEntry, hencode]
            rfl

theorem remapClasses_json {v : MappingView} {cs : List ClassFile} {nodes : List ClassNode}
    (h : cs.map (fun c => Codec.json.decode c.bytes) = nodes.map .ok) :
    (remapClasses .json v cs).outcome =
      .ok (.ok (nodes.map fun c => ⟨(v.remapNode c).name, (v.remapNode c).encode⟩)) := by
  induction cs generalizing nodes with
  | nil =>
    rw [List.map_eq_nil_iff.mp h.symm]
    rfl
  | cons c rest ih =>
    obtain ⟨node, others, rfl, hnode, hothers⟩ := List.map_eq_cons_iff.mp h.symm
    have hdecode : Codec.json.decode c.bytes = .ok node := hnode.symm
    unfold remapClasses ClassFile.remap
    rw [Traced.outcome_bind, Traced.outcome_note, hdecode]
    show Traced.outcome (remapClasses .json v rest >>= _) = _
    rw [Traced.outcome_bind, ih hothers.symm]
    rfl

end RemapEngine

namespace Remapper

variable {codec : Codec} {resources : List ResourceRemapper} {v : MappingView}

theorem nodes_of_remapClasses {earlier : Nat} {call : EngineCall} {classes : List ClassFile}
    (h : (remapClasses ⟨codec, .structural, resources⟩ earlier call).outcome = .ok classes) :
    ∃ nodes : List ClassNode, call.classes.map (fun c => codec.decode c.bytes) = nodes.map .ok ∧
      nodes.map (fun c => (call.view.remapNode c).toEntry codec) =
        (classes.map ClassFile.toEntry).map .ok := by
  unfold remapClasses at h
  rw [Traced.outcome_bind] at h
  obtain ⟨result, hresult, hchecked⟩ := ok_of_bind h
  cases result with
  | error reason => cases hchecked
  | ok made =>
    dsimp only at hchecked
    split at hchecked
    · cases hchecked
      exact RemapEngine.nodes_of_remapClasses hresult
    · cases hchecked

/-- What the remappers for other entries make of these. -/
def remapResources (m : Remapper) (v : MappingView) (es : List Entry) : Except Error (List Entry) :=
  es.mapM fun e => do return ⟨e.name, ← ResourceRemapper.applyFirst m.resources v e⟩

theorem storeResources_eq_ok {m : Remapper} {es : List Entry} {start out : Jar} :
    m.storeResources v es start = .ok out ↔
      ∃ others, m.remapResources v es = .ok others ∧ start.storeAll others = .ok out := by
  refine Jar.foldlM_store_eq_ok fun out e => ?_
  cases ResourceRemapper.applyFirst m.resources v e <;> rfl

/-- A remapped jar is made of the renamed classes and then of the other entries. -/
theorem eq_of_assemble {m : Remapper} {j out : Jar} {classes : List ClassFile}
    (h : m.assemble v j classes = .ok out) :
    ∃ others, m.remapResources v (resourcesOf j) = .ok others ∧
      out = Jar.ofEntries (classes.map ClassFile.toEntry ++ others) := by
  obtain ⟨start, hstart, hresources⟩ := ok_of_bind h
  obtain ⟨others, hothers, hout⟩ := storeResources_eq_ok.mp hresources
  refine ⟨others, hothers, ?_⟩
  rw [← Jar.writeAll_of_storeAll hout, ← Jar.writeAll_of_storeAll hstart]
  exact Jar.writeAll_ofEntries _ _

theorem assemble_of_fits {m : Remapper} {j : Jar} {classes : List ClassFile} {others : List Entry}
    (hothers : m.remapResources v (resourcesOf j) = .ok others)
    (hfits : ∀ e ∈ classes.map ClassFile.toEntry ++ others, e.bytes.length ≤ Jar.entryLimit) :
    m.assemble v j classes = .ok (Jar.ofEntries (classes.map ClassFile.toEntry ++ others)) := by
  unfold assemble
  rw [Jar.storeAll_of_fits fun e he => hfits e (List.mem_append_left _ he)]
  refine storeResources_eq_ok.mpr ⟨others, hothers, ?_⟩
  rw [Jar.storeAll_of_fits fun e he => hfits e (List.mem_append_right _ he),
    ← Jar.writeAll_ofEntries]
  rfl

theorem readAll_eq_ok {j : Jar} : readAll j = .ok () ↔ j.Readable := by
  refine forM_eq_ok.trans (forall₂_congr fun e _ => ?_)
  constructor
  · intro h
    obtain ⟨bytes, hread, -⟩ := ok_of_bind h
    exact (Jar.read_eq_ok.mp hread).1
  · intro h
    rw [Jar.read_eq_ok.mpr ⟨h, rfl⟩]
    rfl

/-- What a remap that ends has read and written. -/
theorem openJar_of_ends_remapFile {input output : String} {classpath : List String}
    {w w' : Workspace}
    (h : Work.Ends (remapFile ⟨codec, .structural, resources⟩ v input output classpath) w () w') :
    ∃ (j : Jar) (nodes : List ClassNode) (classes others : List Entry),
      w.files.openJar input = .ok j ∧
      (classesOf j).map (fun c => codec.decode c.bytes) = nodes.map .ok ∧
      nodes.map (fun c => (v.remapNode c).toEntry codec) = classes.map .ok ∧
      remapResources ⟨codec, .structural, resources⟩ v (resourcesOf j) = .ok others ∧
      w'.files.openJar output = .ok (Jar.ofEntries (classes ++ others)) := by
  obtain ⟨j, opened, hopen, hengine⟩ := Work.ends_of_bind h
  obtain ⟨hj, hopened⟩ := Work.ends_openJar hopen
  obtain ⟨_, _, _, hengine⟩ := Work.ends_of_bind hengine
  obtain ⟨state, asked, hasked, hrun⟩ := Work.ends_of_bind hengine
  obtain ⟨classes, remapped, hclasses, hwrite⟩ := Work.ends_of_bind hrun
  obtain ⟨hout, _⟩ := Work.ends_ofTraced hclasses
  obtain ⟨nodes, hnodes, hentries⟩ := nodes_of_remapClasses hout
  obtain ⟨out, hbody, hjar⟩ := Work.ends_writeJar hwrite
  obtain ⟨others, hothers, rfl⟩ := eq_of_assemble hbody
  exact ⟨j, nodes, _, others, hj, hnodes, hentries, hothers, hjar⟩

/-! ## What may be lost -/

/-- The other entries keep their names, and each becomes what the first remapper
that accepts it makes of it. -/
theorem mem_remapResources {m : Remapper} {es others : List Entry}
    (h : m.remapResources v es = .ok others) {o : Entry} :
    o ∈ others ↔
      ∃ e ∈ es, e.name = o.name ∧ ResourceRemapper.applyFirst m.resources v e = .ok o.bytes := by
  have hmap := map_eq_of_mapM h
  have hmem : o ∈ others ↔ Except.ok o ∈ others.map (Except.ok (ε := Error)) := by simp
  rw [hmem, ← hmap, List.mem_map]
  constructor
  · rintro ⟨e, he, hmade⟩
    obtain ⟨bytes, hbytes, hentry⟩ := ok_of_bind hmade
    cases hentry
    exact ⟨e, he, rfl, hbytes⟩
  · rintro ⟨e, he, hname, hbytes⟩
    refine ⟨e, he, ?_⟩
    rw [hbytes, hname]
    rfl

theorem ok_of_remapResources {m : Remapper} {es others : List Entry}
    (h : m.remapResources v es = .ok others) {e : Entry} (he : e ∈ es) :
    ∃ bytes, ResourceRemapper.applyFirst m.resources v e = .ok bytes ∧
      ⟨e.name, bytes⟩ ∈ others := by
  have hmap := map_eq_of_mapM h
  obtain ⟨o, ho, heq⟩ := List.mem_map.mp (hmap ▸ List.mem_map_of_mem he)
  obtain ⟨bytes, hbytes, hentry⟩ := ok_of_bind heq.symm
  cases hentry
  exact ⟨bytes, hbytes, ho⟩

theorem mem_resourcesOf {j : Jar} {e : Entry} (h : e ∈ resourcesOf j) :
    e ∈ j.entries ∧ ClassNode.nameOfEntry? e.name = none := by
  obtain ⟨hfile, hclass⟩ := List.mem_filter.mp h
  exact ⟨(List.mem_filter.mp hfile).1, Option.isNone_iff_eq_none.mp hclass⟩

/-- None of the other entries has the name of a class. -/
theorem name_ne_of_mem_remapResources {m : Remapper} {j : Jar} {others : List Entry}
    (h : m.remapResources v (resourcesOf j) = .ok others) {o : Entry} (ho : o ∈ others)
    (name : String) : ClassNode.entryName name ≠ o.name := by
  intro hname
  obtain ⟨e, he, heo, _⟩ := (mem_remapResources h).mp ho
  have hnone := (mem_resourcesOf he).2
  rw [heo, ← hname, ClassNode.nameOfEntry?_entryName] at hnone
  cases hnone

/-- No two of the other entries share a name, since the jar before had each name once. -/
theorem eq_of_mem_remapResources {m : Remapper} {j : Jar} {others : List Entry}
    (h : m.remapResources v (resourcesOf j) = .ok others) {o o' : Entry} (ho : o ∈ others)
    (ho' : o' ∈ others) (hname : o.name = o'.name) : o = o' := by
  obtain ⟨name, bytes⟩ := o
  obtain ⟨name', bytes'⟩ := o'
  obtain ⟨e, he, heo, hbytes⟩ := (mem_remapResources h).mp ho
  obtain ⟨e', he', heo', hbytes'⟩ := (mem_remapResources h).mp ho'
  cases hname
  have hsame := Jar.eq_of_name_eq (mem_resourcesOf he).1 (mem_resourcesOf he').1
    (heo.trans heo'.symm)
  rw [hsame, hbytes'] at hbytes
  cases hbytes
  rfl

/-- The classes among the entries are those of the nodes. -/
theorem mem_of_toEntry {nodes : List ClassNode} {classes : List Entry}
    (h : nodes.map (fun c => (v.remapNode c).toEntry codec) = classes.map .ok) :
    (∀ c ∈ nodes, ∃ e ∈ classes, (v.remapNode c).toEntry codec = .ok e) ∧
      ∀ e ∈ classes, ∃ c ∈ nodes, (v.remapNode c).toEntry codec = .ok e := by
  constructor
  · intro c hc
    obtain ⟨e, he, heq⟩ := List.mem_map.mp (h ▸ List.mem_map_of_mem hc)
    exact ⟨e, he, heq.symm⟩
  · intro e he
    exact List.mem_map.mp (h ▸ List.mem_map_of_mem he)

/-- The other entries are never lost. A class is lost just when it ends under the name of
one before it and is not the same there. -/
theorem a_jar_is_remapped_without_loss_just_when_no_two_classes_differ_under_one_name
    {input output : String} {classpath : List String} {w w' : Workspace}
    (h : Work.Ends (remapFile ⟨codec, .structural, resources⟩ v input output classpath) w () w') :
    ∃ (j : Jar) (nodes : List ClassNode) (out : Jar),
      w.files.openJar input = .ok j ∧ w'.files.openJar output = .ok out ∧
      (classesOf j).map (fun c => codec.decode c.bytes) = nodes.map .ok ∧
      (∀ e ∈ resourcesOf j, ∃ bytes,
        ResourceRemapper.applyFirst resources v e = .ok bytes ∧ ⟨e.name, bytes⟩ ∈ out.entries) ∧
      ((∀ c ∈ nodes, ∃ e ∈ out.entries, (v.remapNode c).toEntry codec = .ok e) ↔
        ∀ c ∈ nodes, ∀ d ∈ nodes, (v.remapNode c).name = (v.remapNode d).name →
          codec.encode (v.remapNode c) = codec.encode (v.remapNode d)) := by
  obtain ⟨j, nodes, classes, others, hopen, hnodes, hclasses, hothers, hout⟩ :=
    openJar_of_ends_remapFile h
  obtain ⟨hmade, honly⟩ := mem_of_toEntry hclasses
  refine ⟨j, nodes, _, hopen, hout, hnodes, ?_, ?_, ?_⟩
  · intro e he
    obtain ⟨bytes, hbytes, ho⟩ := ok_of_remapResources hothers he
    refine ⟨bytes, hbytes, Jar.mem_ofEntries_of_only (List.mem_append_right _ ho) ?_⟩
    intro f hf hname
    rcases List.mem_append.mp hf with hf | hf
    · obtain ⟨c, _, hc⟩ := honly f hf
      rw [(ClassNode.toEntry_eq_ok.mp hc).1] at hname
      exact absurd hname (name_ne_of_mem_remapResources hothers ho _)
    · exact eq_of_mem_remapResources hothers hf ho hname
  · intro hall c hc d hd hname
    obtain ⟨e, he, hce⟩ := hall c hc
    obtain ⟨f, hf, hdf⟩ := hall d hd
    obtain ⟨hename, hebytes⟩ := ClassNode.toEntry_eq_ok.mp hce
    obtain ⟨hfname, hfbytes⟩ := ClassNode.toEntry_eq_ok.mp hdf
    have hsame := Jar.eq_of_name_eq he hf (by rw [hename, hfname, hname])
    rw [hebytes, hfbytes, hsame]
  · intro hagree c hc
    obtain ⟨e, he, hce⟩ := hmade c hc
    obtain ⟨hename, hebytes⟩ := ClassNode.toEntry_eq_ok.mp hce
    refine ⟨e, Jar.mem_ofEntries_of_only (List.mem_append_left _ he) fun f hf hname => ?_, hce⟩
    rcases List.mem_append.mp hf with hf | hf
    · obtain ⟨d, hd, hdf⟩ := honly f hf
      obtain ⟨hfname, hfbytes⟩ := ClassNode.toEntry_eq_ok.mp hdf
      rw [hfname, hename] at hname
      have hbytes := hagree d hd c hc (ClassNode.entryName_inj.mp hname)
      rw [hebytes, hfbytes] at hbytes
      exact Entry.ext (hfname.trans (hname.trans hename.symm)) (Except.ok.inj hbytes)
    · rw [hename] at hname
      exact absurd hname.symm (name_ne_of_mem_remapResources hothers hf _)

/-- A jar of JSON documents is remapped if all of it can be read, each of its classes is one, each
other entry can be rewritten and nothing gets too large. -/
theorem remapFile_ends {input output : String} {classpath : List String} {w : Workspace} {j : Jar}
    {nodes : List ClassNode} {others : List Entry} (hopen : w.files.openJar input = .ok j)
    (hread : j.Readable)
    (hnodes : (classesOf j).map (fun c => Codec.json.decode c.bytes) = nodes.map .ok)
    (hothers : remapResources ⟨.json, .structural, resources⟩ v (resourcesOf j) = .ok others)
    (hclassesFit : ∀ c ∈ nodes, (v.remapNode c).encode.length ≤ Jar.entryLimit)
    (hothersFit : ∀ e ∈ others, e.bytes.length ≤ Jar.entryLimit)
    (hname : Files.PlainName output) (hhome : w.files.node? Files.home = some .folder)
    (hfree : w.files.node? (Files.home.push output) = none) :
    ∃ w', Work.Ends (remapFile ⟨.json, .structural, resources⟩ v input output classpath)
      w () w' := by
  let classes : List ClassFile :=
    nodes.map fun c => ⟨(v.remapNode c).name, (v.remapNode c).encode⟩
  have hclasses : (remapClasses ⟨.json, .structural, resources⟩ (earlierCalls w.trace)
      ⟨v, classesOf j, classpath⟩).outcome = .ok classes := by
    have hlength : classes.length = (classesOf j).length := by
      simpa [classes] using (congrArg List.length hnodes).symm
    unfold remapClasses RemapEngine.run
    rw [Traced.outcome_bind, RemapEngine.remapClasses_json hnodes]
    show Traced.outcome (if _ then _ else _) = _
    rw [if_pos hlength]
    rfl
  have hbody : (Traced.ofExcept (assemble ⟨.json, .structural, resources⟩ v j classes)).outcome =
      .ok (Jar.ofEntries (classes.map ClassFile.toEntry ++ others)) := by
    refine assemble_of_fits hothers fun e he => ?_
    rcases List.mem_append.mp he with he | he
    · obtain ⟨made, hmade, rfl⟩ := List.mem_map.mp he
      obtain ⟨c, hc, rfl⟩ := List.mem_map.mp hmade
      dsimp only [ClassFile.toEntry]
      exact hclassesFit c hc
    · exact hothersFit e he
  obtain ⟨w', hwrite⟩ := Work.writeJar_ends (w := { w with trace := w.trace ++ _ })
    hname hhome hfree hbody
  have hread : Work.Ends (Work.ofExcept (readAll j)) w () w := by
    rw [readAll_eq_ok.mpr hread]
    rfl
  have hasked : Work.Ends get w w w := rfl
  exact ⟨w', Work.ends_bind (Work.openJar_ends hopen) (Work.ends_bind hread
    (Work.ends_bind hasked (Work.ends_bind (Work.ofTraced_ends hclasses) hwrite)))⟩

/-- A view that knows one class, which it calls `b`. -/
def viewOfOne : MappingView :=
  ⟨.rebuildIndex ⟨["official", "intermediary"], [⟨[some "a", some "b"], [], []⟩], []⟩, 0, 0, 1⟩

/-- A jar with that class, a subclass of it and a text. -/
def jarWith (subclass : String) : Jar :=
  Jar.ofEntries [⟨"a.class", Utf8.encode "\x7b\"name\":\"a\"\x7d"⟩,
    ⟨subclass ++ ".class",
      Utf8.encode ("\x7b\"name\":\"" ++ subclass ++ "\",\"super_name\":\"a\"\x7d")⟩,
    ⟨"notes.txt", [1]⟩]

/-- A class without members. -/
def bareNode (name : String) (superName : Option String) : ClassNode :=
  { access := 0, name, superName, interfaces := [], fields := [], methods := []
    innerClasses := [], outerClass := none, side := none }

/-- A workspace with a jar in it. -/
def workspaceWith (j : Jar) : Workspace :=
  .ofFiles (Files.empty.putAt (Files.home.push "in.jar") (.file (.jar j)))

theorem openJar_workspaceWith (j : Jar) : (workspaceWith j).files.openJar "in.jar" = .ok j := by
  have hname : Files.PlainName "in.jar" :=
    ⟨by simp, by decide, by decide, by decide, by decide, by decide⟩
  exact Files.openJar_of_plain hname rfl rfl

theorem workspaceWith_ends {j : Jar} {nodes : List ClassNode}
    (hnodes : (classesOf j).map (fun c => Codec.json.decode c.bytes) = nodes.map .ok)
    (hresources : resourcesOf j = [⟨"notes.txt", [1]⟩]) (hread : j.Readable)
    (hfit : ∀ c ∈ nodes, (viewOfOne.remapNode c).encode.length ≤ Jar.entryLimit) :
    ∃ w', Work.Ends (remapFile ⟨.json, .structural, []⟩ viewOfOne "in.jar" "out.jar" [])
        (workspaceWith j) () w' ∧
      w'.files.openJar "out.jar" = .ok (Jar.ofEntries
        ((nodes.map fun c => ⟨ClassNode.entryName (viewOfOne.remapNode c).name,
          (viewOfOne.remapNode c).encode⟩) ++ [⟨"notes.txt", [1]⟩])) := by
  have hname : Files.PlainName "out.jar" :=
    ⟨by simp, by decide, by decide, by decide, by decide, by decide⟩
  have hothers : remapResources ⟨.json, .structural, []⟩ viewOfOne (resourcesOf j) =
      .ok [⟨"notes.txt", [1]⟩] := by
    rw [hresources]
    rfl
  obtain ⟨w', hrun⟩ := remapFile_ends (openJar_workspaceWith j) hread hnodes hothers hfit
    (by decide +kernel) hname rfl rfl
  refine ⟨w', hrun, ?_⟩
  obtain ⟨j', nodes', classes, others, hj, hnodes', hclasses, hothers', hout⟩ :=
    openJar_of_ends_remapFile hrun
  rw [openJar_workspaceWith] at hj
  cases hj
  obtain rfl := eq_of_map_ok (hnodes'.symm.trans hnodes)
  have hmade : nodes'.map (fun c => (viewOfOne.remapNode c).toEntry .json) =
      (nodes'.map fun c => (⟨ClassNode.entryName (viewOfOne.remapNode c).name,
        (viewOfOne.remapNode c).encode⟩ : Entry)).map .ok := by
    rw [List.map_map]
    rfl
  rw [hout, eq_of_map_ok (hclasses.symm.trans hmade)]
  rw [hothers] at hothers'
  cases hothers'
  rfl

theorem a_jar_is_remapped_without_loss :
    ∃ w' out, Work.Ends (remapFile ⟨.json, .structural, []⟩ viewOfOne "in.jar" "out.jar" [])
        (workspaceWith (jarWith "c")) () w' ∧
      w'.files.openJar "out.jar" = .ok out ∧ ⟨"notes.txt", [1]⟩ ∈ out.entries ∧
      ∀ c ∈ [bareNode "a" none, bareNode "c" (some "a")], ∃ e ∈ out.entries,
        (viewOfOne.remapNode c).toEntry .json = .ok e := by
  have hclasses : (classesOf (jarWith "c")).map (fun c => Codec.json.decode c.bytes) =
      [bareNode "a" none, bareNode "c" (some "a")].map .ok := by decide +kernel
  have hothers : resourcesOf (jarWith "c") = [⟨"notes.txt", [1]⟩] := by decide +kernel
  have hfit : ∀ c ∈ [bareNode "a" none, bareNode "c" (some "a")],
      (viewOfOne.remapNode c).encode.length ≤ Jar.entryLimit := by
    simp only [ClassNode.encode_eq]
    decide +kernel
  obtain ⟨w', hrun, _⟩ := workspaceWith_ends hclasses hothers (by decide +kernel) hfit
  obtain ⟨j, nodes, out, hj, hout, hnodes, hkept, hall⟩ :=
    a_jar_is_remapped_without_loss_just_when_no_two_classes_differ_under_one_name hrun
  rw [openJar_workspaceWith] at hj
  cases hj
  have hsame : nodes = [bareNode "a" none, bareNode "c" (some "a")] :=
    eq_of_map_ok (hnodes.symm.trans hclasses)
  refine ⟨w', out, hrun, hout, ?_, ?_⟩
  · obtain ⟨bytes, hbytes, hmem⟩ := hkept ⟨"notes.txt", [1]⟩ (by simp [hothers])
    cases hbytes
    exact hmem
  · rw [← hsame]
    apply hall.mpr
    have hapart : (viewOfOne.remapNode (bareNode "a" none)).name ≠
        (viewOfOne.remapNode (bareNode "c" (some "a"))).name := by decide
    rw [hsame]
    intro c hc d hd hname
    simp only [List.mem_cons, List.not_mem_nil, or_false] at hc hd
    rcases hc with rfl | rfl <;> rcases hd with rfl | rfl
    · rfl
    · exact absurd hname hapart
    · exact absurd hname.symm hapart
    · rfl

/-- A class is lost if another class before it ends under its name. -/
theorem remapping_can_lose_a_class :
    ¬ ∀ (codec : Codec) (resources : List ResourceRemapper) (v : MappingView)
        (input output : String) (classpath : List String) (w w' : Workspace),
      Work.Ends (remapFile ⟨codec, .structural, resources⟩ v input output classpath) w () w' →
        ∃ j out : Jar, w.files.openJar input = .ok j ∧ w'.files.openJar output = .ok out ∧
          ∀ c ∈ classesOf j, ∃ node, codec.decode c.bytes = .ok node ∧
            ∃ e ∈ out.entries, codec.encode (v.remapNode node) = .ok e.bytes := by
  intro hall
  have hclasses : (classesOf (jarWith "b")).map (fun c => Codec.json.decode c.bytes) =
      [bareNode "a" none, bareNode "b" (some "a")].map .ok := by decide +kernel
  have hothers : resourcesOf (jarWith "b") = [⟨"notes.txt", [1]⟩] := by decide +kernel
  have hfit : ∀ c ∈ [bareNode "a" none, bareNode "b" (some "a")],
      (viewOfOne.remapNode c).encode.length ≤ Jar.entryLimit := by
    simp only [ClassNode.encode_eq]
    decide +kernel
  obtain ⟨w', hrun, hjar⟩ := workspaceWith_ends hclasses hothers (by decide +kernel) hfit
  obtain ⟨j, out, hj, hout, hkept⟩ := hall _ _ _ _ _ _ _ _ hrun
  rw [openJar_workspaceWith] at hj
  cases hj
  rw [hout] at hjar
  cases hjar
  have hmem : Except.ok (bareNode "b" (some "a")) ∈
      (classesOf (jarWith "b")).map (fun c => Codec.json.decode c.bytes) := by
    rw [hclasses]
    simp
  obtain ⟨c, hc, hdecode⟩ := List.mem_map.mp hmem
  obtain ⟨node, hnode, e, he, hencode⟩ := hkept c hc
  rw [hdecode] at hnode
  cases hnode
  have hbytes : e.bytes = (viewOfOne.remapNode (bareNode "b" (some "a"))).encode :=
    (Except.ok.inj hencode).symm
  have hdiffer : (viewOfOne.remapNode (bareNode "a" none)).encode ≠
      (viewOfOne.remapNode (bareNode "b" (some "a"))).encode := by
    rw [ClassNode.encode_eq, ClassNode.encode_eq]
    decide +kernel
  have hnotes : [1] ≠ (viewOfOne.remapNode (bareNode "b" (some "a"))).encode := by
    rw [ClassNode.encode_eq]
    decide +kernel
  -- neither of the two entries that were written holds the second class
  have hentry := Jar.mem_of_mem_ofEntries he
  simp only [List.map_cons, List.map_nil, List.cons_append, List.nil_append, List.mem_cons,
    List.not_mem_nil, or_false] at hentry
  rcases hentry with rfl | rfl | rfl
  · exact hdiffer hbytes
  · have hfirst := Jar.mem_ofEntries.mp he
    rw [List.map_cons, List.cons_append, List.find?_cons_of_pos (by decide)] at hfirst
    exact hdiffer (congrArg Entry.bytes (Option.some.inj hfirst))
  · exact hnotes hbytes

end Remapper

end JarDerivation
