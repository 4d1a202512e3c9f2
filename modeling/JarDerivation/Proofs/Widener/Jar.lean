-- What widening makes of a jar. The stage looks at the names of the entries and decodes only
-- those that the widener names. If each class is at the entry of its name, no other class would
-- change, so the output is what one gets by decoding every class there is.
import JarDerivation.Patcher.Widen
import JarDerivation.Proofs.Jar.Editing
import JarDerivation.Proofs.Merge.Jar
import JarDerivation.Proofs.Stage.Protocol
import JarDerivation.Proofs.Widener.AnyOrder

namespace JarDerivation

/-! ## Classes at their entries -/

/-- If the entry is named after a class and there is a class in it, it is that one. -/
def Entry.InPlace (codec : Codec) (e : Entry) : Prop :=
  ∀ name ∈ ClassNode.nameOfEntry? e.name, ∀ c ∈ (codec.decode e.bytes).toOption, c.name = name

instance (codec : Codec) (e : Entry) : Decidable (e.InPlace codec) :=
  inferInstanceAs (Decidable (∀ name ∈ _, ∀ c ∈ _, _))

theorem Entry.InPlace.name_eq {codec : Codec} {e : Entry} {name : String} {c : ClassNode}
    (h : e.InPlace codec) (hname : ClassNode.nameOfEntry? e.name = some name)
    (hdecode : codec.decode e.bytes = .ok c) : c.name = name :=
  h name hname c (by rw [hdecode]; rfl)

/-! ## Widening an entry -/

namespace Widener

variable {w : Widener} {codec : Codec}

/-- The new bytes of an entry if every class is decoded: a class that widening changes is
written anew, and all else is kept. -/
def widenedBytes (w : Widener) (codec : Codec) (e : Entry) : Except String Bytes :=
  match ClassNode.nameOfEntry? e.name, codec.decode e.bytes with
  | some _, .ok c => if w.changes c then codec.encode (w.widen c) else .ok e.bytes
  | _, _ => .ok e.bytes

/-- The set of the classes that the stage looks at has just those that some entry is applied to:
an entry for a member is found under the owner, like one for the class itself. -/
theorem mem_targets {name : String} : name ∈ w.targets ↔ w.entriesFor name ≠ [] := by
  unfold targets entriesFor
  rw [Text.mem_ascending, List.mem_map, Ne, List.filter_eq_nil_iff]
  simp

/-- A class that is not in that set does not change. -/
theorem not_changes_of_notMem {c : ClassNode} (h : c.name ∉ w.targets) : w.changes c = false := by
  rw [mem_targets, not_not] at h
  rw [changes_eq_false_iff]
  unfold widen
  rw [h]
  rfl

/-- The look at the name alone does not miss a class that would change. -/
theorem widenedBytes_of_skipped {e : Entry} {name : String} (hplace : e.InPlace codec)
    (hname : ClassNode.nameOfEntry? e.name = some name) (hskipped : name ∉ w.targets) :
    w.widenedBytes codec e = .ok e.bytes := by
  unfold widenedBytes
  rw [hname]
  cases hdecode : codec.decode e.bytes with
  | error reason => rfl
  | ok c =>
    have hsame : w.changes c = false := by
      apply not_changes_of_notMem
      rw [hplace.name_eq hname hdecode]
      exact hskipped
    simp only [hsame, Bool.false_eq_true, if_false]

theorem widenedBytes_of_decoded {e : Entry} {name : String} {c : ClassNode}
    (hname : ClassNode.nameOfEntry? e.name = some name) (hdecode : codec.decode e.bytes = .ok c) :
    w.widenedBytes codec e = if w.changes c then codec.encode (w.widen c) else .ok e.bytes := by
  unfold widenedBytes
  rw [hname, hdecode]

/-- Widening an entry that holds the class of its name gives its new bytes, if it succeeds. -/
theorem outcome_widenEntry {e : Entry} {r : Option Bytes} (hplace : e.InPlace codec)
    (h : (w.widenEntry codec e.name e.bytes).outcome = .ok r) :
    ∃ bytes, w.widenedBytes codec e = .ok bytes ∧ r = some bytes := by
  unfold widenEntry at h
  cases hname : ClassNode.nameOfEntry? e.name with
  | none =>
    rw [hname] at h
    cases h
    refine ⟨e.bytes, ?_, rfl⟩
    unfold widenedBytes
    rw [hname]
  | some name =>
    rw [hname] at h
    dsimp only at h
    split at h
    next =>
      rw [Traced.outcome_bind] at h
      obtain ⟨c, hc, h⟩ := ok_of_bind h
      rw [widenedBytes_of_decoded hname (Codec.decode_of_decodeEntry hc)]
      split at h
      next hchanges =>
        rw [Traced.outcome_bind] at h
        obtain ⟨bytes, hbytes, h⟩ := ok_of_bind h
        cases h
        rw [if_pos hchanges]
        exact ⟨bytes, Codec.encode_of_encodeClass hbytes, rfl⟩
      next hsame =>
        cases h
        rw [if_neg hsame]
        exact ⟨e.bytes, rfl, rfl⟩
    next hskipped =>
      cases h
      have hskipped : name ∉ w.targets := fun hmem => hskipped (List.contains_iff_mem.mpr hmem)
      exact ⟨e.bytes, widenedBytes_of_skipped hplace hname hskipped, rfl⟩

end Widener

/-! ## The stage -/

namespace Widener

theorem ends_read {path : String} {w : Widener} {s s' : Workspace}
    (h : Work.Ends (Widener.read path) s w s') : s.files.widener? path = some w ∧ s' = s := by
  obtain ⟨f, _, hf, hnext⟩ := Work.ends_of_bind h
  obtain ⟨rfl, rfl⟩ := Work.ends_files hf
  obtain ⟨text, _, htext, hparse⟩ := Work.ends_of_bind hnext
  obtain ⟨hread, rfl⟩ := Work.ends_ofExcept htext
  obtain ⟨hof, rfl⟩ := Work.ends_ofExcept hparse
  unfold Files.widener?
  rw [hread]
  exact ⟨congrArg Except.toOption hof, rfl⟩

/-- Looking at the names of the entries first misses no class. A widening that ends, and that did
not find its output there, has read a widener in the namespace of the artifact and has written a
jar. If each class that it found was at the entry of its name, the jar has the files that were
there in their order: a class that decodes and that widening changes is written anew, and every
other entry is kept as it was. -/
theorem looking_at_names_first_misses_no_class {ctx : StageContext} {path : String}
    {input a : Artifact} {s s' : Workspace} (hfresh : ¬ ctx.Trusts s a.path)
    (hrun : Work.Ends (widenArtifact ctx path input) s a s') :
    ∃ w j out, s.files.widener? path = some w ∧ w.namespaceName = input.namespaceOf.name ∧
      a = input.derive w.tag ∧
      ((FileWork.ensureAround a.path).exec s.files).2.openJar input.path = .ok j ∧
      (∀ there, s.files.openJar input.path = .ok there → there = j) ∧
      s'.files.openJar a.path = .ok out ∧
      ((∀ e ∈ j.files, e.InPlace ctx.codec) →
        j.files.map (Jar.edited (w.widenedBytes ctx.codec)) = out.entries.map .ok) := by
  obtain ⟨w, _, hread, hnext⟩ := Work.ends_of_bind hrun
  obtain ⟨hw, rfl⟩ := ends_read hread
  by_cases hnamespace : w.namespaceName = input.namespaceOf.name
  · rw [if_neg (not_not.mpr hnamespace)] at hnext
    obtain ⟨rfl, v, hfiles, hbuild⟩ := StageContext.ends_produce hfresh hnext
    unfold Work.rewriteJar at hbuild
    obtain ⟨j, _, hopen, hwrite⟩ := Work.ends_of_bind hbuild
    obtain ⟨hjar, rfl⟩ := Work.ends_openJar hopen
    obtain ⟨out, hout, hfound⟩ := Work.ends_writeJar hwrite
    rw [hfiles] at hfound
    dsimp only at hjar
    refine ⟨w, j, out, hw, hnamespace, rfl, hjar, fun there hthere => ?_, hfound, fun hplace => ?_⟩
    · rw [FileWork.openJar_ensureAround hthere] at hjar
      exact Except.ok.inj hjar
    · exact Jar.entries_of_editEntries (fun e he r hr => outcome_widenEntry (hplace e he) hr) hout
  · rw [if_pos hnamespace] at hnext
    cases hnext

/-- A widener for two classes, of which one is open already. -/
def opener : Widener :=
  ⟨2, "official", [⟨.accessible, false, .class "a"⟩, ⟨.accessible, false, .class "b"⟩]⟩

/-- A jar with these classes, a class that is none, a text and a folder. -/
def mixedJar : Jar :=
  Jar.ofEntries [⟨"empty/", []⟩, ⟨"a.class", Utf8.encode "\x7b\"name\":\"a\"\x7d"⟩,
    ⟨"b.class", Utf8.encode "\x7b\"name\":\"b\",\"access\":1\x7d"⟩, ⟨"c.class", [2]⟩,
    ⟨"notes.txt", [1]⟩]

def mixedWorkspace : Workspace :=
  .ofFiles ((Files.empty.putAt (Files.home.push "in.jar") (.file (.jar mixedJar))).putAt
    (Files.home.push "open.accesswidener") (.file (.raw (Utf8.encode opener.toText))))

/-- Only the class that was not open yet is written anew. -/
theorem the_mixed_jar_is_opened :
    let ctx := StageContext.bareContext false
    ∃ a s' out, ¬ ctx.Trusts mixedWorkspace a.path ∧
      Work.Ends (widenArtifact ctx "open.accesswidener" (StageContext.clientAt "in.jar"))
        mixedWorkspace a s' ∧
      s'.files.openJar a.path = .ok out ∧
      out.entries = [
        ⟨"a.class", Utf8.encode ("\x7b\"access\":1,\"name\":\"a\",\"super_name\":null," ++
          "\"interfaces\":[],\"fields\":[],\"methods\":[],\"inner_classes\":[]\x7d")⟩,
        ⟨"b.class", Utf8.encode "\x7b\"name\":\"b\",\"access\":1\x7d"⟩, ⟨"c.class", [2]⟩,
        ⟨"notes.txt", [1]⟩] := by
  intro ctx
  have hends : ((widenArtifact ctx "open.accesswidener" (StageContext.clientAt "in.jar")).exec
      mixedWorkspace).1.toOption.any (fun a => !mixedWorkspace.files.isFile a.path) = true := by
    decide +kernel
  cases hrun : (widenArtifact ctx "open.accesswidener" (StageContext.clientAt "in.jar")).exec
      mixedWorkspace with
  | mk r s' =>
    rw [hrun] at hends
    cases r with
    | error e => cases hends
    | ok a =>
      have hfresh : ¬ ctx.Trusts mixedWorkspace a.path := by
        rintro ⟨hfile, _⟩
        simp [Except.toOption, hfile] at hends
      obtain ⟨w, j, out, hw, _, _, _, hthere, hout, hentries⟩ :=
        looking_at_names_first_misses_no_class hfresh hrun
      have hopener : mixedWorkspace.files.widener? "open.accesswidener" = some opener := by
        decide +kernel
      have hopen : mixedWorkspace.files.openJar "in.jar" = .ok mixedJar := by
        decide +kernel
      obtain rfl := Option.some.inj (hopener.symm.trans hw)
      obtain rfl := hthere mixedJar hopen
      have hedited := hentries (by decide +kernel)
      refine ⟨a, s', out, hfresh, hrun, hout, eq_of_map_ok (hedited.symm.trans ?_)⟩
      decide +kernel

end Widener

end JarDerivation
