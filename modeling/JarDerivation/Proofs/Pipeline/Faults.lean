-- What a derivation can fail with, whatever the workspace. A stage reads and writes
-- jars and does not ask for namespaces, so it never fails for one. That is left to the
-- few steps that look a namespace up.
import JarDerivation.Proofs.Jar.Entries
import JarDerivation.Proofs.Pipeline.Keeping

namespace JarDerivation

namespace Error

/-- A namespace is not known, or it is not reached. -/
def OfNamespaces : Error → Prop
  | unknownNamespace .. | noRemapPath .. => True
  | _ => False

/-- Something else than a namespace is wrong. -/
def Unrelated (e : Error) : Prop := ¬ e.OfNamespaces

theorem unrelated_io (fault : IoFault) : (io fault).Unrelated := id

/-- A namespace is wrong only if this is so. -/
def OnlyIf (P : Prop) (e : Error) : Prop := e.OfNamespaces → P

end Error

namespace Work

variable {α β : Type} {kind kind' : Error → Prop} {post : α → Prop} {post' : β → Prop}

/-! ## Work by what it gives and what it fails with -/

/-- In every workspace, what the work gives satisfies `post`, and what it fails with
satisfies `kind`. -/
structure Meets (kind : Error → Prop) (post : α → Prop) (x : Work α) : Prop where
  run : ∀ w, match (x.exec w).1 with
    | .ok a => post a
    | .error e => kind e

theorem meets_pure {a : α} (h : post a) : Meets kind post (pure a) := ⟨fun _ => h⟩

theorem meets_throw {e : Error} (h : kind e) : Meets kind post (throw e) := ⟨fun _ => h⟩

theorem Meets.bind {x : Work α} {k : α → Work β} (hx : Meets kind post x)
    (hk : ∀ a, post a → Meets kind post' (k a)) : Meets kind post' (x >>= k) := by
  refine ⟨fun w => ?_⟩
  have hw := hx.run w
  rw [exec_bind]
  cases hrun : x.exec w with
  | mk r v =>
    rw [hrun] at hw
    cases r with
    | ok a => exact (hk a hw).run v
    | error e => exact hw

theorem Meets.mono {post' : α → Prop} {x : Work α} (h : Meets kind post x)
    (hkind : ∀ e, kind e → kind' e) (hpost : ∀ a, post a → post' a) : Meets kind' post' x := by
  refine ⟨fun w => ?_⟩
  have hw := h.run w
  cases hrun : (x.exec w).1 with
  | ok a =>
    rw [hrun] at hw
    exact hpost a hw
  | error e =>
    rw [hrun] at hw
    exact hkind e hw

/-- A look at the workspace. -/
theorem unaffected_get : Meets Error.Unrelated (fun _ => True) (get : Work Workspace) :=
  ⟨fun _ => trivial⟩

theorem unaffected_files : Meets Error.Unrelated (fun _ => True) files := ⟨fun _ => trivial⟩

theorem Meets.onlyIf {P : Prop} {x : Work α} (h : Meets Error.Unrelated post x) :
    Meets (Error.OnlyIf P) post x := h.mono (fun _ he he' => absurd he' he) fun _ ha => ha

theorem Meets.imp {P P' : Prop} {x : Work α} (h : Meets (Error.OnlyIf P) post x) (hP : P → P') :
    Meets (Error.OnlyIf P') post x := h.mono (fun _ he he' => hP (he he')) fun _ ha => ha

theorem meets_ofExcept {r : Except Error α} (hok : ∀ a, r = .ok a → post a)
    (herror : FailsOnlyWith kind r) : Meets kind post (ofExcept r) := by
  refine ⟨fun w => ?_⟩
  rw [exec_ofExcept]
  cases r with
  | ok a => exact hok a rfl
  | error e => exact herror e rfl

/-- The work fails for no namespace. -/
abbrev Unaffected (x : Work α) : Prop := Meets Error.Unrelated (fun _ => True) x

theorem unaffected_ofExcept {r : Except Error α} (h : FailsOnlyWith Error.Unrelated r) :
    Unaffected (ofExcept r) := meets_ofExcept (fun _ _ => trivial) h

theorem unaffected_ofTraced {x : Traced α} (h : FailsOnlyWith Error.Unrelated x.outcome) :
    Unaffected (ofTraced x) := by
  refine ⟨fun w => ?_⟩
  rw [exec_ofTraced]
  cases hx : x.outcome with
  | ok a => trivial
  | error e => exact h e hx

/-! ## Jars -/

theorem failsOnlyWith_openJar (f : Files) (path : String) :
    FailsOnlyWith Error.Unrelated (f.openJar path) := by
  unfold Files.openJar
  split
  · exact failsOnlyWith_ok _
  all_goals exact failsOnlyWith_error id

theorem unaffected_openJar (path : String) : Unaffected (openJar path) :=
  ⟨fun w => (unaffected_ofExcept (failsOnlyWith_openJar w.files path)).run w⟩

theorem unaffected_writeJarWith (path : String) {body : Traced (Jar × α)}
    (h : FailsOnlyWith Error.Unrelated body.outcome) : Unaffected (writeJarWith path body) := by
  refine ⟨fun w => ?_⟩
  rw [exec_writeJarWith]
  cases (FileWork.clear path).exec w.files with
  | mk cleared g =>
    cases cleared with
    | error fault => exact id
    | ok u =>
      dsimp only
      cases g.target path with
      | error fault => exact id
      | ok place =>
        dsimp only
        cases hbody : body.outcome with
        | ok made => trivial
        | error e => exact h e hbody

theorem unaffected_writeJar (path : String) {body : Traced Jar}
    (h : FailsOnlyWith Error.Unrelated body.outcome) : Unaffected (writeJar path body) := by
  refine unaffected_writeJarWith path ?_
  rw [outcome_map]
  exact failsOnlyWith_bind h fun _ => failsOnlyWith_ok _

theorem unaffected_rewriteJar (input output : String) {edit : Jar → Traced Jar}
    (h : ∀ j, FailsOnlyWith Error.Unrelated (edit j).outcome) :
    Unaffected (rewriteJar input output edit) :=
  (unaffected_openJar input).bind fun j _ => unaffected_writeJar output (h j)

end Work

/-! ## Traced work -/

theorem failsOnlyWith_traced_bind {α β : Type} {kind : Error → Prop} {x : Traced α}
    {f : α → Traced β} (hx : FailsOnlyWith kind x.outcome)
    (hf : ∀ a, FailsOnlyWith kind (f a).outcome) : FailsOnlyWith kind (x >>= f).outcome := by
  rw [Traced.outcome_bind]
  exact failsOnlyWith_bind hx hf

theorem failsOnlyWith_traced_foldlM {α β : Type} {kind : Error → Prop} {f : β → α → Traced β}
    (hf : ∀ b a, FailsOnlyWith kind (f b a).outcome) (l : List α) (b : β) :
    FailsOnlyWith kind (l.foldlM f b).outcome := by
  induction l generalizing b with
  | nil => exact failsOnlyWith_ok b
  | cons a rest ih =>
    rw [List.foldlM_cons]
    exact failsOnlyWith_traced_bind (hf b a) ih

theorem Jar.failsOnlyWith_editEntries {edit : String → Bytes → Traced (Option Bytes)}
    (h : ∀ entry bytes, FailsOnlyWith Error.Unrelated (edit entry bytes).outcome) (j : Jar) :
    FailsOnlyWith Error.Unrelated (Jar.editEntries edit j).outcome := by
  refine failsOnlyWith_traced_foldlM (fun out e => ?_) _ _
  refine failsOnlyWith_traced_bind (Jar.failsOnlyWith_read Error.unrelated_io j e) fun bytes => ?_
  refine failsOnlyWith_traced_bind (h e.name bytes) fun edited => ?_
  cases edited with
  | some bytes => exact Jar.failsOnlyWith_store Error.unrelated_io out e.name bytes
  | none => exact failsOnlyWith_ok _

theorem BinaryPatches.failsOnlyWith_readPatches {kind : Error → Prop}
    (hkind : ∀ fault, kind (.io fault)) (archive : Jar) :
    FailsOnlyWith kind (readPatches archive) := by
  unfold readPatches
  refine failsOnlyWith_foldlM (fun m e => failsOnlyWith_bind
    (Jar.failsOnlyWith_read hkind archive e) fun bytes => ?_) _ _
  split <;> exact failsOnlyWith_ok _

theorem Codec.failsOnlyWith_decodeEntry (codec : Codec) (entry : String) (bytes : Bytes) :
    FailsOnlyWith Error.Unrelated (codec.decodeEntry entry bytes).outcome := by
  refine failsOnlyWith_traced_bind (failsOnlyWith_ok _) fun _ => ?_
  cases codec.decode bytes with
  | ok c => exact failsOnlyWith_ok _
  | error reason => exact failsOnlyWith_error id

theorem Codec.failsOnlyWith_encodeClass (codec : Codec) (c : ClassNode) :
    FailsOnlyWith Error.Unrelated (codec.encodeClass c) := by
  unfold Codec.encodeClass
  cases codec.encode c with
  | ok bytes => exact failsOnlyWith_ok _
  | error reason => exact failsOnlyWith_error id

theorem JarFix.failsOnlyWith_applyAll {kind : Error → Prop} {fixes : List JarFix}
    (h : ∀ fix ∈ fixes, ∀ entry bytes, FailsOnlyWith kind (fix.apply entry bytes))
    (entry : String) (bytes : Bytes) :
    FailsOnlyWith kind (JarFix.applyAll entry fixes bytes).outcome := by
  induction fixes generalizing bytes with
  | nil => exact failsOnlyWith_ok _
  | cons fix rest ih =>
    obtain ⟨hfix, hrest⟩ := List.forall_mem_cons.mp h
    unfold JarFix.applyAll
    refine failsOnlyWith_traced_bind (failsOnlyWith_ok _) fun _ => ?_
    refine failsOnlyWith_traced_bind (hfix entry bytes) fun bytes => ?_
    cases bytes with
    | some bytes => exact ih hrest bytes
    | none => exact failsOnlyWith_ok _

/-! ## The merge -/

namespace JarMerger

variable {m : JarMerger}

/-- A policy of the project that fails for no namespace of its own accord. -/
def PolicyUnrelated (policy : FailurePolicy) : Prop :=
  ∀ handle, policy = .custom handle → ∀ client server e jar, e.Unrelated →
    FailsOnlyWith Error.Unrelated (handle client server e jar)

theorem failsOnlyWith_store (s : MergeState) (entry : String) (bytes : Bytes) :
    FailsOnlyWith Error.Unrelated (s.store entry bytes).outcome :=
  failsOnlyWith_traced_bind (Jar.failsOnlyWith_store Error.unrelated_io s.jar entry bytes) fun _ =>
    failsOnlyWith_ok _

theorem failsOnlyWith_mergeVersions (hm : PolicyUnrelated m.onFailure) (entry : String)
    (client server : Bytes) (s : MergeState) :
    FailsOnlyWith Error.Unrelated (m.mergeVersions entry client server s).outcome := by
  unfold mergeVersions
  refine failsOnlyWith_traced_bind (m.codec.failsOnlyWith_decodeEntry _ _) fun c => ?_
  refine failsOnlyWith_traced_bind (m.codec.failsOnlyWith_decodeEntry _ _) fun d => ?_
  unfold ClassMerger.mergeBoth
  cases ClassMerger.conflict? c d with
  | none =>
    exact failsOnlyWith_traced_bind (m.codec.failsOnlyWith_encodeClass _) fun _ =>
      failsOnlyWith_store _ _ _
  | some conflict =>
    dsimp only
    unfold handleFailure
    cases hpolicy : m.onFailure with
    | fatal => exact failsOnlyWith_error id
    | keepClient => exact failsOnlyWith_store _ _ _
    | skipClass => exact failsOnlyWith_ok _
    | custom handle =>
      exact failsOnlyWith_traced_bind (hm handle hpolicy c d _ _ id) fun _ => failsOnlyWith_ok _

theorem failsOnlyWith_mergeEntry (hm : PolicyUnrelated m.onFailure) (entry : String)
    (sides : EntrySides) (s : MergeState) :
    FailsOnlyWith Error.Unrelated (m.mergeEntry entry sides s).outcome := by
  unfold mergeEntry
  split
  · exact failsOnlyWith_store _ _ _
  · split
    · unfold mergeClass
      split
      · exact failsOnlyWith_store _ _ _
      · exact failsOnlyWith_store _ _ _
      · split
        · exact failsOnlyWith_store _ _ _
        · exact failsOnlyWith_mergeVersions hm entry _ _ s
    · exact failsOnlyWith_ok _

theorem failsOnlyWith_readSides (client server : Jar) (e : Entry) :
    FailsOnlyWith Error.Unrelated (readSides client server e) := by
  have hread := Jar.failsOnlyWith_read Error.unrelated_io client e
  refine failsOnlyWith_bind (Jar.failsOnlyWith_readOptional Error.unrelated_io server e.name) ?_
  intro found
  cases found <;> exact failsOnlyWith_bind hread fun _ => failsOnlyWith_ok _

theorem failsOnlyWith_merge (hm : PolicyUnrelated m.onFailure) (client server : Jar) :
    FailsOnlyWith Error.Unrelated (m.merge client server).outcome := by
  unfold merge
  refine failsOnlyWith_traced_bind (failsOnlyWith_traced_foldlM (fun s e => ?_) _ _) fun s =>
    failsOnlyWith_traced_foldlM (fun s e => ?_) _ _
  · exact failsOnlyWith_traced_bind (failsOnlyWith_readSides client server e) fun _ =>
      failsOnlyWith_mergeEntry hm _ _ s
  · unfold mergeServerEntry
    split
    · exact failsOnlyWith_ok _
    · exact failsOnlyWith_traced_bind (Jar.failsOnlyWith_read Error.unrelated_io server e) fun _ =>
        failsOnlyWith_mergeEntry hm _ _ s

theorem unaffected_mergeFiles (hm : PolicyUnrelated m.onFailure) (client server output : String) :
    Work.Unaffected (m.mergeFiles client server output) := by
  unfold mergeFiles
  refine (Work.unaffected_openJar client).bind fun c _ =>
    (Work.unaffected_openJar server).bind fun s _ => Work.unaffected_writeJarWith output ?_
  show FailsOnlyWith _ (m.merge c s >>= fun r => pure (r.jar, r.stats)).outcome
  exact failsOnlyWith_traced_bind (failsOnlyWith_merge hm c s) fun _ => failsOnlyWith_ok _

end JarMerger

theorem IncludeFilter.failsOnlyWith_ofGlobs (lib : RegexLibrary) (globs : List String) :
    FailsOnlyWith Error.Unrelated (ofGlobs lib globs) := by
  refine failsOnlyWith_bind (failsOnlyWith_mapM (fun glob => ?_) globs) fun _ => failsOnlyWith_ok _
  unfold compile
  cases lib.compile (Glob.pattern lib glob) with
  | error reason => exact failsOnlyWith_error id
  | ok isMatch => exact failsOnlyWith_ok _

theorem BasePatcher.meets_jarMerger (b : BasePatcher) (ctx : StageContext) :
    Work.Meets Error.Unrelated (fun m => m.onFailure = b.onFailure)
      (Work.ofExcept (b.jarMerger ctx)) := by
  refine Work.meets_ofExcept (fun m hm => ?_) (failsOnlyWith_bind
    (IncludeFilter.failsOnlyWith_ofGlobs _ _) fun _ => failsOnlyWith_ok _)
  obtain ⟨filter, -, hm⟩ := ok_of_bind hm
  cases hm
  rfl

/-! ## The remap -/

/-- A resource remapper that fails for no namespace. -/
def ResourceRemapper.Unrelated (r : ResourceRemapper) : Prop :=
  ∀ v entry bytes, FailsOnlyWith Error.Unrelated (r.transform v entry bytes)

namespace Remapper

theorem failsOnlyWith_run (engine : RemapEngine) (codec : Codec) (earlier : Nat)
    (call : EngineCall) :
    FailsOnlyWith Error.Unrelated (engine.run codec earlier call).outcome := by
  cases engine with
  | custom run =>
    exact failsOnlyWith_traced_bind (failsOnlyWith_ok _) fun _ => failsOnlyWith_ok _
  | structural =>
    show FailsOnlyWith _ (RemapEngine.remapClasses codec call.view call.classes).outcome
    induction call.classes with
    | nil => exact failsOnlyWith_ok _
    | cons c rest ih =>
      unfold RemapEngine.remapClasses
      refine failsOnlyWith_traced_bind (failsOnlyWith_ok _) fun _ => ?_
      cases c.remap codec call.view with
      | error reason => exact failsOnlyWith_ok _
      | ok c =>
        refine failsOnlyWith_traced_bind ih fun r => ?_
        cases r <;> exact failsOnlyWith_ok _

theorem failsOnlyWith_remapClasses (m : Remapper) (earlier : Nat) (call : EngineCall) :
    FailsOnlyWith Error.Unrelated (m.remapClasses earlier call).outcome := by
  unfold remapClasses
  refine failsOnlyWith_traced_bind (failsOnlyWith_run _ _ _ _) fun r => ?_
  cases r with
  | error reason => exact failsOnlyWith_error id
  | ok classes =>
    dsimp only
    split
    · exact failsOnlyWith_ok _
    · exact failsOnlyWith_error id

theorem failsOnlyWith_readAll (j : Jar) : FailsOnlyWith Error.Unrelated (readAll j) :=
  failsOnlyWith_forM (fun e => failsOnlyWith_bind
    (Jar.failsOnlyWith_read Error.unrelated_io j e) fun _ => failsOnlyWith_ok _) _

theorem failsOnlyWith_storeResources {m : Remapper} (hm : ∀ r ∈ m.resources, r.Unrelated)
    (v : MappingView) (es : List Entry) (start : Jar) :
    FailsOnlyWith Error.Unrelated (m.storeResources v es start) := by
  unfold storeResources
  refine failsOnlyWith_foldlM (fun out e => failsOnlyWith_bind ?_ fun bytes =>
    Jar.failsOnlyWith_store Error.unrelated_io out e.name bytes) es start
  unfold ResourceRemapper.applyFirst
  split
  · rename_i r hr
    exact hm r (List.mem_of_find?_eq_some hr) v _ _
  · exact failsOnlyWith_ok _

theorem unaffected_remapFile {m : Remapper} (hm : ∀ r ∈ m.resources, r.Unrelated) (v : MappingView)
    (input output : String) (classpath : List String) :
    Work.Unaffected (m.remapFile v input output classpath) := by
  unfold remapFile
  refine (Work.unaffected_openJar input).bind fun j _ => ?_
  refine (Work.unaffected_ofExcept (failsOnlyWith_readAll j)).bind fun _ _ => ?_
  refine Work.unaffected_get.bind fun w _ => ?_
  refine (Work.unaffected_ofTraced (failsOnlyWith_remapClasses m _ _)).bind fun classes _ => ?_
  exact Work.unaffected_writeJar output (failsOnlyWith_bind
    (Jar.failsOnlyWith_storeAll Error.unrelated_io _ _) (failsOnlyWith_storeResources hm v _))

end Remapper

/-! ## Wideners -/

theorem Files.failsOnlyWith_readText (f : Files) (path : String) :
    FailsOnlyWith Error.Unrelated (f.readText path) := by
  unfold Files.readText
  split
  · split
    · exact failsOnlyWith_ok _
    · exact failsOnlyWith_error id
  all_goals exact failsOnlyWith_error id

namespace Widener

theorem failsOnlyWith_ofText (text : String) : FailsOnlyWith Error.Unrelated (ofText text) := by
  unfold ofText
  split
  · exact failsOnlyWith_ok _
  · exact failsOnlyWith_error id

theorem unaffected_read (path : String) : Work.Unaffected (read path) := by
  unfold read
  refine Work.unaffected_files.bind fun f _ => ?_
  refine (Work.unaffected_ofExcept (Files.failsOnlyWith_readText f path)).bind fun text _ => ?_
  exact Work.unaffected_ofExcept (failsOnlyWith_ofText text)

theorem failsOnlyWith_widenEntry (w : Widener) (codec : Codec) (entry : String) (bytes : Bytes) :
    FailsOnlyWith Error.Unrelated (w.widenEntry codec entry bytes).outcome := by
  unfold widenEntry
  split
  · exact failsOnlyWith_ok _
  · split
    · refine failsOnlyWith_traced_bind (codec.failsOnlyWith_decodeEntry _ _) fun c => ?_
      split
      · exact failsOnlyWith_traced_bind (codec.failsOnlyWith_encodeClass _) fun _ =>
          failsOnlyWith_ok _
      · exact failsOnlyWith_ok _
    · exact failsOnlyWith_ok _

end Widener

/-- A widener of a jar is read and written without a look at the namespaces. -/
theorem ResourceRemapper.unrelated_accessWidener : accessWidener.Unrelated := by
  intro v entry bytes
  show FailsOnlyWith _ (transformWidener v entry bytes)
  unfold transformWidener
  split
  · exact failsOnlyWith_error id
  · refine failsOnlyWith_bind (Widener.failsOnlyWith_ofText _) fun w => ?_
    split <;> exact failsOnlyWith_ok _

end JarDerivation
