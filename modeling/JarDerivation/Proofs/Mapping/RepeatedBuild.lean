-- Building twice. A build freezes the blocks one after the other and registers
-- their namespaces, and a block is frozen before its namespaces are accepted. So
-- a block that was refused is passed over by the next build, which begins after it.
import JarDerivation.Mapping.Build
import JarDerivation.Proofs.Jar.Entries
import JarDerivation.Proofs.Outcome

namespace JarDerivation

namespace MappingBlock

/-! ## What is to be registered -/

/-- The namespaces that a block has still to register, if it is not frozen. -/
def owed (b : MappingBlock) : List (List OutputNamespace) := if b.finalized then [] else [b.outputs]

/-- Registers the namespaces of block after block. A block that is refused is done
with as well, so what is left begins after it. -/
def registerBlocks (r : Registry) :
    List (List OutputNamespace) → Except Error Unit × List (List OutputNamespace) × Registry
  | [] => (.ok (), [], r)
  | outputs :: rest =>
    match registerAll r outputs with
    | (.error e, r) => (.error e, rest, r)
    | (.ok _, r) => registerBlocks r rest

variable {r r' : Registry} {e : Error}

theorem registerAll_append_ok {outs : List OutputNamespace} (h : registerAll r outs = (.ok (), r'))
    (outs' : List OutputNamespace) : registerAll r (outs ++ outs') = registerAll r' outs' := by
  induction outs generalizing r with
  | nil =>
    cases h
    rfl
  | cons out rest ih =>
    rw [registerAll] at h
    rw [List.cons_append, registerAll]
    cases hreg : r.register out.name out.named out.targets with
    | error e =>
      rw [hreg] at h
      cases h
    | ok p =>
      rw [hreg] at h
      exact ih h

theorem registerAll_append_error {outs : List OutputNamespace}
    (h : registerAll r outs = (.error e, r')) (outs' : List OutputNamespace) :
    registerAll r (outs ++ outs') = (.error e, r') := by
  induction outs generalizing r with
  | nil => cases h
  | cons out rest ih =>
    rw [registerAll] at h
    rw [List.cons_append, registerAll]
    cases hreg : r.register out.name out.named out.targets with
    | error e =>
      rw [hreg] at h
      exact h
    | ok p =>
      rw [hreg] at h
      exact ih h

variable {bs left : List (List OutputNamespace)}

theorem registerBlocks_cons_ok {outputs : List OutputNamespace}
    (h : registerAll r outputs = (.ok (), r')) (rest : List (List OutputNamespace)) :
    registerBlocks r (outputs :: rest) = registerBlocks r' rest := by
  rw [registerBlocks, h]

theorem registerBlocks_cons_error {outputs : List OutputNamespace}
    (h : registerAll r outputs = (.error e, r')) (rest : List (List OutputNamespace)) :
    registerBlocks r (outputs :: rest) = (.error e, rest, r') := by
  rw [registerBlocks, h]

theorem registerBlocks_append_error (h : registerBlocks r bs = (.error e, left, r'))
    (bs' : List (List OutputNamespace)) :
    registerBlocks r (bs ++ bs') = (.error e, left ++ bs', r') := by
  induction bs generalizing r with
  | nil => cases h
  | cons outputs rest ih =>
    cases hall : registerAll r outputs with
    | mk result next =>
      cases result with
      | error e' =>
        rw [registerBlocks_cons_error hall] at h
        rw [List.cons_append, registerBlocks_cons_error hall]
        cases h
        rfl
      | ok u =>
        rw [registerBlocks_cons_ok hall] at h
        rw [List.cons_append, registerBlocks_cons_ok hall]
        exact ih h

/-- Either every block is registered, or the blocks fall into those before the
refused one, the refused one itself and those that are left. -/
theorem registerBlocks_cases (r : Registry) (bs : List (List OutputNamespace)) :
    (∃ r', registerBlocks r bs = (.ok (), [], r') ∧ registerAll r bs.flatten = (.ok (), r')) ∨
      ∃ e done refused left r', bs = done ++ refused :: left ∧
        (registerAll r done.flatten).1 = .ok () ∧
        registerAll r (done.flatten ++ refused) = (.error e, r') ∧
        registerBlocks r bs = (.error e, left, r') := by
  induction bs generalizing r with
  | nil => exact Or.inl ⟨r, rfl, rfl⟩
  | cons outputs rest ih =>
    cases hall : registerAll r outputs with
    | mk result next =>
      cases result with
      | error e =>
        exact Or.inr ⟨e, [], outputs, rest, next, rfl, rfl, hall,
          registerBlocks_cons_error hall rest⟩
      | ok u =>
        rw [registerBlocks_cons_ok hall]
        rcases ih next with ⟨r', hok, hflat⟩ |
          ⟨e, done, refused, left, r', hsplit, hdone, hrefused, hrun⟩
        · refine Or.inl ⟨r', hok, ?_⟩
          rw [List.flatten_cons, registerAll_append_ok hall, hflat]
        · refine Or.inr ⟨e, outputs :: done, refused, left, r', by rw [hsplit]; rfl, ?_, ?_, hrun⟩
          · rw [List.flatten_cons, registerAll_append_ok hall, hdone]
          · rw [List.flatten_cons, List.append_assoc, registerAll_append_ok hall, hrefused]

/-- Block by block or all at once, the same is refused. -/
theorem registerBlocks_outcome (r : Registry) (bs : List (List OutputNamespace)) :
    (registerBlocks r bs).1 = (registerAll r bs.flatten).1 := by
  rcases registerBlocks_cases r bs with ⟨r', hok, hflat⟩ |
    ⟨e, done, refused, left, r', hsplit, _, hrefused, hrun⟩
  · rw [hok, hflat]
  · have hflat : bs.flatten = (done.flatten ++ refused) ++ left.flatten := by
      rw [hsplit]
      simp
    rw [hrun, hflat, registerAll_append_error hrefused]

theorem left_of_registerBlocks (h : registerBlocks r bs = (.ok (), left, r')) : left = [] := by
  rcases registerBlocks_cases r bs with ⟨next, hok, _⟩ | ⟨e, _, _, _, _, _, _, _, herror⟩
  · rw [hok] at h
    cases h
    rfl
  · rw [herror] at h
    cases h

theorem registerBlocks_append_ok {bs' left' : List (List OutputNamespace)} {next : Registry}
    {x : Except Error Unit} (h : registerBlocks r bs = (.ok (), left, next))
    (h' : registerBlocks next bs' = (x, left', r')) :
    registerBlocks r (bs ++ bs') = (x, left ++ left', r') := by
  induction bs generalizing r with
  | nil =>
    cases h
    exact h'
  | cons outputs rest ih =>
    cases hall : registerAll r outputs with
    | mk result mid =>
      cases result with
      | error e =>
        rw [registerBlocks_cons_error hall] at h
        cases h
      | ok u =>
        rw [registerBlocks_cons_ok hall] at h
        rw [List.cons_append, registerBlocks_cons_ok hall]
        exact ih h

end MappingBlock

/-! ## Freezing -/

open MappingBlock

/-- What freezing does: it registers what is owed up to what is refused, of which
`owed` is left, and it changes nothing but the flags. -/
structure Freezes {α : Type} (owed : α → List (List OutputNamespace)) (thawed : α → α)
    (r : Registry) (a : α) (x : Except Error Unit) (a' : α) (r' : Registry) : Prop where
  registered : registerBlocks r (owed a) = (x, owed a', r')
  content : thawed a' = thawed a

variable {r r' : Registry} {x : Except Error Unit}

namespace MappingBlock

/-- A block as it was before it was frozen. -/
def thawed (b : MappingBlock) : MappingBlock := { b with finalized := false }

/-- Whether a block is refused or not, it owes nothing afterwards. -/
theorem freezes {b b' : MappingBlock} (h : b.finalize r = (x, b', r')) :
    Freezes owed thawed r b x b' r' := by
  unfold finalize at h
  split at h
  · rename_i hfrozen
    cases h
    exact ⟨by simp [owed, hfrozen, registerBlocks], rfl⟩
  · rename_i hopen
    have howed : b.owed = [b.outputs] := if_neg hopen
    cases hall : registerAll r b.outputs with
    | mk result next =>
      rw [hall] at h
      cases h
      refine ⟨?_, rfl⟩
      rw [howed]
      cases x with
      | error e => exact registerBlocks_cons_error hall []
      | ok u => exact registerBlocks_cons_ok hall []

end MappingBlock

namespace ContainsBlock

def owedAll (cs : List ContainsBlock) : List (List OutputNamespace) := cs.flatMap (·.block.owed)

def thawed (c : ContainsBlock) : ContainsBlock := { c with block := c.block.thawed }

end ContainsBlock

namespace MappingDependency

open ContainsBlock in
theorem freezesBlocks {cs cs' : List ContainsBlock} (h : finalizeBlocks r cs = (x, cs', r')) :
    Freezes owedAll (List.map ContainsBlock.thawed) r cs x cs' r' := by
  induction cs generalizing r cs' with
  | nil =>
    cases h
    exact ⟨rfl, rfl⟩
  | cons c rest ih =>
    rw [finalizeBlocks] at h
    cases hfin : c.block.finalize r with
    | mk result next =>
      rw [hfin] at h
      obtain ⟨hblock, hcontent⟩ := MappingBlock.freezes hfin
      cases result with
      | error e =>
        cases h
        refine ⟨?_, ?_⟩
        · exact registerBlocks_append_error hblock _
        · simp [ContainsBlock.thawed, hcontent]
      | ok u =>
        cases h
        obtain ⟨hothers, hsame⟩ := ih rfl
        refine ⟨?_, ?_⟩
        · exact registerBlocks_append_ok hblock hothers
        · simp [ContainsBlock.thawed, hcontent, hsame]

def owed (d : MappingDependency) : List (List OutputNamespace) :=
  if d.finalized then [] else d.defaultBlock.owed ++ ContainsBlock.owedAll d.contained

def thawed (d : MappingDependency) : MappingDependency :=
  ⟨d.source, d.defaultBlock.thawed, d.contained.map ContainsBlock.thawed, false⟩

theorem freezes {d d' : MappingDependency} (h : d.finalize r = (x, d', r')) :
    Freezes owed thawed r d x d' r' := by
  unfold finalize at h
  split at h
  · rename_i hfrozen
    cases h
    exact ⟨by simp [owed, hfrozen, registerBlocks], rfl⟩
  · rename_i hopen
    have howed : d.owed = d.defaultBlock.owed ++ ContainsBlock.owedAll d.contained := if_neg hopen
    cases hfin : d.defaultBlock.finalize r with
    | mk result next =>
      rw [hfin] at h
      obtain ⟨hblock, hcontent⟩ := MappingBlock.freezes hfin
      cases result with
      | error e =>
        cases h
        refine ⟨?_, ?_⟩
        · rw [howed, registerBlocks_append_error hblock]
          simp [owed, hopen]
        · simp [thawed, hcontent]
      | ok u =>
        dsimp only at h
        cases hrest : finalizeBlocks next.2 d.contained with
        | mk result last =>
          rw [hrest] at h
          obtain ⟨hothers, hsame⟩ := freezesBlocks hrest
          cases h
          refine ⟨?_, ?_⟩
          · rw [howed, registerBlocks_append_ok hblock hothers]
            cases result with
            | error e => rfl
            | ok u =>
              -- all blocks are registered, so the dependency that is frozen owes nothing
              rw [left_of_registerBlocks hblock, left_of_registerBlocks hothers]
              rfl
          · simp [thawed, hcontent, hsame]

theorem blockFor_thawed (d : MappingDependency) (f : SourceFile) :
    d.thawed.blockFor f = (d.blockFor f).thawed := by
  unfold blockFor thawed
  rw [List.find?_map]
  show (((d.contained.find? fun c => c.accepts f.name f.kind).map
    ContainsBlock.thawed).map _).getD _ = _
  cases d.contained.find? fun c => c.accepts f.name f.kind with
  | none => rfl
  | some c => rfl

end MappingDependency

namespace MappingBuilder

def owedAll (ds : List MappingDependency) : List (List OutputNamespace) := ds.flatMap (·.owed)

theorem freezes {ds ds' : List MappingDependency} (h : finalizeAll r ds = (x, ds', r')) :
    Freezes owedAll (List.map MappingDependency.thawed) r ds x ds' r' := by
  induction ds generalizing r ds' with
  | nil =>
    cases h
    exact ⟨rfl, rfl⟩
  | cons d rest ih =>
    rw [finalizeAll] at h
    cases hfin : d.finalize r with
    | mk result next =>
      rw [hfin] at h
      obtain ⟨hdependency, hcontent⟩ := MappingDependency.freezes hfin
      cases result with
      | error e =>
        cases h
        refine ⟨?_, ?_⟩
        · exact registerBlocks_append_error hdependency _
        · simp [hcontent]
      | ok u =>
        cases h
        obtain ⟨hothers, hsame⟩ := ih rfl
        refine ⟨?_, ?_⟩
        · exact registerBlocks_append_ok hdependency hothers
        · simp [hcontent, hsame]

/-! ## The inputs of a build -/

theorem inputsOf_thawed (disk : Files) (d : MappingDependency) :
    inputsOf disk d.thawed = inputsOf disk d := by
  unfold inputsOf
  simp only [MappingDependency.blockFor_thawed]
  rfl

theorem inputs_thawed (disk : Files) (ds : List MappingDependency) :
    inputs disk (ds.map MappingDependency.thawed) = inputs disk ds := by
  unfold inputs
  rw [List.mapM_map]
  simp only [Function.comp_def, inputsOf_thawed]

/-- The inputs do not depend on what is frozen. -/
theorem inputs_of_freezes {ds ds' : List MappingDependency}
    (h : Freezes owedAll (List.map MappingDependency.thawed) r ds x ds' r') (disk : Files) :
    inputs disk ds' = inputs disk ds := by
  rw [← inputs_thawed disk ds', h.content, inputs_thawed]

/-- A build whose dependencies are frozen without a failure builds the tree of its inputs. -/
theorem build_of_finalizeAll {b : MappingBuilder} {disk : Files} {ds : List MappingDependency}
    {is : List MappingInput} (hfrozen : finalizeAll r b.dependencies = (.ok (), ds, r'))
    (hinputs : inputs disk b.dependencies = .ok is) (h : Option Hierarchy) :
    (b.build disk h r).1 = treeOf h is := by
  unfold build
  simp only [hfrozen, inputs_of_freezes (freezes hfrozen) disk, hinputs]
  rfl

end MappingBuilder

/-! ## What a build can fail with -/

/-- A namespace was refused. Only a registration fails like this. -/
def Error.IsRefusal : Error → Prop
  | .duplicateNamespace _ _ => True
  | _ => False

def Error.IsOther (e : Error) : Prop := ¬ e.IsRefusal

theorem MappingBlock.isRefusal_of_registerAll {outs : List OutputNamespace} {e : Error}
    (h : (registerAll r outs).1 = .error e) : e.IsRefusal := by
  induction outs generalizing r with
  | nil => cases h
  | cons out rest ih =>
    rw [registerAll] at h
    cases hreg : r.register out.name out.named out.targets with
    | ok p =>
      rw [hreg] at h
      exact ih h
    | error e' =>
      rw [hreg] at h
      cases h
      unfold Registry.register at hreg
      split at hreg
      · split at hreg
        · cases hreg
        · cases hreg
          trivial
      · cases hreg

theorem MappingSource.files_fails (disk : Files) (s : MappingSource) :
    FailsOnlyWith Error.IsOther (s.files disk) := by
  cases s with
  | memory name files => exact failsOnlyWith_ok files
  | archive path =>
    have hopen : FailsOnlyWith Error.IsOther (disk.openJar path) := by
      unfold Files.openJar
      split
      · exact failsOnlyWith_ok _
      all_goals exact failsOnlyWith_error id
    refine failsOnlyWith_bind hopen fun j => failsOnlyWith_mapM ?_ _
    intro name
    unfold archiveFile
    refine failsOnlyWith_bind (Jar.failsOnlyWith_readOptional (fun _ => id) j name) fun found => ?_
    split
    · exact failsOnlyWith_ok _
    · exact failsOnlyWith_error id

theorem MappingInput.ofFile_fails (label : String) (file : MappingFile) (block : MappingBlock) :
    FailsOnlyWith Error.IsOther (ofFile label file block) := by
  unfold ofFile
  dsimp only
  split
  · exact failsOnlyWith_ok none
  · split
    · exact failsOnlyWith_ok _
    · exact failsOnlyWith_error id

namespace MappingTree

theorem requireNamespace_fails (t : MappingTree) (name context : String) :
    FailsOnlyWith Error.IsOther (t.requireNamespace name context) := by
  unfold requireNamespace
  split
  · exact failsOnlyWith_ok _
  · exact failsOnlyWith_error id

theorem join_fails (t : MappingTree) (i : MappingInput) :
    FailsOnlyWith Error.IsOther (t.join i) := by
  have hplan : FailsOnlyWith Error.IsOther (t.planJoin i) := by
    unfold planJoin
    refine failsOnlyWith_bind (requireNamespace_fails _ _ _) fun keyCol => ?_
    refine failsOnlyWith_bind (failsOnlyWith_mapM (fun ns => requireNamespace_fails _ _ _) _) ?_
    intro skipCols
    exact failsOnlyWith_ok _
  exact failsOnlyWith_bind hplan fun p => failsOnlyWith_ok _

/-- A pass fails for a namespace that is not there, or without a hierarchy. -/
theorem runPass_fails_with {kind : Error → Prop}
    (hunknown : ∀ name context, kind (.unknownNamespace name context))
    (hstrip : ∀ label : String, kind (.configuration
      s!"child_method_strip of {label} needs a class hierarchy"))
    (t : MappingTree) (h : Option Hierarchy) (i : MappingInput) (pass : MappingAction) :
    FailsOnlyWith kind (t.runPass h i pass) := by
  have hsource : ∀ what, FailsOnlyWith kind (t.passSource i what) := by
    intro what
    unfold passSource requireNamespace
    split
    · exact failsOnlyWith_error (hunknown _ _)
    · split
      · exact failsOnlyWith_ok _
      · exact failsOnlyWith_error (hunknown _ _)
  have hover : ∀ what f, FailsOnlyWith kind (t.overOutputs i what f) := by
    intro what f
    exact failsOnlyWith_bind (hsource what) fun src => failsOnlyWith_ok _
  unfold runPass
  split
  · exact hover _ _
  · exact hover _ _
  · split
    · exact failsOnlyWith_ok _
    · exact failsOnlyWith_error (hstrip _)
  · exact failsOnlyWith_ok t

theorem runPass_fails (t : MappingTree) (h : Option Hierarchy) (i : MappingInput)
    (pass : MappingAction) : FailsOnlyWith Error.IsOther (t.runPass h i pass) :=
  runPass_fails_with (fun _ _ => id) (fun _ => id) t h i pass

end MappingTree

namespace MappingBuilder

theorem inputs_fails (disk : Files) (ds : List MappingDependency) :
    FailsOnlyWith Error.IsOther (inputs disk ds) := by
  unfold inputs
  refine failsOnlyWith_bind (failsOnlyWith_mapM ?_ ds) fun _ => failsOnlyWith_ok _
  intro d
  unfold inputsOf
  refine failsOnlyWith_bind (MappingSource.files_fails disk d.source) fun files => ?_
  refine failsOnlyWith_bind (failsOnlyWith_mapM ?_ files) fun _ => failsOnlyWith_ok _
  intro f
  exact MappingInput.ofFile_fails _ f.content (d.blockFor f)

theorem joinAll_fails (turns : Nat) (waiting : List MappingInput) (t : MappingTree) :
    FailsOnlyWith Error.IsOther (joinAll turns waiting t) := by
  induction turns generalizing waiting t with
  | zero => exact failsOnlyWith_ok _
  | succ turns ih =>
    unfold joinAll
    split
    · exact failsOnlyWith_ok _
    · split
      · exact failsOnlyWith_error id
      · split
        · exact failsOnlyWith_error id
        · refine failsOnlyWith_bind (t.join_fails _) fun t => ?_
          exact failsOnlyWith_bind (ih _ t) fun s => failsOnlyWith_ok _

theorem treeOf_fails (h : Option Hierarchy) (is : List MappingInput) :
    FailsOnlyWith Error.IsOther (treeOf h is) := by
  unfold treeOf
  refine failsOnlyWith_bind (joinAll_fails _ is .empty) fun s => ?_
  refine failsOnlyWith_foldlM ?_ s.2 s.1
  intro t i
  exact failsOnlyWith_foldlM (fun t pass => t.runPass_fails h i pass) i.postPasses t

/-! ## The second build -/

def owed (b : MappingBuilder) : List (List OutputNamespace) := owedAll b.dependencies

theorem owed_of_build {b b' : MappingBuilder} {disk : Files} {h : Option Hierarchy}
    {x : Except Error MappingTree} (hbuild : b.build disk h r = (x, b', r')) :
    ∃ result, registerBlocks r b.owed = (result, b'.owed, r') ∧
      inputs disk b'.dependencies = inputs disk b.dependencies ∧
      x = result >>= fun _ => inputs disk b.dependencies >>= treeOf h := by
  unfold build at hbuild
  cases hfin : finalizeAll r b.dependencies with
  | mk result next =>
    rw [hfin] at hbuild
    have hfrozen := freezes hfin
    have hinputs := inputs_of_freezes hfrozen disk
    cases result with
    | error e =>
      cases hbuild
      exact ⟨.error e, hfrozen.registered, hinputs, rfl⟩
    | ok u =>
      cases hbuild
      refine ⟨.ok u, hfrozen.registered, hinputs, ?_⟩
      rw [hinputs]
      rfl

/-- A second build begins after the block that the first one was refused. -/
theorem building_again_gives_the_same_just_when_the_refusal_is_repeated
    {b b' b'' : MappingBuilder} {disk : Files} {h : Option Hierarchy} {r r' r'' : Registry}
    {x y : Except Error MappingTree} (hfirst : b.build disk h r = (x, b', r'))
    (hsecond : b'.build disk h r' = (y, b'', r'')) :
    ((registerAll r b.owed.flatten).1 = .ok () → y = x ∧ r'' = r') ∧
      (∀ e, (registerAll r b.owed.flatten).1 = .error e →
        x = .error e ∧
          (∃ done refused, b.owed = done ++ refused :: b'.owed ∧
            (registerAll r done.flatten).1 = .ok () ∧
            registerAll r (done.flatten ++ refused) = (.error e, r')) ∧
          (y = x ↔ (registerAll r' b'.owed.flatten).1 = .error e)) := by
  obtain ⟨result, hreg, hinputs, hx⟩ := owed_of_build hfirst
  obtain ⟨result', hreg', _, hy⟩ := owed_of_build hsecond
  rw [hinputs] at hy
  have hout := registerBlocks_outcome r b.owed
  have hout' := registerBlocks_outcome r' b'.owed
  rw [hreg] at hout
  rw [hreg'] at hout'
  refine ⟨?_, ?_⟩
  · intro hok
    rw [hok] at hout
    cases hout
    rw [left_of_registerBlocks hreg, registerBlocks, Prod.mk.injEq, Prod.mk.injEq] at hreg'
    obtain ⟨hresult, _, hregistry⟩ := hreg'
    rw [← hresult] at hy
    exact ⟨hy.trans hx.symm, hregistry.symm⟩
  · intro e herror
    rw [herror] at hout
    cases hout
    refine ⟨hx, ?_, ?_⟩
    · rcases registerBlocks_cases r b.owed with ⟨_, hok, _⟩ |
        ⟨e', done, refused, left, last, hsplit, hdone, hrefused, hrun⟩
      · rw [hok] at hreg
        cases hreg
      · rw [hrun] at hreg
        cases hreg
        exact ⟨done, refused, hsplit, hdone, hrefused⟩
    · rw [← hout', hx, hy]
      cases result' with
      | error e' =>
        show (Except.error e' : Except Error MappingTree) = .error e ↔
          (Except.error e' : Except Error Unit) = .error e
        rw [Except.error.injEq, Except.error.injEq]
      | ok u =>
        -- nothing but a registration is refused
        have hother : FailsOnlyWith Error.IsOther (inputs disk b.dependencies >>= treeOf h) :=
          failsOnlyWith_bind (inputs_fails disk _) (treeOf_fails h)
        constructor
        · intro heq
          exact absurd (isRefusal_of_registerAll herror) (hother e heq)
        · intro heq
          cases heq

/-- A builder with one file, whose namespace `named` is to be registered with a flag. -/
def oneFile (named : Bool) : MappingBuilder :=
  ⟨[⟨.memory "maps" [⟨"maps.json", "json", ⟨["official", "named"],
      [⟨[some "a", some "World"], [], []⟩]⟩⟩],
    ⟨[], [⟨"named", named, []⟩], false⟩, [], false⟩]⟩

/-- A registry that knows `named` as a namespace of readable names. -/
def readable : Registry := ⟨[⟨⟨"named", true⟩, [[]], none⟩], []⟩

theorem a_build_that_is_not_refused_is_repeated :
    ∃ t b' r', (oneFile true).build .empty none readable = (.ok t, b', r') ∧
      (b'.build .empty none r').1 = .ok t ∧ (b'.build .empty none r').2.2 = r' := by
  have hregistered : (registerAll readable (oneFile true).owed.flatten).1 = .ok () := by decide
  cases hfirst : (oneFile true).build .empty none readable with
  | mk x next =>
    obtain ⟨b', r'⟩ := next
    have hagain := (building_again_gives_the_same_just_when_the_refusal_is_repeated hfirst rfl).1
      hregistered
    cases x with
    | error e => cases hfirst
    | ok t => exact ⟨t, b', r', rfl, hagain⟩

/-- A refused block is passed over by the second build, which may succeed. -/
theorem building_again_does_not_always_give_the_same :
    ¬ ∀ (b : MappingBuilder) (disk : Files) (h : Option Hierarchy) (r : Registry),
      ((b.build disk h r).2.1.build disk h (b.build disk h r).2.2).1 = (b.build disk h r).1 := by
  intro hall
  have hrefused : ((oneFile false).build .empty none readable).1 =
      .error (.duplicateNamespace "named" true) := rfl
  have hsame := hall (oneFile false) .empty none readable
  rw [hrefused] at hsame
  -- the second build gives a tree
  cases hsame

end MappingBuilder

end JarDerivation
