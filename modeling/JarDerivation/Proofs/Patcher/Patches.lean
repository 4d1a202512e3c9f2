-- What binary patches make of the game jar. The patches are sorted by whether their entry is in the
-- game, folders included. Those for the game are applied along its files, and so a patch for a
-- folder of the game is dropped without a word. Every other patch is applied once.
import JarDerivation.Patcher.BinaryPatch
import JarDerivation.Proofs.Jar.Editing
import JarDerivation.Proofs.Jar.Leftover
import JarDerivation.Proofs.Pipeline.Faults
import JarDerivation.Proofs.Stage.Protocol

namespace JarDerivation

namespace BinaryPatches

variable {p : BinaryPatches} {archive game : Jar} {patches : Text.Ascending Bytes} {entry : String}
  {b : Bytes}

/-! ## The patches of an archive -/

/-- The patch for an entry. -/
def patchFor? (archive : Jar) (entry : String) : Option Bytes := archive.get? (entry ++ patchSuffix)

theorem isFolder_patch (entry : String) : Jar.isFolder (entry ++ patchSuffix) = false := by
  have hlast : (entry ++ patchSuffix).toList.getLast? = some 'h' := by
    rw [String.toList_append]
    exact List.getLast?_append_of_ne_nil _ (by decide)
  unfold Jar.isFolder Text.endsWith
  rw [Bool.or_eq_false_iff]
  constructor <;>
  · rw [Bool.eq_false_iff]
    intro hends
    obtain ⟨before, heq⟩ := List.isSuffixOf_iff_suffix.mp hends
    rw [← heq, List.getLast?_append_of_ne_nil _ (by decide)] at hlast
    exact absurd hlast (by decide)

/-- The patches with the entries that they are for. -/
def listed (archive : Jar) : List (String × Bytes) :=
  archive.files.filterMap fun e => (Text.dropEnding? patchSuffix e.name).map (·, e.bytes)

/-- The patches under the entries that they are for. -/
def patchesOf (archive : Jar) : Text.Ascending Bytes :=
  Text.Ascending.insertAll [] (listed archive)

/-- All files of the archive are read, also those that are no patches. -/
theorem readPatches_eq_ok :
    readPatches archive = .ok patches ↔ archive.Readable ∧ patchesOf archive = patches := by
  have hlisted : patchesOf archive = archive.files.foldl (fun (m : Text.Ascending Bytes) e =>
      (Text.dropEnding? patchSuffix e.name).elim m (m.insert · e.bytes)) [] := by
    unfold patchesOf listed Text.Ascending.insertAll
    rw [List.foldl_filterMap]
    congr 1
    funext m e
    cases Text.dropEnding? patchSuffix e.name <;> rfl
  rw [hlisted]
  refine foldlM_eq_ok fun m e next => ⟨fun h => ?_, fun ⟨hsound, hnext⟩ => ?_⟩
  · obtain ⟨bytes, hread, hnext⟩ := ok_of_bind h
    obtain ⟨hsound, rfl⟩ := Jar.read_eq_ok.mp hread
    refine ⟨hsound, ?_⟩
    cases hentry : Text.dropEnding? patchSuffix e.name <;>
    · rw [hentry] at hnext
      exact Except.ok.inj hnext
  · rw [Jar.read_eq_ok.mpr ⟨hsound, rfl⟩]
    rw [← hnext]
    cases Text.dropEnding? patchSuffix e.name <;> rfl

theorem nodup_listed (archive : Jar) : ((listed archive).map Prod.fst).Nodup := by
  have hnames : (listed archive).map Prod.fst =
      (archive.files.map Entry.name).filterMap (Text.dropEnding? patchSuffix) := by
    unfold listed
    rw [List.map_filterMap, List.filterMap_map]
    congr 1
    funext e
    show _ = Text.dropEnding? patchSuffix e.name
    cases Text.dropEnding? patchSuffix e.name <;> rfl
  rw [hnames]
  refine archive.nodup_files.filterMap fun name name' entry hname hname' => ?_
  rw [← Text.dropEnding?_eq_some.mp hname, ← Text.dropEnding?_eq_some.mp hname']

theorem mem_listed : (entry, b) ∈ listed archive ↔ patchFor? archive entry = some b := by
  unfold listed patchFor?
  rw [Jar.get?_eq_some, List.mem_filterMap]
  constructor
  · rintro ⟨e, he, hentry⟩
    obtain ⟨found, hdrop, heq⟩ := Option.map_eq_some_iff.mp hentry
    cases heq
    rw [Text.dropEnding?_eq_some.mp hdrop]
    exact List.mem_of_mem_filter he
  · intro hthere
    refine ⟨_, List.mem_filter.mpr ⟨hthere, by simp [isFolder_patch]⟩, ?_⟩
    rw [Text.dropEnding?_eq_some.mpr rfl]
    rfl

theorem find?_patchesOf (archive : Jar) (entry : String) :
    (patchesOf archive).find? entry = patchFor? archive entry := by
  unfold patchesOf
  rw [Text.Ascending.find?_insertAll (nodup_listed archive)]
  refine Option.or_none.trans (Option.ext fun b => ?_)
  rw [Text.Ascending.lookup_eq_some_iff_of_nodup (nodup_listed archive), mem_listed]

theorem ordered_patchesOf (archive : Jar) : (patchesOf archive).Ordered :=
  Text.Ascending.ordered_insertAll List.Pairwise.nil _

/-! ## Applying patches -/

/-- A call of the applier: the entry, its bytes before and the patch. -/
structure Application where
  entry : String
  base : Bytes
  patch : Bytes
  deriving DecidableEq

/-- What the applier makes of its arguments. -/
def Application.result (p : BinaryPatches) (c : Application) : Except String Bytes :=
  p.applier c.entry c.base c.patch

/-- An entry of the patched jar before it is patched, and the patch for it. -/
structure Item where
  entry : Entry
  /-- The bytes of the entry cannot be read. -/
  damaged : Bool
  patch : Option Bytes

/-- The files of the game, and then what is new. -/
def items (patches : Text.Ascending Bytes) (game : Jar) : List Item :=
  game.files.map (fun e => ⟨e, game.damaged.contains e.name, patches.find? e.name⟩) ++
    (patches.filter fun e => !game.contains e.1).map fun e => ⟨⟨e.1, []⟩, false, some e.2⟩

section

variable {m : Type → Type} [Monad m] [MonadLiftT (Except Error) m]

def Item.read (i : Item) : Except Error Bytes :=
  if i.damaged then .error (.io .damagedEntry) else .ok i.entry.bytes

/-- Reads an entry and patches it, with any way to apply a patch. -/
def Item.finish (run : String → Bytes → Bytes → m Bytes) (i : Item) : m Entry := do
  let bytes ← i.read
  match i.patch with
  | some patch => return ⟨i.entry.name, ← run i.entry.name bytes patch⟩
  | none => return ⟨i.entry.name, bytes⟩

/-- Patches an entry and writes it. -/
def Item.step (run : String → Bytes → Bytes → m Bytes) (out : Jar) (i : Item) : m Jar := do
  let e ← i.finish run
  out.store e.name e.bytes

/-- The patched jar of a game, with any way to apply a patch. -/
def patchWith (run : String → Bytes → Bytes → m Bytes) (archive game : Jar) : m Jar := do
  let patches ← readPatches archive
  (items patches game).foldlM (Item.step run) .empty

end

/-- The stage is the pass that applies the patches. -/
theorem outcome_apply (p : BinaryPatches) (patches : Text.Ascending Bytes) (game : Jar) :
    (p.apply patches game).outcome =
      (items patches game).foldlM (Item.step p.applyOne) .empty := by
  have hown : ∀ entry bytes,
      (Traced.ofExcept (some <$> p.patchEntry patches entry bytes)).outcome =
        some <$> p.patchEntry patches entry bytes := fun _ _ => rfl
  unfold apply items
  rw [Traced.outcome_bind, Jar.outcome_editEntries hown, List.foldlM_append, List.foldlM_map]
  congr 1
  · congr 1
    funext out e
    show (game.read e >>= fun bytes => _) >>= _ = (game.read e >>= fun bytes => _) >>= _
    cases game.read e with
    | error fault => rfl
    | ok bytes =>
      unfold patchEntry
      cases patches.find? e.name with
      | none => rfl
      | some patch => cases p.applyOne e.name bytes patch <;> rfl
  · funext out
    rw [Traced.outcome_ofExcept, List.foldlM_map]
    congr 1
    funext out e
    unfold addEntry
    show (p.applyOne e.1 [] e.2 >>= _) = (p.applyOne e.1 [] e.2 >>= _) >>= _
    cases p.applyOne e.1 [] e.2 <;> rfl

theorem patchWith_of_readPatches (p : BinaryPatches) (h : readPatches archive = .ok patches) :
    patchWith p.applyOne archive game = (p.apply patches game).outcome := by
  rw [outcome_apply]
  show (readPatches archive >>= _) = _
  rw [h]
  rfl

/-! ## What is applied -/

/-- Applies a patch and notes it, also if it fails. -/
def noting (p : BinaryPatches) (entry : String) (base patch : Bytes) :
    ExceptT Error (StateM (List Application)) Bytes := do
  modifyThe (List Application) (· ++ [⟨entry, base, patch⟩])
  ExceptT.mk (pure (p.applyOne entry base patch))

/-- The patches that are applied to a game, in order. -/
def applications (p : BinaryPatches) (archive game : Jar) : List Application :=
  ((patchWith p.noting archive game).run.run []).2

/-- The patch that is applied for an item. -/
def Item.application? (i : Item) : Option Application :=
  if i.damaged then none else i.patch.map fun patch => ⟨i.entry.name, i.entry.bytes, patch⟩

/-- The applications for items, up to the first step that fails. -/
def logged (p : BinaryPatches) : List Item → Jar → List Application
  | [], _ => []
  | i :: rest, out => i.application?.toList ++
      match i.step p.applyOne out with
      | .ok next => logged p rest next
      | .error _ => []

theorem run_noting (p : BinaryPatches) (entry : String) (base patch : Bytes)
    (earlier : List Application) :
    (p.noting entry base patch).run.run earlier =
      (p.applyOne entry base patch, earlier ++ [⟨entry, base, patch⟩]) := rfl

theorem run_bind {α β : Type} (x : ExceptT Error (StateM (List Application)) α)
    (k : α → ExceptT Error (StateM (List Application)) β) (earlier : List Application) :
    (x >>= k).run.run earlier = match x.run.run earlier with
      | (.ok a, later) => (k a).run.run later
      | (.error e, later) => (.error e, later) := by
  rw [ExceptT.run_bind, StateT.run_bind]
  cases x.run.run earlier with
  | mk r later => cases r <;> rfl

/-- Noting the application of a step does not change what comes of it. -/
theorem run_step (p : BinaryPatches) (out : Jar) (i : Item) (earlier : List Application) :
    (i.step p.noting out).run.run earlier =
      (i.step p.applyOne out, earlier ++ i.application?.toList) := by
  obtain ⟨e, damaged, patch?⟩ := i
  cases damaged with
  | true =>
    rw [show Item.application? ⟨e, true, patch?⟩ = none from rfl, Option.toList_none,
      List.append_nil]
    rfl
  | false =>
    cases patch? with
    | none =>
      rw [show Item.application? ⟨e, false, none⟩ = none from rfl, Option.toList_none,
        List.append_nil]
      rfl
    | some patch =>
      show ((p.noting e.name e.bytes patch >>= fun bytes => _) >>= _).run.run earlier =
        ((p.applyOne e.name e.bytes patch >>= fun bytes => _) >>= _, _)
      rw [run_bind, run_bind, run_noting]
      cases p.applyOne e.name e.bytes patch <;> rfl

theorem run_foldlM_noting (p : BinaryPatches) (l : List Item) (out : Jar)
    (earlier : List Application) :
    (l.foldlM (Item.step p.noting) out).run.run earlier =
      (l.foldlM (Item.step p.applyOne) out, earlier ++ p.logged l out) := by
  induction l generalizing out earlier with
  | nil =>
    rw [logged, List.append_nil]
    rfl
  | cons i rest ih =>
    rw [List.foldlM_cons, List.foldlM_cons, run_bind, run_step, logged]
    cases i.step p.applyOne out with
    | error e =>
      rw [List.append_nil]
      rfl
    | ok next =>
      rw [← List.append_assoc]
      exact ih next _

/-- Nothing is applied before all patches are read. -/
theorem applications_eq (p : BinaryPatches) (archive game : Jar) :
    p.applications archive game = match readPatches archive with
      | .ok patches => p.logged (items patches game) .empty
      | .error _ => [] := by
  unfold applications patchWith
  rw [run_bind]
  cases readPatches archive with
  | error e => rfl
  | ok patches => exact congrArg Prod.snd (p.run_foldlM_noting (items patches game) .empty [])

/-- The error of an application that failed. -/
def failure (p : BinaryPatches) (c : Application) (reason : String) : Error :=
  .patchFailed p.name s!"{c.entry}: {reason}"

/-- Either all applications succeed, and then only reading and writing can fail, or the last one
fails and is what the pass fails with. -/
inductive Outcome (p : BinaryPatches) {α : Type} : List Application → Except Error α → Prop where
  | done {log : List Application} {a : α} :
      (∀ c ∈ log, ∃ bytes, c.result p = .ok bytes) → Outcome p log (.ok a)
  | stopped {log : List Application} {fault : IoFault} :
      (∀ c ∈ log, ∃ bytes, c.result p = .ok bytes) → Outcome p log (.error (.io fault))
  | failed (before : List Application) {c : Application} {reason : String} :
      (∀ d ∈ before, ∃ bytes, d.result p = .ok bytes) → c.result p = .error reason →
      Outcome p (before ++ [c]) (.error (p.failure c reason))

/-- What succeeds has applied all patches without a failure. -/
theorem Outcome.all_ok {α : Type} {log : List Application} {a : α}
    (h : Outcome p log (.ok a : Except Error α)) : ∀ c ∈ log, ∃ bytes, c.result p = .ok bytes := by
  cases h with
  | done hall => exact hall

theorem Outcome.prepend {α : Type} {before log : List Application} {r : Except Error α}
    (hbefore : ∀ c ∈ before, ∃ bytes, c.result p = .ok bytes) (h : Outcome p log r) :
    Outcome p (before ++ log) r := by
  cases h with
  | done hall => exact .done (List.forall_mem_append.mpr ⟨hbefore, hall⟩)
  | stopped hall => exact .stopped (List.forall_mem_append.mpr ⟨hbefore, hall⟩)
  | failed between hbetween hlast =>
    rw [← List.append_assoc]
    exact .failed _ (List.forall_mem_append.mpr ⟨hbefore, hbetween⟩) hlast

/-- An application that fails is what the pass fails with. -/
theorem Outcome.eq_of_failed {α : Type} {log : List Application} {r : Except Error α}
    (h : Outcome p log r) {c : Application} {reason : String} (hc : c ∈ log)
    (hfailed : c.result p = .error reason) : r = .error (p.failure c reason) := by
  have hnot : ¬ ∃ bytes, c.result p = .ok bytes := fun ⟨bytes, hok⟩ => by
    rw [hfailed] at hok
    cases hok
  cases h with
  | done hall => exact absurd (hall c hc) hnot
  | stopped hall => exact absurd (hall c hc) hnot
  | failed _ hbefore hlast =>
    rcases List.mem_append.mp hc with hc | hc
    · exact absurd (hbefore c hc) hnot
    · obtain rfl := List.mem_singleton.mp hc
      rw [hfailed] at hlast
      cases hlast
      rfl

/-- Writing an entry applies nothing. -/
theorem outcome_store {log : List Application} (hall : ∀ c ∈ log, ∃ bytes, c.result p = .ok bytes)
    (out : Jar) (entry : String) (bytes : Bytes) : Outcome p log (out.store entry bytes) := by
  unfold Jar.store
  split
  · exact .done hall
  · exact .stopped hall

theorem finish_eq (p : BinaryPatches) (e : Entry) (patch : Bytes) :
    Item.finish p.applyOne ⟨e, false, some patch⟩ =
      match (⟨e.name, e.bytes, patch⟩ : Application).result p with
      | .ok new => .ok ⟨e.name, new⟩
      | .error reason => .error (p.failure ⟨e.name, e.bytes, patch⟩ reason) := by
  show (p.applyOne e.name e.bytes patch >>= fun new => .ok (⟨e.name, new⟩ : Entry)) = _
  unfold applyOne Application.result
  dsimp only
  cases p.applier e.name e.bytes patch <;> rfl

theorem outcome_step (p : BinaryPatches) (out : Jar) (i : Item) :
    Outcome p i.application?.toList (i.step p.applyOne out) := by
  obtain ⟨e, damaged, patch?⟩ := i
  cases damaged with
  | true =>
    show Outcome p [] (.error (.io .damagedEntry))
    exact .stopped nofun
  | false =>
    cases patch? with
    | none =>
      show Outcome p [] (out.store e.name e.bytes)
      exact outcome_store (List.forall_mem_nil _) out e.name e.bytes
    | some patch =>
      unfold Item.step
      rw [finish_eq]
      show Outcome p [⟨e.name, e.bytes, patch⟩] _
      cases hresult : (⟨e.name, e.bytes, patch⟩ : Application).result p with
      | error reason => exact .failed [] nofun hresult
      | ok new =>
        exact outcome_store (List.forall_mem_singleton.mpr ⟨new, hresult⟩) out e.name new

theorem outcome_foldlM (p : BinaryPatches) (l : List Item) (out : Jar) :
    Outcome p (p.logged l out) (l.foldlM (Item.step p.applyOne) out) := by
  induction l generalizing out with
  | nil => exact .done nofun
  | cons i rest ih =>
    have hfirst := p.outcome_step out i
    rw [List.foldlM_cons, logged]
    cases hstep : i.step p.applyOne out with
    | error e =>
      rw [hstep] at hfirst
      rw [List.append_nil]
      exact hfirst
    | ok next =>
      rw [hstep] at hfirst
      exact (ih next).prepend hfirst.all_ok

theorem outcome_patchWith (p : BinaryPatches) (archive game : Jar) :
    Outcome p (p.applications archive game) (patchWith p.applyOne archive game) := by
  rw [applications_eq]
  show Outcome p _ (readPatches archive >>= _)
  cases hread : readPatches archive with
  | error e =>
    obtain ⟨fault, rfl⟩ := @failsOnlyWith_readPatches (fun e => ∃ fault, e = .io fault)
      (fun fault => ⟨fault, rfl⟩) archive e hread
    exact .stopped nofun
  | ok patches => exact p.outcome_foldlM (items patches game) .empty

/-! ## What should be applied -/

/-- The bytes of an entry before it is patched. -/
def baseOf (game : Jar) (entry : String) : Bytes := (game.get? entry).getD []

/-- The patches that should be applied to a game. -/
def due (archive game : Jar) : List Application :=
  (items (patchesOf archive) game).filterMap Item.application?

/-- Whether an entry is one of the folders that are listed in a jar. -/
def IsFolderOf (game : Jar) (entry : String) : Prop := game.contains entry ∧ Jar.isFolder entry

theorem mem_items (h : patches.Ordered) (game : Jar) (i : Item) :
    i ∈ items patches game ↔ i.patch = patches.find? i.entry.name ∧
      (i.entry ∈ game.files ∧ i.damaged = game.damaged.contains i.entry.name ∨
        ¬ game.contains i.entry.name ∧ i.entry.bytes = [] ∧ i.damaged = false ∧
          i.patch.isSome) := by
  obtain ⟨⟨name, bytes⟩, damaged, patch?⟩ := i
  unfold items
  rw [List.mem_append, List.mem_map, List.mem_map, and_or_left]
  refine or_congr ⟨?_, ?_⟩ ⟨?_, ?_⟩
  · rintro ⟨e, he, heq⟩
    cases heq
    exact ⟨rfl, he, rfl⟩
  · rintro ⟨hfind, he, hdamaged⟩
    dsimp only at hfind hdamaged
    subst hfind hdamaged
    exact ⟨_, he, rfl⟩
  · rintro ⟨x, hx, heq⟩
    cases heq
    obtain ⟨hthere, hnot⟩ := List.mem_filter.mp hx
    exact ⟨(h.find?_eq_some_iff.mpr hthere).symm, by simpa using hnot, rfl, rfl, rfl⟩
  · rintro ⟨hfind, hnot, rfl, rfl, hsome⟩
    obtain ⟨patch, rfl⟩ := Option.isSome_iff_exists.mp hsome
    refine ⟨(name, patch), List.mem_filter.mpr ⟨?_, by simpa using hnot⟩, rfl⟩
    exact h.find?_eq_some_iff.mp hfind.symm

theorem nodup_items (h : patches.Ordered) (game : Jar) :
    ((items patches game).map fun i => i.entry.name).Nodup := by
  unfold items
  rw [List.map_append, List.map_map, List.map_map]
  exact game.nodup_files_append_new h

/-- An item that can be read and has a patch is one for the applier. -/
theorem application?_eq_some {i : Item} {c : Application} :
    i.application? = some c ↔ i.damaged = false ∧ i.entry = ⟨c.entry, c.base⟩ ∧
      i.patch = some c.patch := by
  obtain ⟨⟨name, bytes⟩, damaged, patch?⟩ := i
  unfold Item.application?
  cases damaged with
  | true => exact ⟨nofun, nofun⟩
  | false =>
    cases patch? with
    | none => exact ⟨nofun, nofun⟩
    | some patch =>
      constructor
      · intro h
        cases h
        exact ⟨rfl, rfl, rfl⟩
      · rintro ⟨-, hentry, hpatch⟩
        cases hentry
        cases hpatch
        rfl

theorem mem_due (hread : game.Readable) {c : Application} :
    c ∈ due archive game ↔ patchFor? archive c.entry = some c.patch ∧
      c.base = baseOf game c.entry ∧ ¬ IsFolderOf game c.entry := by
  have hitems := mem_items (ordered_patchesOf archive) game
  simp only [find?_patchesOf] at hitems
  unfold due baseOf IsFolderOf
  rw [List.mem_filterMap]
  constructor
  · rintro ⟨⟨e, damaged, patch?⟩, hi, hc⟩
    obtain ⟨rfl, rfl, rfl⟩ := application?_eq_some.mp hc
    obtain ⟨hfound, ⟨hfile, -⟩ | ⟨hnot, hempty, -⟩⟩ := (hitems _).mp hi
    · obtain ⟨hthere, hfile⟩ := List.mem_filter.mp hfile
      refine ⟨hfound.symm, ?_, fun hfolder => ?_⟩
      · rw [Jar.get?_eq_some.mpr hthere]
        rfl
      · simp [hfolder.2] at hfile
    · refine ⟨hfound.symm, ?_, fun hfolder => hnot hfolder.1⟩
      rw [Jar.get?_eq_none.mpr hnot]
      exact hempty
  · rintro ⟨hpatch, hbase, hfolder⟩
    refine ⟨⟨⟨c.entry, c.base⟩, false, some c.patch⟩, (hitems _).mpr ⟨hpatch.symm, ?_⟩, rfl⟩
    cases hget : game.get? c.entry with
    | none =>
      rw [hget] at hbase
      exact .inr ⟨Jar.get?_eq_none.mp hget, hbase, rfl, rfl⟩
    | some bytes =>
      rw [hget] at hbase
      have hthere : (⟨c.entry, c.base⟩ : Entry) ∈ game.entries := by
        rw [hbase]
        exact Jar.get?_eq_some.mp hget
      have hfile : ¬ Jar.isFolder c.entry := fun h =>
        hfolder ⟨Jar.contains_iff.mpr ⟨_, hthere, rfl⟩, h⟩
      have hmem : (⟨c.entry, c.base⟩ : Entry) ∈ game.files :=
        List.mem_filter.mpr ⟨hthere, by simpa using hfile⟩
      exact .inl ⟨hmem, (by simpa using hread _ hmem)⟩

theorem nodup_due (archive game : Jar) : ((due archive game).map Application.entry).Nodup := by
  have hnames := nodup_items (ordered_patchesOf archive) game
  unfold due
  rw [List.Nodup, List.pairwise_map, List.pairwise_filterMap]
  refine (List.pairwise_map.mp hnames).imp fun hne c hc d hd heq => hne ?_
  obtain ⟨-, hc, -⟩ := application?_eq_some.mp hc
  obtain ⟨-, hd, -⟩ := application?_eq_some.mp hd
  rw [hc, hd]
  exact heq

/-! ## The patched jar -/

/-- A game that was patched. Each patch that is not for a folder of the game was applied once, to
the bytes of its entry or to none, and the entry holds what came of it. A file without a patch is
kept, and there is nothing else. -/
structure Patched (p : BinaryPatches) (archive game out : Jar) : Prop where
  once : ((p.applications archive game).map Application.entry).Nodup
  applied : ∀ c, c ∈ p.applications archive game ↔ patchFor? archive c.entry = some c.patch ∧
    c.base = baseOf game c.entry ∧ ¬ IsFolderOf game c.entry
  held : ∀ c ∈ p.applications archive game, ∃ bytes, c.result p = .ok bytes ∧
    out.get? c.entry = some bytes
  kept : ∀ e ∈ game.files, patchFor? archive e.name = none → out.get? e.name = some e.bytes
  names : ∀ name, out.contains name ↔ name ∈ game.files.map Entry.name ∨
    (patchFor? archive name).isSome ∧ ¬ game.contains name

/-- A pass that ends has gone through all its items. -/
theorem logged_of_ok {l : List Item} {start out : Jar}
    (h : l.foldlM (Item.step p.applyOne) start = .ok out) :
    p.logged l start = l.filterMap Item.application? := by
  induction l generalizing start with
  | nil => rfl
  | cons i rest ih =>
    rw [List.foldlM_cons] at h
    obtain ⟨next, hnext, hrest⟩ := ok_of_bind h
    rw [logged, hnext, List.filterMap_cons]
    dsimp only
    rw [ih hrest]
    cases i.application? <;> rfl

/-- An item keeps its name. -/
theorem name_of_finish {i : Item} {e : Entry} (h : Item.finish p.applyOne i = .ok e) :
    e.name = i.entry.name := by
  obtain ⟨bytes, -, h⟩ := ok_of_bind h
  cases hpatch : i.patch with
  | none =>
    rw [hpatch] at h
    cases h
    rfl
  | some patch =>
    rw [hpatch] at h
    obtain ⟨new, -, h⟩ := ok_of_bind h
    cases h
    rfl

theorem names_of_mapM {l : List Item} {es : List Entry}
    (h : l.mapM (Item.finish p.applyOne) = .ok es) :
    es.map Entry.name = l.map fun i => i.entry.name := by
  induction l generalizing es with
  | nil =>
    cases h
    rfl
  | cons i rest ih =>
    rw [List.mapM_cons] at h
    obtain ⟨e, he, h⟩ := ok_of_bind h
    obtain ⟨others, hothers, h⟩ := ok_of_bind h
    cases h
    rw [List.map_cons, List.map_cons, name_of_finish he, ih hothers]

section

variable {out : Jar}

/-- The entries of the new jar are what came of the items, in their order. -/
theorem entries_of_patchWith (h : patchWith p.applyOne archive game = .ok out) :
    (items (patchesOf archive) game).map (Item.finish p.applyOne) = out.entries.map .ok ∧
      (out.allNames = (items (patchesOf archive) game).map fun i => i.entry.name) ∧ out.Fits := by
  obtain ⟨patches, hpatches, hpass⟩ := ok_of_bind h
  obtain ⟨-, rfl⟩ := readPatches_eq_ok.mp hpatches
  obtain ⟨made, hmade, hstored⟩ := (Jar.foldlM_store_eq_ok fun _ _ => rfl).mp hpass
  have hnames := names_of_mapM hmade
  have hdistinct : (made.map Entry.name).Nodup :=
    hnames ▸ nodup_items (ordered_patchesOf archive) game
  obtain ⟨hfits, rfl⟩ := (Jar.storeAll_empty_eq_ok hdistinct).mp hstored
  unfold Jar.allNames
  rw [Jar.entries_ofEntries hdistinct]
  exact ⟨map_eq_of_mapM hmade, hnames, hfits⟩

theorem exists_finish (h : patchWith p.applyOne archive game = .ok out) {i : Item}
    (hi : i ∈ items (patchesOf archive) game) :
    ∃ e, Item.finish p.applyOne i = .ok e ∧ out.get? e.name = some e.bytes := by
  have hmem := List.mem_map_of_mem (f := Item.finish p.applyOne) hi
  rw [(entries_of_patchWith h).1] at hmem
  obtain ⟨e, he, heq⟩ := List.mem_map.mp hmem
  exact ⟨e, heq.symm, Jar.get?_of_mem he⟩

/-- A file of the game and the patch for it. -/
theorem file_mem_items {e : Entry} (he : e ∈ game.files) :
    ⟨e, game.damaged.contains e.name, patchFor? archive e.name⟩ ∈
      items (patchesOf archive) game := by
  refine (mem_items (ordered_patchesOf archive) game _).mpr ⟨?_, .inl ⟨he, rfl⟩⟩
  exact (find?_patchesOf archive e.name).symm

theorem readable_of_patchWith (h : patchWith p.applyOne archive game = .ok out) :
    game.Readable := by
  intro e he hdamaged
  obtain ⟨d, hfinish, -⟩ := exists_finish h (file_mem_items he)
  rw [List.contains_iff_mem.mpr hdamaged] at hfinish
  cases hfinish

/-- A pass that ends has gone through all that was due. -/
theorem applications_of_patchWith (h : patchWith p.applyOne archive game = .ok out) :
    p.applications archive game = due archive game := by
  obtain ⟨patches, hpatches, hpass⟩ := ok_of_bind h
  obtain ⟨hread, rfl⟩ := readPatches_eq_ok.mp hpatches
  rw [applications_eq, readPatches_eq_ok.mpr ⟨hread, rfl⟩]
  exact logged_of_ok hpass

theorem patched_of_patchWith (h : patchWith p.applyOne archive game = .ok out) :
    p.Patched archive game out := by
  have hlog := applications_of_patchWith h
  have hread := readable_of_patchWith h
  constructor
  case once =>
    rw [hlog]
    exact nodup_due archive game
  case applied =>
    intro c
    rw [hlog]
    exact mem_due hread
  case held =>
    intro c hc
    rw [hlog] at hc
    obtain ⟨⟨e, damaged, patch?⟩, hi, hdue⟩ := List.mem_filterMap.mp hc
    obtain ⟨rfl, rfl, rfl⟩ := application?_eq_some.mp hdue
    obtain ⟨d, hfinish, hget⟩ := exists_finish h hi
    rw [finish_eq] at hfinish
    split at hfinish
    · rename_i bytes hresult
      cases hfinish
      exact ⟨bytes, hresult, hget⟩
    · cases hfinish
  case kept =>
    intro e he hnone
    obtain ⟨d, hfinish, hget⟩ := exists_finish h (file_mem_items he)
    have hsound : game.damaged.contains e.name = false := by simpa using hread e he
    rw [hsound, hnone] at hfinish
    cases hfinish
    exact hget
  case names =>
    intro name
    rw [Jar.contains_iff_mem, (entries_of_patchWith h).2.1]
    unfold items
    rw [List.map_append, List.map_map, List.map_map, List.mem_append]
    rw [← find?_patchesOf]
    exact or_congr Iff.rfl (game.mem_names_new (ordered_patchesOf archive))

end

/-- A game that can be patched: all is read, no application fails, and nothing gets too large. -/
structure Patchable (p : BinaryPatches) (archive game : Jar) : Prop where
  readable : game.Readable
  patches : archive.Readable
  applies : ∀ c ∈ p.applications archive game, ∃ bytes, c.result p = .ok bytes ∧
    bytes.length ≤ Jar.entryLimit
  keeps : ∀ e ∈ game.files, patchFor? archive e.name = none → e.bytes.length ≤ Jar.entryLimit

/-- A pass ends if its items can be read, what is logged goes well, and the rest fits. -/
theorem ok_of_logged {l : List Item} {start : Jar} (hread : ∀ i ∈ l, i.damaged = false)
    (happlies : ∀ c ∈ p.logged l start, ∃ bytes, c.result p = .ok bytes ∧
      bytes.length ≤ Jar.entryLimit)
    (hkeeps : ∀ i ∈ l, i.patch = none → i.entry.bytes.length ≤ Jar.entryLimit) :
    ∃ out, l.foldlM (Item.step p.applyOne) start = .ok out := by
  induction l generalizing start with
  | nil => exact ⟨start, rfl⟩
  | cons i rest ih =>
    obtain ⟨hsound, hread⟩ := List.forall_mem_cons.mp hread
    obtain ⟨hkept, hkeeps⟩ := List.forall_mem_cons.mp hkeeps
    rw [logged] at happlies
    obtain ⟨hfirst, hlater⟩ := List.forall_mem_append.mp happlies
    have hnext : ∃ next, i.step p.applyOne start = .ok next := by
      obtain ⟨e, damaged, patch?⟩ := i
      obtain rfl : damaged = false := hsound
      unfold Item.step
      cases patch? with
      | none => exact ⟨_, Jar.store_eq_ok.mpr ⟨.inr (hkept rfl), rfl⟩⟩
      | some patch =>
        obtain ⟨bytes, hresult, hfits⟩ := hfirst ⟨e.name, e.bytes, patch⟩ List.mem_cons_self
        rw [finish_eq, hresult]
        exact ⟨_, Jar.store_eq_ok.mpr ⟨.inr hfits, rfl⟩⟩
    obtain ⟨next, hnext⟩ := hnext
    rw [hnext] at hlater
    obtain ⟨out, hout⟩ := ih hread hlater hkeeps
    refine ⟨out, ?_⟩
    rw [List.foldlM_cons, hnext]
    exact hout

/-- These games, and no others, are patched. -/
theorem patchable_iff :
    p.Patchable archive game ↔ ∃ out, patchWith p.applyOne archive game = .ok out := by
  constructor
  · intro h
    have hpatches := readPatches_eq_ok.mpr ⟨h.patches, rfl⟩
    have happlies := h.applies
    rw [applications_eq, hpatches] at happlies
    have hitems := mem_items (ordered_patchesOf archive) game
    unfold patchWith
    rw [hpatches]
    refine ok_of_logged (fun i hi => ?_) happlies fun i hi hnone => ?_
    · obtain ⟨-, ⟨hfile, hdamaged⟩ | ⟨-, -, hsound, -⟩⟩ := (hitems i).mp hi
      · rw [hdamaged]
        simpa using h.readable _ hfile
      · exact hsound
    · obtain ⟨hfind, ⟨hfile, -⟩ | ⟨-, -, -, hsome⟩⟩ := (hitems i).mp hi
      · refine h.keeps _ hfile ?_
        rw [← find?_patchesOf, ← hfind, hnone]
      · rw [hnone] at hsome
        cases hsome
  · rintro ⟨out, h⟩
    have hpatched := patched_of_patchWith h
    have hfits : ∀ {name bytes}, out.get? name = some bytes → bytes.length ≤ Jar.entryLimit :=
      fun hget => (entries_of_patchWith h).2.2 _ (Jar.get?_eq_some.mp hget)
    obtain ⟨patches, hpatches, -⟩ := ok_of_bind h
    refine ⟨readable_of_patchWith h, (readPatches_eq_ok.mp hpatches).1, fun c hc => ?_,
      fun e he hnone => hfits (hpatched.kept e he hnone)⟩
    obtain ⟨bytes, hresult, hget⟩ := hpatched.held c hc
    exact ⟨bytes, hresult, hfits hget⟩

/-- Every patch of an archive is applied, exactly once. -/
def AllApplied (p : BinaryPatches) (archive game : Jar) : Prop :=
  ∀ entry patch, patchFor? archive entry = some patch →
    (p.applications archive game).count ⟨entry, baseOf game entry, patch⟩ = 1

/-- What is lost is just the patches for folders of the game. -/
theorem Patched.allApplied_iff {out : Jar} (h : p.Patched archive game out) :
    p.AllApplied archive game ↔
      ∀ entry, (patchFor? archive entry).isSome → ¬ IsFolderOf game entry := by
  constructor
  · intro hall entry hsome
    obtain ⟨patch, hpatch⟩ := Option.isSome_iff_exists.mp hsome
    have hmem := List.count_pos_iff.mp
      (Nat.lt_of_lt_of_eq Nat.one_pos (hall entry patch hpatch).symm)
    exact ((h.applied _).mp hmem).2.2
  · intro hfolders entry patch hpatch
    refine List.count_eq_one_of_mem h.once.of_map ((h.applied _).mpr ⟨hpatch, rfl, ?_⟩)
    exact hfolders entry (by rw [hpatch]; rfl)

/-! ## The stage -/

/-- The build of a patched jar. -/
def patching (p : BinaryPatches) (input output : String) : Work Unit := do
  let _ ← Work.openJar input
  let patches ← Work.ofExcept (readPatches (← Work.openJar p.archive))
  Work.rewriteJar input output (p.apply patches)

section

variable {input output : String} {w w' : Workspace}

theorem builds_patching (p : BinaryPatches) (input output : String) :
    Builds output (p.patching input output) :=
  .reading (Work.onlyReads_openJar input) fun _ =>
    .reading (Work.onlyReads_openJar p.archive) fun _ =>
      .reading (Work.onlyReads_ofExcept _) fun _ => builds_rewriteJar input output _

/-- Where the patches can be read, only the pass over the game is left. -/
theorem exec_patching (hgame : w.files.openJar input = .ok game)
    (harchive : w.files.openJar p.archive = .ok archive)
    (hread : readPatches archive = .ok patches) :
    (p.patching input output).exec w =
      (Work.writeJar output (p.apply patches game)).exec w := by
  unfold patching
  rw [Work.exec_bind, Work.exec_openJar, hgame]
  show (Work.openJar p.archive >>= _).exec w = _
  rw [Work.exec_bind, Work.exec_openJar, harchive]
  show (Work.ofExcept (readPatches archive) >>= _).exec w = _
  rw [hread]
  show (Work.openJar input >>= _).exec w = _
  rw [Work.exec_bind, Work.exec_openJar, hgame]

theorem opened_of_patching (h : ((p.patching input output).exec w).1 = .ok ()) :
    ∃ game archive patches, w.files.openJar input = .ok game ∧
      w.files.openJar p.archive = .ok archive ∧ readPatches archive = .ok patches := by
  obtain ⟨game, _, hopen, hnext⟩ := Work.ends_of_bind (Prod.ext h rfl)
  obtain ⟨hgame, rfl⟩ := Work.ends_openJar hopen
  obtain ⟨archive, _, hopen, hnext⟩ := Work.ends_of_bind hnext
  obtain ⟨harchive, rfl⟩ := Work.ends_openJar hopen
  obtain ⟨patches, _, hread, -⟩ := Work.ends_of_bind hnext
  exact ⟨game, archive, patches, hgame, harchive, (Work.ends_ofExcept hread).1⟩

theorem patching_ok_iff : ((p.patching input output).exec w).1 = .ok () ↔
    w.files.canWrite output = true ∧ ∃ game archive, w.files.openJar input = .ok game ∧
      w.files.openJar p.archive = .ok archive ∧ p.Patchable archive game := by
  constructor
  · intro h
    obtain ⟨game, archive, patches, hgame, harchive, hread⟩ := opened_of_patching h
    rw [exec_patching hgame harchive hread] at h
    obtain ⟨hcan, hout⟩ := Work.writeJar_ok_iff.mp h
    rw [← patchWith_of_readPatches p hread] at hout
    exact ⟨hcan, game, archive, hgame, harchive, patchable_iff.mpr hout⟩
  · rintro ⟨hcan, game, archive, hgame, harchive, hpatchable⟩
    have hread := readPatches_eq_ok.mpr ⟨hpatchable.patches, rfl⟩
    rw [exec_patching hgame harchive hread]
    refine Work.writeJar_ok_iff.mpr ⟨hcan, ?_⟩
    rw [← patchWith_of_readPatches p hread]
    exact patchable_iff.mp hpatchable

/-- What was written is a patched jar. -/
theorem ends_patching (h : Work.Ends (p.patching input output) w () w') :
    ∃ game archive out, w.files.openJar input = .ok game ∧
      w.files.openJar p.archive = .ok archive ∧ w'.files.openJar output = .ok out ∧
      p.Patched archive game out := by
  obtain ⟨game, archive, patches, hgame, harchive, hread⟩ :=
    opened_of_patching (congrArg Prod.fst h)
  obtain ⟨out, hout, hfound⟩ :=
    Work.ends_writeJar ((exec_patching hgame harchive hread).symm.trans h)
  rw [← patchWith_of_readPatches p hread] at hout
  exact ⟨game, archive, out, hgame, harchive, hfound, patched_of_patchWith hout⟩

/-- An application that fails is what the build fails with, if the output can be written. -/
theorem outcome_patching_of_failed (hgame : w.files.openJar input = .ok game)
    (harchive : w.files.openJar p.archive = .ok archive) (hcan : w.files.canWrite output = true)
    {c : Application} {reason : String} (hc : c ∈ p.applications archive game)
    (hfailed : c.result p = .error reason) :
    ((p.patching input output).exec w).1 = .error (p.failure c reason) := by
  have hpass := (p.outcome_patchWith archive game).eq_of_failed hc hfailed
  rw [applications_eq] at hc
  cases hread : readPatches archive with
  | error e =>
    rw [hread] at hc
    cases hc
  | ok patches =>
    rw [exec_patching hgame harchive hread]
    rw [patchWith_of_readPatches p hread] at hpass
    rcases Work.outcome_writeJar output (p.apply patches game) w with ⟨-, hout⟩ | ⟨hcannot, -⟩
    · rw [hout, hpass]
      rfl
    · rw [hcan] at hcannot
      cases hcannot

end

theorem transform_exec {ctx : StageContext} {input target : Artifact} {s : Workspace}
    (htarget : p.target ctx input = .ok target) :
    (p.transform ctx input).exec s =
      (ctx.produce target (p.patching input.path target.path)).exec s := by
  unfold transform
  rw [htarget, Work.exec_bind, Work.exec_ofExcept]
  rfl

/-- A patching that does not find its output there ends just when the folders around the output can
be made, the jars can be read, the new one can be written and no application fails. It has then
written a patched jar, and every patch was applied exactly once just when none is for a folder that
is listed in the game. If an application fails, the patching fails with it, and no output is left.
Jars that were there before are the ones that are opened. -/
theorem every_patch_is_applied_once_just_when_none_is_for_a_folder {ctx : StageContext}
    {input target : Artifact} {s : Workspace} (hrooted : s.files.Rooted)
    (htarget : p.target ctx input = .ok target) (hfresh : ¬ ctx.Trusts s target.path) :
    let begun := (s.around target).files
    ((∃ a s', Work.Ends (p.transform ctx input) s a s') ↔
      StageContext.Reachable target s ∧ begun.canWrite target.path = true ∧
        ∃ game archive, begun.openJar input.path = .ok game ∧
          begun.openJar p.archive = .ok archive ∧ p.Patchable archive game) ∧
    (∀ a s', Work.Ends (p.transform ctx input) s a s' →
      a = target ∧ ∃ game archive out, begun.openJar input.path = .ok game ∧
        begun.openJar p.archive = .ok archive ∧ s'.files.openJar target.path = .ok out ∧
        p.Patched archive game out ∧
        (p.AllApplied archive game ↔
          ∀ entry, (patchFor? archive entry).isSome → ¬ IsFolderOf game entry)) ∧
    (∀ game archive, StageContext.Reachable target s → begun.canWrite target.path = true →
      begun.openJar input.path = .ok game → begun.openJar p.archive = .ok archive →
      ∀ c ∈ p.applications archive game, ∀ reason, c.result p = .error reason →
        ∃ s', (p.transform ctx input).exec s =
            (.error (.patchFailed p.name s!"{c.entry}: {reason}"), s') ∧
          s'.files.isFile target.path = false) ∧
    ∀ path there, s.files.openJar path = .ok there → begun.openJar path = .ok there := by
  have hexec := transform_exec (s := s) htarget
  have hends : ∀ a s', Work.Ends (p.transform ctx input) s a s' ↔
      Work.Ends (ctx.produce target (p.patching input.path target.path)) s a s' :=
    fun a s' => Eq.congr_left hexec
  refine ⟨?_, fun a s' hrun => ?_,
    fun game archive hreach hcan hgame harchive c hc reason hfailed =>
      ⟨((p.transform ctx input).exec s).2, ?_⟩,
    fun path there h => Workspace.openJar_around h target⟩
  · simp only [hends]
    exact (StageContext.produce_ends_iff hfresh).trans (and_congr_right fun _ => patching_ok_iff)
  · have hproduced := (hends a s').mp hrun
    obtain rfl := StageContext.eq_of_ends_produce hproduced
    obtain ⟨-, v, hfiles, hbuild⟩ := StageContext.ends_produce hfresh hproduced
    obtain ⟨game, archive, out, hgame, harchive, hout, hpatched⟩ := ends_patching hbuild
    rw [hfiles] at hout
    exact ⟨rfl, game, archive, out, hgame, harchive, hout, hpatched, hpatched.allApplied_iff⟩
  · have hruns := StageContext.runs_iff.mpr ⟨hfresh, hreach⟩
    have herror : ((ctx.produce target (p.patching input.path target.path)).exec s).1 =
        .error (p.failure c reason) := by
      rw [StageContext.outcome_produce hruns,
        outcome_patching_of_failed hgame harchive hcan hc hfailed]
      rfl
    rw [hexec]
    exact ⟨Prod.ext herror rfl, StageContext.isFile_of_error (c := ⟨target, _⟩) hrooted
      (p.builds_patching input.path target.path) herror⟩

/-- Patches that are put behind the bytes of their entries. -/
def appending : BinaryPatches :=
  ⟨.default, "forge", "patches.jar", fun _ base patch => .ok (base ++ patch), none, []⟩

/-- A game that lists a folder. -/
def folderGame : Jar := Jar.ofEntries [⟨"dir/", []⟩, ⟨"a.class", [1]⟩, ⟨"b.class", [2]⟩]

/-- Patches for two classes, one of which is new. -/
def classPatches : Jar := Jar.ofEntries [⟨"n.class.binpatch", [3]⟩, ⟨"a.class.binpatch", [4]⟩]

/-- A patch for a folder beside one for a class. -/
def folderPatches : Jar := Jar.ofEntries [⟨"a.class.binpatch", [4]⟩, ⟨"dir/.binpatch", [5]⟩]

def patchWorkspace (archive : Jar) : Workspace :=
  .ofFiles ((Files.empty.putAt (Files.home.push "game.jar") (.file (.jar folderGame))).putAt
    (Files.home.push "patches.jar") (.file (.jar archive)))

/-- Two classes are patched, though the game lists a folder. -/
theorem patches_for_classes_are_applied :
    let ctx := StageContext.bareContext false
    let input := StageContext.clientAt "game.jar"
    let s := patchWorkspace classPatches
    ∃ target, s.files.Rooted ∧ appending.target ctx input = .ok target ∧
      ¬ ctx.Trusts s target.path ∧ ∃ a s' out,
        Work.Ends (appending.transform ctx input) s a s' ∧
        s'.files.openJar target.path = .ok out ∧ appending.AllApplied classPatches folderGame ∧
        out.get? "a.class" = some [1, 4] ∧ out.get? "n.class" = some [3] ∧
        out.get? "b.class" = some [2] := by
  intro ctx input s
  have hrooted : s.files.Rooted := by
    unfold Files.Rooted
    decide +kernel
  have htarget : appending.target ctx input = .ok (input.derive "forge") := rfl
  have hfresh : ¬ ctx.Trusts s (input.derive "forge").path := by decide +kernel
  obtain ⟨hends, hpatched, -, hkept⟩ :=
    every_patch_is_applied_once_just_when_none_is_for_a_folder hrooted htarget hfresh
  have hgame := hkept input.path folderGame (by decide +kernel)
  have harchive := hkept appending.archive classPatches (by decide +kernel)
  have hfits : ∀ c ∈ appending.applications classPatches folderGame,
      (c.base ++ c.patch).length ≤ Jar.entryLimit := by decide +kernel
  have hpatchable : appending.Patchable classPatches folderGame :=
    ⟨by decide +kernel, by decide +kernel, fun c hc => ⟨_, rfl, hfits c hc⟩, by decide +kernel⟩
  obtain ⟨a, s', hrun⟩ := hends.mpr ⟨by decide +kernel, by decide +kernel, folderGame, classPatches,
    hgame, harchive, hpatchable⟩
  obtain ⟨-, game, archive, out, hgame', harchive', hout, hdone, hall⟩ := hpatched a s' hrun
  rw [hgame] at hgame'
  rw [harchive] at harchive'
  cases hgame'
  cases harchive'
  have hfiles : ∀ name ∈ folderGame.allNames, Jar.isFolder name →
      patchFor? classPatches name = none := by decide +kernel
  have hheld : ∀ c ∈ appending.applications classPatches folderGame,
      out.get? c.entry = some (c.base ++ c.patch) := fun c hc => by
    obtain ⟨bytes, hresult, hget⟩ := hdone.held c hc
    cases hresult
    exact hget
  refine ⟨_, hrooted, htarget, hfresh, a, s', out, hrun, hout, hall.mpr ?_, ?_, ?_, ?_⟩
  · rintro entry hsome ⟨hthere, hfolder⟩
    rw [hfiles entry (Jar.contains_iff_mem.mp hthere) hfolder] at hsome
    cases hsome
  · exact hheld ⟨"a.class", [1], [4]⟩ (by decide +kernel)
  · exact hheld ⟨"n.class", [], [3]⟩ (by decide +kernel)
  · exact hdone.kept ⟨"b.class", [2]⟩ (by decide +kernel) (by decide +kernel)

/-- A patch for a folder that the game lists is not applied, and nothing tells of it. -/
theorem a_patch_is_not_always_applied :
    ¬ ∀ (p : BinaryPatches) (ctx : StageContext) (input target : Artifact) (s : Workspace),
      p.target ctx input = .ok target → ¬ ctx.Trusts s target.path →
      ∀ a s', Work.Ends (p.transform ctx input) s a s' →
        ∀ game archive, s.files.openJar input.path = .ok game →
          s.files.openJar p.archive = .ok archive → p.AllApplied archive game := by
  intro h
  have hends : (((appending.transform (StageContext.bareContext false)
      (StageContext.clientAt "game.jar")).exec (patchWorkspace folderPatches)).1).isOk = true := by
    decide +kernel
  cases hrun : (appending.transform (StageContext.bareContext false)
      (StageContext.clientAt "game.jar")).exec (patchWorkspace folderPatches) with
  | mk r s' =>
    rw [hrun] at hends
    cases r with
    | error e => cases hends
    | ok a =>
      have hall := h appending (StageContext.bareContext false) (StageContext.clientAt "game.jar")
        ((StageContext.clientAt "game.jar").derive "forge") (patchWorkspace folderPatches) rfl
        (by decide +kernel) a s' hrun folderGame folderPatches (by decide +kernel)
        (by decide +kernel)
      have hcount : (appending.applications folderPatches folderGame).count
          ⟨"dir/", baseOf folderGame "dir/", [5]⟩ ≠ 1 := by decide +kernel
      exact hcount (hall "dir/" [5] (by decide +kernel))

end BinaryPatches

end JarDerivation
