-- What jar mods make of the game jar. They are laid over each other first, so that of each name
-- the last mod counts, and then the game is copied. The copy asks whether a name is in the game,
-- folders included, but looks at its files only. Nothing gets lost between the two, for no mod
-- brings a folder.
import JarDerivation.Patcher.JarMod
import JarDerivation.Proofs.Jar.Editing
import JarDerivation.Proofs.Stage.Protocol

namespace JarDerivation

namespace JarMod

variable {j game : Jar} {jars : List Jar} {overlay : Text.Ascending Bytes} {name : String}
  {b : Bytes}

/-! ## What mods bring -/

/-- What a mod brings under a name. Its folders do not count, nor its signatures and manifest. -/
def carried? (mod : Jar) (name : String) : Option Bytes :=
  if isOverlaid name && !Jar.isFolder name then mod.get? name else none

/-- What the last mod brings that has the name. -/
def lastCarried? (mods : List Jar) (name : String) : Option Bytes :=
  mods.reverse.findSome? (carried? · name)

theorem carried?_eq_some_iff :
    carried? j name = some b ↔ ⟨name, b⟩ ∈ j.files.filter fun e => isOverlaid e.name := by
  unfold carried? Jar.files
  rw [List.mem_filter, List.mem_filter]
  cases isOverlaid name <;> cases Jar.isFolder name <;> simp [Jar.get?_eq_some]

theorem lastCarried?_cons (j : Jar) (jars : List Jar) (name : String) :
    lastCarried? (j :: jars) name = (lastCarried? jars name).or (carried? j name) := by
  unfold lastCarried?
  rw [List.reverse_cons, List.findSome?_append, List.findSome?_singleton]

/-- No mod brings a folder. -/
theorem isFolder_of_lastCarried? (h : lastCarried? jars name = some b) :
    Jar.isFolder name = false := by
  obtain ⟨j, -, hcarried⟩ := List.exists_of_findSome?_eq_some h
  obtain ⟨hfile, -⟩ := List.mem_filter.mp (carried?_eq_some_iff.mp hcarried)
  simpa using (List.mem_filter.mp hfile).2

/-! ## The mods laid over each other -/

/-- A mod laid over those before it. -/
def lay (overlay : Text.Ascending Bytes) (j : Jar) : Text.Ascending Bytes :=
  overlay.insertAll ((j.files.filter fun e => isOverlaid e.name).map fun e => (e.name, e.bytes))

/-- All files of a mod are read, also those that it does not bring. -/
theorem overlayJar_eq_ok {laid : Text.Ascending Bytes} :
    overlayJar overlay j = .ok laid ↔ j.Readable ∧ lay overlay j = laid := by
  have hlay : lay overlay j = j.files.foldl
      (fun m e => if isOverlaid e.name then m.insert e.name e.bytes else m) overlay := by
    unfold lay Text.Ascending.insertAll
    rw [List.foldl_map, List.foldl_filter]
  rw [hlay]
  refine foldlM_eq_ok fun m e next => ⟨fun h => ?_, fun ⟨hread, hnext⟩ => ?_⟩
  · obtain ⟨bytes, hread, hnext⟩ := ok_of_bind h
    obtain ⟨hsound, rfl⟩ := Jar.read_eq_ok.mp hread
    exact ⟨hsound, Except.ok.inj hnext⟩
  · rw [Jar.read_eq_ok.mpr ⟨hread, rfl⟩]
    exact congrArg Except.ok hnext

/-- What a mod brings takes the place of what was there. -/
theorem find?_lay (overlay : Text.Ascending Bytes) (j : Jar) (name : String) :
    (lay overlay j).find? name = (carried? j name).or (overlay.find? name) := by
  have hdistinct : (((j.files.filter fun e => isOverlaid e.name).map fun e =>
      (e.name, e.bytes)).map Prod.fst).Nodup := by
    rw [List.map_map]
    exact j.nodup_files.sublist (List.filter_sublist.map _)
  unfold lay
  rw [Text.Ascending.find?_insertAll hdistinct]
  congr 1
  apply Option.ext
  intro b
  rw [Text.Ascending.lookup_eq_some_iff_of_nodup hdistinct, carried?_eq_some_iff, List.mem_map]
  constructor
  · rintro ⟨e, he, heq⟩
    cases heq
    exact he
  · exact fun h => ⟨_, h, rfl⟩

/-- Under each name there is what the last mod brings. -/
theorem find?_overlaid (jars : List Jar) (overlay : Text.Ascending Bytes) (name : String) :
    (jars.foldl lay overlay).find? name = (lastCarried? jars name).or (overlay.find? name) := by
  induction jars generalizing overlay with
  | nil => rfl
  | cons j rest ih =>
    rw [List.foldl_cons, ih, find?_lay, lastCarried?_cons, Option.or_assoc]

theorem ordered_overlaid (jars : List Jar) : (jars.foldl lay []).Ordered :=
  List.foldlRecOn jars _ List.Pairwise.nil fun _ h _ _ => Text.Ascending.ordered_insertAll h _

/-! ## The copy of the game -/

/-- The files of the game, and then what is not in the game. -/
def laidEntries (overlay : Text.Ascending Bytes) (game : Jar) : List Entry :=
  (game.files.map fun e => ⟨e.name, (overlay.find? e.name).getD e.bytes⟩) ++
    (overlay.filter fun e => !game.contains e.1).map fun e => ⟨e.1, e.2⟩

theorem nodup_laidEntries (h : overlay.Ordered) (game : Jar) :
    ((laidEntries overlay game).map Entry.name).Nodup := by
  unfold laidEntries
  rw [List.map_append, List.map_map, List.map_map]
  exact game.nodup_files_append_new h

/-- The copy is made just when all of the game can be read and nothing gets too large. -/
theorem apply_eq_ok (h : overlay.Ordered) {out : Jar} :
    (apply overlay game).outcome = .ok out ↔
      game.Readable ∧ out.Fits ∧ Jar.ofEntries (laidEntries overlay game) = out := by
  have hmade : (apply overlay game).outcome = .ok out ↔
      game.Readable ∧ Jar.empty.storeAll (laidEntries overlay game) = .ok out := by
    unfold apply
    rw [Traced.outcome_bind, laidEntries, Jar.storeAll_append]
    constructor
    · intro hout
      obtain ⟨own, hown, hadded⟩ := ok_of_bind hout
      obtain ⟨hread, hown⟩ := (Jar.editEntries_eq_ok fun _ _ => rfl).mp hown
      refine ⟨hread, ?_⟩
      rw [hown]
      exact hadded
    · rintro ⟨hread, hout⟩
      obtain ⟨own, hown, hadded⟩ := ok_of_bind hout
      rw [(Jar.editEntries_eq_ok fun _ _ => rfl).mpr ⟨hread, hown⟩]
      exact hadded
  exact hmade.trans (and_congr_right fun _ => Jar.storeAll_empty_eq_ok (nodup_laidEntries h game))

/-- A jar with mods laid over it: the files of the game in their order, then what else the mods
bring in ascending order, and under each name what the last mod has that has it. -/
structure Overlaid (game : Jar) (mods : List Jar) (out : Jar) : Prop where
  names : ∃ new, out.allNames = game.files.map Entry.name ++ new ∧ new.Pairwise (· < ·) ∧
    ∀ name, name ∈ new ↔ (lastCarried? mods name).isSome ∧ name ∉ game.files.map Entry.name
  once : out.allNames.Nodup
  bytes : ∀ e ∈ out.entries, some e.bytes = (lastCarried? mods e.name).or (game.get? e.name)

theorem overlaid_laidEntries (game : Jar) (jars : List Jar) :
    Overlaid game jars (.ofEntries (laidEntries (jars.foldl lay []) game)) := by
  have hordered := ordered_overlaid jars
  have hfind : ∀ name, (jars.foldl lay []).find? name = lastCarried? jars name :=
    fun name => (find?_overlaid jars [] name).trans Option.or_none
  have hmem : ∀ name b, (name, b) ∈ jars.foldl lay [] ↔ lastCarried? jars name = some b :=
    fun name b => by rw [← hordered.find?_eq_some_iff, hfind]
  have hentries := Jar.entries_ofEntries (nodup_laidEntries hordered game)
  refine ⟨⟨((jars.foldl lay []).filter fun e => !game.contains e.1).map Prod.fst, ?_, ?_, ?_⟩,
    Jar.distinct _, ?_⟩
  · unfold Jar.allNames
    rw [hentries, laidEntries, List.map_append, List.map_map, List.map_map]
    rfl
  · exact List.pairwise_map.mpr (hordered.filter _)
  · intro name
    -- what mods bring is in the game just when it is among its files
    have hgame : ∀ b, lastCarried? jars name = some b →
        (name ∈ game.files.map Entry.name ↔ game.contains name) := fun b hb => by
      simp [Jar.mem_names_files, isFolder_of_lastCarried? hb]
    rw [game.mem_names_new hordered, hfind]
    refine and_congr_right fun hsome => ?_
    obtain ⟨b, hb⟩ := Option.isSome_iff_exists.mp hsome
    rw [hgame b hb]
  · intro e he
    rw [hentries, laidEntries] at he
    rcases List.mem_append.mp he with he | he
    · obtain ⟨d, hd, rfl⟩ := List.mem_map.mp he
      dsimp only
      rw [Jar.get?_of_mem (List.mem_of_mem_filter hd), hfind]
      cases lastCarried? jars d.name <;> rfl
    · obtain ⟨x, hx, rfl⟩ := List.mem_map.mp he
      have hb := (hmem x.1 x.2).mp (List.mem_of_mem_filter hx)
      rw [hb]
      rfl

/-- Game and mods leave no choice of what the entries are. -/
theorem Overlaid.mem_entries {out out' : Jar} (h : Overlaid game jars out)
    (h' : Overlaid game jars out') {e : Entry} (he : e ∈ out.entries) : e ∈ out'.entries := by
  obtain ⟨new, hnames, -, hnew⟩ := h.names
  obtain ⟨new', hnames', -, hnew'⟩ := h'.names
  have hname : e.name ∈ out.allNames := List.mem_map_of_mem he
  rw [hnames, List.mem_append, hnew, ← hnew', ← List.mem_append, ← hnames'] at hname
  obtain ⟨d, hd, hsame⟩ := List.mem_map.mp hname
  have hbytes := (h'.bytes d hd).trans (hsame ▸ (h.bytes e he).symm)
  rwa [Entry.ext hsame (Option.some.inj hbytes)] at hd

theorem Overlaid.fits {out out' : Jar} (h : Overlaid game jars out) (hfits : out.Fits)
    (h' : Overlaid game jars out') : out'.Fits :=
  fun e he => hfits e (h'.mem_entries h he)

/-- A name that is no folder is found just when a mod brings it or the game has it. -/
theorem Overlaid.get?_eq {out : Jar} (h : Overlaid game jars out) (hfile : ¬ Jar.isFolder name) :
    out.get? name = (lastCarried? jars name).or (game.get? name) := by
  cases hout : out.get? name with
  | some b => exact h.bytes _ (Jar.get?_eq_some.mp hout)
  | none =>
    obtain ⟨new, hnames, -, hnew⟩ := h.names
    have hnot : name ∉ game.files.map Entry.name ++ new := fun hmem => by
      rw [← hnames] at hmem
      exact Jar.get?_eq_none.mp hout (Jar.contains_iff_mem.mpr hmem)
    obtain ⟨hgame, hmods⟩ := not_or.mp (List.mem_append.not.mp hnot)
    have hnone : game.get? name = none :=
      Jar.get?_eq_none.mpr fun hthere => hgame (Jar.mem_names_files.mpr ⟨hthere, hfile⟩)
    have hcarried : lastCarried? jars name = none := by
      by_contra hsome
      exact hmods ((hnew name).mpr ⟨Option.isSome_iff_ne_none.mpr hsome, hgame⟩)
    rw [hnone, hcarried]
    rfl

/-! ## The stage -/

/-- Collecting does nothing but to open the mods and to read them. -/
theorem exec_collect (mods : List String) (w : Workspace) :
    (collect mods).exec w =
      (mods.foldlM (fun overlay path => w.files.openJar path >>= overlayJar overlay) [], w) := by
  unfold collect
  generalize ([] : Text.Ascending Bytes) = start
  induction mods generalizing start with
  | nil => rfl
  | cons path rest ih =>
    rw [List.foldlM_cons, List.foldlM_cons, Work.exec_bind, Work.exec_bind, Work.exec_openJar]
    cases w.files.openJar path with
    | error e => rfl
    | ok j =>
      dsimp only
      rw [Work.exec_ofExcept]
      show _ = (overlayJar start j >>= _, w)
      cases overlayJar start j with
      | error e => rfl
      | ok laid => exact ih laid

/-- That goes well just when all mods can be opened and read. -/
theorem foldlM_overlayJar_eq_ok {f : Files} {mods : List String}
    {start laid : Text.Ascending Bytes} :
    mods.foldlM (fun overlay path => f.openJar path >>= overlayJar overlay) start = .ok laid ↔
      ∃ jars, mods.mapM f.openJar = .ok jars ∧ (∀ j ∈ jars, j.Readable) ∧
        jars.foldl lay start = laid := by
  induction mods generalizing start with
  | nil =>
    constructor
    · intro h
      exact ⟨[], rfl, List.forall_mem_nil _, Except.ok.inj h⟩
    · rintro ⟨jars, hjars, -, hlaid⟩
      cases hjars
      exact congrArg Except.ok hlaid
  | cons path rest ih =>
    rw [List.foldlM_cons, List.mapM_cons]
    constructor
    · intro h
      obtain ⟨next, hnext, hrest⟩ := ok_of_bind h
      obtain ⟨j, hopen, hread⟩ := ok_of_bind hnext
      obtain ⟨hsound, rfl⟩ := overlayJar_eq_ok.mp hread
      obtain ⟨jars, hjars, hothers, hlaid⟩ := ih.mp hrest
      refine ⟨j :: jars, ?_, List.forall_mem_cons.mpr ⟨hsound, hothers⟩, hlaid⟩
      rw [hopen, hjars]
      rfl
    · rintro ⟨jars, hjars, hread, hlaid⟩
      obtain ⟨j, hopen, hjars⟩ := ok_of_bind hjars
      obtain ⟨others, hothers, hjars⟩ := ok_of_bind hjars
      cases hjars
      obtain ⟨hsound, hread⟩ := List.forall_mem_cons.mp hread
      rw [hopen]
      show (overlayJar start j >>= _) = _
      rw [overlayJar_eq_ok.mpr ⟨hsound, rfl⟩]
      exact ih.mpr ⟨others, hothers, hread, hlaid⟩

/-- The jars that a patching with mods reads: they can be opened and read, and the game with the
mods laid over it can be written. -/
structure Layable (f : Files) (input : String) (mods : List String) (game : Jar)
    (jars : List Jar) : Prop where
  opened : f.openJar input = .ok game
  collected : mods.mapM f.openJar = .ok jars
  readable : ∀ j ∈ game :: jars, j.Readable
  fits : ∃ out, Overlaid game jars out ∧ out.Fits

/-- The output is written as long as all jars can be opened and read and the new one can be
written. -/
theorem rewrite_ok_iff {mods : List String} {input output : String} {w : Workspace} :
    ((do
      let overlay ← collect mods
      Work.rewriteJar input output (apply overlay)).exec w).1 = .ok () ↔
      w.files.canWrite output = true ∧ ∃ game jars, Layable w.files input mods game jars := by
  rw [Work.exec_bind, exec_collect]
  cases hcollect : mods.foldlM (fun overlay path => w.files.openJar path >>= overlayJar overlay)
      ([] : Text.Ascending Bytes) with
  | error e =>
    refine ⟨nofun, fun ⟨_, game, jars, h⟩ => ?_⟩
    cases hcollect.symm.trans (foldlM_overlayJar_eq_ok.mpr
      ⟨jars, h.collected, (List.forall_mem_cons.mp h.readable).2, rfl⟩)
  | ok laid =>
    obtain ⟨jars, hjars, hread, rfl⟩ := foldlM_overlayJar_eq_ok.mp hcollect
    show ((Work.rewriteJar input output _).exec w).1 = _ ↔ _
    unfold Work.rewriteJar
    rw [Work.exec_bind, Work.exec_openJar]
    cases hgame : w.files.openJar input with
    | error e =>
      refine ⟨nofun, fun ⟨_, game, _, h⟩ => ?_⟩
      cases hgame.symm.trans h.opened
    | ok game =>
      refine Work.writeJar_ok_iff.trans (and_congr_right fun _ => ?_)
      constructor
      · rintro ⟨out, hout⟩
        obtain ⟨hsound, hfits, rfl⟩ := (apply_eq_ok (ordered_overlaid jars)).mp hout
        exact ⟨game, jars, hgame, hjars, List.forall_mem_cons.mpr ⟨hsound, hread⟩, _,
          overlaid_laidEntries game jars, hfits⟩
      · rintro ⟨game', jars', h⟩
        obtain rfl := Except.ok.inj (hgame.symm.trans h.opened)
        obtain rfl := Except.ok.inj (hjars.symm.trans h.collected)
        obtain ⟨out, hout, hfits⟩ := h.fits
        exact ⟨_, (apply_eq_ok (ordered_overlaid jars)).mpr
          ⟨(List.forall_mem_cons.mp h.readable).1,
            hout.fits hfits (overlaid_laidEntries game jars), rfl⟩⟩

/-- An output that was written is the game with the mods laid over it. -/
theorem ends_rewrite {mods : List String} {input output : String} {w w' : Workspace}
    (h : Work.Ends (do
      let overlay ← collect mods
      Work.rewriteJar input output (apply overlay)) w () w') :
    ∃ game jars out, w.files.openJar input = .ok game ∧ mods.mapM w.files.openJar = .ok jars ∧
      w'.files.openJar output = .ok out ∧ Overlaid game jars out := by
  obtain ⟨overlay, v, hcollect, hrewrite⟩ := Work.ends_of_bind h
  obtain ⟨hlaid, rfl⟩ := Prod.mk.inj ((exec_collect mods w).symm.trans hcollect)
  obtain ⟨jars, hjars, -, rfl⟩ := foldlM_overlayJar_eq_ok.mp hlaid
  obtain ⟨game, _, hopen, hwrite⟩ := Work.ends_of_bind hrewrite
  obtain ⟨hgame, rfl⟩ := Work.ends_openJar hopen
  obtain ⟨out, hout, hfound⟩ := Work.ends_writeJar hwrite
  obtain ⟨-, -, rfl⟩ := (apply_eq_ok (ordered_overlaid jars)).mp hout
  exact ⟨game, jars, _, hgame, hjars, hfound, overlaid_laidEntries game jars⟩

/-- A patching with mods that does not find its output there ends just when the folders around the
output can be made, all jars can be read and the new one can be written. It has then written the
game with the mods laid over it: the files of the game in their order, then what else the mods
bring in ascending order of the names, each name once and with the bytes of the last mod that has
it. Jars that were there before are the ones that are opened. -/
theorem a_name_gets_the_bytes_of_the_last_mod_that_has_it {ctx : StageContext}
    {mods : List String} {input : Artifact} {s : Workspace} (hmods : mods ≠ [])
    (hfresh : ¬ ctx.Trusts s (input.derive "jarmod").path) :
    let target := input.derive "jarmod"
    let begun := (s.around target).files
    ((∃ a s', Work.Ends (transform ctx mods input) s a s') ↔
      StageContext.Reachable target s ∧ begun.canWrite target.path = true ∧
        ∃ game jars, Layable begun input.path mods game jars) ∧
    (∀ a s', Work.Ends (transform ctx mods input) s a s' →
      a = target ∧ ∃ game jars out, begun.openJar input.path = .ok game ∧
        mods.mapM begun.openJar = .ok jars ∧ s'.files.openJar target.path = .ok out ∧
        Overlaid game jars out) ∧
    ∀ path there, s.files.openJar path = .ok there → begun.openJar path = .ok there := by
  unfold transform
  rw [if_neg (by simpa using hmods)]
  generalize input.derive "jarmod" = target at hfresh ⊢
  refine ⟨(StageContext.produce_ends_iff hfresh).trans (and_congr_right fun _ => rewrite_ok_iff),
    fun a s' hrun => ?_, fun path there h => Workspace.openJar_around h target⟩
  obtain rfl := StageContext.eq_of_ends_produce hrun
  obtain ⟨-, v, hfiles, hbuild⟩ := StageContext.ends_produce hfresh hrun
  rw [← hfiles]
  exact ⟨rfl, ends_rewrite hbuild⟩

/-- A game with a folder and two classes. -/
def plainGame : Jar := Jar.ofEntries [⟨"lib/", []⟩, ⟨"a.class", [1]⟩, ⟨"b.class", [1]⟩]

/-- A signed mod for both classes. -/
def signedMod : Jar :=
  Jar.ofEntries [⟨"a.class", [2]⟩, ⟨"b.class", [2]⟩, ⟨"META-INF/MOD.SF", [2]⟩]

/-- A mod for one of them, with a class of its own. -/
def laterMod : Jar := Jar.ofEntries [⟨"c.class", [3]⟩, ⟨"a.class", [3]⟩, ⟨"lib/", []⟩]

def moddedWorkspace : Workspace :=
  .ofFiles (((Files.empty.putAt (Files.home.push "game.jar") (.file (.jar plainGame))).putAt
    (Files.home.push "one.jar") (.file (.jar signedMod))).putAt
    (Files.home.push "two.jar") (.file (.jar laterMod)))

/-- Both mods are seen, the second one over the first. -/
theorem two_mods_are_laid_over_a_client :
    let ctx := StageContext.bareContext false
    let game := StageContext.clientAt "game.jar"
    ["one.jar", "two.jar"] ≠ [] ∧ ¬ ctx.Trusts moddedWorkspace (game.derive "jarmod").path ∧
      ∃ a s' out, Work.Ends (transform ctx ["one.jar", "two.jar"] game) moddedWorkspace a s' ∧
        s'.files.openJar (game.derive "jarmod").path = .ok out ∧
        out.get? "a.class" = some [3] ∧ out.get? "b.class" = some [2] ∧
        out.get? "c.class" = some [3] ∧ out.get? "META-INF/MOD.SF" = none := by
  intro ctx game
  have hmods : ["one.jar", "two.jar"] ≠ [] := by decide
  have hfresh : ¬ ctx.Trusts moddedWorkspace (game.derive "jarmod").path := by decide +kernel
  obtain ⟨hends, hlaid, hkept⟩ := a_name_gets_the_bytes_of_the_last_mod_that_has_it hmods hfresh
  have hgame := hkept game.path plainGame (by decide +kernel)
  have hone := hkept "one.jar" signedMod (by decide +kernel)
  have htwo := hkept "two.jar" laterMod (by decide +kernel)
  obtain ⟨a, s', hrun⟩ := hends.mpr ⟨by decide +kernel, by decide +kernel, plainGame,
    [signedMod, laterMod], hgame, by rw [List.mapM_cons, hone, List.mapM_cons, htwo]; rfl,
    by decide +kernel, _, overlaid_laidEntries _ _, by decide +kernel⟩
  obtain ⟨-, opened, jars, out, hopened, hjars, hout, hoverlaid⟩ := hlaid a s' hrun
  rw [hgame] at hopened
  rw [List.mapM_cons, hone, List.mapM_cons, htwo] at hjars
  cases hopened
  cases hjars
  refine ⟨hmods, hfresh, a, s', out, hrun, hout, ?_, ?_, ?_, ?_⟩ <;>
    rw [hoverlaid.get?_eq (by decide +kernel)] <;> decide +kernel

end JarMod

end JarDerivation
