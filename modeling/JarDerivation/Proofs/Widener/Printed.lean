-- Which access wideners can be printed. The text of a widener is read back as that widener
-- just when each of its names is one word without a comment mark, and each entry is one
-- that a line may hold. Whatever is read is of this kind, and a rename by words keeps it.
import JarDerivation.Proofs.Outcome
import JarDerivation.Proofs.Remap.Descriptor
import JarDerivation.Proofs.Text.Utf8
import JarDerivation.Proofs.Text.Words
import JarDerivation.Remap.Resource
import Mathlib.Data.List.TakeWhile

namespace JarDerivation

/-! ## What a text can hold -/

/-- A name that stands in a line as one word. -/
def Widener.Token (s : String) : Prop := Text.IsWord s.toList ∧ '#' ∉ s.toList

instance : DecidablePred Widener.Token := fun s =>
  decidable_of_iff ((!s.toList.isEmpty && s.toList.all (!Text.isBlank ·)) &&
      !s.toList.contains '#' : Bool) (by simp [Widener.Token, Text.IsWord])

namespace WidenTarget

/-- The texts of a target, in the order in which they are printed. -/
def texts : WidenTarget → List String
  | .class name => [name]
  | .method owner name desc => [owner, name, desc]
  | .field owner name desc => [owner, name, desc]

/-- The word for what a target is. -/
def kindWord : WidenTarget → String
  | .class _ => "class"
  | .method .. => "method"
  | .field .. => "field"

/-- The accesses that a target can be given. -/
def Takes : WidenTarget → AccessKind → Prop
  | .class _, access => access ≠ .mutable
  | .method .., access => access ≠ .mutable
  | .field .., access => access ≠ .extendable

end WidenTarget

structure WidenEntry.WellFormed (version : Nat) (e : WidenEntry) : Prop where
  texts : ∀ s ∈ e.target.texts, Widener.Token s
  transitive : e.transitive = true → version = 2
  takes : e.target.Takes e.access

structure Widener.WellFormed (w : Widener) : Prop where
  version : w.version = 1 ∨ w.version = 2
  namespaceName : Token w.namespaceName
  entries : ∀ e ∈ w.entries, e.WellFormed w.version

namespace Widener

theorem misfit?_eq_none {access : AccessKind} {target : WidenTarget} :
    misfit? access target = none ↔ target.Takes access := by
  cases target <;> simp [misfit?, WidenTarget.Takes]

/-! ## Lines -/

variable {ws : List String} {line : List Char}

/-- A line of words. -/
def lineOf (ws : List String) : List Char := Text.joined (ws.map String.toList)

theorem isWord_of_tokens (h : ∀ s ∈ ws, Token s) : ∀ w ∈ ws.map String.toList, Text.IsWord w := by
  intro w hw
  obtain ⟨s, hs, rfl⟩ := List.mem_map.mp hw
  exact (h s hs).1

theorem hash_notMem_joined {ws : List (List Char)} (h : ∀ w ∈ ws, '#' ∉ w) :
    '#' ∉ Text.joined ws := by
  induction ws with
  | nil => exact List.not_mem_nil
  | cons w rest ih =>
    obtain ⟨hw, hrest⟩ := List.forall_mem_cons.mp h
    cases rest with
    | nil => exact (Text.joined_singleton w).symm ▸ hw
    | cons next others =>
      rw [Text.joined_cons_cons]
      simp [hw, ih hrest]

theorem content_lineOf (h : ∀ s ∈ ws, Token s) : content (lineOf ws) = lineOf ws := by
  have hhash : '#' ∉ lineOf ws := by
    refine hash_notMem_joined fun w hw => ?_
    obtain ⟨s, hs, rfl⟩ := List.mem_map.mp hw
    exact (h s hs).2
  have hall : (lineOf ws).takeWhile (· != '#') = lineOf ws := by
    rw [List.takeWhile_eq_self_iff]
    exact fun c hc => bne_iff_ne.mpr fun heq => hhash (heq ▸ hc)
  unfold content
  rw [hall]
  exact Text.trim_joined (isWord_of_tokens h)

theorem words_lineOf (h : ∀ s ∈ ws, Token s) :
    (Text.words (lineOf ws)).map String.ofList = ws := by
  have hid : String.ofList ∘ String.toList = id := funext fun _ => String.ofList_toList
  unfold lineOf
  rw [Text.words_joined (isWord_of_tokens h), List.map_map, hid, List.map_id]

theorem numbered_lineOf (h : ∀ s ∈ ws, Token s) (hne : ws ≠ []) (n : Nat)
    (rest : List (List Char)) :
    numbered n (lineOf ws :: rest) = (n, lineOf ws) :: numbered (n + 1) rest := by
  obtain ⟨⟨c, tail, hstart, _⟩, _⟩ :=
    Text.ends_of_joined (isWord_of_tokens h) (by simpa using hne)
  have hsome : (content (lineOf ws)).isEmpty = false := by
    rw [content_lineOf h]
    unfold lineOf
    rw [hstart]
    rfl
  rw [numbered, hsome, content_lineOf h]
  rfl

/-! ## Printing -/

/-- The word for an access. -/
def accessWord (access : AccessKind) (transitive : Bool) : String :=
  (if transitive then "transitive-" else "") ++ access.name

def entryWords (e : WidenEntry) : List String :=
  accessWord e.access e.transitive :: e.target.kindWord :: e.target.texts

def headerWords (w : Widener) : List String :=
  ["accessWidener", "v" ++ Nat.repr w.version, w.namespaceName]

theorem toList_entryText (e : WidenEntry) :
    (entryText e).toList = lineOf (entryWords e) ++ ['\n'] := by
  obtain ⟨access, transitive, target⟩ := e
  cases target <;>
    simp [entryText, entryWords, accessWord, targetText, lineOf, Text.joined, List.intercalate,
      WidenTarget.kindWord, WidenTarget.texts, toString]

/-- A widener is printed line by line. -/
theorem toList_toText (w : Widener) : w.toText.toList =
    Text.ended (lineOf (headerWords w) :: w.entries.map fun e => lineOf (entryWords e)) := by
  have hheader : s!"accessWidener v{w.version} {w.namespaceName}\n".toList =
      lineOf (headerWords w) ++ ['\n'] := by
    simp [headerWords, lineOf, Text.joined, List.intercalate, toString]
  have hentries : (w.entries.map entryText).flatMap String.toList =
      w.entries.flatMap fun e => lineOf (entryWords e) ++ ['\n'] := by
    rw [List.flatMap_map]
    simp only [toList_entryText]
  unfold toText
  rw [String.toList_append, hheader, String.toList_join, hentries, Text.ended, List.flatMap_cons,
    List.flatMap_map]

theorem token_accessWord (access : AccessKind) (transitive : Bool) :
    Token (accessWord access transitive) := by
  cases access <;> cases transitive <;> decide

theorem token_kindWord (target : WidenTarget) : Token target.kindWord := by
  have hall : ∀ s ∈ ["class", "method", "field"], Token s := by decide
  apply hall
  cases target <;> simp [WidenTarget.kindWord]

theorem token_entryWords {version : Nat} {e : WidenEntry} (h : e.WellFormed version) :
    ∀ s ∈ entryWords e, Token s :=
  List.forall_mem_cons.mpr ⟨token_accessWord _ _,
    List.forall_mem_cons.mpr ⟨token_kindWord e.target, h.texts⟩⟩

theorem splitTransitive_accessWord (access : AccessKind) (transitive : Bool) :
    splitTransitive (accessWord access transitive) = (transitive, access.name) := by
  cases access <;> cases transitive <;> decide

theorem accessKind?_name (access : AccessKind) : accessKind? access.name = some access := by
  cases access <;> rfl

theorem target?_texts (target : WidenTarget) :
    target? (target.kindWord :: target.texts) = some target := by
  cases target <;> rfl

theorem parseEntry_entryWords {version : Nat} {e : WidenEntry} (h : e.WellFormed version) :
    parseEntry version (lineOf (entryWords e)) = .ok e := by
  have hversion : (e.transitive && decide (version < 2)) = false := by
    cases he : e.transitive with
    | false => rfl
    | true => simp [h.transitive he]
  unfold parseEntry
  rw [words_lineOf (token_entryWords h)]
  simp only [entryWords, splitTransitive_accessWord, hversion, Bool.false_eq_true, if_false,
    accessKind?_name, target?_texts, misfit?_eq_none.mpr h.takes]

theorem parseEntries_entryWords {version : Nat} {es : List WidenEntry}
    (h : ∀ e ∈ es, e.WellFormed version) (n : Nat) :
    parseEntries version (numbered n (es.map fun e => lineOf (entryWords e))) = .ok es := by
  induction es generalizing n with
  | nil => rfl
  | cons e rest ih =>
    obtain ⟨he, hrest⟩ := List.forall_mem_cons.mp h
    rw [List.map_cons, numbered_lineOf (token_entryWords he) (List.cons_ne_nil _ _), parseEntries,
      parseEntry_entryWords he, ih hrest]
    rfl

theorem parseHeader_headerWords {w : Widener} (h : w.WellFormed) :
    (∀ s ∈ headerWords w, Token s) ∧
      parseHeader (lineOf (headerWords w)) = .ok (w.version, w.namespaceName) := by
  have htokens : ∀ s ∈ headerWords w, Token s := by
    have hmark : Token "accessWidener" := by decide
    have hversion : Token ("v" ++ Nat.repr w.version) := by
      rcases h.version with hv | hv <;> rw [hv] <;> decide
    exact List.forall_mem_cons.mpr ⟨hmark, List.forall_mem_cons.mpr ⟨hversion,
      List.forall_mem_singleton.mpr h.namespaceName⟩⟩
  refine ⟨htokens, ?_⟩
  unfold parseHeader
  rw [words_lineOf htokens]
  have hone : "v" ++ Nat.repr 1 = "v1" := by decide
  have htwo : "v" ++ Nat.repr 2 = "v2" := by decide
  rcases h.version with hv | hv
  · simp [headerWords, hv, hone]
  · simp [headerWords, hv, htwo]

theorem parse_toText {w : Widener} (h : w.WellFormed) : parse w.toText = .ok w := by
  obtain ⟨htokens, hheader⟩ := parseHeader_headerWords h
  have hlines : Text.lines w.toText.toList =
      lineOf (headerWords w) :: w.entries.map fun e => lineOf (entryWords e) := by
    rw [toList_toText]
    refine Text.lines_ended (List.forall_mem_cons.mpr ⟨?_, fun l hl => ?_⟩)
    · exact Text.line_of_joined (isWord_of_tokens htokens)
    · obtain ⟨e, he, rfl⟩ := List.mem_map.mp hl
      exact Text.line_of_joined (isWord_of_tokens (token_entryWords (h.entries e he)))
  unfold parse
  rw [hlines, numbered_lineOf htokens (List.cons_ne_nil _ _)]
  simp only [hheader]
  show (do let es ← parseEntries w.version _; _) = _
  rw [parseEntries_entryWords h.entries]
  rfl

/-! ## Reading -/

theorem hash_notMem_content (line : List Char) : '#' ∉ content line := by
  intro h
  have htaken := List.mem_takeWhile_imp (Text.mem_of_mem_trim h)
  exact absurd htaken (by decide)

theorem hash_notMem_numbered {n k : Nat} {ls : List (List Char)} (h : (k, line) ∈ numbered n ls) :
    '#' ∉ line := by
  induction ls generalizing n with
  | nil => cases h
  | cons l rest ih =>
    rw [numbered] at h
    split at h
    · exact ih h
    · rcases List.mem_cons.mp h with heq | h
      · cases heq
        exact hash_notMem_content l
      · exact ih h

/-- The words of a line without a comment are tokens. -/
theorem token_of_mem_words (hline : '#' ∉ line) {s : String}
    (h : s ∈ (Text.words line).map String.ofList) : Token s := by
  obtain ⟨w, hw, rfl⟩ := List.mem_map.mp h
  unfold Token
  rw [String.toList_ofList]
  exact ⟨Text.isWord_of_mem_words hw, fun hhash => hline (Text.mem_of_mem_words hw hhash)⟩

theorem texts_of_target? {words : List String} {target : WidenTarget}
    (h : target? words = some target) : ∀ s ∈ target.texts, s ∈ words := by
  unfold target? at h
  split at h
  · split at h
    · cases h
      simp [WidenTarget.texts]
    · cases h
  · split at h
    · cases h
      simp [WidenTarget.texts]
    · split at h
      · cases h
        simp [WidenTarget.texts]
      · cases h
  · cases h

theorem wellFormed_of_parseEntry {version : Nat} {e : WidenEntry}
    (hversion : version = 1 ∨ version = 2) (hline : '#' ∉ line)
    (h : parseEntry version line = .ok e) : e.WellFormed version := by
  have htokens : ∀ s ∈ (Text.words line).map String.ofList, Token s :=
    fun s => token_of_mem_words hline
  unfold parseEntry at h
  split at h
  · cases h
  · rename_i first rest hwords
    rw [hwords] at htokens
    split at h
    rename_i transitive word hsplit
    split at h
    · cases h
    · rename_i hnew
      split at h
      · cases h
      · split at h
        · cases h
        · rename_i target htarget
          split at h
          · cases h
          · rename_i hfits
            cases h
            refine ⟨fun s hs => ?_, fun htrans => ?_, misfit?_eq_none.mp hfits⟩
            · exact htokens s (List.mem_cons_of_mem first (texts_of_target? htarget s hs))
            · dsimp only at htrans
              have hlt : ¬ version < 2 := by simpa [htrans] using hnew
              omega

theorem wellFormed_of_parseEntries {version : Nat} {lines : List (Nat × List Char)}
    {es : List WidenEntry} (hversion : version = 1 ∨ version = 2) (hlines : ∀ l ∈ lines, '#' ∉ l.2)
    (h : parseEntries version lines = .ok es) : ∀ e ∈ es, e.WellFormed version := by
  induction lines generalizing es with
  | nil =>
    cases h
    nofun
  | cons l rest ih =>
    obtain ⟨n, line⟩ := l
    obtain ⟨hline, hrest⟩ := List.forall_mem_cons.mp hlines
    rw [parseEntries] at h
    cases hentry : parseEntry version line with
    | error fault =>
      rw [hentry] at h
      cases h
    | ok e =>
      rw [hentry] at h
      cases hothers : parseEntries version rest with
      | error fault =>
        rw [hothers] at h
        cases h
      | ok others =>
        rw [hothers] at h
        cases h
        exact List.forall_mem_cons.mpr
          ⟨wellFormed_of_parseEntry hversion hline hentry, ih hrest hothers⟩

theorem of_parseHeader {version : Nat} {name : String} (hline : '#' ∉ line)
    (h : parseHeader line = .ok (version, name)) :
    (version = 1 ∨ version = 2) ∧ Token name := by
  have htokens : ∀ s ∈ (Text.words line).map String.ofList, Token s :=
    fun s => token_of_mem_words hline
  unfold parseHeader at h
  split at h
  · rename_i mark number name' hwords
    rw [hwords] at htokens
    have hname := htokens name' (by simp)
    split at h
    · cases h
      exact ⟨.inl rfl, hname⟩
    · split at h
      · cases h
        exact ⟨.inr rfl, hname⟩
      · cases h
  · cases h

theorem wellFormed_of_parse {text : String} {w : Widener} (h : parse text = .ok w) :
    w.WellFormed := by
  unfold parse at h
  split at h
  · cases h
  · rename_i k header rest hnumbered
    have hlines : ∀ l ∈ numbered 1 (Text.lines text.toList), '#' ∉ l.2 :=
      fun l hl => hash_notMem_numbered hl
    rw [hnumbered] at hlines
    obtain ⟨hheader, hrest⟩ := List.forall_mem_cons.mp hlines
    obtain ⟨⟨version, name⟩, hfirst, h⟩ := ok_of_bind h
    obtain ⟨es, hes, h⟩ := ok_of_bind h
    cases h
    obtain ⟨hversion, hname⟩ := of_parseHeader hheader hfirst
    exact ⟨hversion, hname, wellFormed_of_parseEntries hversion hrest hes⟩

/-! ## Renaming -/

theorem token_iff {s : String} : Token s ↔
    s.toList ≠ [] ∧ ∀ c ∈ s.toList, Text.isBlank c = false ∧ c ≠ '#' := by
  unfold Token Text.IsWord
  constructor
  · rintro ⟨⟨hne, hblank⟩, hhash⟩
    exact ⟨hne, fun c hc => ⟨hblank c hc, fun heq => hhash (heq ▸ hc)⟩⟩
  · rintro ⟨hne, hall⟩
    exact ⟨⟨hne, fun c hc => (hall c hc).1⟩, fun hhash => (hall _ hhash).2 rfl⟩

/-- A rename by tokens makes a token of a descriptor. -/
theorem token_rename {f : String → Option String} (hf : ∀ name new, f name = some new → Token new)
    {desc : String} (h : Token desc) : Token (Descriptor.rename f desc) := by
  obtain ⟨hne, hclear⟩ := token_iff.mp h
  refine token_iff.mpr ⟨Descriptor.rename_ne_nil f hne, fun c hc => ?_⟩
  rcases Descriptor.mem_rename hc with hc | ⟨name, new, hnew, hc⟩
  · exact hclear c hc
  · exact (token_iff.mp (hf name new hnew)).2 c hc

/-- All class and member names of a tree are tokens. -/
structure TokensOnly (t : MappingTree) : Prop where
  classes : ∀ c ∈ t.classes, ∀ cell ∈ c.names, ∀ name ∈ cell, Token name
  members : ∀ c ∈ t.classes, ∀ m ∈ c.fields ++ c.methods, ∀ cell ∈ m.names, ∀ name ∈ cell,
    Token name

variable {v : MappingView}

theorem some_mem_of_at? {names : Names} {col : Nat} {name : String}
    (h : names.at? col = some name) : some name ∈ names :=
  List.mem_of_getElem? (Option.join_eq_some_iff.mp h)

theorem TokensOnly.mapClass (h : TokensOnly v.tree) {name new : String}
    (hnew : v.mapClass name = some new) : Token new := by
  obtain ⟨row, _, hname⟩ := Option.bind_eq_some_iff.mp hnew
  obtain ⟨c, hc, hcell⟩ := Option.bind_eq_some_iff.mp hname
  exact h.classes c (List.mem_of_getElem? hc) _ (some_mem_of_at? hcell) new rfl

theorem TokensOnly.mapClassOrKeep (h : TokensOnly v.tree) {name : String} (hname : Token name) :
    Token (v.mapClassOrKeep name) := by
  unfold MappingView.mapClassOrKeep
  cases hnew : v.mapClass name with
  | none => exact hname
  | some new => exact h.mapClass hnew

theorem TokensOnly.mapMember (h : TokensOnly v.tree) {kind : MemberKind} {owner name new : String}
    {desc : Option String} (hnew : v.mapMember kind owner name desc = some new) : Token new := by
  obtain ⟨row, _, hnew⟩ := Option.bind_eq_some_iff.mp hnew
  obtain ⟨c, hc, hnew⟩ := Option.bind_eq_some_iff.mp hnew
  obtain ⟨m, hm, hname⟩ := Option.bind_eq_some_iff.mp hnew
  have hmem : m ∈ c.members kind := by
    rcases Option.or_eq_some_iff.mp hm with hm | ⟨_, hm⟩ <;> exact List.mem_of_find?_eq_some hm
  refine h.members c (List.mem_of_getElem? hc) m ?_ _ (some_mem_of_at? hname) new rfl
  cases kind with
  | field => exact List.mem_append_left _ hmem
  | method => exact List.mem_append_right _ hmem

theorem TokensOnly.keepMember (h : TokensOnly v.tree) (kind : MemberKind) (owner : String)
    (desc : Option String) {name : String} (hname : Token name) :
    Token ((v.mapMember kind owner name desc).getD name) := by
  cases hnew : v.mapMember kind owner name desc with
  | none => exact hname
  | some new => exact h.mapMember hnew

theorem TokensOnly.memberTexts (h : TokensOnly v.tree) (kind : MemberKind)
    {owner name desc : String} (ht : ∀ s ∈ [owner, name, desc], Token s) :
    ∀ s ∈ [v.mapClassOrKeep owner, (v.mapMember kind owner name (some desc)).getD name,
      v.mapDescriptor desc], Token s := by
  obtain ⟨howner, hname, hdesc⟩ : Token owner ∧ Token name ∧ Token desc := by simpa using ht
  have hrenamed : Token (v.mapDescriptor desc) := token_rename (fun _ _ => h.mapClass) hdesc
  exact List.forall_mem_cons.mpr ⟨h.mapClassOrKeep howner, List.forall_mem_cons.mpr
    ⟨h.keepMember kind owner desc hname, List.forall_mem_singleton.mpr hrenamed⟩⟩

theorem TokensOnly.remapTarget (h : TokensOnly v.tree) {target : WidenTarget}
    (ht : ∀ s ∈ target.texts, Token s) : ∀ s ∈ (remapTarget v target).texts, Token s := by
  cases target with
  | «class» name =>
    exact List.forall_mem_singleton.mpr (h.mapClassOrKeep (ht name List.mem_cons_self))
  | method owner name desc => exact h.memberTexts .method ht
  | field owner name desc => exact h.memberTexts .field ht

theorem takes_remapTarget {target : WidenTarget} {access : AccessKind} :
    (remapTarget v target).Takes access ↔ target.Takes access := by
  cases target <;> exact Iff.rfl

theorem WellFormed.remap {w : Widener} (h : w.WellFormed) (ht : TokensOnly v.tree)
    (hv : Token v.targetName) : (w.remap v).WellFormed := by
  refine ⟨h.version, hv, fun e he => ?_⟩
  obtain ⟨e', he', rfl⟩ := List.mem_map.mp he
  have hold := h.entries e' he'
  exact ⟨ht.remapTarget hold.texts, hold.transitive, takes_remapTarget.mpr hold.takes⟩

/-- A text in the namespace of the view is rewritten to the text of the renamed widener. -/
theorem transformWidener_eq {w : Widener} {entry text : String} {bytes : Bytes}
    (hbytes : Utf8.decode bytes = .ok text) (htext : parse text = .ok w)
    (hv : w.namespaceName = v.sourceName) :
    ResourceRemapper.transformWidener v entry bytes = .ok (Utf8.encode (w.remap v).toText) := by
  unfold ResourceRemapper.transformWidener
  rw [hbytes]
  simp only [ofText, htext]
  show (if w.namespaceName = v.sourceName then _ else _) = _
  rw [if_pos hv]
  rfl

/-- A widener is read back from its text just when it is well formed, and only well formed
ones are read. A rename by tokens keeps it well formed, so the rewritten entry of a jar is
read at the next hop as the renamed widener. -/
theorem a_widener_is_read_back_just_when_it_is_well_formed :
    (∀ w : Widener, parse w.toText = .ok w ↔ w.WellFormed) ∧
      (∀ text w, parse text = .ok w → w.WellFormed) ∧
      ∀ (w : Widener) (v : MappingView), w.WellFormed → TokensOnly v.tree → Token v.targetName →
        (w.remap v).WellFormed ∧
          ∀ entry bytes text, Utf8.decode bytes = .ok text → parse text = .ok w →
            w.namespaceName = v.sourceName →
            ∃ out text', ResourceRemapper.transformWidener v entry bytes = .ok out ∧
              Utf8.decode out = .ok text' ∧ parse text' = .ok (w.remap v) := by
  refine ⟨fun w => ⟨wellFormed_of_parse, parse_toText⟩, fun _ _ => wellFormed_of_parse, ?_⟩
  intro w v hw ht hv
  have hremap := hw.remap ht hv
  refine ⟨hremap, fun entry bytes text hbytes htext hsource => ?_⟩
  exact ⟨_, _, transformWidener_eq hbytes htext hsource, Utf8.decode_encode _, parse_toText hremap⟩

/-- A widener with a comment, an empty line and more white space than it needs. -/
def worldText : String :=
  "accessWidener\tv2  official # for the world\r\n\n transitive-extendable class a\n" ++
    "accessible method a c (La;)V"

def openedWorld : Widener :=
  ⟨2, "official", [⟨.extendable, true, .class "a"⟩, ⟨.accessible, false, .method "a" "c" "(La;)V"⟩]⟩

def namedWorld : MappingView :=
  ⟨⟨["official", "named"],
    [⟨[some "a", some "World"], [], [⟨[some "c", some "tick"], some "(La;)V"⟩]⟩],
    [[("a", 0)], [("World", 0)]]⟩, 0, 0, 1⟩

theorem the_widener_of_the_world_is_read_at_the_next_hop :
    parse worldText = .ok openedWorld ∧ TokensOnly namedWorld.tree ∧ Token namedWorld.targetName ∧
      ∃ out text, ResourceRemapper.transformWidener namedWorld "world.accesswidener"
          (Utf8.encode worldText) = .ok out ∧ Utf8.decode out = .ok text ∧
        parse text = .ok ⟨2, "named", [⟨.extendable, true, .class "World"⟩,
          ⟨.accessible, false, .method "World" "tick" "(LWorld;)V"⟩]⟩ := by
  obtain ⟨_, hread, hremap⟩ := a_widener_is_read_back_just_when_it_is_well_formed
  have htext : parse worldText = .ok openedWorld := by decide +kernel
  have htokens : TokensOnly namedWorld.tree := ⟨by decide, by decide⟩
  have htarget : Token namedWorld.targetName := by decide
  obtain ⟨_, hnext⟩ := hremap openedWorld namedWorld (hread _ _ htext) htokens htarget
  obtain ⟨out, text, hout, hdecoded, hparsed⟩ :=
    hnext "world.accesswidener" _ _ (Utf8.decode_encode worldText) htext (by decide)
  have hnamed : openedWorld.remap namedWorld = ⟨2, "named", [⟨.extendable, true, .class "World"⟩,
      ⟨.accessible, false, .method "World" "tick" "(LWorld;)V"⟩]⟩ := by decide
  exact ⟨htext, htokens, htarget, out, text, hout, hdecoded, hnamed ▸ hparsed⟩

end Widener

end JarDerivation
