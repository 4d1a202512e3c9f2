-- A JSON document is read as it was written, in the compact form and in the indented
-- one. Both forms spell the same tokens; they differ in the blanks between them.
import JarDerivation.Json.Reader
import JarDerivation.Proofs.Json.Spelling
import JarDerivation.Proofs.Text.Utf8

namespace JarDerivation

namespace Json

/-- A document of readable texts and proper numbers. -/
inductive Written : Json → Prop where
  | null : Written .null
  | bool (b : Bool) : Written (.bool b)
  | number {w : String} : isNumber w.toList = true → Written (.number w)
  | text (s : String) : Written (.text s)
  | array {vs : List Json} : (∀ v ∈ vs, Written v) → Written (.array vs)
  | object {ms : List (Option String × Json)} : (∀ m ∈ ms, m.1.isSome = true) →
      (∀ m ∈ ms, Written m.2) → Written (.object ms)

/-! ## The tokens of a document -/

mutual

def tokens : Json → List Token
  | .array [] => [.listStart, .listEnd]
  | .array (v :: rest) => .listStart :: tokens v ++ itemTokens rest ++ [.listEnd]
  | .object [] => [.recordStart, .recordEnd]
  | .object (m :: rest) =>
    .recordStart :: .atom (.string m.1) :: .colon :: tokens m.2 ++ memberTokens rest ++ [.recordEnd]
  | v => [.atom v]

/-- The items after the first one. -/
def itemTokens : List Json → List Token
  | [] => []
  | v :: rest => .comma :: tokens v ++ itemTokens rest

/-- The members after the first one. -/
def memberTokens : List (Option String × Json) → List Token
  | [] => []
  | m :: rest => .comma :: .atom (.string m.1) :: .colon :: tokens m.2 ++ memberTokens rest

end

/-! ## Reading the tokens -/

namespace State

/-- The first item of a list is read like any other: no value begins with the end of a list. -/
theorem run_firstItem (v : Json) (stack : List Frame) (ts : List Token) :
    run ⟨.firstItem, stack⟩ (v.tokens ++ ts) =
      run ⟨.value, .items [] :: stack⟩ (v.tokens ++ ts) := by
  cases v with
  | array items => cases items <;> rfl
  | object members => cases members <;> rfl
  | _ => rfl

theorem run_items {rest : List Json} (hrest : ∀ v ∈ rest, ∀ stack ts,
      run ⟨.value, stack⟩ (v.tokens ++ ts) = run ⟨.after v, stack⟩ ts)
    (v : Json) (done : List Json) (stack : List Frame) (ts : List Token) :
    run ⟨.after v, .items done :: stack⟩ (itemTokens rest ++ .listEnd :: ts) =
      run ⟨.after (.array (done.reverse ++ v :: rest)), stack⟩ ts := by
  induction rest generalizing v done with
  | nil => simp [itemTokens, run, step]
  | cons u rest ih =>
    obtain ⟨hu, hrest⟩ := List.forall_mem_cons.mp hrest
    simp only [itemTokens, List.cons_append, List.append_assoc, run, step, Option.bind_some]
    rw [hu, ih hrest, List.reverse_cons, List.append_assoc]
    rfl

theorem run_members {rest : List (Option String × Json)} (hrest : ∀ m ∈ rest, ∀ stack ts,
      run ⟨.value, stack⟩ (m.2.tokens ++ ts) = run ⟨.after m.2, stack⟩ ts)
    (k : Option String) (v : Json) (done : List (Option String × Json)) (stack : List Frame)
    (ts : List Token) :
    run ⟨.after v, .members done k :: stack⟩ (memberTokens rest ++ .recordEnd :: ts) =
      run ⟨.after (.object (done.reverse ++ (k, v) :: rest)), stack⟩ ts := by
  induction rest generalizing k v done with
  | nil => simp [memberTokens, run, step]
  | cons m rest ih =>
    obtain ⟨hm, hrest⟩ := List.forall_mem_cons.mp hrest
    simp only [memberTokens, List.cons_append, List.append_assoc, run, step, startKey,
      Option.bind_some]
    rw [hm, ih hrest, List.reverse_cons, List.append_assoc]
    rfl

/-- The reader comes from the tokens of a value to the value, whatever is open around it. -/
theorem run_tokens {v : Json} (h : v.Written) (stack : List Frame) (ts : List Token) :
    run ⟨.value, stack⟩ (v.tokens ++ ts) = run ⟨.after v, stack⟩ ts := by
  induction h generalizing stack ts with
  | null => rfl
  | bool b => rfl
  | number hw => rfl
  | text s => rfl
  | @array vs _ ih =>
    cases vs with
    | nil => rfl
    | cons v rest =>
      obtain ⟨hv, hrest⟩ := List.forall_mem_cons.mp ih
      simp only [tokens, List.cons_append, List.append_assoc]
      show run ⟨.firstItem, stack⟩ _ = _
      rw [run_firstItem, hv]
      exact run_items hrest v [] stack ts
  | @object ms _ _ ih =>
    cases ms with
    | nil => rfl
    | cons m rest =>
      obtain ⟨hm, hrest⟩ := List.forall_mem_cons.mp ih
      simp only [tokens, List.cons_append, List.append_assoc]
      show run ⟨.value, .members [] m.1 :: stack⟩ _ = _
      rw [hm]
      exact run_members hrest m.1 m.2 [] stack ts

end State

theorem ofTokens?_tokens {v : Json} (h : v.Written) : ofTokens? v.tokens = some v := by
  have hrun := State.run_tokens h [] []
  rw [List.append_nil] at hrun
  unfold ofTokens?
  rw [hrun]
  rfl

/-! ## Texts that show tokens -/

/-- The text spells the tokens in front of any text that stands apart from it. -/
def Shows (us : List Token) (text : List Char) : Prop :=
  ∀ ts cs, Apart cs → Spells ts cs → Spells (us ++ ts) (text ++ cs)

/-- The text spells the tokens, and it can stand right behind a value. -/
structure Follows (us : List Token) (text : List Char) : Prop where
  apart : ∀ cs, Apart cs → Apart (text ++ cs)
  spells : Shows us text

variable {us vs : List Token} {a b gap last : List Char}

theorem apart_nil : Apart [] := nofun

theorem Shows.append (ha : Shows us a) (hb : Follows vs b) : Shows (us ++ vs) (a ++ b) := by
  intro ts cs hapart hcs
  rw [List.append_assoc, List.append_assoc]
  exact ha _ _ (hb.apart cs hapart) (hb.spells ts cs hapart hcs)

theorem Shows.blanks (hgap : gap.all isSpace = true) (h : Shows us a) : Shows us (gap ++ a) := by
  induction gap with
  | nil => exact h
  | cons c gap ih =>
    obtain ⟨hc, hgap⟩ := Bool.and_eq_true_iff.mp hgap
    exact fun ts cs hapart hcs => .blank hc (ih hgap ts cs hapart hcs)

theorem Shows.mark {c : Char} {t : Token} (hc : punctuation? c = some t) (h : Shows us a) :
    Shows (t :: us) (c :: a) :=
  fun ts cs hapart hcs => .mark hc (h ts cs hapart hcs)

theorem shows_nothing : Shows [] [] := fun _ _ _ hcs => hcs

theorem shows_text (s : String) : Shows [.atom (.text s)] (quoted s) :=
  fun _ _ _ hcs => .text s hcs

theorem follows_nothing : Follows [] [] := ⟨fun _ hapart => hapart, shows_nothing⟩

theorem Follows.append (ha : Follows us a) (hb : Follows vs b) : Follows (us ++ vs) (a ++ b) := by
  refine ⟨fun cs hapart => ?_, ha.spells.append hb⟩
  rw [List.append_assoc]
  exact ha.apart _ (hb.apart cs hapart)

theorem Follows.mark {c : Char} {t : Token} (hc : punctuation? c = some t) (h : Shows us a) :
    Follows (t :: us) (c :: a) := by
  refine ⟨fun cs _ d hd => ?_, h.mark hc⟩
  cases hd
  unfold punctuation? at hc
  split at hc <;> first | exact ⟨rfl, rfl⟩ | cases hc

theorem Follows.blanks (hgap : gap.all isSpace = true) (h : Follows us a) :
    Follows us (gap ++ a) := by
  refine ⟨fun cs hapart => ?_, h.spells.blanks hgap⟩
  cases gap with
  | nil => exact h.apart cs hapart
  | cons c gap =>
    intro d hd
    cases hd
    have hc := (Bool.and_eq_true_iff.mp hgap).1
    simp only [isSpace, Bool.or_eq_true, beq_iff_eq] at hc
    rcases hc with ((rfl | rfl) | rfl) | rfl <;> exact ⟨rfl, rfl⟩

/-! ## The parts of either form

A form writes a value as `f` says. It puts `gap` in front of an item or a member, `space`
behind a colon, and `last` in front of the end. -/

variable {f : Json → List Char} {space : List Char}

theorem follows_items (hgap : gap.all isSpace = true) {items : List Json}
    (h : ∀ v ∈ items, Shows v.tokens (f v)) :
    Follows (itemTokens items) (items.flatMap fun v => ',' :: gap ++ f v) := by
  induction items with
  | nil => exact follows_nothing
  | cons v rest ih =>
    obtain ⟨hv, hrest⟩ := List.forall_mem_cons.mp h
    exact (Follows.mark rfl (hv.blanks hgap)).append (ih hrest)

theorem shows_list (hgap : gap.all isSpace = true) (hlast : last.all isSpace = true) {v : Json}
    {rest : List Json} (h : ∀ u ∈ v :: rest, Shows u.tokens (f u)) :
    Shows (tokens (.array (v :: rest)))
      ('[' :: gap ++ f v ++ (rest.flatMap fun u => ',' :: gap ++ f u) ++ last ++ [']']) := by
  obtain ⟨hv, hrest⟩ := List.forall_mem_cons.mp h
  have hend : Follows [.listEnd] (last ++ [']']) :=
    (Follows.mark (c := ']') rfl shows_nothing).blanks hlast
  have hall := ((hv.blanks hgap).append ((follows_items hgap hrest).append hend)).mark
    (c := '[') rfl
  simpa [tokens] using hall

theorem shows_member {k : Option String} (hk : k.isSome = true) (hspace : space.all isSpace = true)
    {v : Json} (h : Shows v.tokens (f v)) :
    Shows (.atom (.string k) :: .colon :: v.tokens) (quotedText k ++ ':' :: space ++ f v) := by
  obtain ⟨s, rfl⟩ := Option.isSome_iff_exists.mp hk
  have hvalue := (shows_text s).append (Follows.mark (c := ':') rfl (h.blanks hspace))
  simpa [quotedText, text] using hvalue

theorem follows_members (hgap : gap.all isSpace = true) (hspace : space.all isSpace = true)
    {ms : List (Option String × Json)} (hkeys : ∀ m ∈ ms, m.1.isSome = true)
    (h : ∀ m ∈ ms, Shows m.2.tokens (f m.2)) :
    Follows (memberTokens ms)
      (ms.flatMap fun m => ',' :: gap ++ (quotedText m.1 ++ ':' :: space ++ f m.2)) := by
  induction ms with
  | nil => exact follows_nothing
  | cons m rest ih =>
    obtain ⟨hk, hkeys⟩ := List.forall_mem_cons.mp hkeys
    obtain ⟨hm, hrest⟩ := List.forall_mem_cons.mp h
    exact (Follows.mark rfl ((shows_member hk hspace hm).blanks hgap)).append (ih hkeys hrest)

theorem shows_record (hgap : gap.all isSpace = true) (hspace : space.all isSpace = true)
    (hlast : last.all isSpace = true) {m : Option String × Json}
    {rest : List (Option String × Json)} (hkeys : ∀ k ∈ m :: rest, k.1.isSome = true)
    (h : ∀ k ∈ m :: rest, Shows k.2.tokens (f k.2)) :
    Shows (tokens (.object (m :: rest)))
      ('\x7b' :: gap ++ (quotedText m.1 ++ ':' :: space ++ f m.2) ++
        (rest.flatMap fun k => ',' :: gap ++ (quotedText k.1 ++ ':' :: space ++ f k.2)) ++
        last ++ ['\x7d']) := by
  obtain ⟨hk, hkeys⟩ := List.forall_mem_cons.mp hkeys
  obtain ⟨hm, hrest⟩ := List.forall_mem_cons.mp h
  have hend : Follows [.recordEnd] (last ++ ['\x7d']) :=
    (Follows.mark (c := '\x7d') rfl shows_nothing).blanks hlast
  have hall := (((shows_member hk hspace hm).blanks hgap).append
    ((follows_members hgap hspace hkeys hrest).append hend)).mark (c := '\x7b') rfl
  simpa [tokens] using hall

theorem shows_null : Shows (tokens .null) "null".toList :=
  fun _ _ hapart hcs => .word rfl hapart hcs

theorem shows_bool (b : Bool) : Shows (tokens (.bool b)) (bool? b) := by
  cases b with
  | false => exact fun _ _ hapart hcs => .word rfl hapart hcs
  | true => exact fun _ _ hapart hcs => .word rfl hapart hcs

/-! ## The compact form -/

theorem compactItems_eq (items : List Json) :
    compactItems items = items.flatMap fun v => ',' :: [] ++ compact v := by
  induction items with
  | nil => rfl
  | cons v rest ih => rw [compactItems, ih]; rfl

theorem compactMembers_eq (ms : List (Option String × Json)) :
    compactMembers ms =
      ms.flatMap fun m => ',' :: [] ++ (quotedText m.1 ++ ':' :: [] ++ compact m.2) := by
  induction ms with
  | nil => rfl
  | cons m rest ih => simp [compactMembers, ih]

theorem shows_compact {v : Json} (h : v.Written) : Shows v.tokens (compact v) := by
  induction h with
  | null => exact shows_null
  | bool b => exact shows_bool b
  | number hw => exact fun _ _ hapart hcs => .number hw hapart hcs
  | text s => exact shows_text s
  | @array vs _ ih =>
    cases vs with
    | nil => exact (shows_nothing.mark (c := ']') rfl).mark (c := '[') rfl
    | cons v rest =>
      rw [compact, compactItems_eq]
      simpa using shows_list List.all_nil List.all_nil ih
  | @object ms hkeys _ ih =>
    cases ms with
    | nil => exact (shows_nothing.mark (c := '\x7d') rfl).mark (c := '\x7b') rfl
    | cons m rest =>
      rw [compact, compactMembers_eq]
      simpa using shows_record List.all_nil List.all_nil List.all_nil hkeys ih

/-! ## The indented form -/

theorem indentedItems_eq (depth : Nat) (items : List Json) :
    indentedItems depth items = items.flatMap fun v => ',' :: newline depth ++ indented depth v := by
  induction items with
  | nil => rfl
  | cons v rest ih => rw [indentedItems, ih]; rfl

theorem indentedMembers_eq (depth : Nat) (ms : List (Option String × Json)) :
    indentedMembers depth ms = ms.flatMap fun m =>
      ',' :: newline depth ++ (quotedText m.1 ++ ':' :: [' '] ++ indented depth m.2) := by
  induction ms with
  | nil => rfl
  | cons m rest ih => simp [indentedMembers, ih]

theorem newline_all (depth : Nat) : (newline depth).all isSpace = true := by
  simp [newline, isSpace]

theorem shows_indented {v : Json} (h : v.Written) (depth : Nat) :
    Shows v.tokens (indented depth v) := by
  induction h generalizing depth with
  | null => exact shows_null
  | bool b => exact shows_bool b
  | number hw => exact fun _ _ hapart hcs => .number hw hapart hcs
  | text s => exact shows_text s
  | @array vs _ ih =>
    cases vs with
    | nil => exact (shows_nothing.mark (c := ']') rfl).mark (c := '[') rfl
    | cons v rest =>
      rw [indented, indentedItems_eq]
      exact shows_list (newline_all _) (newline_all _) fun u hu => ih u hu (depth + 1)
  | @object ms hkeys _ ih =>
    cases ms with
    | nil => exact (shows_nothing.mark (c := '\x7d') rfl).mark (c := '\x7b') rfl
    | cons m rest =>
      rw [indented, indentedMembers_eq]
      have hspace : [' '].all isSpace = true := rfl
      simpa using shows_record (newline_all (depth + 1)) hspace (newline_all depth) hkeys
        fun k hk => ih k hk (depth + 1)

/-! ## Bytes -/

/-- What is shown is read back. -/
theorem ofBytes?_of_shows {v : Json} (h : v.Written) {cs : List Char} (hcs : Shows v.tokens cs) :
    ofBytes? (Utf8.encode (String.ofList cs)) = some v := by
  have hlex := lex_spelled (hcs [] [] apart_nil .nothing)
  rw [List.append_nil, List.append_nil] at hlex
  unfold ofBytes? parse?
  rw [Utf8.scalars_encode, String.toList_ofList, hlex]
  exact ofTokens?_tokens h

theorem ofBytes?_toBytes {v : Json} (h : v.Written) : ofBytes? v.toBytes = some v :=
  ofBytes?_of_shows h (shows_compact h)

theorem ofBytes?_toPrettyBytes {v : Json} (h : v.Written) : ofBytes? v.toPrettyBytes = some v :=
  ofBytes?_of_shows h (shows_indented h 0)

end Json

end JarDerivation
