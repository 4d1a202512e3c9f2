-- Manifests that are merged and read again. The attributes keep one place and one spelling for each
-- key. A value that was written is read as it was just when it neither begins with white space nor
-- ends with a carriage return.
import JarDerivation.Jar.Manifest
import JarDerivation.Proofs.Text.Lines
import JarDerivation.Proofs.Text.Utf8
import Mathlib.Data.List.Nodup

namespace JarDerivation

namespace Manifest

/-! ## Each key once -/

/-- What an attribute is found by. -/
def key (a : String × String) : String := foldCase a.1

/-- The attributes of a list, each key once: where it comes first, as it is spelled there, and with
the value that it has last. -/
structure EachKeyOnce (given kept : Attributes) : Prop where
  keys : kept.map key = (given.map key).eraseDups
  spelling : ∀ a ∈ kept, (given.find? (key · == key a)).map (·.1) = some a.1
  value : ∀ a ∈ kept, (given.reverse.find? (key · == key a)).map (·.2) = some a.2

theorem nodup_eraseDups (l : List String) : l.eraseDups.Nodup := by
  induction l using List.reverseRecOn with
  | nil => exact List.nodup_nil
  | append_singleton l a ih =>
    rw [List.eraseDups_append]
    by_cases h : a ∈ l
    · simpa [List.removeAll, h] using ih
    · rw [List.nodup_append]
      refine ⟨ih, by simp [List.removeAll, h, List.eraseDups_cons], ?_⟩
      rintro b hb c hc rfl
      have hba : b = a := by simpa [List.removeAll, h, List.eraseDups_cons] using hc
      exact h (hba ▸ List.mem_eraseDups.mp hb)

theorem EachKeyOnce.nodup {given kept : Attributes} (h : EachKeyOnce given kept) :
    (kept.map key).Nodup := h.keys ▸ nodup_eraseDups _

/-- Sets an attribute, with its key worked out at each comparison. -/
def put (new : String × String) : Attributes → Attributes
  | [] => [new]
  | a :: rest => if key a = key new then (a.1, new.2) :: rest else a :: put new rest

theorem set_slot (new : String × String) (l : Attributes) :
    set (slot new) (l.map slot) = (put new l).map slot := by
  induction l with
  | nil => rfl
  | cons a rest ih =>
    by_cases h : key a = key new
    · have hkey : (slot a).1 == (slot new).1 := beq_iff_eq.mpr h
      rw [List.map_cons, set, if_pos hkey, put, if_pos h]
      rfl
    · have hkey : ¬ ((slot a).1 == (slot new).1) := fun heq => h (beq_iff_eq.mp heq)
      rw [List.map_cons, set, if_neg hkey, put, if_neg h, ih]
      rfl

theorem overlay_eq (base changes : Attributes) :
    overlay base changes = changes.foldl (fun l a => put a l) base := by
  unfold overlay
  have hslots : ∀ l : Attributes, (changes.map slot).foldl (fun m s => set s m) (l.map slot) =
      (changes.foldl (fun l a => put a l) l).map slot := by
    induction changes with
    | nil => exact fun l => rfl
    | cons a rest ih =>
      intro l
      rw [List.map_cons, List.foldl_cons, set_slot, ih, List.foldl_cons]
  rw [hslots, List.map_map]
  exact List.map_id _

theorem keys_put (new : String × String) (l : Attributes) :
    (put new l).map key = if key new ∈ l.map key then l.map key else l.map key ++ [key new] := by
  induction l with
  | nil => rfl
  | cons a rest ih =>
    by_cases h : key a = key new
    · rw [put, if_pos h, List.map_cons, List.map_cons, if_pos (h ▸ List.mem_cons_self)]
      rfl
    · rw [put, if_neg h, List.map_cons, ih]
      by_cases hmem : key new ∈ rest.map key
      · simp [hmem]
      · simp [hmem, Ne.symm h]

theorem mem_put {new b : String × String} {l : Attributes} (hl : (l.map key).Nodup)
    (h : b ∈ put new l) :
    (b ∈ l ∧ key b ≠ key new) ∨ (∃ a ∈ l, key a = key new ∧ b = (a.1, new.2)) ∨
      (key new ∉ l.map key ∧ b = new) := by
  induction l with
  | nil => exact .inr (.inr ⟨List.not_mem_nil, List.mem_singleton.mp h⟩)
  | cons a rest ih =>
    rw [List.map_cons, List.nodup_cons] at hl
    by_cases hkey : key a = key new
    · rw [put, if_pos hkey] at h
      rcases List.mem_cons.mp h with rfl | h
      · exact .inr (.inl ⟨a, List.mem_cons_self, hkey, rfl⟩)
      · refine .inl ⟨List.mem_cons_of_mem a h, fun hb => hl.1 ?_⟩
        rw [hkey, ← hb]
        exact List.mem_map_of_mem h
    · rw [put, if_neg hkey] at h
      rcases List.mem_cons.mp h with rfl | h
      · exact .inl ⟨List.mem_cons_self, hkey⟩
      · rcases ih hl.2 h with ⟨hb, hne⟩ | ⟨c, hc, hck, rfl⟩ | ⟨hnew, rfl⟩
        · exact .inl ⟨List.mem_cons_of_mem a hb, hne⟩
        · exact .inr (.inl ⟨c, List.mem_cons_of_mem a hc, hck, rfl⟩)
        · exact .inr (.inr ⟨by simpa [Ne.symm hkey] using hnew, rfl⟩)

/-- An attribute more is given and set. -/
theorem EachKeyOnce.put {given kept : Attributes} (h : EachKeyOnce given kept)
    (new : String × String) : EachKeyOnce (given ++ [new]) (put new kept) := by
  have hold : ∀ k, k ∈ kept.map key ↔ k ∈ given.map key := by
    intro k
    rw [h.keys, List.mem_eraseDups]
  refine ⟨?_, ?_, ?_⟩
  · rw [keys_put, List.map_append, List.eraseDups_append, ← h.keys]
    by_cases hmem : key new ∈ given.map key
    · rw [if_pos ((hold _).mpr hmem)]
      have : [key new].removeAll (given.map key) = [] := by
        simpa [List.removeAll] using hmem
      simp [this]
    · rw [if_neg fun hin => hmem ((hold _).mp hin)]
      have : [key new].removeAll (given.map key) = [key new] := by
        simpa [List.removeAll] using hmem
      simp [this, List.eraseDups_cons]
  · intro b hb
    rw [List.find?_append, Option.map_or]
    rcases mem_put h.nodup hb with ⟨hb, -⟩ | ⟨a, ha, hkey, rfl⟩ | ⟨hnew, rfl⟩
    · rw [h.spelling b hb]
      rfl
    · rw [show key (a.1, new.2) = key a from rfl, h.spelling a ha]
      rfl
    · have hnone : given.find? (key · == key b) = none := by
        rw [List.find?_eq_none]
        intro a ha hsame
        rw [hold] at hnew
        exact hnew (beq_iff_eq.mp hsame ▸ List.mem_map_of_mem ha)
      simp [hnone]
  · intro b hb
    rw [List.reverse_append, List.reverse_singleton, List.singleton_append, List.find?_cons]
    rcases mem_put h.nodup hb with ⟨hb, hne⟩ | ⟨a, ha, hkey, rfl⟩ | ⟨hnew, rfl⟩
    · rw [beq_eq_false_iff_ne.mpr (Ne.symm hne)]
      exact h.value b hb
    · rw [show key (a.1, new.2) = key a from rfl, hkey, beq_self_eq_true]
      rfl
    · rw [beq_self_eq_true]
      rfl

theorem EachKeyOnce.foldl {given kept : Attributes} (h : EachKeyOnce given kept)
    (changes : Attributes) :
    EachKeyOnce (given ++ changes) (changes.foldl (fun l a => Manifest.put a l) kept) := by
  induction changes generalizing given kept with
  | nil => simpa using h
  | cons a rest ih =>
    have hnext := ih (h.put a)
    rwa [List.append_assoc] at hnext

theorem eachKeyOnce_defaults : EachKeyOnce defaults defaults where
  keys := rfl
  spelling := by
    intro a ha
    rw [List.mem_singleton.mp ha]
    simp [defaults]
  value := by
    intro a ha
    rw [List.mem_singleton.mp ha]
    simp [defaults]

theorem eachKeyOnce_overlay (changes : Attributes) :
    EachKeyOnce (defaults ++ changes) (overlay defaults changes) := by
  rw [overlay_eq]
  exact eachKeyOnce_defaults.foldl changes

theorem EachKeyOnce.of_mem {given kept : Attributes} (h : EachKeyOnce given kept)
    {a : String × String} (ha : a ∈ kept) : (∃ b ∈ given, b.1 = a.1) ∧ ∃ b ∈ given, b.2 = a.2 := by
  obtain ⟨b, hb, hspelling⟩ := Option.map_eq_some_iff.mp (h.spelling a ha)
  obtain ⟨c, hc, hvalue⟩ := Option.map_eq_some_iff.mp (h.value a ha)
  exact ⟨⟨b, List.mem_of_find?_eq_some hb, hspelling⟩,
    c, List.mem_reverse.mp (List.mem_of_find?_eq_some hc), hvalue⟩

/-! ## Overlaying what was overlaid -/

theorem put_of_notMem {new : String × String} {l : Attributes} (h : key new ∉ l.map key) :
    put new l = l ++ [new] := by
  induction l with
  | nil => rfl
  | cons a rest ih =>
    obtain ⟨hne, hrest⟩ : key new ≠ key a ∧ key new ∉ rest.map key := by simpa using h
    rw [put, if_neg (Ne.symm hne), ih hrest]
    rfl

theorem foldl_put_of_nodup {l changes : Attributes} (h : ((l ++ changes).map key).Nodup) :
    changes.foldl (fun l a => put a l) l = l ++ changes := by
  induction changes generalizing l with
  | nil => simp
  | cons a rest ih =>
    have hnew : key a ∉ l.map key := by
      rw [List.map_append, List.nodup_append] at h
      intro hmem
      exact h.2.2 _ hmem _ (List.mem_map_of_mem List.mem_cons_self) rfl
    rw [List.foldl_cons, put_of_notMem hnew, ih] <;> rw [List.append_assoc, List.singleton_append]
    exact h

/-- The attribute that every manifest has stays in front. -/
theorem exists_overlay (changes : Attributes) :
    ∃ version rest, overlay defaults changes = ("Manifest-Version", version) :: rest := by
  have hfront : ∀ (version : String) (rest : Attributes), ∃ version' rest',
      changes.foldl (fun l a => put a l) (("Manifest-Version", version) :: rest) =
        ("Manifest-Version", version') :: rest' := by
    induction changes with
    | nil => exact fun version rest => ⟨version, rest, rfl⟩
    | cons a changes ih =>
      intro version rest
      rw [List.foldl_cons, put]
      split
      · exact ih _ _
      · exact ih _ _
  rw [overlay_eq]
  exact hfront "1.0" []

/-- Attributes that have each key once are not changed by the defaults under them, if the first of
them is there. -/
theorem overlay_of_nodup {version : String} {rest : Attributes}
    (h : ((("Manifest-Version", version) :: rest).map key).Nodup) :
    overlay defaults (("Manifest-Version", version) :: rest) =
      ("Manifest-Version", version) :: rest := by
  have hput : put ("Manifest-Version", version) defaults = [("Manifest-Version", version)] := by
    rw [defaults, put, if_pos (show key (_, "1.0") = key (_, version) from rfl)]
  rw [overlay_eq, List.foldl_cons, hput]
  exact foldl_put_of_nodup (l := [("Manifest-Version", version)]) h

/-! ## What is read -/

/-- An attribute as it can be read from lines. -/
structure Legible (a : String × String) : Prop where
  trimmed : Text.trim a.1.toList = a.1.toList
  colon : ':' ∉ a.1.toList
  key : '\n' ∉ a.1.toList
  value : '\n' ∉ a.2.toList

theorem legible_addLine {earlier : Attributes} (h : ∀ a ∈ earlier, Legible a) {line : List Char}
    (hline : '\n' ∉ line) : ∀ a ∈ addLine earlier line, Legible a := by
  unfold addLine
  split
  · rename_i text
    split
    · rename_i key value rest
      obtain ⟨⟨htrim, hcolon, hkey, hvalue⟩, hrest⟩ := List.forall_mem_cons.mp h
      have htext : '\n' ∉ text := fun hmem => hline (List.mem_cons_of_mem _ hmem)
      exact List.forall_mem_cons.mpr ⟨⟨htrim, hcolon, hkey, by simp_all⟩, hrest⟩
    · exact List.forall_mem_nil _
  · split
    · rename_i key value hcut
      obtain ⟨rfl, hcolon⟩ := Text.cutFirst_eq_some hcut
      refine List.forall_mem_cons.mpr ⟨⟨?_, ?_, ?_, ?_⟩, h⟩
      · simp [Text.trim_trim]
      · simpa using fun hmem => hcolon (Text.mem_of_mem_trim hmem)
      · simpa using fun hmem => hline (List.mem_append_left _ (Text.mem_of_mem_trim hmem))
      · simp only [String.toList_ofList]
        intro hmem
        refine hline (List.mem_append_right _ (List.mem_cons_of_mem _ ?_))
        exact (List.dropWhile_sublist _).subset hmem
    · exact h

theorem legible_attributes (bytes : Bytes) : ∀ a ∈ attributes bytes, Legible a := by
  have hall : ∀ (ls : List (List Char)) (earlier : Attributes), (∀ l ∈ ls, '\n' ∉ l) →
      (∀ a ∈ earlier, Legible a) → ∀ a ∈ ls.foldl addLine earlier, Legible a := by
    intro ls
    induction ls with
    | nil => exact fun earlier _ h => h
    | cons l ls ih =>
      intro earlier hls h
      obtain ⟨hl, hls⟩ := List.forall_mem_cons.mp hls
      exact ih _ hls (legible_addLine h hl)
  intro a ha
  refine hall _ [] ?_ (List.forall_mem_nil _) a (List.mem_reverse.mp ha)
  intro l hl
  exact Text.notMem_of_mem_lines ((List.takeWhile_sublist _).subset hl)

/-! ## What is written -/

/-- The line of an attribute. -/
def line (a : String × String) : List Char := a.1.toList ++ ':' :: ' ' :: a.2.toList

theorem toList_render (l : Attributes) :
    (render l).toList = Text.crLfEnded (l.map line ++ [[]]) := by
  have hlines : (l.map lineText).flatMap String.toList = Text.crLfEnded (l.map line) := by
    unfold Text.crLfEnded
    rw [List.flatMap_map, List.flatMap_map]
    congr 1
    funext a
    simp [lineText, line]
  unfold render
  rw [String.toList_append, String.toList_join, hlines]
  simp [Text.crLfEnded]

theorem notMem_line {a : String × String} (h : Legible a) : '\n' ∉ line a := by
  simp [line, h.key, h.value]

theorem forall_line {l : Attributes} (h : ∀ a ∈ l, Legible a) :
    ∀ x ∈ l.map line ++ [[]], '\n' ∉ x := by
  intro x hx
  rcases List.mem_append.mp hx with hx | hx
  · obtain ⟨a, ha, rfl⟩ := List.mem_map.mp hx
    exact notMem_line (h a ha)
  · rw [List.mem_singleton.mp hx]
    exact List.not_mem_nil

theorem render_injective {l l' : Attributes} (h : ∀ a ∈ l, Legible a) (h' : ∀ a ∈ l', Legible a)
    (heq : render l = render l') : l.map line = l'.map line := by
  have hlines : Text.crLfEnded (l.map line ++ [[]]) = Text.crLfEnded (l'.map line ++ [[]]) := by
    rw [← toList_render, heq, toList_render]
  exact List.append_cancel_right (Text.crLfEnded_injective (forall_line h) (forall_line h') hlines)

/-! ## Reading what was written -/

/-- What is read of a value that was written: white space in front of it is lost, and so is a
carriage return behind it, which is taken for part of the line end. -/
def reread (value : String) : String := String.ofList (Text.trimStart (Text.dropCr value.toList))

/-- A value that is read as it was written. -/
def Settled (value : String) : Prop :=
  (∀ c ∈ value.toList.head?, Text.isBlank c = false) ∧ value.toList.getLast? ≠ some '\r'

theorem reread_eq_self_iff {value : String} : reread value = value ↔ Settled value := by
  unfold reread Settled
  rw [← String.toList_inj, String.toList_ofList, ← Text.trimStart_eq_self_iff]
  unfold Text.dropCr
  split
  · rename_i hlast
    have hne : value.toList ≠ [] := by
      intro hnil
      rw [hnil] at hlast
      cases hlast
    refine iff_of_false (fun h => ?_) fun h => h.2 hlast
    have hlength := congrArg List.length h
    have hshort : (Text.trimStart value.toList.dropLast).length ≤ value.toList.dropLast.length :=
      (List.dropWhile_sublist _).length_le
    have hpos := List.length_pos_of_ne_nil hne
    rw [List.length_dropLast] at hshort
    omega
  · rename_i hlast
    simp [hlast]

theorem dropCr_line (a : String × String) :
    Text.dropCr (line a) = a.1.toList ++ ':' :: ' ' :: Text.dropCr a.2.toList := by
  unfold line
  rcases List.eq_nil_or_concat' a.2.toList with h | ⟨init, c, h⟩
  · simp [Text.dropCr, h]
  · have hline : a.1.toList ++ ':' :: ' ' :: (init ++ [c]) =
        (a.1.toList ++ ':' :: ' ' :: init) ++ [c] := by
      simp
    rw [h, hline, Text.dropCr_concat, Text.dropCr_concat]
    split <;> simp

theorem addLine_line {a : String × String} (h : Legible a) (earlier : Attributes) :
    addLine earlier (Text.dropCr (line a)) = (a.1, reread a.2) :: earlier := by
  have hcut : Text.cutFirst ':' (a.1.toList ++ ':' :: ' ' :: Text.dropCr a.2.toList) =
      some (a.1.toList, ' ' :: Text.dropCr a.2.toList) := Text.cutFirst_append h.colon _
  have hblank : Text.trimStart (' ' :: Text.dropCr a.2.toList) =
      Text.trimStart (Text.dropCr a.2.toList) := rfl
  rw [dropCr_line]
  unfold addLine
  split
  · rename_i text htext
    -- a key does not begin with a blank
    exfalso
    have hhead := Text.head?_of_trim_eq h.trimmed
    cases hkey : a.1.toList with
    | nil => simp [hkey] at htext
    | cons c rest =>
      rw [hkey, List.cons_append] at htext
      rw [hkey, (List.cons.inj htext).1] at hhead
      exact absurd (hhead ' ' rfl) (by decide)
  · rw [hcut]
    simp [h.trimmed, hblank, reread]

theorem attributes_encode_render {l : Attributes} (h : ∀ a ∈ l, Legible a) :
    attributes (Utf8.encode (render l)) = l.map fun a => (a.1, reread a.2) := by
  have hfold : ∀ earlier : Attributes, (l.map fun a => Text.dropCr (line a)).foldl addLine earlier =
      (l.map fun a => (a.1, reread a.2)).reverse ++ earlier := by
    induction l with
    | nil => exact fun earlier => rfl
    | cons a rest ih =>
      intro earlier
      obtain ⟨ha, hrest⟩ := List.forall_mem_cons.mp h
      rw [List.map_cons, List.foldl_cons, addLine_line ha, ih hrest]
      simp
  have hfull : ∀ a : String × String, (Text.dropCr (line a)).isEmpty = false := by
    intro a
    rw [dropCr_line]
    simp
  unfold attributes characters
  rw [Utf8.decodeLossy_encode, toList_render, Text.toLf_crLfEnded (forall_line h),
    Text.lines_ended_eq (forall_line h), List.map_append, List.map_map,
    List.takeWhile_append_of_pos]
  · have hend : Text.dropCr [] = [] := rfl
    simp [hend, Function.comp_def, hfold]
  · intro x hx
    obtain ⟨a, -, rfl⟩ := List.mem_map.mp hx
    simp [hfull]

/-! ## Merging again -/

theorem legible_overlay {changes : Attributes} (h : ∀ a ∈ changes, Legible a) :
    ∀ a ∈ overlay defaults changes, Legible a := by
  have hall : ∀ a ∈ defaults ++ changes, Legible a := by
    intro a ha
    rcases List.mem_append.mp ha with ha | ha
    · rw [List.mem_singleton.mp ha]
      exact ⟨by decide, by decide, by decide, by decide⟩
    · exact h a ha
  intro a ha
  obtain ⟨⟨b, hb, hspelling⟩, c, hc, hvalue⟩ := (eachKeyOnce_overlay changes).of_mem ha
  obtain ⟨htrim, hcolon, hkey, -⟩ := hall b hb
  rw [hspelling] at htrim hcolon hkey
  exact ⟨htrim, hcolon, hkey, hvalue ▸ (hall c hc).value⟩

theorem legible_reread {a : String × String} (h : Legible a) : Legible (a.1, reread a.2) := by
  refine ⟨h.trimmed, h.colon, h.key, fun hmem => h.value ?_⟩
  simp only [reread, String.toList_ofList] at hmem
  exact Text.mem_of_mem_dropCr ((List.dropWhile_sublist _).subset hmem)

theorem line_reread_eq_iff {a : String × String} :
    line (a.1, reread a.2) = line a ↔ Settled a.2 := by
  rw [← reread_eq_self_iff, ← String.toList_inj]
  simp [line]

theorem overlay_reread (changes : Attributes) :
    overlay defaults ((overlay defaults changes).map fun a => (a.1, reread a.2)) =
      (overlay defaults changes).map fun a => (a.1, reread a.2) := by
  have hnodup := (eachKeyOnce_overlay changes).nodup
  obtain ⟨version, rest, heq⟩ := exists_overlay changes
  rw [heq] at hnodup ⊢
  rw [List.map_cons]
  apply overlay_of_nodup
  have hkeys : (rest.map fun a => (a.1, reread a.2)).map key = rest.map key := by
    rw [List.map_map]
    rfl
  rw [List.map_cons, hkeys]
  exact hnodup

theorem merged_some (bytes : Bytes) :
    merged (some bytes) = Utf8.encode (render (overlay defaults (attributes bytes))) := rfl

theorem attributes_merged (bytes : Bytes) :
    attributes (merged (some bytes)) =
      (overlay defaults (attributes bytes)).map fun a => (a.1, reread a.2) := by
  rw [merged_some]
  exact attributes_encode_render (legible_overlay (legible_attributes bytes))

theorem merged_merged (bytes : Bytes) :
    merged (some (merged (some bytes))) = Utf8.encode
      (render ((overlay defaults (attributes bytes)).map fun a => (a.1, reread a.2))) := by
  rw [merged_some (merged (some bytes)), attributes_merged, overlay_reread]

theorem map_reread_eq_self_iff {l : Attributes} :
    l.map (fun a => (a.1, reread a.2)) = l ↔ ∀ a ∈ l, Settled a.2 := by
  have hid : l.map (fun a => (a.1, reread a.2)) = l.map id ↔ ∀ a ∈ l, (a.1, reread a.2) = a :=
    List.map_inj_left
  rw [List.map_id] at hid
  simp only [hid, ← reread_eq_self_iff, Prod.ext_iff, true_and]

theorem encode_render_reread_iff {l : Attributes} (h : ∀ a ∈ l, Legible a) :
    Utf8.encode (render (l.map fun a => (a.1, reread a.2))) = Utf8.encode (render l) ↔
      ∀ a ∈ l, Settled a.2 := by
  constructor
  · intro heq a ha
    have hlegible : ∀ b ∈ l.map fun a => (a.1, reread a.2), Legible b := by
      intro b hb
      obtain ⟨c, hc, rfl⟩ := List.mem_map.mp hb
      exact legible_reread (h c hc)
    have hlines := render_injective hlegible h (Utf8.encode_injective heq)
    rw [List.map_map] at hlines
    exact line_reread_eq_iff.mp (List.map_inj_left.mp hlines a ha)
  · intro hsettled
    rw [map_reread_eq_self_iff.mpr hsettled]

/-- A merged manifest says what the defaults and the manifest say, each key once, apart from what is
lost of the values. It says all of it, and is not changed by another merge, just when nothing is. -/
theorem a_merged_manifest_is_read_back_just_when_its_values_are_settled (bytes : Bytes) :
    ∃ kept, EachKeyOnce (defaults ++ attributes bytes) kept ∧
      attributes (merged (some bytes)) = kept.map (fun a => (a.1, reread a.2)) ∧
      (attributes (merged (some bytes)) = kept ↔ ∀ a ∈ kept, Settled a.2) ∧
      (merged (some (merged (some bytes))) = merged (some bytes) ↔ ∀ a ∈ kept, Settled a.2) := by
  refine ⟨overlay defaults (attributes bytes), eachKeyOnce_overlay _, attributes_merged bytes,
    ?_, ?_⟩
  · rw [attributes_merged]
    exact map_reread_eq_self_iff
  · rw [merged_merged, merged_some]
    exact encode_render_reread_iff (legible_overlay (legible_attributes bytes))

/-- Of a value that goes on behind an empty first line, the blank in front is lost. -/
theorem a_merged_manifest_is_not_always_read_back :
    ¬ (∀ bytes, ∃ kept, EachKeyOnce (defaults ++ attributes bytes) kept ∧
        attributes (merged (some bytes)) = kept) ∧
      ¬ ∀ bytes, merged (some (merged (some bytes))) = merged (some bytes) := by
  refine ⟨fun hall => ?_, fun hall => ?_⟩
  · obtain ⟨kept, honce, hread⟩ := hall (Utf8.encode "Long: \r\n  abc\r\n")
    have hgiven : attributes (Utf8.encode "Long: \r\n  abc\r\n") = [("Long", " abc")] := by
      decide +kernel
    have hmerged : attributes (merged (some (Utf8.encode "Long: \r\n  abc\r\n"))) =
        [("Manifest-Version", "1.0"), ("Long", "abc")] := by
      decide +kernel
    rw [← hread, hgiven, hmerged] at honce
    have hvalue := honce.value ("Long", "abc") (by simp)
    exact absurd hvalue (by decide +kernel)
  · exact absurd (hall (Utf8.encode "Long: \r\n  abc\r\n")) (by decide +kernel)

end Manifest

end JarDerivation
