-- What is in a jar after entries were written to it: of the entries of one name
-- the first, and no other. Entries that can be read and are small enough are written
-- as they are.
import JarDerivation.Jar.Basic
import JarDerivation.Proofs.Outcome
import JarDerivation.Proofs.Text.Ascending
import Mathlib.Data.List.Nodup

namespace JarDerivation

namespace Jar

theorem contains_iff_mem {j : Jar} {name : String} : j.contains name ↔ name ∈ j.allNames :=
  List.contains_iff_mem

theorem contains_iff {j : Jar} {name : String} :
    j.contains name ↔ ∃ e ∈ j.entries, e.name = name := by
  simp [contains, allNames]

theorem not_contains_empty (name : String) : ¬ empty.contains name := by
  simp [contains, allNames, empty]

/-- No two entries share a name. -/
theorem eq_of_name_eq {j : Jar} {e f : Entry} (he : e ∈ j.entries) (hf : f ∈ j.entries)
    (h : e.name = f.name) : e = f :=
  List.inj_on_of_nodup_map j.distinct he hf h

theorem nodup_files (j : Jar) : (j.files.map Entry.name).Nodup :=
  j.distinct.sublist (List.filter_sublist.map _)

/-- The files are the entries that are no folders. -/
theorem mem_names_files {j : Jar} {name : String} :
    name ∈ j.files.map Entry.name ↔ j.contains name ∧ ¬ isFolder name := by
  unfold files
  rw [List.mem_map, contains_iff]
  constructor
  · rintro ⟨e, he, rfl⟩
    obtain ⟨hthere, hfile⟩ := List.mem_filter.mp he
    exact ⟨⟨e, hthere, rfl⟩, by simpa using hfile⟩
  · rintro ⟨⟨e, he, rfl⟩, hfile⟩
    exact ⟨e, List.mem_filter.mpr ⟨he, by simpa using hfile⟩, rfl⟩

/-- The names of values for which a jar has no entry. -/
theorem mem_names_new (j : Jar) {α : Type} {m : Text.Ascending α} (h : m.Ordered) {name : String} :
    name ∈ (m.filter fun x => !j.contains x.1).map Prod.fst ↔
      (m.find? name).isSome ∧ ¬ j.contains name := by
  rw [h.mem_names_filter fun n => !j.contains n, Bool.not_eq_true', Bool.not_eq_true]

/-- They are different from those of the files. -/
theorem nodup_files_append_new (j : Jar) {α : Type} {m : Text.Ascending α} (h : m.Ordered) :
    (j.files.map Entry.name ++ (m.filter fun x => !j.contains x.1).map Prod.fst).Nodup := by
  have hnew : ((m.filter fun x => !j.contains x.1).map Prod.fst).Nodup :=
    h.nodup_names.sublist (List.filter_sublist.map _)
  refine List.nodup_append.mpr ⟨j.nodup_files, hnew, ?_⟩
  rintro a ha b hb rfl
  exact ((j.mem_names_new h).mp hb).2 (mem_names_files.mp ha).1

theorem get?_of_mem {j : Jar} {e : Entry} (h : e ∈ j.entries) : j.get? e.name = some e.bytes := by
  unfold get?
  cases hfind : j.entries.find? (·.name == e.name) with
  | none => exact absurd (List.find?_eq_none.mp hfind e h) (by simp)
  | some f =>
    have hname : f.name = e.name := by simpa using List.find?_some hfind
    rw [eq_of_name_eq (List.mem_of_find?_eq_some hfind) h hname]
    rfl

theorem get?_eq_none {j : Jar} {name : String} : j.get? name = none ↔ ¬ j.contains name := by
  unfold get?
  rw [Option.map_eq_none_iff, List.find?_eq_none, contains_iff]
  simp

theorem get?_eq_some {j : Jar} {name : String} {bytes : Bytes} :
    j.get? name = some bytes ↔ ⟨name, bytes⟩ ∈ j.entries := by
  refine ⟨fun h => ?_, fun h => get?_of_mem h⟩
  obtain ⟨e, he, rfl⟩ := Option.map_eq_some_iff.mp h
  have hname : e.name = name := by simpa using List.find?_some he
  rw [← hname]
  exact List.mem_of_find?_eq_some he

theorem mem_write {j : Jar} {name : String} {bytes : Bytes} {e : Entry} :
    e ∈ (j.write name bytes).entries ↔
      e ∈ j.entries ∨ (¬ j.contains name ∧ e = ⟨name, bytes⟩) := by
  unfold write
  split
  · rename_i h
    simp [h]
  · rename_i h
    simp [h]

theorem contains_write {j : Jar} {name : String} {bytes : Bytes} {other : String} :
    (j.write name bytes).contains other ↔ j.contains other ∨ name = other := by
  rw [contains_iff, contains_iff]
  constructor
  · rintro ⟨e, he, rfl⟩
    rcases mem_write.mp he with he | ⟨_, rfl⟩
    · exact Or.inl ⟨e, he, rfl⟩
    · exact Or.inr rfl
  · rintro (⟨e, he, rfl⟩ | rfl)
    · exact ⟨e, mem_write.mpr (Or.inl he), rfl⟩
    · by_cases h : j.contains name
      · obtain ⟨e, he, hname⟩ := contains_iff.mp h
        exact ⟨e, mem_write.mpr (Or.inl he), hname⟩
      · exact ⟨⟨name, bytes⟩, mem_write.mpr (Or.inr ⟨h, rfl⟩), rfl⟩

theorem entries_write {j : Jar} {name : String} (h : ¬ j.contains name) (bytes : Bytes) :
    (j.write name bytes).entries = j.entries ++ [⟨name, bytes⟩] := by
  unfold write
  rw [dif_neg h]

theorem writeAll_append (j : Jar) (es fs : List Entry) :
    j.writeAll (es ++ fs) = (j.writeAll es).writeAll fs :=
  List.foldl_append

theorem writeAll_ofEntries (es fs : List Entry) :
    (ofEntries es).writeAll fs = ofEntries (es ++ fs) :=
  (writeAll_append empty es fs).symm

/-- Writing entries adds the first one of each name that is not there yet. -/
theorem mem_writeAll {j : Jar} {es : List Entry} {e : Entry} :
    e ∈ (j.writeAll es).entries ↔
      e ∈ j.entries ∨ (¬ j.contains e.name ∧ es.find? (·.name == e.name) = some e) := by
  induction es generalizing j with
  | nil => simp [writeAll]
  | cons d rest ih =>
    have hstep : j.writeAll (d :: rest) = (j.write d.name d.bytes).writeAll rest := rfl
    have hwrite : e ∈ (j.write d.name d.bytes).entries ↔
        e ∈ j.entries ∨ (¬ j.contains d.name ∧ e = d) := mem_write
    rw [hstep, ih, hwrite, contains_write]
    by_cases hname : d.name = e.name
    · rw [List.find?_cons_of_pos (by simpa using hname)]
      simp [hname, eq_comm (a := e)]
    · have hne : e ≠ d := by
        rintro rfl
        exact hname rfl
      rw [List.find?_cons_of_neg (by simpa using hname)]
      simp [hname, hne]

/-- Names that are free stay free while an entry of another name is written. -/
theorem free_write {j : Jar} {e : Entry} {rest : List Entry}
    (hdistinct : ((e :: rest).map Entry.name).Nodup)
    (hfree : ∀ d ∈ e :: rest, ¬ j.contains d.name) :
    ∀ d ∈ rest, ¬ (j.write e.name e.bytes).contains d.name := by
  intro d hd hcontains
  rcases contains_write.mp hcontains with hthere | hname
  · exact hfree d (List.mem_cons_of_mem _ hd) hthere
  · exact (List.nodup_cons.mp hdistinct).1 (hname ▸ List.mem_map_of_mem hd)

/-- Entries under names of their own that are not there yet are appended in their order. -/
theorem entries_writeAll {j : Jar} {es : List Entry} (hdistinct : (es.map Entry.name).Nodup)
    (hfree : ∀ e ∈ es, ¬ j.contains e.name) : (j.writeAll es).entries = j.entries ++ es := by
  induction es generalizing j with
  | nil => exact (List.append_nil _).symm
  | cons e rest ih =>
    refine (ih (List.nodup_cons.mp hdistinct).2 (free_write hdistinct hfree)).trans ?_
    rw [entries_write (hfree e List.mem_cons_self), List.append_assoc]
    rfl

/-- Entries under names of their own are all of a new jar. -/
theorem entries_ofEntries {es : List Entry} (hdistinct : (es.map Entry.name).Nodup) :
    (ofEntries es).entries = es :=
  entries_writeAll hdistinct fun e _ => not_contains_empty e.name

/-- A new jar holds the first entry of each name. -/
theorem mem_ofEntries {es : List Entry} {e : Entry} :
    e ∈ (ofEntries es).entries ↔ es.find? (·.name == e.name) = some e := by
  unfold ofEntries
  rw [mem_writeAll]
  simp [empty, contains, allNames]

theorem mem_of_mem_ofEntries {es : List Entry} {e : Entry} (h : e ∈ (ofEntries es).entries) :
    e ∈ es :=
  List.mem_of_find?_eq_some (mem_ofEntries.mp h)

/-- An entry that is the only one of its name is not lost. -/
theorem mem_ofEntries_of_only {es : List Entry} {e : Entry} (he : e ∈ es)
    (honly : ∀ f ∈ es, f.name = e.name → f = e) : e ∈ (ofEntries es).entries := by
  rw [mem_ofEntries]
  cases hfind : es.find? (·.name == e.name) with
  | none =>
    have hnone := List.find?_eq_none.mp hfind e he
    simp at hnone
  | some f =>
    have hname : f.name = e.name := by simpa using List.find?_some hfind
    rw [honly f (List.mem_of_find?_eq_some hfind) hname]

/-! ## Reading -/

/-- All files of the jar can be read. -/
def Readable (j : Jar) : Prop := ∀ e ∈ j.files, e.name ∉ j.damaged

instance (j : Jar) : Decidable j.Readable := inferInstanceAs (Decidable (∀ e ∈ _, _))

theorem read_eq_ok {j : Jar} {e : Entry} {bytes : Bytes} :
    j.read e = .ok bytes ↔ e.name ∉ j.damaged ∧ e.bytes = bytes := by
  unfold read
  by_cases h : e.name ∈ j.damaged
  · rw [if_pos (List.contains_iff_mem.mpr h)]
    exact ⟨nofun, fun hread => absurd h hread.1⟩
  · rw [if_neg (by simpa using h)]
    exact ⟨fun heq => ⟨h, Except.ok.inj heq⟩, fun heq => congrArg Except.ok heq.2⟩

theorem get?_of_readOptional {j : Jar} {name : String} {found : Option Bytes}
    (h : j.readOptional name = .ok found) : j.get? name = found := by
  unfold readOptional at h
  unfold get?
  cases hfind : j.entries.find? (·.name == name) with
  | none =>
    rw [hfind] at h
    exact Except.ok.inj h
  | some e =>
    rw [hfind] at h
    obtain ⟨bytes, hread, hfound⟩ := ok_of_bind h
    cases hfound
    exact congrArg some (read_eq_ok.mp hread).2

/-! ## Writing -/

/-- No entry is too large to be written. -/
def Fits (j : Jar) : Prop := ∀ e ∈ j.entries, e.bytes.length ≤ entryLimit

instance (j : Jar) : Decidable j.Fits := inferInstanceAs (Decidable (∀ e ∈ _, _))

theorem store_eq_ok {j out : Jar} {name : String} {bytes : Bytes} :
    j.store name bytes = .ok out ↔
      (j.contains name ∨ bytes.length ≤ entryLimit) ∧ j.write name bytes = out := by
  unfold store
  by_cases h : j.contains name ∨ bytes.length ≤ entryLimit
  · rw [if_pos (by simpa using h)]
    exact ⟨fun heq => ⟨h, Except.ok.inj heq⟩, fun heq => congrArg Except.ok heq.2⟩
  · rw [if_neg (by simpa using h)]
    exact ⟨nofun, fun heq => absurd heq.1 h⟩

theorem storeAll_cons (j : Jar) (e : Entry) (es : List Entry) :
    j.storeAll (e :: es) = j.store e.name e.bytes >>= fun next => next.storeAll es :=
  List.foldlM_cons

theorem storeAll_append (j : Jar) (es fs : List Entry) :
    j.storeAll (es ++ fs) = j.storeAll es >>= fun out => out.storeAll fs :=
  List.foldlM_append

/-- Entries that were written one after the other are written. -/
theorem writeAll_of_storeAll {j out : Jar} {es : List Entry} (h : j.storeAll es = .ok out) :
    j.writeAll es = out := by
  induction es generalizing j with
  | nil => exact Except.ok.inj h
  | cons e rest ih =>
    obtain ⟨next, hnext, hrest⟩ := ok_of_bind h
    obtain ⟨-, rfl⟩ := store_eq_ok.mp hnext
    exact ih hrest

/-- A pass that makes an entry of each element and writes it. -/
theorem foldlM_store_eq_ok {α : Type} {step : Jar → α → Except Error Jar}
    {make : α → Except Error Entry}
    (hstep : ∀ out a, step out a = make a >>= fun e => out.store e.name e.bytes) {l : List α}
    {start out : Jar} :
    l.foldlM step start = .ok out ↔
      ∃ made, l.mapM make = .ok made ∧ start.storeAll made = .ok out := by
  induction l generalizing start with
  | nil => exact ⟨fun h => ⟨[], rfl, h⟩, fun ⟨_, hmade, h⟩ => by cases hmade; exact h⟩
  | cons a rest ih =>
    rw [List.foldlM_cons, List.mapM_cons, hstep]
    constructor
    · intro h
      obtain ⟨next, hnext, hrest⟩ := ok_of_bind h
      obtain ⟨e, he, hstore⟩ := ok_of_bind hnext
      obtain ⟨made, hmade, hout⟩ := ih.mp hrest
      refine ⟨e :: made, by rw [he, hmade]; rfl, ?_⟩
      rw [storeAll_cons, hstore]
      exact hout
    · rintro ⟨made, hmade, hout⟩
      obtain ⟨e, he, hmade⟩ := ok_of_bind hmade
      obtain ⟨others, hothers, hmade⟩ := ok_of_bind hmade
      cases hmade
      rw [storeAll_cons] at hout
      obtain ⟨next, hstore, hrest⟩ := ok_of_bind hout
      rw [he]
      show (start.store e.name e.bytes >>= fun next => rest.foldlM step next) = .ok out
      rw [hstore]
      exact ih.mpr ⟨others, hothers, hrest⟩

/-- Entries that are all small enough are written, whatever their names. -/
theorem storeAll_of_fits {j : Jar} {es : List Entry}
    (h : ∀ e ∈ es, e.bytes.length ≤ entryLimit) : j.storeAll es = .ok (j.writeAll es) := by
  induction es generalizing j with
  | nil => rfl
  | cons e rest ih =>
    obtain ⟨hfirst, hothers⟩ := List.forall_mem_cons.mp h
    rw [storeAll_cons, store_eq_ok.mpr ⟨.inr hfirst, rfl⟩]
    exact ih hothers

/-- Of entries under names of their own each one is written, so none is too large. -/
theorem fits_of_storeAll {j out : Jar} {es : List Entry} (hdistinct : (es.map Entry.name).Nodup)
    (hfree : ∀ e ∈ es, ¬ j.contains e.name) (h : j.storeAll es = .ok out) :
    ∀ e ∈ es, e.bytes.length ≤ entryLimit := by
  induction es generalizing j with
  | nil => exact List.forall_mem_nil _
  | cons e rest ih =>
    obtain ⟨next, hnext, hrest⟩ := ok_of_bind h
    obtain ⟨hfits, rfl⟩ := store_eq_ok.mp hnext
    exact List.forall_mem_cons.mpr ⟨hfits.resolve_left (hfree e List.mem_cons_self),
      ih (List.nodup_cons.mp hdistinct).2 (free_write hdistinct hfree) hrest⟩

theorem storeAll_eq_ok {j out : Jar} {es : List Entry} (hdistinct : (es.map Entry.name).Nodup)
    (hfree : ∀ e ∈ es, ¬ j.contains e.name) :
    j.storeAll es = .ok out ↔ (∀ e ∈ es, e.bytes.length ≤ entryLimit) ∧ j.writeAll es = out :=
  ⟨fun h => ⟨fits_of_storeAll hdistinct hfree h, writeAll_of_storeAll h⟩,
    fun ⟨hfits, hout⟩ => hout ▸ storeAll_of_fits hfits⟩

/-- Entries under names of their own make a new jar just when it has none that is too large. -/
theorem storeAll_empty_eq_ok {out : Jar} {es : List Entry} (hdistinct : (es.map Entry.name).Nodup) :
    empty.storeAll es = .ok out ↔ out.Fits ∧ ofEntries es = out := by
  have hentries := entries_ofEntries hdistinct
  rw [storeAll_eq_ok hdistinct fun e _ => not_contains_empty e.name]
  constructor
  · rintro ⟨hfits, rfl⟩
    refine ⟨?_, rfl⟩
    unfold Fits
    rwa [show (empty.writeAll es).entries = es from hentries]
  · rintro ⟨hfits, rfl⟩
    unfold Fits at hfits
    rw [hentries] at hfits
    exact ⟨hfits, rfl⟩

/-! ## Faults -/

section

variable {kind : Error → Prop} (hkind : ∀ fault, kind (.io fault))

include hkind

theorem failsOnlyWith_read (j : Jar) (e : Entry) : FailsOnlyWith kind (j.read e) := by
  unfold read
  split
  · exact failsOnlyWith_error (hkind _)
  · exact failsOnlyWith_ok _

theorem failsOnlyWith_readOptional (j : Jar) (name : String) :
    FailsOnlyWith kind (j.readOptional name) := by
  unfold readOptional
  split
  · exact failsOnlyWith_bind (failsOnlyWith_read hkind j _) fun _ => failsOnlyWith_ok _
  · exact failsOnlyWith_ok _

theorem failsOnlyWith_store (j : Jar) (name : String) (bytes : Bytes) :
    FailsOnlyWith kind (j.store name bytes) := by
  unfold store
  split
  · exact failsOnlyWith_ok _
  · exact failsOnlyWith_error (hkind _)

theorem failsOnlyWith_storeAll (j : Jar) (es : List Entry) :
    FailsOnlyWith kind (j.storeAll es) := by
  unfold storeAll
  exact failsOnlyWith_foldlM (fun out e => failsOnlyWith_store hkind out e.name e.bytes) es j

end

end Jar

end JarDerivation
