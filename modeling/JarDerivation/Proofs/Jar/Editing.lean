-- Copies of a jar whose entries get new bytes on the way. Each file is read, edited and written
-- before the next one is looked at, so a copy ends just when no file has a fault of any of the
-- three kinds.
import JarDerivation.Jar.Fix
import JarDerivation.Proofs.Jar.Entries

namespace JarDerivation

namespace Jar

variable {edit : String → Bytes → Traced (Option Bytes)} {j out : Jar}

/-! ## What a copy holds -/

section

variable {f : Entry → Except String Bytes}

/-- An entry with the bytes that are made for it, if they can be made. -/
def edited (f : Entry → Except String Bytes) (e : Entry) : Except String Entry :=
  (f e).map fun bytes => { e with bytes }

/-- A pass that writes one entry for each that it looks at writes them all in their order. -/
theorem eq_of_writes {step : Jar → Entry → Traced Jar} {es : List Entry}
    (hstep : ∀ e ∈ es, ∀ done next, (step done e).outcome = .ok next →
      ∃ bytes, f e = .ok bytes ∧ next = done.write e.name bytes)
    {start : Jar} (h : (es.foldlM step start).outcome = .ok out) :
    ∃ made, es.map (edited f) = made.map .ok ∧ out = start.writeAll made := by
  induction es generalizing start with
  | nil =>
    cases h
    exact ⟨[], rfl, rfl⟩
  | cons e rest ih =>
    rw [List.foldlM_cons, Traced.outcome_bind] at h
    obtain ⟨next, hnext, hrest⟩ := ok_of_bind h
    obtain ⟨bytes, hbytes, rfl⟩ := hstep e List.mem_cons_self start next hnext
    obtain ⟨made, hmade, hout⟩ := ih (fun d hd => hstep d (List.mem_cons_of_mem _ hd)) hrest
    refine ⟨⟨e.name, bytes⟩ :: made, ?_, hout⟩
    rw [List.map_cons, hmade, edited, hbytes]
    rfl

theorem names_of_edited {es made : List Entry} (h : es.map (edited f) = made.map .ok) :
    made.map Entry.name = es.map Entry.name := by
  induction es generalizing made with
  | nil => rw [List.map_eq_nil_iff.mp h.symm]
  | cons e rest ih =>
    obtain ⟨d, others, rfl, hd, hothers⟩ := List.map_eq_cons_iff.mp h.symm
    have hname : d.name = e.name := by
      unfold edited at hd
      cases hbytes : f e with
      | error reason =>
        rw [hbytes] at hd
        cases hd
      | ok bytes =>
        rw [hbytes] at hd
        cases hd
        rfl
    rw [List.map_cons, List.map_cons, hname, ih hothers.symm]

/-- An edit that drops nothing gives the files of the jar in their order, with new bytes. -/
theorem entries_of_editEntries
    (hedit : ∀ e ∈ j.files, ∀ r, (edit e.name e.bytes).outcome = .ok r →
      ∃ bytes, f e = .ok bytes ∧ r = some bytes)
    (h : (editEntries edit j).outcome = .ok out) :
    j.files.map (edited f) = out.entries.map .ok := by
  unfold editEntries at h
  obtain ⟨made, hmade, rfl⟩ := eq_of_writes (f := f) (fun e he done next hnext => by
    unfold editEntry at hnext
    rw [Traced.outcome_bind, Traced.outcome_ofExcept] at hnext
    obtain ⟨bytes, hread, hnext⟩ := ok_of_bind hnext
    obtain ⟨-, rfl⟩ := read_eq_ok.mp hread
    rw [Traced.outcome_bind] at hnext
    obtain ⟨r, hr, hwrite⟩ := ok_of_bind hnext
    obtain ⟨bytes, hbytes, rfl⟩ := hedit e he r hr
    exact ⟨bytes, hbytes, (store_eq_ok.mp hwrite).2.symm⟩) h
  have hdistinct : (made.map Entry.name).Nodup := by
    rw [names_of_edited hmade]
    exact j.nodup_files
  rw [hmade]
  exact congrArg (List.map Except.ok) (entries_ofEntries hdistinct).symm

end

/-! ## When a copy ends -/

variable {make : String → Bytes → Except Error Bytes}

/-- A file that was read, with new bytes of its own. -/
def copied (j : Jar) (make : String → Bytes → Except Error Bytes) (e : Entry) :
    Except Error Entry := do
  return ⟨e.name, ← make e.name (← j.read e)⟩

def copyFile (j : Jar) (make : String → Bytes → Except Error Bytes) (out : Jar) (e : Entry) :
    Except Error Jar := do
  let made ← j.copied make e
  out.store made.name made.bytes

theorem foldlM_copyFile_eq_ok {es : List Entry} {start : Jar} :
    es.foldlM (j.copyFile make) start = .ok out ↔
      ∃ made, es.mapM (j.copied make) = .ok made ∧ start.storeAll made = .ok out :=
  foldlM_store_eq_ok fun _ _ => rfl

theorem outcome_editEntry
    (hedit : ∀ entry bytes, (edit entry bytes).outcome = some <$> make entry bytes) (j start : Jar)
    (e : Entry) : (editEntry edit j start e).outcome = j.copyFile make start e := by
  unfold editEntry copyFile copied
  rw [Traced.outcome_bind, Traced.outcome_ofExcept]
  cases j.read e with
  | error fault => rfl
  | ok bytes =>
    show (edit e.name bytes >>= _).outcome = (make e.name bytes >>= _) >>= _
    rw [Traced.outcome_bind, hedit]
    cases make e.name bytes <;> rfl

theorem outcome_editEntries
    (hedit : ∀ entry bytes, (edit entry bytes).outcome = some <$> make entry bytes) (j : Jar) :
    (editEntries edit j).outcome = j.files.foldlM (j.copyFile make) .empty := by
  unfold editEntries
  generalize Jar.empty = start
  induction j.files generalizing start with
  | nil => rfl
  | cons e rest ih =>
    rw [List.foldlM_cons, List.foldlM_cons, Traced.outcome_bind, outcome_editEntry hedit]
    cases j.copyFile make start e with
    | error fault => rfl
    | ok next => exact ih next

/-- An edit that always has bytes to write ends just when all files can be read and nothing gets too
large. -/
theorem editEntries_eq_ok {make : String → Bytes → Bytes}
    (hedit : ∀ entry bytes, (edit entry bytes).outcome = .ok (some (make entry bytes))) :
    (editEntries edit j).outcome = .ok out ↔ j.Readable ∧
      empty.storeAll (j.files.map fun e => ⟨e.name, make e.name e.bytes⟩) = .ok out := by
  have hcopied : ∀ e made, j.copied (fun entry bytes => .ok (make entry bytes)) e = .ok made ↔
      e.name ∉ j.damaged ∧ (⟨e.name, make e.name e.bytes⟩ : Entry) = made := by
    intro e made
    unfold copied
    constructor
    · intro h
      obtain ⟨bytes, hread, h⟩ := ok_of_bind h
      obtain ⟨hsound, rfl⟩ := read_eq_ok.mp hread
      exact ⟨hsound, Except.ok.inj h⟩
    · rintro ⟨hsound, rfl⟩
      rw [read_eq_ok.mpr ⟨hsound, rfl⟩]
      rfl
  have hcopy : (editEntries edit j).outcome =
      j.files.foldlM (j.copyFile fun entry bytes => .ok (make entry bytes)) .empty :=
    outcome_editEntries hedit j
  rw [hcopy, foldlM_copyFile_eq_ok]
  simp only [mapM_eq_ok hcopied, and_assoc, exists_and_left, exists_eq_left']
  exact Iff.rfl

end Jar

end JarDerivation
