-- The laws of renaming in descriptors. A descriptor is its pieces put together, so
-- a rename changes the class names in it and nothing else, and two renames one after
-- the other are one. A new name must not hold a `;`, which would end it too early.
import JarDerivation.Descriptor

namespace JarDerivation

namespace Descriptor

/-! ## Pieces and texts -/

/-- What a scan has read of a class name, as it stands in the text. -/
def readSoFar : Option (List Char) → List Char
  | none => []
  | some name => 'L' :: name.reverse

theorem flatMap_char (l : List Char) : (l.map Piece.char).flatMap Piece.chars = l := by
  induction l with
  | nil => rfl
  | cons c rest ih => simp [Piece.chars, ih]

/-- The pieces of a scan are the text that it reads. -/
theorem flatMap_scan (name : Option (List Char)) (l : List Char) :
    (scan name l).flatMap Piece.chars = readSoFar name ++ l := by
  induction l generalizing name with
  | nil =>
    cases name with
    | none => rfl
    | some name =>
      rw [scan, List.flatMap_cons, flatMap_char]
      simp [readSoFar, Piece.chars]
  | cons c rest ih =>
    cases name with
    | none =>
      by_cases hc : c = 'L'
      · simp [scan, hc, ih, readSoFar]
      · simp [scan, hc, ih, readSoFar, Piece.chars]
    | some name =>
      by_cases hc : c = ';'
      · simp [scan, hc, ih, readSoFar, Piece.chars]
      · simp [scan, hc, ih, readSoFar]

theorem flatMap_pieces (desc : String) : (pieces desc).flatMap Piece.chars = desc.toList :=
  flatMap_scan none desc.toList

theorem ofPieces_pieces (desc : String) : ofPieces (pieces desc) = desc := by
  unfold ofPieces
  rw [flatMap_pieces, String.ofList_toList]

theorem pieces_injective {desc desc' : String} (h : pieces desc = pieces desc') : desc = desc' := by
  rw [← ofPieces_pieces desc, h, ofPieces_pieces]

/-- A class name ends at the first `;`. -/
theorem scan_reference {l : List Char} (hl : ';' ∉ l) (name rest : List Char) :
    scan (some name) (l ++ ';' :: rest) = .reference (name.reverse ++ l) :: scan none rest := by
  induction l generalizing name with
  | nil => simp [scan]
  | cons c l ih =>
    have hc : c ≠ ';' := fun h => hl (h ▸ List.mem_cons_self)
    have hrest : ';' ∉ l := fun h => hl (List.mem_cons_of_mem c h)
    simp [scan, hc, ih hrest]

/-- Without a `;` there is no class name. -/
theorem scan_unended {l : List Char} (hl : ';' ∉ l) (name : List Char) :
    scan (some name) l = .char 'L' :: (name.reverse ++ l).map .char := by
  induction l generalizing name with
  | nil => simp [scan]
  | cons c l ih =>
    have hc : c ≠ ';' := fun h => hl (h ▸ List.mem_cons_self)
    have hrest : ';' ∉ l := fun h => hl (List.mem_cons_of_mem c h)
    simp [scan, hc, ih hrest]

/-! ## Renaming -/

/-- The name that a rename gives to a class. -/
def newName (f : String → Option String) (name : String) : String := (f name).getD name

/-- A rename that gives no name with a `;` in it. -/
def Clean (f : String → Option String) : Prop := ∀ name new, f name = some new → ';' ∉ new.toList

theorem rename_reference (f : String → Option String) (name : List Char) :
    Piece.rename f (.reference name) = .reference (newName f (String.ofList name)).toList := by
  unfold newName
  cases h : f (String.ofList name) with
  | none => simp [Piece.rename, h]
  | some new => simp [Piece.rename, h]

theorem Clean.newName {f : String → Option String} (hf : Clean f) {name : String}
    (hname : ';' ∉ name.toList) : ';' ∉ (newName f name).toList := by
  unfold Descriptor.newName
  cases h : f name with
  | none => exact hname
  | some new => exact hf name new h

/-- Pieces with clean new names are read back as they were written. -/
theorem scan_rename {f : String → Option String} (hf : Clean f) (name : Option (List Char))
    (hname : ∀ l, name = some l → ';' ∉ l) (l : List Char) :
    scan none (((scan name l).map (Piece.rename f)).flatMap Piece.chars) =
      (scan name l).map (Piece.rename f) := by
  induction l generalizing name with
  | nil =>
    cases name with
    | none => rfl
    | some name =>
      have hrev : ';' ∉ name.reverse := by simpa using hname name rfl
      have hchars : (name.reverse.map Piece.char).map (Piece.rename f) = name.reverse.map .char := by
        rw [List.map_map]
        rfl
      simp only [scan, List.map_cons, Piece.rename, hchars, List.flatMap_cons, Piece.chars,
        flatMap_char, List.cons_append, List.nil_append, if_pos]
      exact scan_unended hrev []
  | cons c rest ih =>
    cases name with
    | none =>
      by_cases hc : c = 'L'
      · simpa [scan, hc] using ih (some []) (by simp)
      · simpa [scan, hc, Piece.rename, Piece.chars] using ih none (by simp)
    | some name =>
      have hn := hname name rfl
      by_cases hc : c = ';'
      · have hnew : ';' ∉ (newName f (String.ofList name.reverse)).toList :=
          hf.newName (by simpa using hn)
        simp only [scan, hc, if_pos, List.map_cons, rename_reference, List.flatMap_cons, Piece.chars,
          List.cons_append, List.append_assoc, List.nil_append]
        rw [scan_reference hnew, ih none (by simp)]
        rfl
      · have hmore : ';' ∉ c :: name := by
          rw [List.mem_cons, not_or]
          exact ⟨Ne.symm hc, hn⟩
        simpa [scan, hc] using ih (some (c :: name)) (by simpa using hmore)

theorem pieces_rename {f : String → Option String} (hf : Clean f) (desc : String) :
    pieces (rename f desc) = (pieces desc).map (Piece.rename f) := by
  unfold rename ofPieces pieces
  rw [String.toList_ofList]
  exact scan_rename hf none (by simp) desc.toList

theorem mem_classes {desc : String} {name : List Char} (h : .reference name ∈ pieces desc) :
    String.ofList name ∈ classes desc := List.mem_filterMap.mpr ⟨_, h, rfl⟩

/-- The characters of a renamed descriptor are its own and those of the new names. -/
theorem mem_rename {f : String → Option String} {desc : String} {c : Char}
    (h : c ∈ (rename f desc).toList) :
    c ∈ desc.toList ∨ ∃ name new, f name = some new ∧ c ∈ new.toList := by
  unfold rename ofPieces at h
  rw [String.toList_ofList] at h
  obtain ⟨p', hp', hc⟩ := List.mem_flatMap.mp h
  obtain ⟨p, hp, rfl⟩ := List.mem_map.mp hp'
  have hown : ∀ d ∈ p.chars, d ∈ desc.toList := by
    intro d hd
    rw [← flatMap_pieces]
    exact List.mem_flatMap.mpr ⟨p, hp, hd⟩
  cases p with
  | char d => exact .inl (hown c hc)
  | reference name =>
    rw [Piece.rename] at hc
    cases hnew : f (String.ofList name) with
    | none =>
      rw [hnew] at hc
      exact .inl (hown c hc)
    | some new =>
      rw [hnew] at hc
      have hc : c = 'L' ∨ c ∈ new.toList ∨ c = ';' := by simpa [Piece.chars] using hc
      rcases hc with rfl | hc | rfl
      · exact .inl (hown _ (by simp [Piece.chars]))
      · exact .inr ⟨_, new, hnew, hc⟩
      · exact .inl (hown _ (by simp [Piece.chars]))

theorem rename_ne_nil (f : String → Option String) {desc : String} (h : desc.toList ≠ []) :
    (rename f desc).toList ≠ [] := by
  obtain ⟨c, hc⟩ := List.exists_mem_of_ne_nil _ h
  rw [← flatMap_pieces] at hc
  obtain ⟨p, hp, _⟩ := List.mem_flatMap.mp hc
  unfold rename ofPieces
  rw [String.toList_ofList]
  intro hnil
  have hempty := List.flatMap_eq_nil_iff.mp hnil (p.rename f) (List.mem_map_of_mem hp)
  cases p <;> cases hempty

/-- A rename depends on the names that it gives to the classes of the descriptor. -/
theorem rename_congr {f g : String → Option String} {desc : String}
    (h : ∀ name ∈ classes desc, newName f name = newName g name) : rename f desc = rename g desc := by
  unfold rename
  congr 1
  apply List.map_congr_left
  intro p hp
  cases p with
  | char c => rfl
  | reference name => rw [rename_reference, rename_reference, h _ (mem_classes hp)]

/-- A descriptor stays if all of its classes keep their names. -/
theorem rename_eq_self {f : String → Option String} {desc : String}
    (h : ∀ name ∈ classes desc, newName f name = name) : rename f desc = desc := by
  have hnone : rename (fun _ => none) desc = desc := by
    unfold rename
    rw [List.map_congr_left (g := id), List.map_id, ofPieces_pieces]
    intro p _
    cases p with
    | char c => rfl
    | reference name => rfl
  exact (rename_congr (g := fun _ => none) h).trans hnone

/-- Two renames one after the other are the rename that gives the last names. -/
theorem rename_rename {f g k : String → Option String} (hf : Clean f) {desc : String}
    (h : ∀ name ∈ classes desc, newName g (newName f name) = newName k name) :
    rename g (rename f desc) = rename k desc := by
  unfold rename
  rw [show ofPieces ((pieces desc).map (Piece.rename f)) = rename f desc from rfl, pieces_rename hf,
    List.map_map]
  congr 1
  apply List.map_congr_left
  intro p hp
  cases p with
  | char c => rfl
  | reference name =>
    rw [Function.comp, rename_reference, rename_reference, rename_reference, String.ofList_toList,
      h _ (mem_classes hp)]

/-- A function that tells the members of two lists apart tells their images apart. -/
theorem eq_of_map_eq {α β : Type} {f : α → β} {l l' : List α}
    (h : ∀ a ∈ l, ∀ b ∈ l', f a = f b → a = b) (heq : l.map f = l'.map f) : l = l' := by
  induction l generalizing l' with
  | nil => simpa using heq.symm
  | cons a l ih =>
    cases l' with
    | nil => cases heq
    | cons b l' =>
      rw [List.map_cons, List.map_cons, List.cons.injEq] at heq
      have hhead : a = b := h a List.mem_cons_self b List.mem_cons_self heq.1
      have htail : l = l' := ih (fun x hx y hy =>
        h x (List.mem_cons_of_mem a hx) y (List.mem_cons_of_mem b hy)) heq.2
      rw [hhead, htail]

/-- A rename that tells the classes of two descriptors apart tells the descriptors apart. -/
theorem rename_injective {f : String → Option String} (hf : Clean f) {desc desc' : String}
    (h : ∀ name ∈ classes desc, ∀ name' ∈ classes desc',
      newName f name = newName f name' → name = name')
    (heq : rename f desc = rename f desc') : desc = desc' := by
  apply pieces_injective
  have hpieces : (pieces desc).map (Piece.rename f) = (pieces desc').map (Piece.rename f) := by
    rw [← pieces_rename hf, ← pieces_rename hf, heq]
  have hsame : ∀ p ∈ pieces desc, ∀ p' ∈ pieces desc', p.rename f = p'.rename f → p = p' := by
    intro p hp p' hp' hrename
    cases p with
    | char c =>
      cases p' with
      | char c' => exact hrename
      | reference name' => rw [rename_reference] at hrename; cases hrename
    | reference name =>
      cases p' with
      | char c' => rw [rename_reference] at hrename; cases hrename
      | reference name' =>
        rw [rename_reference, rename_reference] at hrename
        have hnames := h _ (mem_classes hp) _ (mem_classes hp')
          (String.toList_injective (Piece.reference.inj hrename))
        rw [String.ofList_injective hnames]
  exact eq_of_map_eq hsame hpieces

end Descriptor

end JarDerivation
