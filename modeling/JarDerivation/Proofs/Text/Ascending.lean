-- What is found under a name after values were put under names one after the other. The last value
-- of a name is found, in whatever order they were put there, and the names are in ascending order.
import JarDerivation.Text.Ascending
import Mathlib.Data.String.Basic

namespace JarDerivation

theorem lookup_cons_ite {α β : Type} [DecidableEq α] (a b : α) (v : β) (rest : List (α × β)) :
    List.lookup b ((a, v) :: rest) = if b = a then some v else List.lookup b rest := by
  rw [List.lookup_cons]
  by_cases h : b = a
  · rw [if_pos h, beq_iff_eq.mpr h]
  · rw [if_neg h, beq_eq_false_iff_ne.mpr h]

namespace Text.Ascending

variable {α : Type} {m : Ascending α} {name : String} {a : α}

/-! ## One value -/

theorem find?_insert (m : Ascending α) (name : String) (a : α) (other : String) :
    find? (insert name a m) other = if other = name then some a else find? m other := by
  unfold find?
  induction m with
  | nil => exact lookup_cons_ite _ _ _ _
  | cons x rest ih =>
    unfold insert
    split
    · exact lookup_cons_ite _ _ _ _
    · split
      · rename_i hname
        rw [lookup_cons_ite, lookup_cons_ite, hname]
        split <;> rfl
      · rename_i hne
        rw [lookup_cons_ite, lookup_cons_ite, ih]
        -- the value that stays in front has another name
        by_cases h : other = x.1
        · rw [if_pos h, if_pos h, if_neg fun heq => hne (heq.symm.trans h)]
        · rw [if_neg h, if_neg h]

theorem mem_names_iff {m : Ascending α} {name : String} :
    name ∈ m.names ↔ (m.find? name).isSome = true := by
  unfold names find?
  induction m with
  | nil => simp
  | cons x rest ih =>
    rw [lookup_cons_ite, List.map_cons, List.mem_cons, ih]
    split
    · rename_i hname
      simp [hname]
    · rename_i hname
      simp [hname]

/-- The names are in ascending order, so there is one value under a name. -/
def Ordered (m : Ascending α) : Prop := m.Pairwise fun x y => x.1 < y.1

theorem mem_of_mem_insert {x : String × α} (h : x ∈ insert name a m) : x = (name, a) ∨ x ∈ m := by
  induction m with
  | nil => exact .inl (List.mem_singleton.mp h)
  | cons y rest ih =>
    unfold insert at h
    split at h
    · exact List.mem_cons.mp h
    · split at h
      · exact (List.mem_cons.mp h).imp_right (List.mem_cons_of_mem y)
      · rcases List.mem_cons.mp h with rfl | h
        · exact .inr List.mem_cons_self
        · exact (ih h).imp_right (List.mem_cons_of_mem y)

theorem ordered_insert (h : Ordered m) (name : String) (a : α) : Ordered (insert name a m) := by
  induction m with
  | nil => exact List.pairwise_singleton _ _
  | cons x rest ih =>
    obtain ⟨hfirst, hrest⟩ := List.pairwise_cons.mp h
    unfold insert
    split
    · rename_i hlt
      refine List.pairwise_cons.mpr ⟨fun y hy => ?_, h⟩
      rcases List.mem_cons.mp hy with rfl | hy
      · exact hlt
      · exact lt_trans hlt (hfirst y hy)
    · split
      · rename_i hname
        subst hname
        exact List.pairwise_cons.mpr ⟨hfirst, hrest⟩
      · rename_i hle hne
        refine List.pairwise_cons.mpr ⟨fun y hy => ?_, ih hrest⟩
        rcases mem_of_mem_insert hy with rfl | hy
        · exact lt_of_le_of_ne (not_lt.mp hle) (Ne.symm hne)
        · exact hfirst y hy

/-! ## What is found -/

theorem lookup_eq_some_iff_of_nodup {xs : List (String × α)} (h : (xs.map Prod.fst).Nodup) :
    xs.lookup name = some a ↔ (name, a) ∈ xs := by
  induction xs with
  | nil => simp
  | cons x rest ih =>
    obtain ⟨hnot, hrest⟩ := List.nodup_cons.mp h
    rw [lookup_cons_ite, List.mem_cons, Prod.ext_iff]
    by_cases hname : name = x.1
    · have hgone : (name, a) ∉ rest := fun hmem => hnot (List.mem_map.mpr ⟨_, hmem, hname⟩)
      simp [hname ▸ hgone, hname, eq_comm]
    · simp [hname, ih hrest]

theorem Ordered.nodup_names (h : Ordered m) : m.names.Nodup :=
  List.pairwise_map.mpr (List.Pairwise.imp (fun hlt => ne_of_lt hlt) h)

theorem Ordered.find?_eq_some_iff (h : Ordered m) : m.find? name = some a ↔ (name, a) ∈ m :=
  lookup_eq_some_iff_of_nodup h.nodup_names

/-- The names of a part that is picked by the names. -/
theorem Ordered.mem_names_filter (h : Ordered m) (q : String → Bool) :
    name ∈ (m.filter fun x => q x.1).map Prod.fst ↔ (m.find? name).isSome ∧ q name := by
  rw [List.mem_map, Option.isSome_iff_exists]
  constructor
  · rintro ⟨x, hx, rfl⟩
    obtain ⟨hthere, hq⟩ := List.mem_filter.mp hx
    exact ⟨⟨x.2, h.find?_eq_some_iff.mpr hthere⟩, hq⟩
  · rintro ⟨⟨a, ha⟩, hq⟩
    exact ⟨(name, a), List.mem_filter.mpr ⟨h.find?_eq_some_iff.mp ha, hq⟩, rfl⟩

/-! ## Many values -/

/-- Puts values under names one after the other. -/
abbrev insertAll (m : Ascending α) (xs : List (String × α)) : Ascending α :=
  xs.foldl (fun m x => insert x.1 x.2 m) m

theorem ordered_insertAll (h : Ordered m) (xs : List (String × α)) : Ordered (insertAll m xs) :=
  List.foldlRecOn xs _ h fun _ hm x _ => ordered_insert hm x.1 x.2

theorem mem_names_insertAll {m : Ascending α} {xs : List (String × α)} {name : String} :
    name ∈ (insertAll m xs).names ↔ name ∈ xs.map Prod.fst ∨ name ∈ m.names := by
  induction xs generalizing m with
  | nil => simp
  | cons x rest ih =>
    have hinsert : name ∈ (insert x.1 x.2 m).names ↔ name = x.1 ∨ name ∈ m.names := by
      rw [mem_names_iff, mem_names_iff, find?_insert]
      split
      · rename_i h
        simp [h]
      · rename_i h
        simp [h]
    rw [show insertAll m (x :: rest) = insertAll (insert x.1 x.2 m) rest from rfl, ih, hinsert,
      List.map_cons, List.mem_cons, or_left_comm, or_assoc]

/-- New values under different names take the places of the old ones. -/
theorem find?_insertAll {xs : List (String × α)} (h : (xs.map Prod.fst).Nodup) (m : Ascending α)
    (name : String) : (insertAll m xs).find? name = (xs.lookup name).or (m.find? name) := by
  induction xs generalizing m with
  | nil => rfl
  | cons x rest ih =>
    obtain ⟨hnot, hrest⟩ := List.nodup_cons.mp h
    have hnext : (insertAll m (x :: rest)).find? name =
        (rest.lookup name).or (find? (insert x.1 x.2 m) name) := ih hrest _
    rw [hnext, find?_insert, lookup_cons_ite]
    by_cases hname : name = x.1
    · have hgone : rest.lookup name = none := by
        refine List.lookup_eq_none_iff.mpr fun y hy => bne_iff_ne.mpr fun heq => hnot ?_
        exact List.mem_map.mpr ⟨y, hy, heq.symm.trans hname⟩
      rw [hgone, if_pos hname, if_pos hname]
      rfl
    · rw [if_neg hname, if_neg hname]

end Text.Ascending

/-- Putting names in order loses none of them. -/
theorem Text.mem_ascending {xs : List String} {name : String} :
    name ∈ Text.ascending xs ↔ name ∈ xs := by
  have hnames : name ∈ Text.ascending xs ↔
      name ∈ (xs.map fun n => (n, ())).map Prod.fst ∨ name ∈ Text.Ascending.names (α := Unit) [] :=
    Text.Ascending.mem_names_insertAll
  rw [hnames, List.map_map]
  simp [Text.Ascending.names, Function.comp_def]

end JarDerivation
