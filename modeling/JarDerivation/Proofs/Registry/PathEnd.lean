-- Where a path ends: in the namespace that was asked for. That holds for each path that is found,
-- whatever else the namespaces declare; so it also holds beside targets that nobody has registered.
import JarDerivation.Proofs.Registry.ShortestPath

namespace JarDerivation

/-- A trail that the search finds ends in the goal, and goes on from one that was waiting. -/
theorem BreadthFirst.breadthFirst_found {ε : Type} {next : Nat → Except ε (List Nat)}
    {goal fuel : Nat} {seen : List Nat} {waiting : List (List Nat)} {trail : List Nat}
    (h : breadthFirst next goal fuel seen waiting = .ok (some trail)) :
    trail.head? = some goal ∧ ∃ t ∈ waiting, t <:+ trail := by
  fun_induction breadthFirst next goal fuel seen waiting with
  | case1 => cases h
  | case2 => cases h
  | case3 fuel seen waiting ih =>
    obtain ⟨hgoal, t, ht, hsuffix⟩ := ih h
    exact ⟨hgoal, t, List.mem_cons_of_mem _ ht, hsuffix⟩
  | case4 fuel seen rest waiting =>
    cases h
    exact ⟨rfl, _, List.mem_cons_self, List.suffix_rfl⟩
  | case5 => cases h
  | case6 fuel seen current rest waiting _ found _ fresh ih =>
    obtain ⟨hgoal, t, ht, hsuffix⟩ := ih h
    rcases List.mem_append.mp ht with ht | ht
    · exact ⟨hgoal, t, List.mem_cons_of_mem _ ht, hsuffix⟩
    · obtain ⟨n, -, rfl⟩ := List.mem_map.mp ht
      exact ⟨hgoal, _, List.mem_cons_self, (List.suffix_cons n _).trans hsuffix⟩

namespace Registry

variable {r : Registry} {name : String} {ns : Namespace}

theorem lookup_of_indexOf? {idx : Nat} (h : r.indexOf? name = some idx) :
    ∃ ns, r.namespaceAt idx = some ns ∧ r.lookup name = .ok ns := by
  obtain ⟨hlt, hname, hfirst⟩ := List.findIdx?_eq_some_iff_getElem.mp h
  have hfind : r.entries.find? (·.namespaceOf.name == name) = some r.entries[idx] := by
    refine List.find?_eq_some_iff_getElem.mpr ⟨hname, idx, hlt, rfl, fun j hj => ?_⟩
    simpa using hfirst j hj
  refine ⟨r.entries[idx].namespaceOf, ?_, ?_⟩
  · unfold namespaceAt
    rw [List.getElem?_eq_getElem hlt]
    rfl
  · unfold lookup
    rw [hfind]

theorem name_of_lookup (h : r.lookup name = .ok ns) : ns.name = name := by
  unfold lookup at h
  split at h
  · rename_i e hfind
    cases h
    simpa using List.find?_some hfind
  · cases h

/-- A path ends in the namespace that was asked for. It is empty if it begins there. -/
theorem path_end {source sourceFallback target targetFallback : String} {path : List Namespace}
    (hs : r.Sound)
    (h : r.ask (resolvePath source sourceFallback target targetFallback) = .ok path) :
    (source = target ∧ path = []) ∨
      ∃ before ns, path = before ++ [ns] ∧ r.lookup target = .ok ns := by
  rw [(answers_resolvePath hs source sourceFallback target targetFallback).ask_eq] at h
  unfold route at h
  split at h
  · cases h
  · split at h
    · rename_i heq
      cases h
      exact .inl ⟨heq, rfl⟩
    · rename_i hne
      split at h
      · rename_i start goal hstart hgoal
        split at h
        · rename_i trail hfound
          cases h
          right
          obtain ⟨ns, hat, hlookup⟩ := lookup_of_indexOf? hgoal
          obtain ⟨hhead, t, ht, hsuffix⟩ := BreadthFirst.breadthFirst_found hfound
          rw [List.mem_singleton.mp ht] at hsuffix
          obtain ⟨before, rfl⟩ := hsuffix
          cases before with
          | nil =>
            obtain rfl : start = goal := Option.some.inj hhead
            obtain ⟨ns', hat', hlookup'⟩ := lookup_of_indexOf? hstart
            obtain rfl := Option.some.inj (hat.symm.trans hat')
            exact absurd ((name_of_lookup hlookup').symm.trans (name_of_lookup hlookup)) hne
          | cons first rest =>
            obtain rfl : first = goal := Option.some.inj hhead
            refine ⟨rest.reverse.filterMap r.namespaceAt, ns, ?_, hlookup⟩
            simp [List.filterMap_append, hat]
        · cases h
        · cases h
      · cases h

end Registry

end JarDerivation
