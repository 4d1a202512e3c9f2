-- A registry answers from its registrations alone: what earlier questions left
-- behind never shows, a refused registration changes nothing, and between two
-- registrations of a namespace each of its lists is asked for at most once.
import JarDerivation.Proofs.Registry.ShortestPath

namespace JarDerivation

/-- What a call on a registry gives back. -/
inductive RegistryAnswer where
  | registered (x : Except Error Namespace)
  | held (b : Bool)
  | edge (x : Except Error Bool)
  | namespaces (x : Except Error (List Namespace))

namespace RegistryCall

def registers : RegistryCall → Bool
  | .register _ _ _ => true
  | _ => false

/-- The targets that a call adds to a namespace. A registration with the other
flag adds none. -/
def adds (ns : Namespace) : RegistryCall → Option (List String)
  | .register name named targets => if (⟨name, named⟩ : Namespace) = ns then some targets else none
  | _ => none

end RegistryCall

namespace RegistryEntry

/-- An entry with the targets of a registration, if the registration is for it. -/
def extendFor (name : String) (targets : List String) (e : RegistryEntry) : RegistryEntry :=
  if e.namespaceOf.name == name then e.extend targets else e

theorem forget_extendFor (name : String) (targets : List String) (e : RegistryEntry) :
    (e.extendFor name targets).forget = e.forget.extendFor name targets := by
  unfold extendFor
  rw [forget_namespaceOf]
  split <;> rfl

end RegistryEntry

namespace Registry

/-- The answer to a call. -/
def answer (r : Registry) : RegistryCall → RegistryAnswer
  | .register name named targets => .registered ((r.register name named targets).map (·.1))
  | .lookup name => .registered (r.lookup name)
  | .contains name => .held (r.contains name)
  | .remapsTo name => .namespaces (r.ask (remapsTo name))
  | .canRemap source target => .edge (r.ask (canRemap source target))
  | .resolvePath source sourceFallback target targetFallback =>
    .namespaces (r.ask (resolvePath source sourceFallback target targetFallback))

/-! ## The graph of the registrations -/

/-- The namespaces in order of their first registration, which settles the flag. -/
def order (calls : List RegistryCall) : List Namespace :=
  calls.foldl (fun acc call =>
    match call with
    | .register name named _ => if acc.any (·.name == name) then acc else acc ++ [⟨name, named⟩]
    | _ => acc) []

/-- The lists of the registrations of a namespace with its own flag. -/
def accepted (calls : List RegistryCall) (ns : Namespace) : List (List String) :=
  calls.filterMap (·.adds ns)

/-- The direct targets of a namespace, as the registrations have them. -/
def declaredTargets (calls : List RegistryCall) (name : String) : Except Error (List Namespace) :=
  match (order calls).find? (·.name == name) with
  | none => .error (.unknownNamespace name "remap graph")
  | some ns =>
    let targets := (accepted calls ns).flatten
    match targets.find? fun t => !(order calls).any (·.name == t) with
    | some t => .error (.unknownNamespace t s!"declared as remap target of {name}")
    | none => .ok ((order calls).filter fun t => targets.contains t.name)

/-- The entry of a namespace before any question. -/
def entryOf (calls : List RegistryCall) (ns : Namespace) : RegistryEntry :=
  ⟨ns, accepted calls ns, none⟩

theorem order_snoc (calls : List RegistryCall) (call : RegistryCall) :
    order (calls ++ [call]) =
      match call with
      | .register name named _ =>
        if (order calls).any (·.name == name) then order calls else order calls ++ [⟨name, named⟩]
      | _ => order calls := by
  unfold order
  rw [List.foldl_append]
  cases call <;> rfl

/-- A registration of a name that is registered changes no place. -/
theorem order_register_known {calls : List RegistryCall} {name : String}
    (h : ∃ ns ∈ order calls, ns.name = name) (named : Bool) (targets : List String) :
    order (calls ++ [.register name named targets]) = order calls := by
  obtain ⟨ns, hns, hname⟩ := h
  have hany : (order calls).any (·.name == name) :=
    List.any_eq_true.mpr ⟨ns, hns, by simp [hname]⟩
  rw [order_snoc]
  simp only [hany, if_true]

theorem order_register_new {calls : List RegistryCall} {name : String}
    (h : ∀ ns ∈ order calls, ns.name ≠ name) (named : Bool) (targets : List String) :
    order (calls ++ [.register name named targets]) = order calls ++ [⟨name, named⟩] := by
  have hany : (order calls).any (·.name == name) = false := by
    rw [List.any_eq_false]
    intro ns hns
    simpa using h ns hns
  rw [order_snoc]
  simp only [hany, Bool.false_eq_true, if_false]

theorem accepted_snoc (calls : List RegistryCall) (call : RegistryCall) (ns : Namespace) :
    accepted (calls ++ [call]) ns = accepted calls ns ++ (call.adds ns).toList := by
  unfold accepted
  rw [List.filterMap_append]
  cases h : call.adds ns <;> simp [h]

theorem entryOf_snoc (calls : List RegistryCall) (call : RegistryCall) (ns : Namespace) :
    entryOf (calls ++ [call]) ns =
      ⟨ns, accepted calls ns ++ (call.adds ns).toList, none⟩ :=
  congrArg (RegistryEntry.mk ns · none) (accepted_snoc calls call ns)

/-- A registration leaves the entries of other namespaces as they are. -/
theorem entryOf_register_other (calls : List RegistryCall) {name : String} {named : Bool}
    (targets : List String) {ns : Namespace} (h : (⟨name, named⟩ : Namespace) ≠ ns) :
    entryOf (calls ++ [.register name named targets]) ns = entryOf calls ns := by
  rw [entryOf_snoc]
  simp [entryOf, RegistryCall.adds, h]

/-! ## What a registration does -/

theorem map_namespaceOf_graph (r : Registry) : r.graph.map (·.namespaceOf) = r.namespaces := by
  unfold graph namespaces
  rw [List.map_map]
  rfl

theorem Sound.namespace_unique {r : Registry} (h : r.Sound) {a b : Namespace}
    (ha : a ∈ r.namespaces) (hb : b ∈ r.namespaces) (hname : a.name = b.name) : a = b := by
  obtain ⟨e, he, rfl⟩ := List.mem_map.mp ha
  obtain ⟨f, hf, rfl⟩ := List.mem_map.mp hb
  rw [h.entry_unique he hf hname]

/-- A registration extends the entry of its name, is refused for its flag, or
makes a new entry. -/
inductive Registers (r : Registry) (name : String) (named : Bool) (targets : List String) : Prop where
  | extended : ⟨name, named⟩ ∈ r.namespaces →
      r.register name named targets =
        .ok (⟨name, named⟩, { r with entries := r.entries.map (·.extendFor name targets) }) →
      Registers r name named targets
  | refused : ⟨name, !named⟩ ∈ r.namespaces →
      r.register name named targets = .error (.duplicateNamespace name !named) →
      Registers r name named targets
  | added : (∀ ns ∈ r.namespaces, ns.name ≠ name) →
      r.register name named targets =
        .ok (⟨name, named⟩, { r with entries := r.entries ++ [⟨⟨name, named⟩, [targets], none⟩] }) →
      Registers r name named targets

theorem register_cases (r : Registry) (name : String) (named : Bool) (targets : List String) :
    Registers r name named targets := by
  cases hfind : r.entries.find? (·.namespaceOf.name == name) with
  | some e =>
    have hname : e.namespaceOf.name = name := by simpa using List.find?_some hfind
    have hmem : e.namespaceOf ∈ r.namespaces :=
      List.mem_map_of_mem (List.mem_of_find?_eq_some hfind)
    by_cases hflag : e.namespaceOf.named = named
    · have he : e.namespaceOf = ⟨name, named⟩ := by rw [← hname, ← hflag]
      apply Registers.extended (he ▸ hmem)
      unfold register
      simp only [hfind, he, beq_self_eq_true, if_true]
      rfl
    · have he : e.namespaceOf = ⟨name, !named⟩ := by
        rw [← hname, ← Bool.eq_not_of_ne hflag]
      apply Registers.refused (he ▸ hmem)
      unfold register
      simp [hfind, he]
  | none =>
    refine Registers.added ?_ ?_
    · intro ns hns
      obtain ⟨e, he, rfl⟩ := List.mem_map.mp hns
      simpa using List.find?_eq_none.mp hfind e he
    · unfold register
      simp only [hfind]

/-! ## Every run has the graph of its registrations -/

/-- A namespace that a registration of the run is for has its name in the order. -/
theorem mem_order_of_accepted {calls : List RegistryCall} {ns : Namespace}
    (h : accepted calls ns ≠ []) : ∃ a ∈ order calls, a.name = ns.name := by
  induction calls using List.reverseRecOn with
  | nil => exact absurd rfl h
  | append_singleton calls call ih =>
    rw [accepted_snoc] at h
    rw [order_snoc]
    cases call with
    | register name named targets =>
      simp only
      split
      · rename_i hany
        by_cases hns : (⟨name, named⟩ : Namespace) = ns
        · obtain ⟨a, ha, haname⟩ := List.any_eq_true.mp hany
          refine ⟨a, ha, ?_⟩
          rw [← hns]
          simpa using haname
        · exact ih (by simpa [RegistryCall.adds, hns] using h)
      · by_cases hns : (⟨name, named⟩ : Namespace) = ns
        · exact ⟨_, List.mem_append_right _ (List.mem_singleton.mpr hns.symm), rfl⟩
        · obtain ⟨a, ha, haname⟩ := ih (by simpa [RegistryCall.adds, hns] using h)
          exact ⟨a, List.mem_append_left _ ha, haname⟩
    | _ => exact ih (by simpa [RegistryCall.adds] using h)

/-- One registration, on a registry that has the graph of the calls before it. -/
theorem graph_after_register {r : Registry} {calls : List RegistryCall} (hs : r.Sound)
    (hg : r.graph = (order calls).map (entryOf calls)) (name : String) (named : Bool)
    (targets : List String) :
    (r.after (.register name named targets)).graph =
      (order (calls ++ [.register name named targets])).map
        (entryOf (calls ++ [.register name named targets])) := by
  have horder : r.namespaces = order calls := by
    rw [← map_namespaceOf_graph, hg, List.map_map]
    exact List.map_id _
  rcases register_cases r name named targets with ⟨hmem, hr⟩ | ⟨hmem, hr⟩ | ⟨hnone, hr⟩
  · rw [order_register_known ⟨⟨name, named⟩, horder ▸ hmem, rfl⟩]
    have hgraph : (r.after (.register name named targets)).graph =
        r.graph.map (·.extendFor name targets) := by
      simp only [after, hr, graph, List.map_map]
      exact List.map_congr_left fun e _ => e.forget_extendFor name targets
    rw [hgraph, hg, List.map_map]
    apply List.map_congr_left
    intro ns hns
    simp only [Function.comp]
    by_cases heq : ns.name = name
    · obtain rfl : (⟨name, named⟩ : Namespace) = ns :=
        hs.namespace_unique hmem (horder ▸ hns) heq.symm
      rw [entryOf_snoc]
      simp [entryOf, RegistryEntry.extendFor, RegistryEntry.extend, RegistryCall.adds]
    · have hne : (⟨name, named⟩ : Namespace) ≠ ns := by
        rintro rfl
        exact heq rfl
      rw [entryOf_register_other calls targets hne]
      simp [entryOf, RegistryEntry.extendFor, heq]
  · rw [order_register_known ⟨⟨name, !named⟩, horder ▸ hmem, rfl⟩]
    simp only [after, hr]
    rw [hg]
    apply List.map_congr_left
    intro ns hns
    refine (entryOf_register_other calls targets ?_).symm
    rintro rfl
    have hsame : (⟨name, !named⟩ : Namespace) = ⟨name, named⟩ :=
      hs.namespace_unique hmem (horder.symm ▸ hns) rfl
    simp at hsame
  · rw [horder] at hnone
    have hempty : accepted calls ⟨name, named⟩ = [] := by
      by_contra h
      obtain ⟨a, ha, haname⟩ := mem_order_of_accepted h
      exact hnone a ha haname
    simp only [after, hr]
    unfold graph at hg ⊢
    rw [order_register_new hnone, List.map_append, List.map_append, hg]
    congr 1
    · apply List.map_congr_left
      intro ns hns
      refine (entryOf_register_other calls targets ?_).symm
      rintro rfl
      exact hnone _ hns rfl
    · rw [List.map_singleton, List.map_singleton, entryOf_snoc, hempty]
      simp [RegistryEntry.forget, RegistryCall.adds]

/-- A question leaves a sound registry of the same graph, and asks for no list
of a namespace twice. -/
theorem left_of_question {r : Registry} (hs : r.Sound) {call : RegistryCall}
    (hcall : call.registers = false) :
    (r.after call).graph = r.graph ∧ ∀ name, Spends name r (r.after call) := by
  cases call with
  | register name named targets => cases hcall
  | lookup name => exact ⟨rfl, fun name => Spends.refl name r⟩
  | contains name => exact ⟨rfl, fun name => Spends.refl name r⟩
  | remapsTo name => exact (answers_remapsTo hs name).left.2
  | canRemap source target => exact (answers_canRemap hs source target).left.2
  | resolvePath source sourceFallback target targetFallback =>
    exact (answers_resolvePath hs source sourceFallback target targetFallback).left.2

theorem run_append (earlier later : List RegistryCall) :
    run (earlier ++ later) = later.foldl after (run earlier) := List.foldl_append

/-- The graph of a run is read off its registrations. -/
theorem graph_run (calls : List RegistryCall) :
    (run calls).graph = (order calls).map (entryOf calls) := by
  induction calls using List.reverseRecOn with
  | nil => rfl
  | append_singleton calls call ih =>
    rw [run_append]
    cases hcall : call.registers with
    | true =>
      cases call with
      | register name named targets =>
        exact graph_after_register (sound_run calls) ih name named targets
      | _ => cases hcall
    | false =>
      have horder : order (calls ++ [call]) = order calls := by
        rw [order_snoc]
        cases call with
        | register name named targets => cases hcall
        | _ => rfl
      have hentry : entryOf (calls ++ [call]) = entryOf calls := by
        funext ns
        rw [entryOf_snoc]
        cases call with
        | register name named targets => cases hcall
        | _ => simp [entryOf, RegistryCall.adds]
      rw [horder, hentry, ← ih]
      exact (left_of_question (sound_run calls) hcall).1

theorem namespaces_run (calls : List RegistryCall) : (run calls).namespaces = order calls := by
  rw [← map_namespaceOf_graph, graph_run, List.map_map]
  exact List.map_id _

/-! ## Answers depend on the graph -/

theorem find?_of_graph {r r' : Registry} (h : r'.graph = r.graph) (name : String) :
    (r'.entries.find? (·.namespaceOf.name == name)).map (·.namespaceOf) =
      (r.entries.find? (·.namespaceOf.name == name)).map (·.namespaceOf) := by
  have key : ∀ s : Registry, (s.entries.find? (·.namespaceOf.name == name)).map (·.namespaceOf) =
      (s.graph.find? (·.namespaceOf.name == name)).map (·.namespaceOf) := by
    intro s
    unfold graph
    rw [List.find?_map, Option.map_map]
    rfl
  rw [key, key, h]

theorem lookup_eq (r : Registry) (name : String) :
    r.lookup name =
      match (r.entries.find? (·.namespaceOf.name == name)).map (·.namespaceOf) with
      | some ns => .ok ns
      | none => .error (.unknownNamespace name "namespace lookup") := by
  unfold lookup
  cases r.entries.find? (·.namespaceOf.name == name) <;> rfl

theorem map_register_eq (r : Registry) (name : String) (named : Bool) (targets : List String) :
    (r.register name named targets).map (·.1) =
      match (r.entries.find? (·.namespaceOf.name == name)).map (·.namespaceOf) with
      | some ns => if ns.named == named then .ok ns else .error (.duplicateNamespace name ns.named)
      | none => .ok ⟨name, named⟩ := by
  unfold register
  cases r.entries.find? (·.namespaceOf.name == name) with
  | none => rfl
  | some e =>
    simp only [Option.map_some]
    split <;> rfl

theorem route_of_graph {r r' : Registry} (h : r'.graph = r.graph)
    (source sourceFallback target targetFallback : String) :
    r'.route source sourceFallback target targetFallback =
      r.route source sourceFallback target targetFallback := by
  have hindex : r'.indexOf? = r.indexOf? := funext (indexOf?_of_graph h)
  have hcontains : r'.contains = r.contains := by
    funext name
    unfold contains
    rw [hindex]
  have hat : r'.namespaceAt = r.namespaceAt := funext (namespaceAt_of_graph h)
  have hsize : r'.size = r.size := by
    have := congrArg List.length h
    simpa [graph, size] using this
  unfold route
  rw [hcontains, hindex, hat, hsize, next_of_graph h]

/-- Two registries of the same graph give the same answers. -/
theorem answer_of_graph {r r' : Registry} (hs : r.Sound) (hs' : r'.Sound) (h : r'.graph = r.graph)
    (call : RegistryCall) : r'.answer call = r.answer call := by
  cases call with
  | register name named targets => simp only [answer, map_register_eq, find?_of_graph h]
  | lookup name => simp only [answer, lookup_eq, find?_of_graph h]
  | contains name => simp only [answer, contains, indexOf?_of_graph h]
  | remapsTo name =>
    have hat : r'.namespaceAt = r.namespaceAt := funext (namespaceAt_of_graph h)
    simp only [answer, (answers_remapsTo hs name).ask_eq, (answers_remapsTo hs' name).ask_eq,
      adjacent_of_graph h, hat]
  | canRemap source target =>
    have hat : r'.namespaceAt = r.namespaceAt := funext (namespaceAt_of_graph h)
    simp only [answer, (answers_canRemap hs source target).ask_eq,
      (answers_canRemap hs' source target).ask_eq, adjacent_of_graph h, hat]
  | resolvePath source sourceFallback target targetFallback =>
    simp only [answer, (answers_resolvePath hs source sourceFallback target targetFallback).ask_eq,
      (answers_resolvePath hs' source sourceFallback target targetFallback).ask_eq, route_of_graph h]

/-! ## Direct targets -/

theorem find?_union (p : String → Bool) (seen names : List String) :
    (RegistryEntry.union seen names).find? p = (seen.find? p).or (names.find? p) := by
  unfold RegistryEntry.union
  induction names generalizing seen with
  | nil => simp
  | cons n rest ih =>
    rw [List.foldl_cons, ih]
    split
    · rename_i hn
      cases hp : p n with
      | false => rw [List.find?_cons_of_neg (by simp [hp])]
      | true =>
        -- `n` was seen, so the search stopped at it or before it.
        have hfound : (seen.find? p).isSome :=
          List.find?_isSome.mpr ⟨n, by simpa using hn, hp⟩
        obtain ⟨m, hm⟩ := Option.isSome_iff_exists.mp hfound
        rw [hm, Option.some_or, Option.some_or]
    · rw [List.find?_append, Option.or_assoc, ← List.find?_append, List.singleton_append]

theorem targets_eq (e : RegistryEntry) :
    e.targets = RegistryEntry.union [] e.declared.flatten := by
  unfold RegistryEntry.targets RegistryEntry.union
  rw [List.foldl_flatten]

theorem places_error {r : Registry} (name : String) {targets : List String} {t : String}
    (h : targets.find? (!r.contains ·) = some t) :
    r.places name targets = .error (.unknownNamespace t s!"declared as remap target of {name}") := by
  induction targets with
  | nil => cases h
  | cons t' rest ih =>
    unfold places
    rw [List.find?_cons] at h
    cases hidx : r.indexOf? t' with
    | none =>
      have hnot : r.contains t' = false := by simp [contains, hidx]
      simp only [hnot, Bool.not_false] at h
      cases h
      rfl
    | some idx =>
      have hheld : r.contains t' = true := by simp [contains, hidx]
      simp only [hheld, Bool.not_true] at h
      simp only [ih h]
      rfl

theorem rank_of_namespaceAt {r : Registry} (hs : r.Sound) {i : Nat} {ns : Namespace}
    (h : r.namespaceAt i = some ns) : r.rank ns.name = i := by
  have hnodup : (r.namespaces.map (·.name)).Nodup := by
    have hnames := hs.names_nodup
    rwa [namespaces, List.map_map]
  have hat : (r.namespaces.map (·.name))[i]? = some ns.name := by
    rw [List.getElem?_map, namespaces, List.getElem?_map]
    unfold namespaceAt at h
    rw [h]
    rfl
  obtain ⟨hlt, heq⟩ := List.getElem?_eq_some_iff.mp hat
  unfold rank
  rw [← heq, hnodup.idxOf_getElem]

theorem pairwise_namespaces {r : Registry} (hs : r.Sound) :
    r.namespaces.Pairwise fun a b => r.rank a.name < r.rank b.name := by
  rw [List.pairwise_iff_getElem]
  intro i j hi hj hlt
  have hat : ∀ k (hk : k < r.namespaces.length), r.namespaceAt k = some r.namespaces[k] := by
    intro k hk
    unfold namespaceAt
    rw [← List.getElem?_map]
    exact List.getElem?_eq_getElem hk
  rwa [rank_of_namespaceAt hs (hat i hi), rank_of_namespaceAt hs (hat j hj)]

/-- The namespaces at the sorted places of registered targets stand in order of
registration. -/
theorem filterMap_places {r : Registry} (hs : r.Sound) {targets : List String} {l : List Nat}
    (hknown : ∀ t ∈ targets, r.contains t) (hl : l.Pairwise (· < ·))
    (hmem : ∀ v, v ∈ l ↔ ∃ t ∈ targets, r.rank t = v) :
    l.filterMap r.namespaceAt = r.namespaces.filter fun ns => targets.contains ns.name := by
  have hleft : (l.filterMap r.namespaceAt).Pairwise fun a b => r.rank a.name < r.rank b.name := by
    rw [List.pairwise_filterMap]
    apply hl.imp
    intro i j hlt a ha b hb
    rwa [rank_of_namespaceAt hs ha, rank_of_namespaceAt hs hb]
  have hright := (pairwise_namespaces hs).filter fun ns => targets.contains ns.name
  have hiff : ∀ ns, ns ∈ l.filterMap r.namespaceAt ↔
      ns ∈ r.namespaces.filter fun ns => targets.contains ns.name := by
    intro ns
    rw [List.mem_filterMap, List.mem_filter, List.contains_iff_mem]
    constructor
    · rintro ⟨v, hv, hat⟩
      obtain ⟨t, ht, rfl⟩ := (hmem v).mp hv
      obtain ⟨ns', hns', hat', rfl⟩ := namespaceAt_rank (hknown t ht)
      rw [hat] at hat'
      cases hat'
      exact ⟨hns', ht⟩
    · rintro ⟨hns, ht⟩
      obtain ⟨ns', hns', hat, hname⟩ := namespaceAt_rank (hknown _ ht)
      rw [hs.namespace_unique hns' hns hname] at hat
      exact ⟨_, (hmem _).mpr ⟨_, ht, rfl⟩, hat⟩
  have hnodup : ∀ {xs : List Namespace},
      (xs.Pairwise fun a b => r.rank a.name < r.rank b.name) → xs.Nodup := by
    intro xs hxs
    apply hxs.imp
    rintro a b hlt rfl
    exact Nat.lt_irrefl _ hlt
  apply List.Perm.eq_of_pairwise _ hleft hright
  · exact (List.perm_ext_iff_of_nodup (hnodup hleft) (hnodup hright)).mpr hiff
  · intro a b _ _ hab hba
    exact absurd hab (Nat.lt_asymm hba)

theorem entry_of_run {calls : List RegistryCall} {e : RegistryEntry}
    (he : e ∈ (run calls).entries) : e.declared = accepted calls e.namespaceOf := by
  have hmem : e.forget ∈ (run calls).graph := List.mem_map_of_mem he
  rw [graph_run] at hmem
  obtain ⟨ns, _, hns⟩ := List.mem_map.mp hmem
  have hnamespace := congrArg RegistryEntry.namespaceOf hns
  have hdeclared := congrArg RegistryEntry.declared hns
  simp only [entryOf, RegistryEntry.forget_namespaceOf, RegistryEntry.forget_declared]
    at hnamespace hdeclared
  rw [← hdeclared, hnamespace]

theorem any_order_eq_contains (calls : List RegistryCall) (name : String) :
    (order calls).any (·.name == name) = (run calls).contains name := by
  rw [← namespaces_run, Bool.eq_iff_iff, List.any_eq_true]
  constructor
  · rintro ⟨ns, hns, hname⟩
    obtain ⟨e, he, rfl⟩ := List.mem_map.mp hns
    unfold contains indexOf?
    rw [List.findIdx?_isSome, List.any_eq_true]
    exact ⟨e, he, hname⟩
  · intro h
    obtain ⟨ns, hns, _, hname⟩ := namespaceAt_rank h
    exact ⟨ns, hns, by simp [hname]⟩

/-- A run answers with the direct targets of its registrations. -/
theorem ask_remapsTo_run (calls : List RegistryCall) (name : String) :
    (run calls).ask (remapsTo name) = declaredTargets calls name := by
  have hs := sound_run calls
  rw [(answers_remapsTo hs name).ask_eq]
  unfold declaredTargets
  cases hfind : (order calls).find? (·.name == name) with
  | none =>
    have hnot : (run calls).indexOf? name = none := by
      have hany := any_order_eq_contains calls name
      rw [List.any_eq_false.mpr (by simpa using List.find?_eq_none.mp hfind)] at hany
      simpa [contains] using hany.symm
    unfold adjacent
    rw [hnot]
    rfl
  | some ns =>
    have hname : ns.name = name := by simpa using List.find?_some hfind
    have hns : ns ∈ (run calls).namespaces := namespaces_run calls ▸ List.mem_of_find?_eq_some hfind
    have hcontains : (run calls).contains name := by
      rw [← any_order_eq_contains]
      exact List.any_eq_true.mpr ⟨ns, List.mem_of_find?_eq_some hfind, by simp [hname]⟩
    obtain ⟨e, he, hename⟩ := entry_at_rank hcontains
    have hmem := List.mem_of_getElem? he
    obtain rfl : e.namespaceOf = ns :=
      hs.namespace_unique (List.mem_map_of_mem hmem) hns (hename.trans hname.symm)
    have hadj : (run calls).adjacent name = (run calls).places name e.targets := by
      unfold adjacent
      simp only [indexOf?_eq_rank hcontains, he, Option.map_some, Option.getD_some]
    have hsearch : e.targets.find? (!(run calls).contains ·) =
        (accepted calls e.namespaceOf).flatten.find? fun t => !(order calls).any (·.name == t) := by
      rw [targets_eq, find?_union, List.find?_nil, Option.none_or, entry_of_run hmem]
      simp only [any_order_eq_contains]
    rw [hadj]
    simp only [← hsearch]
    cases hmissing : e.targets.find? (!(run calls).contains ·) with
    | some t =>
      rw [places_error name hmissing]
      rfl
    | none =>
      have hknown : ∀ t ∈ e.targets, (run calls).contains t := by
        simpa using List.find?_eq_none.mp hmissing
      obtain ⟨l, hl, hsorted, hlmem⟩ := places_spec name hknown
      rw [hl, Except.map, filterMap_places hs hknown hsorted hlmem, namespaces_run]
      congr 1
      apply List.filter_congr
      intro t _
      rw [Bool.eq_iff_iff, List.contains_iff_mem, List.contains_iff_mem, targets_eq,
        RegistryEntry.mem_union, entry_of_run hmem]
      simp

/-! ## Lists between two registrations -/

/-- A registration drops what is kept for its own name only. -/
theorem keeps_extendFor (r : Registry) {name other : String} (targets : List String)
    (h : other ≠ name) :
    ({ r with entries := r.entries.map (·.extendFor name targets) } : Registry).keeps other =
      r.keeps other := by
  unfold keeps
  rw [List.any_map]
  congr 1
  funext e
  simp only [Function.comp, RegistryEntry.extendFor]
  split
  · rename_i he
    have hother : (e.namespaceOf.name == other) = false := by
      rw [beq_eq_false_iff_ne, beq_iff_eq.mp he]
      exact h.symm
    simp [RegistryEntry.extend, hother]
  · rfl

/-- A call that adds no targets to a registered namespace asks for each of its
lists at most once, and only if it starts to keep them. -/
theorem spends_after {r : Registry} (hs : r.Sound) {ns : Namespace} (hns : ns ∈ r.namespaces)
    {call : RegistryCall} (hadds : call.adds ns = none) :
    Spends ns.name r (r.after call) ∧ ns ∈ (r.after call).namespaces := by
  cases hcall : call.registers with
  | false =>
    obtain ⟨hg, hspends⟩ := left_of_question hs hcall
    refine ⟨hspends ns.name, ?_⟩
    rwa [← map_namespaceOf_graph, hg, map_namespaceOf_graph]
  | true =>
    cases call with
    | register name named targets =>
      have hne : (⟨name, named⟩ : Namespace) ≠ ns := by
        intro h
        simp [RegistryCall.adds, h] at hadds
      rcases register_cases r name named targets with ⟨hmem, hr⟩ | ⟨hmem, hr⟩ | ⟨hnone, hr⟩
      · have hname : ns.name ≠ name := fun h => hne (hs.namespace_unique hmem hns h.symm)
        simp only [after, hr]
        refine ⟨⟨[], by simp, by simp [keeps_extendFor r targets hname]⟩, ?_⟩
        obtain ⟨e, he, rfl⟩ := List.mem_map.mp hns
        refine List.mem_map.mpr ⟨_, List.mem_map_of_mem he, ?_⟩
        unfold RegistryEntry.extendFor
        split <;> rfl
      · simp only [after, hr]
        exact ⟨Spends.refl _ r, hns⟩
      · simp only [after, hr]
        refine ⟨⟨[], by simp, by simp [keeps]⟩, ?_⟩
        rw [namespaces, List.map_append]
        exact List.mem_append_left _ hns
    | _ => cases hcall

theorem spends_foldl {r : Registry} (hs : r.Sound) {ns : Namespace} (hns : ns ∈ r.namespaces)
    {later : List RegistryCall} (hlater : ∀ call ∈ later, call.adds ns = none) :
    Spends ns.name r (later.foldl after r) := by
  induction later generalizing r with
  | nil => exact Spends.refl _ r
  | cons call later ih =>
    obtain ⟨hspends, hns'⟩ := spends_after hs hns (hlater call List.mem_cons_self)
    exact hspends.trans
      (ih (sound_after hs call) hns' fun c hc => hlater c (List.mem_cons_of_mem _ hc))

/-! ## The law of freshness -/

theorem order_filter_registers (calls : List RegistryCall) :
    order (calls.filter RegistryCall.registers) = order calls := by
  induction calls using List.reverseRecOn with
  | nil => rfl
  | append_singleton calls call ih =>
    rw [List.filter_append, order_snoc]
    cases call with
    | register name named targets =>
      rw [← ih]
      exact order_snoc _ _
    | _ => exact (congrArg order (List.append_nil _)).trans ih

theorem accepted_filter_registers (calls : List RegistryCall) (ns : Namespace) :
    accepted (calls.filter RegistryCall.registers) ns = accepted calls ns := by
  unfold accepted
  rw [List.filterMap_filter]
  congr 1
  funext call
  cases call <;> rfl

/-- A run answers as the run of its registrations alone, its direct targets are
those of the accepted registrations, a refused registration changes no later
answer, and each list of a namespace is asked for at most once until the next
accepted registration of the namespace. -/
theorem a_registry_answers_from_its_registrations_alone (calls : List RegistryCall) :
    (∀ call, (run calls).answer call = (run (calls.filter RegistryCall.registers)).answer call) ∧
      (∀ name, (run calls).ask (remapsTo name) = declaredTargets calls name) ∧
      (∀ earlier later name named targets e,
        calls = earlier ++ .register name named targets :: later →
        (run earlier).register name named targets = .error e →
        ⟨name, !named⟩ ∈ order earlier ∧ e = .duplicateNamespace name (!named) ∧
          ∀ call, (run calls).answer call = (run (earlier ++ later)).answer call) ∧
      ∀ earlier later ns, calls = earlier ++ later → ns ∈ order earlier →
        (∀ call ∈ later, call.adds ns = none) →
        ∃ more, (run calls).evaluated = (run earlier).evaluated ++ more ∧
          ∀ k, more.count (ns.name, k) ≤ 1 := by
  refine ⟨?_, ask_remapsTo_run calls, ?_, ?_⟩
  · intro call
    apply answer_of_graph (sound_run _) (sound_run _)
    rw [graph_run, graph_run, order_filter_registers]
    apply List.map_congr_left
    intro ns _
    unfold entryOf
    rw [accepted_filter_registers]
  · rintro earlier later name named targets e rfl he
    rcases register_cases (run earlier) name named targets with ⟨_, hr⟩ | ⟨hmem, hr⟩ | ⟨_, hr⟩
    · rw [hr] at he
      cases he
    · rw [hr] at he
      cases he
      refine ⟨namespaces_run earlier ▸ hmem, rfl, ?_⟩
      intro call
      have hsame : (run earlier).after (.register name named targets) = run earlier := by
        simp only [after, hr]
      rw [run_append, List.foldl_cons, hsame, ← run_append]
    · rw [hr] at he
      cases he
  · rintro earlier later ns rfl hns hlater
    obtain ⟨more, heq, hcount⟩ :=
      spends_foldl (sound_run earlier) ((namespaces_run earlier).symm ▸ hns) hlater
    rw [run_append]
    refine ⟨more, heq, ?_⟩
    intro k
    have hone := Bool.toNat_le ((later.foldl after (run earlier)).keeps ns.name)
    have hk := hcount k
    omega

/-- `official` was asked for its targets before they were registered, and then
got a second list. -/
def forwardReference : List RegistryCall :=
  [.register "official" false ["named"], .remapsTo "official", .register "named" true [],
    .register "srg" false [], .register "official" false ["srg", "named"]]

/-- Questions and a refused registration. -/
def laterCalls : List RegistryCall :=
  [.register "official" true ["ghost"], .canRemap "official" "srg", .remapsTo "official"]

theorem a_forward_reference_is_found_and_each_list_asked_for_once :
    (run forwardReference).register "official" true ["ghost"] =
        .error (.duplicateNamespace "official" false) ∧
      (run (forwardReference ++ laterCalls)).ask (remapsTo "official") =
        .ok [⟨"named", true⟩, ⟨"srg", false⟩] ∧
      (∀ call, (run (forwardReference ++ laterCalls)).answer call =
        (run (forwardReference ++ laterCalls.tail)).answer call) ∧
      (∀ call ∈ laterCalls, call.adds ⟨"official", false⟩ = none) ∧
      ∃ more, (run (forwardReference ++ laterCalls)).evaluated =
          (run forwardReference).evaluated ++ more ∧
        ∀ k, more.count ("official", k) ≤ 1 := by
  have hrefused : (run forwardReference).register "official" true ["ghost"] =
      .error (.duplicateNamespace "official" false) := by decide
  have hadds : ∀ call ∈ laterCalls, call.adds ⟨"official", false⟩ = none := by decide
  obtain ⟨_, htargets, hunchanged, honce⟩ :=
    a_registry_answers_from_its_registrations_alone (forwardReference ++ laterCalls)
  refine ⟨hrefused, (htargets "official").trans (by decide), ?_, hadds, ?_⟩
  · exact (hunchanged forwardReference laterCalls.tail "official" true ["ghost"] _ rfl hrefused).2.2
  · exact honce forwardReference laterCalls ⟨"official", false⟩ rfl (by decide) hadds

end Registry

end JarDerivation
