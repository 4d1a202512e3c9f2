-- The calls on a registry. Every registry that calls can bring about is `Sound`,
-- and a question changes only what is kept of earlier questions: its answer
-- depends on the declared graph alone.
import JarDerivation.Registry
import JarDerivation.Proofs.Registry.BreadthFirst
import Mathlib.Data.List.Induction
import Mathlib.Logic.Relation

namespace JarDerivation

/-- A call on a registry: a registration or a question. -/
inductive RegistryCall where
  | register (name : String) (named : Bool) (targets : List String)
  | lookup (name : String)
  | contains (name : String)
  | remapsTo (name : String)
  | canRemap (source target : String)
  | resolvePath (source sourceFallback target targetFallback : String)
  deriving DecidableEq, Repr

/-! ## The targets of an entry -/

namespace RegistryEntry

theorem mem_union (seen names : List String) (name : String) :
    name ∈ union seen names ↔ name ∈ seen ∨ name ∈ names := by
  unfold union
  induction names generalizing seen with
  | nil => simp
  | cons n rest ih =>
    rw [List.foldl_cons, ih]
    by_cases h : seen.contains n
    · have hn : n ∈ seen := by simpa using h
      simp only [h, if_true, List.mem_cons]
      constructor
      · rintro (h1 | h1)
        · exact Or.inl h1
        · exact Or.inr (Or.inr h1)
      · rintro (h1 | rfl | h1)
        · exact Or.inl h1
        · exact Or.inl hn
        · exact Or.inr h1
    · rw [if_neg h]
      simp [or_assoc]

theorem mem_foldl_union (lists : List (List String)) (seen : List String) (name : String) :
    name ∈ lists.foldl union seen ↔ name ∈ seen ∨ ∃ names ∈ lists, name ∈ names := by
  induction lists generalizing seen with
  | nil => simp
  | cons names rest ih => simp [ih, mem_union, or_assoc]

/-- The targets of an entry are the names of all its lists. -/
theorem mem_targets (e : RegistryEntry) (name : String) :
    name ∈ e.targets ↔ ∃ names ∈ e.declared, name ∈ names := by
  unfold targets
  simp [mem_foldl_union]

/-- An entry without what is kept of earlier questions. -/
def forget (e : RegistryEntry) : RegistryEntry := { e with known := none }

@[simp] theorem forget_namespaceOf (e : RegistryEntry) : e.forget.namespaceOf = e.namespaceOf := rfl

@[simp] theorem forget_declared (e : RegistryEntry) : e.forget.declared = e.declared := rfl

@[simp] theorem forget_targets (e : RegistryEntry) : e.forget.targets = e.targets := rfl

end RegistryEntry

namespace Registry

/-! ## Runs of calls -/

/-- The registry that a question leaves behind. -/
def leftBy {α : Type} (r : Registry) (q : Query α) : Registry := (q.run.run r).2

/-- The registry after a call. A refused registration changes nothing. -/
def after (r : Registry) : RegistryCall → Registry
  | .register name named targets =>
    match r.register name named targets with
    | .ok (_, r') => r'
    | .error _ => r
  | .lookup _ => r
  | .contains _ => r
  | .remapsTo name => r.leftBy (remapsTo name)
  | .canRemap source target => r.leftBy (canRemap source target)
  | .resolvePath source sourceFallback target targetFallback =>
    r.leftBy (resolvePath source sourceFallback target targetFallback)

/-- The registry after calls on an empty one. -/
def run (calls : List RegistryCall) : Registry := calls.foldl after empty

/-! ## The declared graph -/

/-- The entries without what is kept of earlier questions. -/
def graph (r : Registry) : List RegistryEntry := r.entries.map RegistryEntry.forget

/-- `a` is registered and one of its registrations lists `b`. -/
def Declares (r : Registry) (a b : String) : Prop :=
  ∃ e ∈ r.entries, e.namespaceOf.name = a ∧ ∃ names ∈ e.declared, b ∈ names

/-- There is a chain of declared edges, possibly none, from `a` to `b`. -/
def Reaches (r : Registry) : String → String → Prop := Relation.ReflTransGen r.Declares

theorem indexOf?_of_graph {r r' : Registry} (h : r'.graph = r.graph) (name : String) :
    r'.indexOf? name = r.indexOf? name := by
  have key : ∀ s : Registry, s.indexOf? name = s.graph.findIdx? (·.namespaceOf.name == name) := by
    intro s
    unfold indexOf? graph
    rw [List.findIdx?_map]
    rfl
  rw [key, key, h]

theorem namespaceAt_of_graph {r r' : Registry} (h : r'.graph = r.graph) (idx : Nat) :
    r'.namespaceAt idx = r.namespaceAt idx := by
  have key : ∀ s : Registry, s.namespaceAt idx = s.graph[idx]?.map (·.namespaceOf) := by
    intro s
    unfold namespaceAt graph
    rw [List.getElem?_map, Option.map_map]
    rfl
  rw [key, key, h]

theorem places_of_graph {r r' : Registry} (h : r'.graph = r.graph) (name : String)
    (targets : List String) : r'.places name targets = r.places name targets := by
  induction targets with
  | nil => rfl
  | cons t rest ih => rw [places, places, indexOf?_of_graph h, ih]

theorem targets_of_graph {r r' : Registry} (h : r'.graph = r.graph) (idx : Nat) :
    r'.entries[idx]?.map RegistryEntry.targets = r.entries[idx]?.map RegistryEntry.targets := by
  have key : ∀ s : Registry,
      s.entries[idx]?.map RegistryEntry.targets = s.graph[idx]?.map RegistryEntry.targets := by
    intro s
    unfold graph
    rw [List.getElem?_map, Option.map_map]
    rfl
  rw [key, key, h]

/-! ## The invariant -/

/-- Each name is registered once, and the targets that are kept are the
declared ones. -/
structure Sound (r : Registry) : Prop where
  names_nodup : (r.entries.map (·.namespaceOf.name)).Nodup
  known_targets : ∀ e ∈ r.entries, ∀ names, e.known = some names → names = e.targets

theorem sound_empty : empty.Sound := ⟨by simp [empty], by simp [empty]⟩

theorem sound_register {r r' : Registry} {ns : Namespace} {name : String} {named : Bool}
    {targets : List String} (h : r.Sound) (hr : r.register name named targets = .ok (ns, r')) :
    r'.Sound := by
  unfold register at hr
  split at hr
  · split at hr
    · cases hr
      refine ⟨?_, ?_⟩
      · have hnames := h.names_nodup
        simp only [List.map_map]
        convert hnames using 2
        funext f
        simp only [Function.comp]
        split <;> rfl
      · intro e he names hk
        obtain ⟨f, hf, rfl⟩ := List.mem_map.mp he
        split at hk
        · simp [RegistryEntry.extend] at hk
        · rename_i hne
          simp only [hne] at hk ⊢
          exact h.known_targets f hf names hk
    · cases hr
  · rename_i hnone
    cases hr
    rw [List.find?_eq_none] at hnone
    refine ⟨?_, ?_⟩
    · rw [List.map_append, List.nodup_append]
      refine ⟨h.names_nodup, by simp, ?_⟩
      intro a ha b hb hab
      obtain ⟨e, he, rfl⟩ := List.mem_map.mp ha
      simp only [List.map_cons, List.map_nil, List.mem_singleton] at hb
      exact hnone e he (by simp [hab, hb])
    · intro e he names hk
      rcases List.mem_append.mp he with he | he
      · exact h.known_targets e he names hk
      · simp only [List.mem_singleton] at he
        subst he
        cases hk

/-! ## What is asked for -/

/-- The targets of `name` are kept of an earlier question. -/
def keeps (r : Registry) (name : String) : Bool :=
  r.entries.any fun e => e.namespaceOf.name == name && e.known.isSome

/-- On the way from `r` to `r'` each list of `name` is asked for at most once, and
only if its targets were not kept before and are kept now. -/
def Spends (name : String) (r r' : Registry) : Prop :=
  ∃ more, r'.evaluated = r.evaluated ++ more ∧
    ∀ k, more.count (name, k) + (r.keeps name).toNat ≤ (r'.keeps name).toNat

theorem Spends.refl (name : String) (r : Registry) : Spends name r r := ⟨[], by simp, by simp⟩

theorem Spends.trans {name : String} {r r1 r2 : Registry} (h1 : Spends name r r1)
    (h2 : Spends name r1 r2) : Spends name r r2 := by
  obtain ⟨more1, heq1, hle1⟩ := h1
  obtain ⟨more2, heq2, hle2⟩ := h2
  refine ⟨more1 ++ more2, by rw [heq2, heq1, List.append_assoc], ?_⟩
  intro k
  have := hle1 k
  have := hle2 k
  rw [List.count_append]
  omega

/-! ## Questions -/

/-- A question has the answer `x`, leaves a sound registry of the same graph, and
asks for no list twice. -/
def Answers {α : Type} (q : Query α) (r : Registry) (x : Except Error α) : Prop :=
  ∃ r', q.run.run r = (x, r') ∧ r'.Sound ∧ r'.graph = r.graph ∧ ∀ name, Spends name r r'

theorem Answers.ask_eq {α : Type} {q : Query α} {r : Registry} {x : Except Error α}
    (h : Answers q r x) : r.ask q = x := by
  obtain ⟨r', hr, _⟩ := h
  unfold ask
  rw [hr]

theorem Answers.left {α : Type} {q : Query α} {r : Registry} {x : Except Error α}
    (h : Answers q r x) : (r.leftBy q).Sound ∧ (r.leftBy q).graph = r.graph ∧
      ∀ name, Spends name r (r.leftBy q) := by
  obtain ⟨r', hr, hleft⟩ := h
  unfold leftBy
  rwa [hr]

theorem Answers.sound {α : Type} {q : Query α} {r : Registry} {x : Except Error α}
    (h : Answers q r x) : (r.leftBy q).Sound := h.left.1

theorem Answers.pure {α : Type} {r : Registry} (h : r.Sound) (a : α) :
    Answers (Pure.pure a) r (.ok a) := ⟨r, rfl, h, rfl, fun name => Spends.refl name r⟩

theorem Answers.throw {α : Type} {r : Registry} (h : r.Sound) (e : Error) :
    Answers (throw e : Query α) r (.error e) := ⟨r, rfl, h, rfl, fun name => Spends.refl name r⟩

theorem Answers.bind {α β : Type} {q : Query α} {f : α → Query β} {r : Registry} {a : α}
    {y : Except Error β} (h : Answers q r (.ok a))
    (hf : ∀ r', r'.Sound → r'.graph = r.graph → Answers (f a) r' y) : Answers (q >>= f) r y := by
  obtain ⟨r1, h1, hs1, hg1, hl1⟩ := h
  obtain ⟨r2, h2, hs2, hg2, hl2⟩ := hf r1 hs1 hg1
  refine ⟨r2, ?_, hs2, hg2.trans hg1, fun name => (hl1 name).trans (hl2 name)⟩
  simp only [ExceptT.run_bind, StateT.run_bind, h1]
  exact h2

theorem Answers.bind_error {α β : Type} {q : Query α} {f : α → Query β} {r : Registry} {e : Error}
    (h : Answers q r (.error e)) : Answers (q >>= f) r (.error e) := by
  obtain ⟨r1, h1, hleft⟩ := h
  refine ⟨r1, ?_, hleft⟩
  simp only [ExceptT.run_bind, StateT.run_bind, h1]
  rfl

theorem Answers.get_bind {β : Type} {f : Registry → Query β} {r : Registry} {y : Except Error β}
    (h : Answers (f r) r y) : Answers (get >>= f) r y := by
  exact h

theorem map_set_of_eq {α β : Type} (f : α → β) {l : List α} {idx : Nat} {a b : α}
    (ha : l[idx]? = some a) (hb : f b = f a) : (l.set idx b).map f = l.map f := by
  obtain ⟨hlt, rfl⟩ := List.getElem?_eq_some_iff.mp ha
  rw [List.map_set, hb, ← List.map_set, List.set_getElem_self]

theorem count_lists_le (e : RegistryEntry) (name : String) (k : Nat) :
    e.lists.count (name, k) ≤ if e.namespaceOf.name = name then 1 else 0 := by
  unfold RegistryEntry.lists
  split
  · apply List.nodup_iff_count_le_one.mp
    apply List.nodup_range.map
    intro i j hij
    exact (Prod.mk.inj hij).2
  · rename_i hne
    rw [Nat.le_zero, List.count_eq_zero]
    intro hmem
    obtain ⟨i, _, hi⟩ := List.mem_map.mp hmem
    exact hne (Prod.mk.inj hi).1

/-- Putting the targets of an entry together asks for its own lists alone. -/
theorem spends_set_known {r : Registry} (h : r.Sound) {idx : Nat} {e : RegistryEntry}
    (he : r.entries[idx]? = some e) (hk : e.known = none) (names : List String) (name : String) :
    Spends name r { r with
      entries := r.entries.set idx { e with known := some names }
      evaluated := r.evaluated ++ e.lists } := by
  refine ⟨e.lists, rfl, ?_⟩
  intro k
  have hcount := count_lists_le e name k
  have hidx : idx < r.entries.length := (List.getElem?_eq_some_iff.mp he).1
  by_cases hname : e.namespaceOf.name = name
  · rw [if_pos hname] at hcount
    have hbefore : r.keeps name = false := by
      unfold keeps
      rw [List.any_eq_false]
      intro f hf
      simp only [Bool.and_eq_true, beq_iff_eq, not_and, Bool.not_eq_true, Option.isSome_eq_false_iff,
        Option.isNone_iff_eq_none]
      intro hfname
      rwa [List.inj_on_of_nodup_map h.names_nodup hf (List.mem_of_getElem? he)
        (hfname.trans hname.symm)]
    have hafter : ({ r with
        entries := r.entries.set idx { e with known := some names }
        evaluated := r.evaluated ++ e.lists } : Registry).keeps name = true := by
      unfold keeps
      rw [List.any_eq_true]
      exact ⟨_, List.mem_set hidx _, by simp [hname]⟩
    rw [hbefore, hafter]
    exact hcount
  · rw [if_neg hname] at hcount
    have hsame : r.keeps name = true → ({ r with
        entries := r.entries.set idx { e with known := some names }
        evaluated := r.evaluated ++ e.lists } : Registry).keeps name = true := by
      unfold keeps
      rw [List.any_eq_true, List.any_eq_true]
      rintro ⟨f, hf, hfname⟩
      obtain ⟨j, hj⟩ := List.mem_iff_getElem?.mp hf
      refine ⟨f, List.mem_iff_getElem?.mpr ⟨j, ?_⟩, hfname⟩
      rw [List.getElem?_set_ne, hj]
      rintro rfl
      rw [he] at hj
      cases hj
      simp [hname] at hfname
    cases hkeeps : r.keeps name with
    | false => exact Nat.le_trans (Nat.le_of_eq (Nat.le_zero.mp hcount)) (Nat.zero_le _)
    | true =>
      rw [hsame hkeeps]
      omega

/-- The first question for the targets of an entry keeps them, and a later one
finds them. -/
theorem answers_targetsAt {r : Registry} (h : r.Sound) {idx : Nat} {e : RegistryEntry}
    (he : r.entries[idx]? = some e) : Answers (targetsAt idx) r (.ok e.targets) := by
  unfold targetsAt
  apply Answers.get_bind
  simp only [he]
  cases hk : e.known with
  | some names =>
    rw [← h.known_targets e (List.mem_of_getElem? he) names hk]
    exact Answers.pure h names
  | none =>
    have hnames : (r.entries.set idx { e with known := some e.targets }).map (·.namespaceOf.name) =
        r.entries.map (·.namespaceOf.name) := map_set_of_eq _ he rfl
    refine ⟨{ r with
      entries := r.entries.set idx { e with known := some e.targets }
      evaluated := r.evaluated ++ e.lists }, rfl, ⟨?_, ?_⟩, ?_,
      spends_set_known h he hk e.targets⟩
    · exact hnames ▸ h.names_nodup
    · intro f hf names hkf
      rcases List.mem_or_eq_of_mem_set hf with hf | rfl
      · exact h.known_targets f hf names hkf
      · simp only [Option.some.injEq] at hkf
        rw [← hkf]
        rfl
    · exact map_set_of_eq RegistryEntry.forget he rfl

/-- The places of the direct targets of a namespace, as far as all are registered. -/
def adjacent (r : Registry) (name : String) : Except Error (List Nat) :=
  match r.indexOf? name with
  | none => .error (.unknownNamespace name "remap graph")
  | some idx => r.places name ((r.entries[idx]?.map RegistryEntry.targets).getD [])

theorem adjacent_of_graph {r r' : Registry} (h : r'.graph = r.graph) (name : String) :
    r'.adjacent name = r.adjacent name := by
  unfold adjacent
  rw [indexOf?_of_graph h]
  cases r.indexOf? name with
  | none => rfl
  | some idx =>
    simp only
    rw [targets_of_graph h, places_of_graph h]

theorem indexOf?_lt {r : Registry} {name : String} {idx : Nat} (h : r.indexOf? name = some idx) :
    idx < r.entries.length := (List.findIdx?_eq_some_iff_getElem.mp h).1

theorem answers_neighbours {r : Registry} (h : r.Sound) (name : String) :
    Answers (neighbours name) r (r.adjacent name) := by
  unfold neighbours adjacent
  apply Answers.get_bind
  cases hi : r.indexOf? name with
  | none => exact Answers.throw h _
  | some idx =>
    simp only
    obtain ⟨e, he⟩ : ∃ e, r.entries[idx]? = some e :=
      ⟨_, List.getElem?_eq_getElem (indexOf?_lt hi)⟩
    apply (answers_targetsAt h he).bind
    intro r' hs _
    rw [he, Option.map_some, Option.getD_some]
    cases r.places name e.targets with
    | ok found => exact Answers.pure hs found
    | error e => exact Answers.throw hs e

theorem answers_remapsTo {r : Registry} (h : r.Sound) (name : String) :
    Answers (remapsTo name) r ((r.adjacent name).map (·.filterMap r.namespaceAt)) := by
  unfold remapsTo
  have hn := answers_neighbours h name
  cases ha : r.adjacent name with
  | error e =>
    rw [ha] at hn
    exact hn.bind_error
  | ok found =>
    rw [ha] at hn
    apply hn.bind
    intro r' hs hg
    apply Answers.get_bind
    have hat : r'.namespaceAt = r.namespaceAt := funext (namespaceAt_of_graph hg)
    rw [hat]
    exact Answers.pure hs _

theorem answers_canRemap {r : Registry} (h : r.Sound) (source target : String) :
    Answers (canRemap source target) r
      ((r.adjacent source).map fun found => (found.filterMap r.namespaceAt).any (·.name == target)) := by
  unfold canRemap
  have hn := answers_remapsTo h source
  cases ha : r.adjacent source with
  | error e =>
    rw [ha] at hn
    exact Answers.bind_error hn
  | ok found =>
    rw [ha] at hn
    apply Answers.bind hn
    intro r' hs _
    exact Answers.pure hs _

/-! ## Paths -/

/-- The places that a place leads to. -/
def next (r : Registry) (idx : Nat) : Except Error (List Nat) :=
  r.adjacent (((r.namespaceAt idx).map (·.name)).getD "")

theorem next_of_graph {r r' : Registry} (h : r'.graph = r.graph) : r'.next = r.next := by
  funext idx
  unfold next
  rw [namespaceAt_of_graph h, adjacent_of_graph h]

theorem answers_search {r : Registry} (h : r.Sound) (goal fuel : Nat) (seen : List Nat)
    (waiting : List (List Nat)) :
    Answers (search goal fuel seen waiting) r
      (BreadthFirst.breadthFirst r.next goal fuel seen waiting) := by
  induction fuel generalizing r seen waiting with
  | zero =>
    unfold search BreadthFirst.breadthFirst
    cases waiting with
    | nil => exact Answers.pure h _
    | cons t waiting => exact Answers.pure h _
  | succ fuel ih =>
    unfold search BreadthFirst.breadthFirst
    rcases waiting with _ | ⟨_ | ⟨current, rest⟩, waiting⟩
    · exact Answers.pure h _
    · exact ih h seen waiting
    · simp only
      by_cases hc : current = goal
      · simp only [if_pos hc]
        exact Answers.pure h _
      · simp only [if_neg hc]
        apply Answers.get_bind
        have hn := answers_neighbours h (((r.namespaceAt current).map (·.name)).getD "")
        change Answers _ r (r.next current) at hn
        cases ha : r.next current with
        | error e =>
          rw [ha] at hn
          exact hn.bind_error
        | ok found =>
          rw [ha] at hn
          apply hn.bind
          intro r' hs hg
          rw [← next_of_graph hg]
          exact ih hs _ _

/-- The answer to a question for a path. -/
def route (r : Registry) (source sourceFallback target targetFallback : String) :
    Except Error (List Namespace) :=
  match [source, sourceFallback, target, targetFallback].find? (!r.contains ·) with
  | some name => .error (.unknownNamespace name "remap path resolution")
  | none =>
    if source = target then .ok []
    else
      match r.indexOf? source, r.indexOf? target with
      | some start, some goal =>
        match BreadthFirst.breadthFirst r.next goal (r.size + 1) [start] [[start]] with
        | .ok (some path) => .ok (path.reverse.tail.filterMap r.namespaceAt)
        | .ok none => .error (.noRemapPath source target)
        | .error e => .error e
      | _, _ => .error (.noRemapPath source target)

theorem answers_resolvePath {r : Registry} (h : r.Sound)
    (source sourceFallback target targetFallback : String) :
    Answers (resolvePath source sourceFallback target targetFallback) r
      (r.route source sourceFallback target targetFallback) := by
  unfold resolvePath route
  apply Answers.get_bind
  cases [source, sourceFallback, target, targetFallback].find? (!r.contains ·) with
  | some name => exact Answers.throw h _
  | none =>
    simp only
    by_cases hst : source = target
    · simp only [if_pos hst]
      exact Answers.pure h _
    · simp only [if_neg hst]
      rcases r.indexOf? source with _ | start
      · exact Answers.throw h _
      · rcases r.indexOf? target with _ | goal
        · exact Answers.throw h _
        · simp only
          have hn := answers_search h goal (r.size + 1) [start] [[start]]
          rcases ha : BreadthFirst.breadthFirst r.next goal (r.size + 1) [start] [[start]] with
            e | _ | path
          · rw [ha] at hn
            exact hn.bind_error
          · rw [ha] at hn
            apply hn.bind
            intro r' hs _
            exact Answers.throw hs _
          · rw [ha] at hn
            apply hn.bind
            intro r' hs _
            exact Answers.pure hs _

/-! ## Every run is sound -/

theorem sound_after {r : Registry} (h : r.Sound) (call : RegistryCall) : (r.after call).Sound := by
  cases call with
  | register name named targets =>
    simp only [after]
    cases hr : r.register name named targets with
    | ok registered => exact sound_register h hr
    | error e => exact h
  | lookup name => exact h
  | contains name => exact h
  | remapsTo name => exact (answers_remapsTo h name).sound
  | canRemap source target => exact (answers_canRemap h source target).sound
  | resolvePath source sourceFallback target targetFallback =>
    exact (answers_resolvePath h source sourceFallback target targetFallback).sound

theorem sound_run (calls : List RegistryCall) : (run calls).Sound := by
  unfold run
  induction calls using List.reverseRecOn with
  | nil => exact sound_empty
  | append_singleton calls call ih =>
    rw [List.foldl_append]
    exact sound_after ih call

end Registry

end JarDerivation
