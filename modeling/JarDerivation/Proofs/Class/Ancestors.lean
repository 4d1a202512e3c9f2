-- The super types of a class. A hierarchy has loops, gaps and classes that are reached in
-- several ways, and still the search upwards comes to an end: it meets each name once, and
-- the names by fewer steps come first.
import JarDerivation.Class.Hierarchy
import Mathlib.Data.List.Basic
import Mathlib.Data.List.Induction
import Mathlib.Data.List.Nodup

namespace JarDerivation

namespace Hierarchy

/-! ## Inserted classes -/

/-- The hierarchy of classes that are inserted one after the other. -/
def ofNodes (nodes : List ClassNode) : Hierarchy := nodes.foldl insert empty

/-- The class that was inserted last under a name. -/
def latest? (nodes : List ClassNode) (name : String) : Option ClassNode :=
  nodes.reverse.find? (·.name == name)

def entryOf (c : ClassNode) : HierarchyEntry :=
  ⟨c.superName, c.interfaces, c.methods.map MemberNode.key⟩

theorem lookup_filter_ne {α : Type} {a b : String} (hne : b ≠ a) (l : List (String × α)) :
    List.lookup b (l.filter (·.1 != a)) = List.lookup b l := by
  induction l with
  | nil => rfl
  | cons entry rest ih =>
    obtain ⟨key, value⟩ := entry
    by_cases hkey : key = a
    · rw [List.filter_cons_of_neg (by simp [hkey]), ih, List.lookup_cons,
        beq_eq_false_iff_ne.mpr (hkey ▸ hne)]
    · rw [List.filter_cons_of_pos (by simp [hkey]), List.lookup_cons, List.lookup_cons, ih]

theorem entry?_insert (h : Hierarchy) (c : ClassNode) (name : String) :
    entry? (h.insert c) name = if c.name = name then some (entryOf c) else h.entry? name := by
  unfold insert entry?
  rw [List.lookup_cons]
  by_cases hname : c.name = name
  · rw [if_pos hname, beq_iff_eq.mpr hname.symm]
    rfl
  · rw [if_neg hname, beq_eq_false_iff_ne.mpr (Ne.symm hname)]
    exact lookup_filter_ne (Ne.symm hname) _

/-- A class is known as it was inserted last. -/
theorem entry?_ofNodes (nodes : List ClassNode) (name : String) :
    entry? (ofNodes nodes) name = (latest? nodes name).map entryOf := by
  induction nodes using List.reverseRecOn with
  | nil => rfl
  | append_singleton nodes c ih =>
    unfold ofNodes latest? at ih ⊢
    rw [List.foldl_concat, entry?_insert, List.reverse_concat, List.find?_cons, ih]
    by_cases hname : c.name = name
    · rw [if_pos hname, beq_iff_eq.mpr hname]
      rfl
    · rw [if_neg hname, beq_eq_false_iff_ne.mpr hname]

/-- A known class has a super class or an interface of this name. -/
def Extends (nodes : List ClassNode) (name parent : String) : Prop :=
  ∃ c, latest? nodes name = some c ∧ (c.superName = some parent ∨ parent ∈ c.interfaces)

theorem mem_parentsOf_ofNodes {nodes : List ClassNode} {name parent : String} :
    parent ∈ (ofNodes nodes).parentsOf name ↔ Extends nodes name parent := by
  unfold parentsOf Extends
  rw [entry?_ofNodes]
  cases latest? nodes name with
  | none => simp
  | some c => simp [HierarchyEntry.parents, entryOf]

/-! ## Steps upwards -/

/-- A name is reached from `start` by a number of steps. -/
inductive Reaches (next : String → String → Prop) (start : String) : Nat → String → Prop where
  | here : Reaches next start 0 start
  | step {n : Nat} {a b : String} : Reaches next start n a → next a b → Reaches next start (n + 1) b

/-- The search upwards with no bound on its turns: it ends when no name is waiting. -/
inductive Climb (h : Hierarchy) : List String → List String → List String → Prop where
  | done (seen : List String) : Climb h seen [] seen
  | turn {seen waiting result : List String} {name : String} :
      Climb h (addNew seen (h.parentsOf name))
        (waiting ++ (addNew seen (h.parentsOf name)).drop seen.length) result →
      Climb h seen (name :: waiting) result

theorem addNew_cons (seen : List String) (name : String) (names : List String) :
    addNew seen (name :: names) =
      if name ∈ seen then addNew seen names else addNew (seen ++ [name]) names := by
  unfold addNew
  rw [List.foldl_cons]
  by_cases h : name ∈ seen <;> simp [h]

/-- What is added are the names that were missing, each once. -/
theorem addNew_eq (seen names : List String) :
    ∃ fresh, addNew seen names = seen ++ fresh ∧ fresh.Nodup ∧
      ∀ v, v ∈ fresh ↔ v ∈ names ∧ v ∉ seen := by
  induction names generalizing seen with
  | nil => exact ⟨[], (List.append_nil seen).symm, List.nodup_nil, by simp⟩
  | cons name names ih =>
    rw [addNew_cons]
    split
    · rename_i hmem
      obtain ⟨fresh, heq, hnodup, hfresh⟩ := ih seen
      refine ⟨fresh, heq, hnodup, fun v => ?_⟩
      rw [hfresh, List.mem_cons]
      refine ⟨fun h => ⟨Or.inr h.1, h.2⟩, fun h => ⟨h.1.resolve_left ?_, h.2⟩⟩
      rintro rfl
      exact h.2 hmem
    · rename_i hmem
      obtain ⟨fresh, heq, hnodup, hfresh⟩ := ih (seen ++ [name])
      refine ⟨name :: fresh, by rw [heq]; simp, ?_, fun v => ?_⟩
      · refine List.nodup_cons.mpr ⟨fun h => ((hfresh name).mp h).2 ?_, hnodup⟩
        simp
      · rw [List.mem_cons, hfresh, List.mem_append, List.mem_singleton, List.mem_cons]
        by_cases hv : v = name
        · simp [hv, hmem]
        · simp [hv]

/-! ## The invariant of the search -/

variable {h : Hierarchy} {start : String}

/-- `held` are the names that were met, each with the steps to it. After the name that the
search starts from they were put into the queue in this order; the names of `done` were
taken off. -/
structure Climbed (h : Hierarchy) (start : String) (held done waiting : List (Nat × String)) :
    Prop where
  queue : (0, start) :: held = done ++ waiting
  once : (held.map (·.2)).Nodup
  reached : ∀ p ∈ held, 0 < p.1 ∧ Reaches (fun a b => b ∈ h.parentsOf a) start p.1 p.2
  /-- The parents of a name that is done were met by at most one step more. -/
  closed : ∀ p ∈ done, ∀ v ∈ h.parentsOf p.2, ∃ n ≤ p.1 + 1, (n, v) ∈ held
  ascending : held.Pairwise (·.1 ≤ ·.1)
  /-- No name is more than a step ahead of the one that is next. -/
  narrow : ∀ p ∈ waiting.head?, ∀ q ∈ held, q.1 ≤ p.1 + 1

theorem climbed_start (h : Hierarchy) (start : String) : Climbed h start [] [] [(0, start)] where
  queue := rfl
  once := List.nodup_nil
  reached := nofun
  closed := nofun
  ascending := List.Pairwise.nil
  narrow := nofun

/-- One turn keeps the invariant. -/
theorem Climbed.turn {held done waiting : List (Nat × String)} {p : Nat × String}
    {fresh : List String} (hc : Climbed h start held done (p :: waiting)) (hnodup : fresh.Nodup)
    (hfresh : ∀ v, v ∈ fresh ↔ v ∈ h.parentsOf p.2 ∧ v ∉ held.map (·.2)) :
    Climbed h start (held ++ fresh.map (p.1 + 1, ·)) (done ++ [p])
      (waiting ++ fresh.map (p.1 + 1, ·)) := by
  have hp : p ∈ (0, start) :: held := by simp [hc.queue]
  have hreached : Reaches (fun a b => b ∈ h.parentsOf a) start p.1 p.2 := by
    rcases List.mem_cons.mp hp with rfl | hp
    · exact .here
    · exact (hc.reached p hp).2
  have hsnd : (fresh.map (p.1 + 1, ·)).map (·.2) = fresh := by simp [Function.comp_def]
  refine ⟨?_, ?_, ?_, ?_, ?_, ?_⟩
  · rw [← List.cons_append, hc.queue]
    simp
  · rw [List.map_append, hsnd, List.nodup_append]
    refine ⟨hc.once, hnodup, ?_⟩
    rintro v hv _ hv' rfl
    exact ((hfresh v).mp hv').2 hv
  · intro q hq
    rcases List.mem_append.mp hq with hq | hq
    · exact hc.reached q hq
    · obtain ⟨v, hv, rfl⟩ := List.mem_map.mp hq
      exact ⟨Nat.succ_pos _, hreached.step ((hfresh v).mp hv).1⟩
  · intro q hq v hv
    rcases List.mem_append.mp hq with hq | hq
    · obtain ⟨n, hn, hmem⟩ := hc.closed q hq v hv
      exact ⟨n, hn, List.mem_append_left _ hmem⟩
    · rw [List.mem_singleton.mp hq] at hv ⊢
      -- A parent was met before, and then it is not far ahead, or it is met now.
      by_cases hmem : v ∈ held.map (·.2)
      · obtain ⟨⟨n, _⟩, hheld, rfl⟩ := List.mem_map.mp hmem
        exact ⟨n, hc.narrow p rfl _ hheld, List.mem_append_left _ hheld⟩
      · exact ⟨p.1 + 1, Nat.le_refl _, List.mem_append_right _
          (List.mem_map.mpr ⟨v, (hfresh v).mpr ⟨hv, hmem⟩, rfl⟩)⟩
  · rw [List.pairwise_append]
    refine ⟨hc.ascending, ?_, ?_⟩
    · rw [List.pairwise_map]
      exact List.pairwise_of_forall fun _ _ => Nat.le_refl _
    · intro q hq q' hq'
      obtain ⟨v, _, rfl⟩ := List.mem_map.mp hq'
      exact hc.narrow p rfl q hq
  · have hascending : ((0, start) :: held).Pairwise (·.1 ≤ ·.1) :=
      List.pairwise_cons.mpr ⟨fun _ _ => Nat.zero_le _, hc.ascending⟩
    rw [hc.queue, List.pairwise_append] at hascending
    have hlater := (List.pairwise_cons.mp hascending.2.1).1
    intro next hnext q hq
    -- The name that is next now needs no fewer steps than the one that was.
    have hle : p.1 ≤ next.1 := by
      have hmem := List.mem_of_mem_head? hnext
      rcases List.mem_append.mp hmem with hmem | hmem
      · exact hlater next hmem
      · obtain ⟨v, _, rfl⟩ := List.mem_map.mp hmem
        exact Nat.le_succ _
    have hstep : q.1 ≤ p.1 + 1 := by
      rcases List.mem_append.mp hq with hq | hq
      · exact hc.narrow p rfl q hq
      · obtain ⟨v, _, rfl⟩ := List.mem_map.mp hq
        exact Nat.le_refl _
    omega

/-- When no name is waiting, every name that is reached is held with as few steps. -/
theorem Climbed.complete {held done : List (Nat × String)} (hc : Climbed h start held done [])
    {n : Nat} {v : String} (hv : Reaches (fun a b => b ∈ h.parentsOf a) start n v) :
    (n = 0 ∧ v = start) ∨ ∃ m ≤ n, (m, v) ∈ held := by
  have hdone : (0, start) :: held = done := by simpa using hc.queue
  induction hv with
  | here => exact Or.inl ⟨rfl, rfl⟩
  | @step n a b _ hab ih =>
    obtain ⟨m, hm, hmem⟩ : ∃ m ≤ n, (m, a) ∈ done := by
      rcases ih with ⟨rfl, rfl⟩ | ⟨m, hm, hmem⟩
      · exact ⟨0, Nat.le_refl _, by simp [← hdone]⟩
      · exact ⟨m, hm, by simp [← hdone, hmem]⟩
    obtain ⟨k, hk, hheld⟩ := hc.closed _ hmem b hab
    exact Or.inr ⟨k, Nat.le_trans hk (Nat.succ_le_succ hm), hheld⟩

/-! ## The run of the search -/

/-- Every name that a search meets is mentioned in the hierarchy. -/
theorem mem_mentioned {name parent : String} (hp : parent ∈ h.parentsOf name) :
    parent ∈ h.mentioned := by
  unfold parentsOf at hp
  cases he : h.entry? name with
  | none =>
    rw [he] at hp
    cases hp
  | some e =>
    rw [he] at hp
    obtain ⟨before, after, heq, _⟩ := List.lookup_eq_some_iff.mp he
    exact List.mem_flatMap.mpr ⟨(name, e), by simp [heq], hp⟩

theorem Climbed.length_le {held done waiting : List (Nat × String)}
    (hc : Climbed h start held done waiting) : held.length ≤ h.mentioned.length := by
  have hsub : held.map (·.2) ⊆ h.mentioned := by
    intro v hv
    obtain ⟨p, hp, rfl⟩ := List.mem_map.mp hv
    obtain ⟨hpos, hreached⟩ := hc.reached p hp
    obtain ⟨n, v⟩ := p
    cases hreached with
    | here => exact absurd hpos (Nat.lt_irrefl _)
    | step _ hparent => exact mem_mentioned hparent
  simpa using hc.once.length_le_of_subset hsub

/-- With one turn for each name that is mentioned, and one for the start, the search comes to
its end. -/
theorem climb_ends {held done waiting : List (Nat × String)}
    (hc : Climbed h start held done waiting) (fuel : Nat)
    (hfuel : h.mentioned.length + 1 ≤ fuel + done.length) :
    ∃ held' done', Climbed h start held' done' [] ∧
      climb h fuel (held.map (·.2)) (waiting.map (·.2)) = held'.map (·.2) ∧
      Climb h (held.map (·.2)) (waiting.map (·.2)) (held'.map (·.2)) := by
  induction fuel generalizing held done waiting with
  | zero =>
    have hlen := congrArg List.length hc.queue
    rw [List.length_cons, List.length_append] at hlen
    have hle := hc.length_le
    have hwaiting : waiting = [] := List.eq_nil_of_length_eq_zero (by omega)
    subst hwaiting
    exact ⟨held, done, hc, by simp [climb], .done _⟩
  | succ fuel ih =>
    cases waiting with
    | nil => exact ⟨held, done, hc, by simp [climb], .done _⟩
    | cons p waiting =>
      obtain ⟨fresh, heq, hnodup, hfresh⟩ := addNew_eq (held.map (·.2)) (h.parentsOf p.2)
      have hnext := hc.turn hnodup hfresh
      obtain ⟨held', done', hend, hclimb, hall⟩ := ih hnext (by simp; omega)
      have hseen : (held ++ fresh.map (p.1 + 1, ·)).map (·.2) =
          addNew (held.map (·.2)) (h.parentsOf p.2) := by
        rw [heq]
        simp [Function.comp_def]
      have hwaiting : (waiting ++ fresh.map (p.1 + 1, ·)).map (·.2) = waiting.map (·.2) ++
          (addNew (held.map (·.2)) (h.parentsOf p.2)).drop (held.map (·.2)).length := by
        rw [heq, List.drop_left]
        simp [Function.comp_def]
      rw [hseen, hwaiting] at hclimb hall
      exact ⟨held', done', hend, hclimb, .turn hall⟩

/-- The search ends, and it gives each name that is reached by a step or more, once, the names
by fewer steps first. -/
theorem ancestors_spec (h : Hierarchy) (start : String) :
    Climb h [] [start] (h.ancestors start) ∧ (h.ancestors start).Nodup ∧
      (∀ v, v ∈ h.ancestors start ↔
        ∃ n, Reaches (fun a b => b ∈ h.parentsOf a) start (n + 1) v) ∧
      (h.ancestors start).Pairwise fun v w =>
        ∀ n, Reaches (fun a b => b ∈ h.parentsOf a) start (n + 1) w →
          ∃ m ≤ n, Reaches (fun a b => b ∈ h.parentsOf a) start (m + 1) v := by
  obtain ⟨held, done, hc, hclimb, hall⟩ := climb_ends (climbed_start h start)
    (h.mentioned.length + 1) (Nat.le_add_right _ _)
  have hancestors : h.ancestors start = held.map (·.2) := hclimb
  have hpositive : ∀ p ∈ held, ∃ n, p.1 = n + 1 ∧
      Reaches (fun a b => b ∈ h.parentsOf a) start (n + 1) p.2 := by
    intro p hp
    obtain ⟨hpos, hreached⟩ := hc.reached p hp
    obtain ⟨n, hn⟩ := Nat.exists_eq_add_of_lt hpos
    rw [Nat.zero_add] at hn
    exact ⟨n, hn, hn ▸ hreached⟩
  have hleast : ∀ n v, Reaches (fun a b => b ∈ h.parentsOf a) start (n + 1) v →
      ∃ m ≤ n + 1, (m, v) ∈ held := by
    intro n v hv
    rcases hc.complete hv with ⟨hn, _⟩ | hheld
    · exact absurd hn (Nat.succ_ne_zero n)
    · exact hheld
  rw [hancestors]
  refine ⟨hall, hc.once, fun v => ⟨?_, ?_⟩, ?_⟩
  · intro hv
    obtain ⟨p, hp, rfl⟩ := List.mem_map.mp hv
    obtain ⟨n, _, hreached⟩ := hpositive p hp
    exact ⟨n, hreached⟩
  · rintro ⟨n, hv⟩
    obtain ⟨m, _, hmem⟩ := hleast n v hv
    exact List.mem_map.mpr ⟨_, hmem, rfl⟩
  · rw [List.pairwise_map]
    refine (List.pairwise_iff_forall_sublist.mpr ?_)
    intro p q hpq n hq
    have hmemq : q ∈ held := hpq.subset (by simp)
    obtain ⟨m, hm, hheld⟩ := hleast n q.2 hq
    -- Each name is held once, so with no more steps than these.
    have hsame : (m, q.2) = q := List.inj_on_of_nodup_map hc.once hheld hmemq rfl
    have hle : p.1 ≤ q.1 := List.pairwise_iff_forall_sublist.mp hc.ascending hpq
    obtain ⟨k, hk, hreached⟩ := hpositive p (hpq.subset (by simp))
    refine ⟨k, ?_, hreached⟩
    have hfirst := congrArg Prod.fst hsame
    dsimp only at hfirst
    omega

theorem ancestors_ofNodes (nodes : List ClassNode) (start : String) :
    Climb (ofNodes nodes) [] [start] ((ofNodes nodes).ancestors start) ∧
      ((ofNodes nodes).ancestors start).Nodup ∧
      (∀ v, v ∈ (ofNodes nodes).ancestors start ↔
        ∃ n, Reaches (Extends nodes) start (n + 1) v) ∧
      ((ofNodes nodes).ancestors start).Pairwise fun v w =>
        ∀ n, Reaches (Extends nodes) start (n + 1) w →
          ∃ m ≤ n, Reaches (Extends nodes) start (m + 1) v := by
  have hnext : (fun a b => b ∈ (ofNodes nodes).parentsOf a) = Extends nodes := by
    funext a b
    exact propext mem_parentsOf_ofNodes
  have hspec := ancestors_spec (ofNodes nodes) start
  rw [hnext] at hspec
  exact hspec

end Hierarchy

end JarDerivation
