-- Breadth-first search over numbered places, on its own. A trail is a path held
-- backwards, as the search holds it. What the search returns stands before every
-- other trail to the goal: it has the fewest steps, and among those with as few
-- steps the first place in which two differ is the smaller one.
import Mathlib.Data.List.Basic
import Mathlib.Data.List.Nodup

namespace JarDerivation

namespace BreadthFirst

/-! ## The order of trails -/

/-- The shorter trail comes first. Of two trails of one length the order is that
of the first places, seen from the start, in which they differ. -/
def Before : List Nat → List Nat → Prop
  | _, [] => False
  | [], _ :: _ => True
  | v :: p, w :: q => Before p q ∨ (p = q ∧ v < w)

def AtMost (p q : List Nat) : Prop := p = q ∨ Before p q

theorem before_cons_self (v : Nat) (p : List Nat) : Before p (v :: p) := by
  induction p generalizing v with
  | nil => trivial
  | cons w p ih => exact Or.inl (ih w)

theorem Before.trans {p q s : List Nat} (h1 : Before p q) (h2 : Before q s) : Before p s := by
  induction s generalizing p q with
  | nil => cases q <;> exact h2.elim
  | cons c s ih =>
    cases q with
    | nil => cases p <;> exact h1.elim
    | cons b q =>
      cases p with
      | nil => trivial
      | cons a p =>
        rcases h1 with h1 | ⟨rfl, hab⟩
        · rcases h2 with h2 | ⟨rfl, _⟩
          · exact Or.inl (ih h1 h2)
          · exact Or.inl h1
        · rcases h2 with h2 | ⟨rfl, hbc⟩
          · exact Or.inl h2
          · exact Or.inr ⟨rfl, Nat.lt_trans hab hbc⟩

theorem AtMost.trans {p q s : List Nat} (h1 : AtMost p q) (h2 : AtMost q s) : AtMost p s := by
  rcases h1 with rfl | h1
  · exact h2
  · rcases h2 with rfl | h2
    · exact Or.inr h1
    · exact Or.inr (h1.trans h2)

theorem AtMost.cons {p q : List Nat} (v : Nat) (h : AtMost p q) : AtMost (v :: p) (v :: q) := by
  rcases h with rfl | h
  · exact Or.inl rfl
  · exact Or.inr (Or.inl h)

theorem Before.length_le {p q : List Nat} (h : Before p q) : p.length ≤ q.length := by
  induction q generalizing p with
  | nil => cases p <;> exact h.elim
  | cons w q ih =>
    cases p with
    | nil => simp
    | cons v p =>
      rcases h with h | ⟨rfl, _⟩
      · simpa using ih h
      · simp

theorem AtMost.length_le {p q : List Nat} (h : AtMost p q) : p.length ≤ q.length := by
  rcases h with rfl | h
  · exact Nat.le_refl _
  · exact h.length_le

theorem append_singleton_lex {p q : List Nat} {a b : Nat} (h : p.length = q.length) :
    List.Lex (· < ·) (p ++ [a]) (q ++ [b]) ↔ List.Lex (· < ·) p q ∨ (p = q ∧ a < b) := by
  induction p generalizing q with
  | nil =>
    cases q with
    | nil => simp [List.cons_lex_cons_iff]
    | cons c q => simp at h
  | cons c p ih =>
    cases q with
    | nil => simp at h
    | cons d q =>
      simp only [List.length_cons, Nat.add_right_cancel_iff] at h
      simp only [List.cons_append, List.cons_lex_cons_iff, ih h, List.cons.injEq]
      constructor
      · rintro (h1 | ⟨rfl, h1 | ⟨rfl, h1⟩⟩)
        · exact Or.inl (Or.inl h1)
        · exact Or.inl (Or.inr ⟨rfl, h1⟩)
        · exact Or.inr ⟨⟨rfl, rfl⟩, h1⟩
      · rintro ((h1 | ⟨rfl, h1⟩) | ⟨⟨rfl, rfl⟩, h1⟩)
        · exact Or.inl h1
        · exact Or.inr ⟨rfl, Or.inl h1⟩
        · exact Or.inr ⟨rfl, Or.inr ⟨rfl, h1⟩⟩

/-- On trails of one length the order is the lexicographic one, read from the start. -/
theorem before_iff_lex_reverse {p q : List Nat} (h : p.length = q.length) :
    Before p q ↔ List.Lex (· < ·) p.reverse q.reverse := by
  induction p generalizing q with
  | nil =>
    cases q with
    | nil => simp [Before]
    | cons w q => simp at h
  | cons v p ih =>
    cases q with
    | nil => simp at h
    | cons w q =>
      simp only [List.length_cons, Nat.add_right_cancel_iff] at h
      simp only [Before, List.reverse_cons, ih h]
      rw [append_singleton_lex (by simpa using h), List.reverse_inj]

theorem AtMost.lex_reverse {p q : List Nat} (h : AtMost p q) (hl : p.length = q.length) :
    p.reverse = q.reverse ∨ List.Lex (· < ·) p.reverse q.reverse := by
  rcases h with rfl | h
  · exact Or.inl rfl
  · exact Or.inr ((before_iff_lex_reverse hl).mp h)

/-! ## Trails and the search -/

variable {ε : Type}

/-- A path from `start` along the places that `next` lists, held backwards. -/
inductive Trail (next : Nat → Except ε (List Nat)) (start : Nat) : List Nat → Prop where
  | here : Trail next start [start]
  | step {u v : Nat} {p vs : List Nat} : Trail next start (u :: p) → next u = .ok vs → v ∈ vs →
      Trail next start (v :: u :: p)

/-- The search without a registry around it. -/
def breadthFirst (next : Nat → Except ε (List Nat)) (goal : Nat) :
    Nat → List Nat → List (List Nat) → Except ε (Option (List Nat))
  | _, _, [] => .ok none
  | 0, _, _ => .ok none
  | fuel + 1, seen, [] :: waiting => breadthFirst next goal fuel seen waiting
  | fuel + 1, seen, (current :: rest) :: waiting =>
    if current = goal then .ok (some (current :: rest))
    else
      match next current with
      | .error e => .error e
      | .ok found =>
        let fresh := found.filter fun n => !seen.contains n
        breadthFirst next goal fuel (seen ++ fresh)
          (waiting ++ fresh.map (· :: current :: rest))

/-! ## The invariant of the search -/

/-- `done` holds the trails that were taken off the queue. Every place was first
met by the trail that is held for it. -/
structure Frontier (next : Nat → Except ε (List Nat)) (start goal : Nat) (seen : List Nat)
    (done waiting : List (List Nat)) : Prop where
  trails : ∀ p ∈ done ++ waiting, Trail next start p
  start_held : [start] ∈ done ++ waiting
  /-- A place behind one that is done is held with a trail that is not later. -/
  closed : ∀ u p, u :: p ∈ done → ∀ vs, next u = .ok vs → ∀ v ∈ vs,
    ∃ q, v :: q ∈ done ++ waiting ∧ AtMost (v :: q) (v :: u :: p)
  goal_not_done : ∀ p, goal :: p ∉ done
  ascending : waiting.Pairwise Before
  /-- No held trail is more than a step ahead of one that waits. -/
  narrow : ∀ p ∈ done ++ waiting, ∀ q ∈ waiting, ∀ v, Before p (v :: q)
  seen_held : ∀ v ∈ seen, ∃ p, v :: p ∈ done ++ waiting

theorem frontier_start (next : Nat → Except ε (List Nat)) (start goal : Nat) :
    Frontier next start goal [start] [] [[start]] where
  trails := by
    intro p hp
    simp only [List.nil_append, List.mem_singleton] at hp
    exact hp ▸ Trail.here
  start_held := by simp
  closed := by simp
  goal_not_done := by simp
  ascending := by simp
  narrow := by
    intro p hp q hq v
    simp only [List.nil_append, List.mem_singleton] at hp hq
    rw [hp, hq]
    exact before_cons_self v [start]
  seen_held := by simp

/-- Each trail has a part that a waiting trail undercuts, or ends in a place that
is done. -/
theorem Frontier.covers {next : Nat → Except ε (List Nat)} {start goal : Nat} {seen : List Nat}
    {done waiting : List (List Nat)} (h : Frontier next start goal seen done waiting)
    {t : List Nat} (ht : Trail next start t) :
    (∃ w ∈ waiting, AtMost w t) ∨ ∃ v p q, t = v :: p ∧ v :: q ∈ done ∧ AtMost (v :: q) t := by
  induction ht with
  | here =>
    rcases List.mem_append.mp h.start_held with h1 | h1
    · exact Or.inr ⟨start, [], [], rfl, h1, Or.inl rfl⟩
    · exact Or.inl ⟨_, h1, Or.inl rfl⟩
  | @step u v p vs _ hnext hv ih =>
    rcases ih with ⟨w, hw, hle⟩ | ⟨u', p', q, heq, hq, hle⟩
    · exact Or.inl ⟨w, hw, hle.trans (Or.inr (before_cons_self v _))⟩
    · cases heq
      obtain ⟨q', hq', hle'⟩ := h.closed u q hq vs hnext v hv
      have hend : AtMost (v :: q') (v :: u :: p) := hle'.trans (hle.cons v)
      rcases List.mem_append.mp hq' with h1 | h1
      · exact Or.inr ⟨v, _, q', rfl, h1, hend⟩
      · exact Or.inl ⟨_, h1, hend⟩

/-- A trail to the goal that no other trail to the goal comes before, or none if
there is no trail. -/
def Finds (next : Nat → Except ε (List Nat)) (start goal : Nat) : Option (List Nat) → Prop
  | none => ∀ p, ¬ Trail next start (goal :: p)
  | some t => Trail next start t ∧ (∃ p, t = goal :: p) ∧
      ∀ p, Trail next start (goal :: p) → AtMost t (goal :: p)

theorem Frontier.finds_none {next : Nat → Except ε (List Nat)} {start goal : Nat} {seen : List Nat}
    {done : List (List Nat)} (h : Frontier next start goal seen done []) :
    Finds next start goal none := by
  intro p hp
  rcases h.covers hp with ⟨w, hw, _⟩ | ⟨v, q, q', heq, hq, _⟩
  · cases hw
  · cases heq
    exact h.goal_not_done _ hq

theorem Frontier.finds_head {next : Nat → Except ε (List Nat)} {start goal : Nat} {seen : List Nat}
    {done waiting : List (List Nat)} {p : List Nat}
    (h : Frontier next start goal seen done ((goal :: p) :: waiting)) :
    Finds next start goal (some (goal :: p)) := by
  refine ⟨h.trails _ (by simp), ⟨p, rfl⟩, ?_⟩
  intro q hq
  rcases h.covers hq with ⟨w, hw, hle⟩ | ⟨v, q', q'', heq, hq', _⟩
  · rcases List.mem_cons.mp hw with rfl | hw
    · exact hle
    · exact AtMost.trans (Or.inr (List.rel_of_pairwise_cons h.ascending hw)) hle
  · cases heq
    exact absurd hq' (h.goal_not_done _)

/-- One turn of the search keeps the invariant. -/
theorem Frontier.expand {next : Nat → Except ε (List Nat)} {start goal u : Nat}
    {seen p vs : List Nat} {done waiting : List (List Nat)}
    (h : Frontier next start goal seen done ((u :: p) :: waiting)) (hu : u ≠ goal)
    (hnext : next u = .ok vs) (hvs : vs.Pairwise (· < ·)) :
    let fresh := vs.filter fun n => !seen.contains n
    Frontier next start goal (seen ++ fresh) ((u :: p) :: done)
      (waiting ++ fresh.map (· :: u :: p)) := by
  intro fresh
  have hfresh : ∀ v, v ∈ fresh ↔ v ∈ vs ∧ v ∉ seen := by
    intro v
    simp [fresh]
  have hold : ∀ {q}, q ∈ done ++ (u :: p) :: waiting →
      q ∈ ((u :: p) :: done) ++ (waiting ++ fresh.map (· :: u :: p)) := by
    intro q hq
    simp only [List.mem_append, List.mem_cons] at hq ⊢
    tauto
  have hnew : ∀ {q}, q ∈ ((u :: p) :: done) ++ (waiting ++ fresh.map (· :: u :: p)) →
      q ∈ done ++ (u :: p) :: waiting ∨ ∃ v ∈ fresh, q = v :: u :: p := by
    intro q hq
    simp only [List.mem_append, List.mem_cons, List.mem_map] at hq ⊢
    rcases hq with (hq | hq) | hq | ⟨v, hv, hq⟩
    · exact Or.inl (Or.inr (Or.inl hq))
    · exact Or.inl (Or.inl hq)
    · exact Or.inl (Or.inr (Or.inr hq))
    · exact Or.inr ⟨v, hv, hq.symm⟩
  have hhead : u :: p ∈ (u :: p) :: waiting := List.mem_cons_self
  have htrail : Trail next start (u :: p) := h.trails _ (List.mem_append_right _ hhead)
  refine ⟨?_, hold h.start_held, ?_, ?_, ?_, ?_, ?_⟩
  · intro q hq
    rcases hnew hq with hq | ⟨v, hv, rfl⟩
    · exact h.trails q hq
    · exact Trail.step htrail hnext ((hfresh v).mp hv).1
  · intro u' p' hdone vs' hnext' v hv
    rcases List.mem_cons.mp hdone with heq | hdone
    · cases heq
      rw [hnext] at hnext'
      cases hnext'
      -- A place that was seen is held with an older trail, the others are met now.
      by_cases hs : v ∈ seen
      · obtain ⟨q, hq⟩ := h.seen_held v hs
        exact ⟨q, hold hq, Or.inr (h.narrow _ hq _ hhead v)⟩
      · refine ⟨u :: p, ?_, Or.inl rfl⟩
        exact List.mem_append_right _ (List.mem_append_right _
          (List.mem_map.mpr ⟨v, (hfresh v).mpr ⟨hv, hs⟩, rfl⟩))
    · obtain ⟨q, hq, hle⟩ := h.closed u' p' hdone vs' hnext' v hv
      exact ⟨q, hold hq, hle⟩
  · intro q hq
    rcases List.mem_cons.mp hq with heq | hq
    · cases heq
      exact hu rfl
    · exact h.goal_not_done q hq
  · rw [List.pairwise_append]
    refine ⟨h.ascending.of_cons, ?_, ?_⟩
    · rw [List.pairwise_map]
      exact (hvs.filter _).imp fun hlt => Or.inr ⟨rfl, hlt⟩
    · intro q hq q' hq'
      obtain ⟨v, _, rfl⟩ := List.mem_map.mp hq'
      exact h.narrow q (List.mem_append_right _ (List.mem_cons_of_mem _ hq)) _ hhead v
  · intro q hq q' hq' v
    rcases List.mem_append.mp hq' with hq' | hq'
    · have hfirst : Before (u :: p) q' := List.rel_of_pairwise_cons h.ascending hq'
      rcases hnew hq with hq | ⟨w, _, rfl⟩
      · exact h.narrow q hq q' (List.mem_cons_of_mem _ hq') v
      · exact Or.inl hfirst
    · obtain ⟨w, _, rfl⟩ := List.mem_map.mp hq'
      rcases hnew hq with hq | ⟨w', _, rfl⟩
      · exact (h.narrow q hq _ hhead w).trans (before_cons_self v _)
      · exact Or.inl (before_cons_self w _)
  · intro v hv
    rcases List.mem_append.mp hv with hv | hv
    · obtain ⟨q, hq⟩ := h.seen_held v hv
      exact ⟨q, hold hq⟩
    · refine ⟨u :: p, List.mem_append_right _ (List.mem_append_right _ ?_)⟩
      exact List.mem_map.mpr ⟨v, hv, rfl⟩

/-! ## The run of the search -/

theorem length_le_of_nodup_of_lt {l : List Nat} {n : Nat} (h : l.Nodup) (hlt : ∀ v ∈ l, v < n) :
    l.length ≤ n := by
  have hsub : l ⊆ List.range n := fun v hv => List.mem_range.mpr (hlt v hv)
  simpa using h.length_le_of_subset hsub

/-- Where every place that can be reached has its neighbours, sorted, the search
has an answer, and it is the first trail to the goal. `n` places and one turn for
each of them are enough. -/
theorem breadthFirst_finds {next : Nat → Except ε (List Nat)} {start goal n : Nat}
    (hnext : ∀ u p, Trail next start (u :: p) →
      ∃ vs, next u = .ok vs ∧ vs.Pairwise (· < ·) ∧ ∀ v ∈ vs, v < n)
    (fuel : Nat) (seen : List Nat) (done waiting : List (List Nat))
    (h : Frontier next start goal seen done waiting) (hseen : seen.Nodup)
    (hlt : ∀ v ∈ seen, v < n) (hfuel : n + waiting.length ≤ fuel + seen.length) :
    ∃ result, breadthFirst next goal fuel seen waiting = .ok result ∧
      Finds next start goal result := by
  induction fuel generalizing seen done waiting with
  | zero =>
    cases waiting with
    | nil => exact ⟨none, rfl, h.finds_none⟩
    | cons t waiting =>
      have hlen := length_le_of_nodup_of_lt hseen hlt
      simp only [List.length_cons] at hfuel
      omega
  | succ fuel ih =>
    cases waiting with
    | nil => exact ⟨none, rfl, h.finds_none⟩
    | cons t waiting =>
      have htrail : Trail next start t := h.trails t (by simp)
      cases t with
      | nil => cases htrail
      | cons u p =>
        unfold breadthFirst
        by_cases hu : u = goal
        · subst hu
          exact ⟨some (u :: p), by rw [if_pos rfl], h.finds_head⟩
        · obtain ⟨vs, hvs, hsorted, hbound⟩ := hnext u p htrail
          simp only [if_neg hu, hvs]
          have hfresh : (vs.filter fun m => !seen.contains m).Nodup :=
            (hsorted.imp fun hlt => Nat.ne_of_lt hlt).filter _
          apply ih _ _ _ (h.expand hu hvs hsorted)
          · rw [List.nodup_append]
            refine ⟨hseen, hfresh, ?_⟩
            intro a ha b hb hab
            subst hab
            simp [ha] at hb
          · intro v hv
            rcases List.mem_append.mp hv with hv | hv
            · exact hlt v hv
            · exact hbound v (List.mem_filter.mp hv).1
          · simp only [List.length_append, List.length_map, List.length_cons] at hfuel ⊢
            omega

end BreadthFirst

end JarDerivation
