-- Paths over one declared edge. The search expands the other targets of the
-- source, in order of registration, before it comes to the goal, and a target
-- that leads to an unregistered name ends it there.
import JarDerivation.Proofs.Registry.ShortestPath

namespace JarDerivation

/-! ## The turns before the goal -/

namespace BreadthFirst

variable {ε : Type}

/-- The search takes `heads` off the queue if each of these can be expanded, and goes on with
what was behind them. -/
theorem breadthFirst_passes {next : Nat → Except ε (List Nat)} {goal : Nat} {heads : List Nat}
    (hok : ∀ v ∈ heads, ∃ vs, next v = .ok vs) (hgoal : goal ∉ heads) (trail : List Nat)
    (rest : List (List Nat)) (fuel : Nat) (seen : List Nat) :
    ∃ seen' more, breadthFirst next goal (heads.length + fuel) seen
        (heads.map (· :: trail) ++ rest) = breadthFirst next goal fuel seen' (rest ++ more) := by
  induction heads generalizing seen rest with
  | nil => exact ⟨seen, [], by simp⟩
  | cons v heads ih =>
    obtain ⟨vs, hvs⟩ := hok v List.mem_cons_self
    have hv : v ≠ goal := fun h => hgoal (h ▸ List.mem_cons_self)
    rw [List.length_cons, Nat.add_right_comm]
    simp only [List.map_cons, List.cons_append, breadthFirst, if_neg hv, hvs, List.append_assoc]
    obtain ⟨seen', more, heq⟩ := ih (fun w hw => hok w (List.mem_cons_of_mem _ hw))
      (fun h => hgoal (List.mem_cons_of_mem _ h)) (rest ++ _) _
    exact ⟨seen', _, by rw [heq, List.append_assoc]⟩

/-- The search comes to the goal behind `heads` when each of these can be expanded. -/
theorem breadthFirst_behind {next : Nat → Except ε (List Nat)} {goal : Nat} {heads : List Nat}
    (hok : ∀ v ∈ heads, ∃ vs, next v = .ok vs) (hgoal : goal ∉ heads) (trail : List Nat)
    (rest : List (List Nat)) {fuel : Nat} (hfuel : heads.length < fuel) (seen : List Nat) :
    breadthFirst next goal fuel seen (heads.map (· :: trail) ++ (goal :: trail) :: rest) =
      .ok (some (goal :: trail)) := by
  obtain ⟨fuel, rfl⟩ := Nat.exists_eq_add_of_lt hfuel
  obtain ⟨_, _, heq⟩ := breadthFirst_passes hok hgoal trail ((goal :: trail) :: rest) (fuel + 1) seen
  rw [Nat.add_assoc, heq]
  simp [breadthFirst]

/-- The search ends with the error of the first place that it cannot expand. -/
theorem breadthFirst_stopped {next : Nat → Except ε (List Nat)} {goal v : Nat} {e : ε}
    {heads : List Nat} (hok : ∀ w ∈ heads, ∃ vs, next w = .ok vs) (hgoal : goal ∉ heads)
    (hv : v ≠ goal) (he : next v = .error e) (trail : List Nat) (rest : List (List Nat))
    {fuel : Nat} (hfuel : heads.length < fuel) (seen : List Nat) :
    breadthFirst next goal fuel seen (heads.map (· :: trail) ++ (v :: trail) :: rest) =
      .error e := by
  obtain ⟨fuel, rfl⟩ := Nat.exists_eq_add_of_lt hfuel
  obtain ⟨_, _, heq⟩ := breadthFirst_passes hok hgoal trail ((v :: trail) :: rest) (fuel + 1) seen
  rw [Nat.add_assoc, heq]
  simp [breadthFirst, hv, he]

/-- A sorted list is cut at one of its numbers. -/
theorem cut_at {vs : List Nat} (hs : vs.Pairwise (· < ·)) {v : Nat} (hv : v ∈ vs) :
    ∃ before rest, vs = before ++ v :: rest ∧ ∀ w, w ∈ before ↔ w ∈ vs ∧ w < v := by
  obtain ⟨before, rest, rfl⟩ := List.append_of_mem hv
  rw [List.pairwise_append, List.pairwise_cons] at hs
  refine ⟨before, rest, rfl, ?_⟩
  intro w
  constructor
  · intro hw
    exact ⟨List.mem_append_left _ hw, hs.2.2 w hw v List.mem_cons_self⟩
  · rintro ⟨hw, hlt⟩
    rcases List.mem_append.mp hw with hw | hw
    · exact hw
    · rcases List.mem_cons.mp hw with rfl | hw
      · exact absurd hlt (Nat.lt_irrefl _)
      · exact absurd hlt (Nat.lt_asymm (hs.2.1.1 w hw))

end BreadthFirst

namespace Registry

/-! ## Neighbours that cannot be expanded -/

/-- Every target that the registrations of `a` list is registered. -/
def Whole (r : Registry) (a : String) : Prop := ∀ b, r.Declares a b → r.contains b

theorem contains_of_places {r : Registry} {name : String} {targets : List String} {found : List Nat}
    (h : r.places name targets = .ok found) : ∀ t ∈ targets, r.contains t := by
  induction targets generalizing found with
  | nil => simp
  | cons t rest ih =>
    unfold places at h
    split at h
    · cases h
    · rename_i idx hidx
      cases hrest : r.places name rest with
      | error e =>
        rw [hrest] at h
        cases h
      | ok l =>
        intro t' ht'
        rcases List.mem_cons.mp ht' with rfl | ht'
        · unfold contains
          rw [hidx]
          rfl
        · exact ih hrest t' ht'

theorem next_rank_eq {r : Registry} {a : String} (ha : r.contains a) :
    r.next (r.rank a) = r.adjacent a := by
  obtain ⟨ns, _, hat, rfl⟩ := namespaceAt_rank ha
  unfold next
  rw [hat]
  rfl

/-- The neighbours of a registered namespace are found just when all its targets
are registered. -/
theorem whole_iff_adjacent {r : Registry} (hs : r.Sound) {a : String} (ha : r.contains a) :
    r.Whole a ↔ ∃ found, r.adjacent a = .ok found := by
  constructor
  · intro h
    obtain ⟨vs, hvs, _⟩ := next_rank hs ha h
    exact ⟨vs, (next_rank_eq ha).symm.trans hvs⟩
  · rintro ⟨found, hfound⟩ b hb
    obtain ⟨e, he, rfl⟩ := entry_at_rank ha
    unfold adjacent at hfound
    simp only [indexOf?_eq_rank ha, he, Option.map_some, Option.getD_some] at hfound
    exact contains_of_places hfound b ((declares_iff hs (List.mem_of_getElem? he)).mp hb)

theorem ask_remapsTo_error {r : Registry} (hs : r.Sound) {a : String} {e : Error} :
    r.ask (remapsTo a) = .error e ↔ r.adjacent a = .error e := by
  rw [(answers_remapsTo hs a).ask_eq]
  cases r.adjacent a <;> simp [Except.map]

/-- What a source that may be remapped to the target declares. -/
theorem edge_of_canRemap {r : Registry} (hs : r.Sound) {source target : String}
    (hsource : r.contains source) (h : r.ask (canRemap source target) = .ok true) :
    r.Whole source ∧ r.Declares source target := by
  rw [(answers_canRemap hs source target).ask_eq] at h
  cases hadj : r.adjacent source with
  | error e =>
    rw [hadj] at h
    cases h
  | ok found =>
    have hwhole : r.Whole source := (whole_iff_adjacent hs hsource).mpr ⟨found, hadj⟩
    refine ⟨hwhole, ?_⟩
    obtain ⟨vs, hvs, _, hmem⟩ := next_rank hs hsource hwhole
    rw [next_rank_eq hsource, hadj] at hvs
    cases hvs
    rw [hadj] at h
    simp only [Except.map, Except.ok.injEq, List.any_eq_true, List.mem_filterMap, beq_iff_eq] at h
    obtain ⟨ns, ⟨v, hv, hat⟩, rfl⟩ := h
    obtain ⟨b, hb, rfl⟩ := (hmem v).mp hv
    obtain ⟨ns', _, hat', rfl⟩ := namespaceAt_rank (hwhole b hb)
    rw [hat] at hat'
    cases hat'
    exact hb

/-! ## The path over one edge -/

/-- `b` is a target of `source` that was registered before `target`. -/
structure Precedes (r : Registry) (source target b : String) : Prop where
  declared : r.Declares source b
  other : b ≠ source
  earlier : r.rank b < r.rank target

/-- The queue after the first turn of the search: the targets of the source but
the source itself, in order of registration. -/
structure FirstQueue (r : Registry) (source : String) (queue : List Nat) : Prop where
  sorted : queue.Pairwise (· < ·)
  mem_iff : ∀ v, v ∈ queue ↔ ∃ b, r.Declares source b ∧ b ≠ source ∧ r.rank b = v
  length_le : queue.length ≤ r.size
  search_eq : ∀ goal, r.rank source ≠ goal →
    BreadthFirst.breadthFirst r.next goal (r.size + 1) [r.rank source] [[r.rank source]] =
      BreadthFirst.breadthFirst r.next goal r.size (r.rank source :: queue)
        (queue.map (· :: [r.rank source]))

theorem exists_firstQueue {r : Registry} {source : String} (hs : r.Sound)
    (hsource : r.contains source) (hwhole : r.Whole source) :
    ∃ queue, r.FirstQueue source queue := by
  obtain ⟨vs, hvs, hsorted, hmem⟩ := next_rank hs hsource hwhole
  have hqueue : (vs.filter fun n => !([r.rank source].contains n)).Pairwise (· < ·) :=
    hsorted.filter _
  have hiff : ∀ v, v ∈ vs.filter (fun n => !([r.rank source].contains n)) ↔
      ∃ b, r.Declares source b ∧ b ≠ source ∧ r.rank b = v := by
    intro v
    rw [List.mem_filter, hmem]
    constructor
    · rintro ⟨⟨b, hb, rfl⟩, hseen⟩
      refine ⟨b, hb, ?_, rfl⟩
      rintro rfl
      simp at hseen
    · rintro ⟨b, hb, hbs, rfl⟩
      refine ⟨⟨b, hb, rfl⟩, ?_⟩
      simpa using fun h => hbs (rank_inj (hwhole b hb) hsource h)
  refine ⟨_, hqueue, hiff, ?_, ?_⟩
  · apply BreadthFirst.length_le_of_nodup_of_lt (hqueue.imp Nat.ne_of_lt)
    intro v hv
    obtain ⟨b, hb, _, rfl⟩ := (hiff v).mp hv
    exact rank_lt (hwhole b hb)
  · intro goal hgoal
    rw [BreadthFirst.breadthFirst]
    simp only [if_neg hgoal, hvs, List.nil_append, List.singleton_append]

/-- The queue up to a target of the source holds the targets registered before it. -/
theorem FirstQueue.cut {r : Registry} {source b : String} {queue : List Nat}
    (h : r.FirstQueue source queue) (hb : r.Declares source b) (hbs : b ≠ source) :
    ∃ before rest, queue = before ++ r.rank b :: rest ∧ before.length < r.size ∧
      ∀ v, v ∈ before ↔ ∃ b', r.Precedes source b b' ∧ r.rank b' = v := by
  obtain ⟨before, rest, heq, hbefore⟩ :=
    BreadthFirst.cut_at h.sorted ((h.mem_iff (r.rank b)).mpr ⟨b, hb, hbs, rfl⟩)
  refine ⟨before, rest, heq, ?_, ?_⟩
  · have hlength := h.length_le
    rw [heq, List.length_append, List.length_cons] at hlength
    omega
  · intro v
    rw [hbefore, h.mem_iff]
    constructor
    · rintro ⟨⟨b', hb', hbs', rfl⟩, hlt⟩
      exact ⟨b', ⟨hb', hbs', hlt⟩, rfl⟩
    · rintro ⟨b', hb', rfl⟩
      exact ⟨⟨b', hb'.declared, hb'.other, rfl⟩, hb'.earlier⟩

/-- What the search makes of the queue: it stops at the first target that is not
whole, or at the goal. -/
theorem search_of_edge {r : Registry} {source target : String} (hs : r.Sound)
    (hsource : r.contains source) (hne : source ≠ target) (hwhole : r.Whole source)
    (hedge : r.Declares source target) :
    let found := BreadthFirst.breadthFirst r.next (r.rank target) (r.size + 1) [r.rank source]
      [[r.rank source]]
    ((∀ b, r.Precedes source target b → r.Whole b) →
        found = .ok (some [r.rank target, r.rank source])) ∧
      ∀ b e, r.Precedes source target b → (∀ b', r.Precedes source b b' → r.Whole b') →
        r.adjacent b = .error e → found = .error e := by
  intro found
  obtain ⟨queue, hqueue⟩ := exists_firstQueue hs hsource hwhole
  have hstart : r.rank source ≠ r.rank target :=
    fun h => hne (rank_inj hsource (hwhole target hedge) h)
  have hexpand : ∀ b, (∀ b', r.Precedes source b b' → r.Whole b') → ∀ v,
      (∃ b', r.Precedes source b b' ∧ r.rank b' = v) → ∃ vs, r.next v = .ok vs := by
    rintro b hall v ⟨b', hb', rfl⟩
    obtain ⟨vs, hvs, _⟩ := next_rank hs (hwhole b' hb'.declared) (hall b' hb')
    exact ⟨vs, hvs⟩
  have hgoal : ∀ b, r.rank b ≤ r.rank target →
      ¬∃ b', r.Precedes source b b' ∧ r.rank b' = r.rank target := by
    rintro b hle ⟨b', hb', hrank⟩
    have hlt := hb'.earlier
    omega
  rw [show found = _ from hqueue.search_eq _ hstart]
  constructor
  · intro hall
    obtain ⟨before, rest, heq, hlt, hbefore⟩ := hqueue.cut hedge hne.symm
    rw [heq, List.map_append, List.map_cons]
    exact BreadthFirst.breadthFirst_behind
      (fun v hv => hexpand target hall v ((hbefore v).mp hv))
      (fun h => hgoal target (Nat.le_refl _) ((hbefore _).mp h)) _ _ hlt _
  · intro b e hb hall he
    obtain ⟨before, rest, heq, hlt, hbefore⟩ := hqueue.cut hb.declared hb.other
    rw [heq, List.map_append, List.map_cons]
    exact BreadthFirst.breadthFirst_stopped
      (fun v hv => hexpand b hall v ((hbefore v).mp hv))
      (fun h => hgoal b (Nat.le_of_lt hb.earlier) ((hbefore _).mp h)) (Nat.ne_of_lt hb.earlier)
      ((next_rank_eq (hwhole b hb.declared)).trans he) _ _ hlt _

/-- The answer to a question for a path over a declared edge. -/
theorem route_of_edge {r : Registry} {source sourceFallback target targetFallback : String}
    (hs : r.Sound)
    (hregistered : ∀ n ∈ [source, sourceFallback, target, targetFallback], r.contains n)
    (hne : source ≠ target) (hwhole : r.Whole source) (hedge : r.Declares source target) :
    ((∀ b, r.Precedes source target b → r.Whole b) →
        ∃ ns ∈ r.namespaces, ns.name = target ∧
          r.route source sourceFallback target targetFallback = .ok [ns]) ∧
      ∀ b e, r.Precedes source target b → (∀ b', r.Precedes source b b' → r.Whole b') →
        r.adjacent b = .error e →
        r.route source sourceFallback target targetFallback = .error e := by
  have hsource : r.contains source := hregistered _ (by simp)
  have htarget : r.contains target := hregistered _ (by simp)
  obtain ⟨hfound, hstopped⟩ := search_of_edge hs hsource hne hwhole hedge
  unfold route
  simp only [find?_unregistered hregistered, if_neg hne, indexOf?_eq_rank hsource, indexOf?_eq_rank htarget]
  constructor
  · intro hall
    obtain ⟨ns, hns, hat, hname⟩ := namespaceAt_rank htarget
    refine ⟨ns, hns, hname, ?_⟩
    rw [hfound hall]
    simp [hat]
  · intro b e hb hall he
    rw [hstopped b e hb hall he]

/-- Among the targets that precede one, a target that is not whole has a first one. -/
theorem exists_first_not_whole {r : Registry} {source target : String}
    (h : ¬∀ b, r.Precedes source target b → r.Whole b) :
    ∃ b, r.Precedes source target b ∧ ¬r.Whole b ∧ ∀ b', r.Precedes source b b' → r.Whole b' := by
  obtain ⟨b, hb⟩ := not_forall.mp h
  rw [Classical.not_imp] at hb
  obtain ⟨hb, hw⟩ := hb
  induction hrank : r.rank b using Nat.strong_induction_on generalizing b with
  | _ n ih =>
    by_cases hall : ∀ b', r.Precedes source b b' → r.Whole b'
    · exact ⟨b, hb, hw, hall⟩
    · obtain ⟨b', hb'⟩ := not_forall.mp hall
      rw [Classical.not_imp] at hb'
      obtain ⟨hb', hw'⟩ := hb'
      have hlt := hb'.earlier
      exact ih (r.rank b') (hrank ▸ hlt) b' ⟨hb'.declared, hb'.other, hlt.trans hb.earlier⟩ hw' rfl

/-- A declared edge is a path of its own just when no target of the source that
was registered before the goal lists an unregistered name. Otherwise the first
of these targets ends the search, with the error of a question for its targets. -/
theorem an_edge_is_a_path_just_when_no_earlier_target_lists_an_unregistered_name
    (calls : List RegistryCall) (source sourceFallback target targetFallback : String)
    (hregistered : ∀ n ∈ [source, sourceFallback, target, targetFallback], (run calls).contains n)
    (hne : source ≠ target) (hedge : (run calls).ask (canRemap source target) = .ok true) :
    let r := run calls
    let answer := r.ask (resolvePath source sourceFallback target targetFallback)
    ((∃ ns ∈ r.namespaces, ns.name = target ∧ answer = .ok [ns]) ↔
        ∀ b, r.Precedes source target b → r.Whole b) ∧
      ∀ b, r.Precedes source target b → ¬r.Whole b → (∀ b', r.Precedes source b b' → r.Whole b') →
        ∃ e, r.ask (remapsTo b) = .error e ∧ answer = .error e := by
  intro r answer
  have hs : r.Sound := sound_run calls
  have hanswer : answer = r.route source sourceFallback target targetFallback :=
    (answers_resolvePath hs source sourceFallback target targetFallback).ask_eq
  obtain ⟨hwhole, hdecl⟩ := edge_of_canRemap hs (hregistered _ (by simp)) hedge
  obtain ⟨hfound, hstopped⟩ := route_of_edge hs hregistered hne hwhole hdecl
  rw [← hanswer] at hfound hstopped
  have herror : ∀ b, r.Precedes source target b → ¬r.Whole b →
      (∀ b', r.Precedes source b b' → r.Whole b') →
      ∃ e, r.ask (remapsTo b) = .error e ∧ answer = .error e := by
    intro b hb hw hall
    rw [whole_iff_adjacent hs (hwhole b hb.declared)] at hw
    cases hadj : r.adjacent b with
    | ok found => exact absurd ⟨found, hadj⟩ hw
    | error e => exact ⟨e, (ask_remapsTo_error hs).mpr hadj, hstopped b e hb hall hadj⟩
  refine ⟨⟨?_, hfound⟩, herror⟩
  rintro ⟨ns, _, _, hok⟩
  by_contra hnot
  obtain ⟨b, hb, hw, hall⟩ := exists_first_not_whole hnot
  obtain ⟨e, _, he⟩ := herror b hb hw hall
  rw [hok] at he
  cases he

/-- `official` leads to `named`, and to `broken`, which was registered after `named`
and lists a name that was not. -/
def lateDeadEnd : List RegistryCall :=
  [.register "official" false ["broken", "named"], .register "named" true [],
    .register "broken" false ["ghost"]]

theorem an_edge_is_used_beside_a_late_dead_end :
    (∀ n ∈ ["official", "official", "named", "named"], (run lateDeadEnd).contains n) ∧
      "official" ≠ "named" ∧
      (run lateDeadEnd).ask (canRemap "official" "named") = .ok true ∧
      (run lateDeadEnd).ask (resolvePath "official" "official" "named" "named") =
        .ok [⟨"named", true⟩] := by
  have hregistered : ∀ n ∈ ["official", "official", "named", "named"],
      (run lateDeadEnd).contains n := by decide
  have hne : "official" ≠ "named" := by decide
  have hedge : (run lateDeadEnd).ask (canRemap "official" "named") = .ok true := by decide
  have hnone : ∀ b, (run lateDeadEnd).Precedes "official" "named" b → (run lateDeadEnd).Whole b := by
    rintro b ⟨⟨e, he, hname, names, hnames, hb⟩, hother, hearlier⟩
    have hlisted : ∀ e ∈ (run lateDeadEnd).entries, e.namespaceOf.name = "official" →
        ∀ names ∈ e.declared, ∀ b ∈ names,
          ¬(run lateDeadEnd).rank b < (run lateDeadEnd).rank "named" := by decide
    exact absurd hearlier (hlisted e he hname names hnames b hb)
  obtain ⟨hiff, _⟩ := an_edge_is_a_path_just_when_no_earlier_target_lists_an_unregistered_name
    lateDeadEnd "official" "official" "named" "named" hregistered hne hedge
  obtain ⟨ns, hns, hname, hanswer⟩ := hiff.mpr hnone
  have hnamed : ∀ ns ∈ (run lateDeadEnd).namespaces, ns.name = "named" → ns = ⟨"named", true⟩ := by
    decide
  rw [hnamed ns hns hname] at hanswer
  exact ⟨hregistered, hne, hedge, hanswer⟩

/-- The dead end is registered before the goal. -/
def earlyDeadEnd : List RegistryCall :=
  [.register "official" false ["broken", "named"], .register "broken" false ["ghost"],
    .register "named" true []]

/-- The search runs into the dead end before it comes to the goal. -/
theorem an_edge_is_not_always_a_path :
    ¬∀ (calls : List RegistryCall) (source sourceFallback target targetFallback : String),
      (∀ n ∈ [source, sourceFallback, target, targetFallback], (run calls).contains n) →
      source ≠ target → (run calls).ask (canRemap source target) = .ok true →
      ∃ ns ∈ (run calls).namespaces, ns.name = target ∧
        (run calls).ask (resolvePath source sourceFallback target targetFallback) = .ok [ns] := by
  intro h
  obtain ⟨ns, _, _, hanswer⟩ := h earlyDeadEnd "official" "official" "named" "named"
    (by decide) (by decide) (by decide)
  have hghost : (run earlyDeadEnd).ask (resolvePath "official" "official" "named" "named") =
      .error (.unknownNamespace "ghost" "declared as remap target of broken") := by decide
  rw [hghost] at hanswer
  cases hanswer

end Registry

end JarDerivation
