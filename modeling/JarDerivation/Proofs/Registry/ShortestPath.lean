-- The path between two namespaces: it is found exactly when the goal can be
-- reached, no chain of declared edges is shorter, and among the chains of its
-- length it is the first in order of registration.
import JarDerivation.Proofs.Registry.Calls
import Mathlib.Data.List.Chain

namespace JarDerivation

namespace Registry

/-! ## Chains of namespaces -/

/-- `names` leads from `a` to `b` along declared edges; `a` itself is left out. -/
def Leads (r : Registry) (a : String) (names : List String) (b : String) : Prop :=
  List.IsChain r.Declares (a :: names) ∧ (a :: names).getLast? = some b

/-- The place of a namespace in the order of registration. -/
def rank (r : Registry) (name : String) : Nat := (r.namespaces.map (·.name)).idxOf name

theorem leads_nil {r : Registry} {a b : String} : r.Leads a [] b ↔ a = b := by
  simp [Leads]

theorem leads_snoc {r : Registry} {a c d : String} {names : List String} :
    r.Leads a (names ++ [c]) d ↔ c = d ∧ ∃ b, r.Leads a names b ∧ r.Declares b c := by
  unfold Leads
  rw [← List.cons_append, List.isChain_append, List.getLast?_append]
  simp only [List.isChain_singleton, true_and, List.getLast?_singleton, Option.some_or,
    Option.some.injEq, Option.mem_def, List.head?_singleton]
  constructor
  · rintro ⟨⟨hchain, hlast⟩, rfl⟩
    obtain ⟨b, hb⟩ : ∃ b, (a :: names).getLast? = some b := ⟨_, List.getLast?_cons⟩
    exact ⟨rfl, b, ⟨hchain, hb⟩, hlast b hb c rfl⟩
  · rintro ⟨rfl, b, ⟨hchain, hb⟩, hdecl⟩
    refine ⟨⟨hchain, ?_⟩, rfl⟩
    rintro x hx y rfl
    rw [hb, Option.some.injEq] at hx
    exact hx ▸ hdecl

theorem Leads.reaches {r : Registry} {a b : String} {names : List String}
    (h : r.Leads a names b) : r.Reaches a b := by
  induction names using List.reverseRecOn generalizing b with
  | nil =>
    rw [leads_nil] at h
    exact h ▸ Relation.ReflTransGen.refl
  | append_singleton names c ih =>
    obtain ⟨rfl, b', hb', hdecl⟩ := leads_snoc.mp h
    exact (ih hb').tail hdecl

theorem Reaches.leads {r : Registry} {a b : String} (h : r.Reaches a b) :
    ∃ names, r.Leads a names b := by
  induction h with
  | refl => exact ⟨[], leads_nil.mpr rfl⟩
  | @tail b c _ hdecl ih =>
    obtain ⟨names, hnames⟩ := ih
    exact ⟨names ++ [c], leads_snoc.mpr ⟨rfl, b, hnames, hdecl⟩⟩

/-! ## Places and names -/

theorem indexOf?_eq_rank {r : Registry} {name : String} (h : r.contains name) :
    r.indexOf? name = some (r.rank name) := by
  have hrank : r.rank name = r.entries.findIdx (·.namespaceOf.name == name) := by
    unfold rank namespaces List.idxOf
    rw [List.map_map, List.findIdx_map]
    rfl
  unfold contains at h
  obtain ⟨idx, hidx⟩ := Option.isSome_iff_exists.mp h
  rw [hidx, hrank]
  exact congrArg some (List.findIdx?_eq_some_iff_findIdx_eq.mp hidx).2.symm

theorem entry_at_rank {r : Registry} {name : String} (h : r.contains name) :
    ∃ e, r.entries[r.rank name]? = some e ∧ e.namespaceOf.name = name := by
  have hidx := indexOf?_eq_rank h
  obtain ⟨hlt, hname, _⟩ := List.findIdx?_eq_some_iff_getElem.mp hidx
  exact ⟨_, List.getElem?_eq_getElem hlt, by simpa using hname⟩

theorem rank_lt {r : Registry} {name : String} (h : r.contains name) : r.rank name < r.size :=
  indexOf?_lt (indexOf?_eq_rank h)

theorem rank_inj {r : Registry} {a b : String} (ha : r.contains a) (hb : r.contains b)
    (h : r.rank a = r.rank b) : a = b := by
  obtain ⟨e, he, rfl⟩ := entry_at_rank ha
  obtain ⟨f, hf, rfl⟩ := entry_at_rank hb
  rw [h, hf] at he
  cases he
  rfl

theorem namespaceAt_rank {r : Registry} {name : String} (h : r.contains name) :
    ∃ ns ∈ r.namespaces, r.namespaceAt (r.rank name) = some ns ∧ ns.name = name := by
  obtain ⟨e, he, hname⟩ := entry_at_rank h
  refine ⟨e.namespaceOf, List.mem_map.mpr ⟨e, List.mem_of_getElem? he, rfl⟩, ?_, hname⟩
  unfold namespaceAt
  rw [he]
  rfl

theorem Sound.entry_unique {r : Registry} (h : r.Sound) {e f : RegistryEntry}
    (he : e ∈ r.entries) (hf : f ∈ r.entries) (hname : e.namespaceOf.name = f.namespaceOf.name) :
    e = f := List.inj_on_of_nodup_map h.names_nodup he hf hname

/-! ## Neighbours -/

theorem mem_insertSorted (n m : Nat) (l : List Nat) : m ∈ insertSorted n l ↔ m = n ∨ m ∈ l := by
  induction l with
  | nil => simp [insertSorted]
  | cons k rest ih =>
    unfold insertSorted
    split
    · simp
    · split
      · rename_i h
        simp [h]
      · simp only [List.mem_cons, ih]
        tauto

theorem pairwise_insertSorted (n : Nat) {l : List Nat} (h : l.Pairwise (· < ·)) :
    (insertSorted n l).Pairwise (· < ·) := by
  induction l with
  | nil => simp [insertSorted]
  | cons k rest ih =>
    rw [List.pairwise_cons] at h
    unfold insertSorted
    split
    · rename_i hlt
      rw [List.pairwise_cons, List.pairwise_cons]
      refine ⟨?_, h⟩
      intro m hm
      rcases List.mem_cons.mp hm with rfl | hm
      · exact hlt
      · exact hlt.trans (h.1 m hm)
    · split
      · exact List.pairwise_cons.mpr h
      · rename_i hlt hne
        rw [List.pairwise_cons]
        refine ⟨?_, ih h.2⟩
        intro m hm
        rcases (mem_insertSorted n m rest).mp hm with rfl | hm
        · omega
        · exact h.1 m hm

/-- The places of registered targets are sorted and nothing else is among them. -/
theorem places_spec {r : Registry} (name : String) {targets : List String}
    (h : ∀ t ∈ targets, r.contains t) :
    ∃ l, r.places name targets = .ok l ∧ l.Pairwise (· < ·) ∧
      ∀ v, v ∈ l ↔ ∃ t ∈ targets, r.rank t = v := by
  induction targets with
  | nil => exact ⟨[], rfl, List.Pairwise.nil, by simp⟩
  | cons t rest ih =>
    obtain ⟨l, hl, hsorted, hmem⟩ := ih fun t' ht' => h t' (List.mem_cons_of_mem _ ht')
    refine ⟨insertSorted (r.rank t) l, ?_, pairwise_insertSorted _ hsorted, ?_⟩
    · unfold places
      rw [indexOf?_eq_rank (h t List.mem_cons_self), hl]
      rfl
    · intro v
      rw [mem_insertSorted, hmem]
      simp [eq_comm]

theorem declares_iff {r : Registry} (hs : r.Sound) {e : RegistryEntry} (he : e ∈ r.entries)
    {b : String} : r.Declares e.namespaceOf.name b ↔ b ∈ e.targets := by
  rw [RegistryEntry.mem_targets]
  constructor
  · rintro ⟨f, hf, hname, hdecl⟩
    rwa [← hs.entry_unique hf he hname]
  · intro hdecl
    exact ⟨e, he, rfl, hdecl⟩

/-- A registered namespace whose targets are registered leads to their places. -/
theorem next_rank {r : Registry} (hs : r.Sound) {a : String} (ha : r.contains a)
    (hknown : ∀ b, r.Declares a b → r.contains b) :
    ∃ vs, r.next (r.rank a) = .ok vs ∧ vs.Pairwise (· < ·) ∧
      ∀ v, v ∈ vs ↔ ∃ b, r.Declares a b ∧ r.rank b = v := by
  obtain ⟨e, he, rfl⟩ := entry_at_rank ha
  have hmem := List.mem_of_getElem? he
  have htargets : ∀ t ∈ e.targets, r.contains t := fun t ht =>
    hknown t ((declares_iff hs hmem).mpr ht)
  obtain ⟨vs, hvs, hsorted, hv⟩ := places_spec e.namespaceOf.name htargets
  refine ⟨vs, ?_, hsorted, ?_⟩
  · unfold next adjacent namespaceAt
    rw [he]
    simp only [Option.map_some, Option.getD_some, indexOf?_eq_rank ha, he]
    exact hvs
  · intro v
    rw [hv]
    simp only [declares_iff hs hmem]

/-! ## Trails and chains -/

/-- Every target that is declared where `source` leads to is registered. -/
def Known (r : Registry) (source : String) : Prop :=
  ∀ a b, r.Reaches source a → r.Declares a b → r.contains b

theorem Known.contains {r : Registry} {source a : String} (h : r.Known source)
    (hsource : r.contains source) (ha : r.Reaches source a) : r.contains a := by
  cases ha with
  | refl => exact hsource
  | tail hab hbc => exact h _ _ hab hbc

theorem Known.next_rank {r : Registry} {source a : String} (h : r.Known source) (hs : r.Sound)
    (hsource : r.contains source) (ha : r.Reaches source a) :
    ∃ vs, r.next (r.rank a) = .ok vs ∧ vs.Pairwise (· < ·) ∧
      ∀ v, v ∈ vs ↔ ∃ b, r.Declares a b ∧ r.rank b = v :=
  Registry.next_rank hs (h.contains hsource ha) fun b hb => h a b ha hb

theorem reverse_ranks_snoc (r : Registry) (source c : String) (names : List String) :
    ((source :: (names ++ [c])).map r.rank).reverse =
      r.rank c :: ((source :: names).map r.rank).reverse := by simp

theorem Leads.trail {r : Registry} {source b : String} {names : List String} (hs : r.Sound)
    (hsource : r.contains source) (hknown : r.Known source) (h : r.Leads source names b) :
    ∃ p, ((source :: names).map r.rank).reverse = r.rank b :: p ∧
      BreadthFirst.Trail r.next (r.rank source) (r.rank b :: p) := by
  induction names using List.reverseRecOn generalizing b with
  | nil =>
    rw [leads_nil] at h
    subst h
    exact ⟨[], rfl, BreadthFirst.Trail.here⟩
  | append_singleton names c ih =>
    obtain ⟨rfl, a, ha, hdecl⟩ := leads_snoc.mp h
    obtain ⟨p, hp, htrail⟩ := ih ha
    obtain ⟨vs, hvs, _, hmem⟩ := hknown.next_rank hs hsource ha.reaches
    refine ⟨r.rank a :: p, by rw [reverse_ranks_snoc, hp], ?_⟩
    exact htrail.step hvs ((hmem _).mpr ⟨c, hdecl, rfl⟩)

theorem leads_of_trail {r : Registry} {source : String} {t : List Nat} (hs : r.Sound)
    (hsource : r.contains source) (hknown : r.Known source)
    (h : BreadthFirst.Trail r.next (r.rank source) t) :
    ∃ names b p, t = ((source :: names).map r.rank).reverse ∧ t = r.rank b :: p ∧
      r.Leads source names b := by
  induction h with
  | here => exact ⟨[], source, [], rfl, rfl, leads_nil.mpr rfl⟩
  | @step u v p vs _ hnext hv ih =>
    obtain ⟨names, b, p', hnames, heq, hleads⟩ := ih
    cases heq
    obtain ⟨vs', hvs', _, hmem⟩ := hknown.next_rank hs hsource hleads.reaches
    rw [hvs'] at hnext
    cases hnext
    obtain ⟨c, hdecl, rfl⟩ := (hmem v).mp hv
    refine ⟨names ++ [c], c, _, ?_, rfl, leads_snoc.mpr ⟨rfl, b, hleads, hdecl⟩⟩
    rw [reverse_ranks_snoc, hnames]

theorem Leads.contains {r : Registry} {source b c : String} {names : List String}
    (hknown : r.Known source) (h : r.Leads source names b) (hc : c ∈ names) : r.contains c := by
  induction names using List.reverseRecOn generalizing b with
  | nil => cases hc
  | append_singleton names d ih =>
    obtain ⟨rfl, a, ha, hdecl⟩ := leads_snoc.mp h
    rcases List.mem_append.mp hc with hc | hc
    · exact ih ha hc
    · rw [List.mem_singleton.mp hc]
      exact hknown a d ha.reaches hdecl

/-- The namespaces at the places of registered names are the ones of these names. -/
theorem filterMap_namespaceAt {r : Registry} (names : List String)
    (h : ∀ n ∈ names, r.contains n) :
    (∀ ns ∈ (names.map r.rank).filterMap r.namespaceAt, ns ∈ r.namespaces) ∧
      ((names.map r.rank).filterMap r.namespaceAt).map (·.name) = names := by
  induction names with
  | nil => simp
  | cons n rest ih =>
    obtain ⟨ns, hns, hat, rfl⟩ := namespaceAt_rank (h n List.mem_cons_self)
    obtain ⟨hmem, hmap⟩ := ih fun m hm => h m (List.mem_cons_of_mem _ hm)
    rw [List.map_cons, List.filterMap_cons_some hat]
    refine ⟨?_, by rw [List.map_cons, hmap]⟩
    intro ns' hns'
    rcases List.mem_cons.mp hns' with rfl | hns'
    · exact hns
    · exact hmem ns' hns'

/-! ## The law of paths -/

/-- `path` leads from `source` to `target`, no chain of declared edges between
them is shorter, and it comes before every other chain of its length, position by
position, in the order of registration. -/
structure FirstShortest (r : Registry) (source target : String) (path : List Namespace) : Prop where
  registered : ∀ ns ∈ path, ns ∈ r.namespaces
  leads : r.Leads source (path.map (·.name)) target
  shortest : ∀ chain, r.Leads source chain target → path.length ≤ chain.length
  first : ∀ chain, r.Leads source chain target → chain.length = path.length →
    path.map (·.name) = chain ∨ List.Lex (· < ·) (path.map (r.rank ·.name)) (chain.map r.rank)

theorem firstShortest_nil (r : Registry) (a : String) : r.FirstShortest a a [] where
  registered := by simp
  leads := leads_nil.mpr rfl
  shortest := by simp
  first := by
    intro chain _ hlen
    rw [List.length_nil, List.length_eq_zero_iff] at hlen
    exact Or.inl hlen.symm

/-- What the search finds, in names. -/
theorem firstShortest_of_finds {r : Registry} {source target : String} {t : List Nat}
    (hs : r.Sound) (hsource : r.contains source) (htarget : r.contains target)
    (hknown : r.Known source)
    (h : BreadthFirst.Finds r.next (r.rank source) (r.rank target) (some t)) :
    r.FirstShortest source target (t.reverse.tail.filterMap r.namespaceAt) := by
  obtain ⟨htrail, ⟨p, hp⟩, hmin⟩ := h
  obtain ⟨names, b, p', hnames, hb, hleads⟩ := leads_of_trail hs hsource hknown htrail
  have hbt : b = target := by
    rw [hb] at hp
    exact rank_inj (hknown.contains hsource hleads.reaches) htarget (List.cons.inj hp).1
  subst hbt
  have htail : t.reverse.tail = names.map r.rank := by rw [hnames, List.reverse_reverse]; rfl
  obtain ⟨hmem, hmap⟩ := filterMap_namespaceAt names fun n hn => hleads.contains hknown hn
  rw [htail]
  have hlength : ((names.map r.rank).filterMap r.namespaceAt).length = names.length := by
    conv_rhs => rw [← hmap, List.length_map]
  have hbest : ∀ chain, r.Leads source chain b →
      BreadthFirst.AtMost t ((source :: chain).map r.rank).reverse := by
    intro chain hchain
    obtain ⟨q, hq, hqtrail⟩ := hchain.trail hs hsource hknown
    rw [hq]
    exact hmin q hqtrail
  refine ⟨hmem, by rwa [hmap], ?_, ?_⟩
  · intro chain hchain
    have hle := (hbest chain hchain).length_le
    rw [hnames] at hle
    rw [hlength]
    simpa using hle
  · intro chain hchain hlen
    rw [hlength] at hlen
    have hranks : ((names.map r.rank).filterMap r.namespaceAt).map (r.rank ·.name) =
        names.map r.rank := by
      rw [← Function.comp_def r.rank, ← List.map_map, hmap]
    rw [hmap, hranks]
    rcases (hbest chain hchain).lex_reverse (by rw [hnames]; simp [hlen]) with heq | hlex
    · rw [hnames, List.reverse_reverse, List.reverse_reverse, List.map_cons, List.map_cons] at heq
      have hback := filterMap_namespaceAt chain fun n hn => hchain.contains hknown hn
      left
      rw [← hmap, (List.cons.inj heq).2, hback.2]
    · rw [hnames, List.reverse_reverse, List.reverse_reverse, List.map_cons, List.map_cons,
        List.cons_lex_cons_iff] at hlex
      rcases hlex with hlt | ⟨_, hlex⟩
      · exact absurd hlt (Nat.lt_irrefl _)
      · exact Or.inr hlex

theorem find?_unregistered {r : Registry} {names : List String} (h : ∀ n ∈ names, r.contains n) :
    names.find? (!r.contains ·) = none := by
  rw [List.find?_eq_none]
  intro n hn
  simp [h n hn]

/-- The answer to a question for a path in a sound registry. -/
theorem route_spec {r : Registry} {source sourceFallback target targetFallback : String}
    (hs : r.Sound)
    (hregistered : ∀ n ∈ [source, sourceFallback, target, targetFallback], r.contains n)
    (hknown : r.Known source) :
    (∃ path, r.route source sourceFallback target targetFallback = .ok path ∧
        r.FirstShortest source target path ∧ (source = target → path = [])) ∨
      (r.route source sourceFallback target targetFallback = .error (.noRemapPath source target) ∧
        ¬ r.Reaches source target) := by
  have hsource : r.contains source := hregistered _ (by simp)
  have htarget : r.contains target := hregistered _ (by simp)
  unfold route
  rw [find?_unregistered hregistered]
  simp only
  by_cases hst : source = target
  · subst hst
    exact Or.inl ⟨[], by rw [if_pos rfl], firstShortest_nil r source, fun _ => rfl⟩
  · rw [if_neg hst, indexOf?_eq_rank hsource, indexOf?_eq_rank htarget]
    simp only
    have hnext : ∀ u p, BreadthFirst.Trail r.next (r.rank source) (u :: p) →
        ∃ vs, r.next u = .ok vs ∧ vs.Pairwise (· < ·) ∧ ∀ v ∈ vs, v < r.size := by
      intro u p htrail
      obtain ⟨names, b, _, _, hb, hleads⟩ := leads_of_trail hs hsource hknown htrail
      cases hb
      obtain ⟨vs, hvs, hsorted, hmem⟩ := hknown.next_rank hs hsource hleads.reaches
      refine ⟨vs, hvs, hsorted, ?_⟩
      intro v hv
      obtain ⟨c, hdecl, rfl⟩ := (hmem v).mp hv
      exact rank_lt (hknown b c hleads.reaches hdecl)
    obtain ⟨result, hrun, hfinds⟩ := BreadthFirst.breadthFirst_finds hnext (r.size + 1)
      [r.rank source] [] [[r.rank source]] (BreadthFirst.frontier_start _ _ (r.rank target))
      (List.nodup_singleton _) (by simpa using rank_lt hsource) (by simp)
    rw [hrun]
    cases result with
    | none =>
      refine Or.inr ⟨rfl, ?_⟩
      intro hreach
      obtain ⟨names, hleads⟩ := hreach.leads
      obtain ⟨p, _, htrail⟩ := hleads.trail hs hsource hknown
      exact hfinds p htrail
    | some t =>
      exact Or.inl ⟨_, rfl, firstShortest_of_finds hs hsource htarget hknown hfinds,
        fun h => absurd h hst⟩

/-- A path is found exactly when the goal can be reached. It is a shortest chain,
and the first of these in the order of registration. The fallbacks do not
change the answer. -/
theorem a_path_is_the_first_of_the_shortest_chains (calls : List RegistryCall)
    (source sourceFallback target targetFallback : String)
    (hregistered : ∀ n ∈ [source, sourceFallback, target, targetFallback], (run calls).contains n)
    (hknown : ∀ a b, (run calls).Reaches source a → (run calls).Declares a b →
      (run calls).contains b) :
    let r := run calls
    let answer := r.ask (resolvePath source sourceFallback target targetFallback)
    ((∃ path, answer = .ok path) ↔ r.Reaches source target) ∧
      (¬ r.Reaches source target → answer = .error (.noRemapPath source target)) ∧
      (∀ path, answer = .ok path → r.FirstShortest source target path ∧
        (source = target → path = [])) ∧
      ∀ f g, r.contains f → r.contains g → r.ask (resolvePath source f target g) = answer := by
  intro r answer
  have hs : r.Sound := sound_run calls
  have hanswer : ∀ f g, r.ask (resolvePath source f target g) = r.route source f target g :=
    fun f g => (answers_resolvePath hs source f target g).ask_eq
  have hsame : ∀ f g, r.contains f → r.contains g → r.route source f target g =
      r.route source sourceFallback target targetFallback := by
    intro f g hf hg
    have hnone : ∀ f g, r.contains f → r.contains g →
        [source, f, target, g].find? (!r.contains ·) = none := by
      intro f g hf hg
      have h1 : r.contains source := hregistered _ (by simp)
      have h2 : r.contains target := hregistered _ (by simp)
      simp [h1, h2, hf, hg]
    unfold route
    rw [hnone f g hf hg, hnone _ _ (hregistered _ (by simp)) (hregistered _ (by simp))]
  have hroute := route_spec hs hregistered hknown
  rw [← hanswer] at hroute
  refine ⟨?_, ?_, ?_, ?_⟩
  · rcases hroute with ⟨path, hok, hpath, _⟩ | ⟨herr, hreach⟩
    · exact ⟨fun _ => hpath.leads.reaches, fun _ => ⟨path, hok⟩⟩
    · refine ⟨?_, fun h => absurd h hreach⟩
      rintro ⟨path, hok⟩
      rw [show answer = _ from herr] at hok
      cases hok
  · intro hreach
    rcases hroute with ⟨path, _, hpath, _⟩ | ⟨herr, _⟩
    · exact absurd hpath.leads.reaches hreach
    · exact herr
  · intro path hok
    rcases hroute with ⟨path', hok', hpath, hnil⟩ | ⟨herr, _⟩
    · rw [show answer = _ from hok'] at hok
      cases hok
      exact ⟨hpath, hnil⟩
    · rw [show answer = _ from herr] at hok
      cases hok
  · intro f g hf hg
    rw [hanswer, hsame f g hf hg, ← hanswer]

/-- Two chains of two steps lead from `official` to `named`. `official` lists
`srg` first, but `intermediary` was registered before it. -/
def diamond : List RegistryCall :=
  [.register "official" false ["srg", "intermediary"], .canRemap "official" "srg",
    .register "intermediary" false ["named", "official"], .register "srg" false ["named"],
    .register "named" true ["official"], .register "named" false []]

theorem the_diamond_is_crossed_over_intermediary :
    (∀ n ∈ ["official", "srg", "named", "official"], (run diamond).contains n) ∧
      (∀ a b, (run diamond).Reaches "official" a → (run diamond).Declares a b →
        (run diamond).contains b) ∧
      (run diamond).FirstShortest "official" "named" [⟨"intermediary", false⟩, ⟨"named", true⟩] := by
  have hregistered : ∀ n ∈ ["official", "srg", "named", "official"], (run diamond).contains n := by
    decide
  have hlisted : ∀ e ∈ (run diamond).entries, ∀ names ∈ e.declared, ∀ b ∈ names,
      (run diamond).contains b := by decide
  have hknown : ∀ a b, (run diamond).Reaches "official" a → (run diamond).Declares a b →
      (run diamond).contains b := by
    rintro a b _ ⟨e, he, _, names, hnames, hb⟩
    exact hlisted e he names hnames b hb
  obtain ⟨_, _, hpath, _⟩ := a_path_is_the_first_of_the_shortest_chains diamond
    "official" "srg" "named" "official" hregistered hknown
  exact ⟨hregistered, hknown, (hpath _ (by decide)).1⟩

end Registry

end JarDerivation
