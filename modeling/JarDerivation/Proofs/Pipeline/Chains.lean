-- The chains of tags that recipes go through. Each stage appends to the chain of the
-- stage before it, so a recipe has one stage for a chain; and two recipes that come
-- to the same chain have made the same jar, unless a namespace is called like a tag
-- of the stages after the remap.
import JarDerivation.Proofs.Pipeline.Recipe
import Mathlib.Data.List.Basic

namespace JarDerivation

/-! ## Chains that grow -/

/-- A recipe for one environment that starts from a chain of length `n`: each stage has a longer
chain than the one before it, and what it gives has the longest. -/
structure Recipe.Climbs (env : Environment) (n : Nat) (y : Recipe Draft) : Prop where
  rises : y.stages.Pairwise fun s s' => s.tags.length < s'.tags.length
  stage : ∀ s ∈ y.stages, s.env = env ∧ n < s.tags.length ∧
    ∀ m, y.outcome = some m → s.tags.length ≤ m.tags.length
  outcome : ∀ m, y.outcome = some m → m.env = env ∧ n ≤ m.tags.length

namespace Recipe

variable {env : Environment} {n : Nat} {x y : Recipe Draft} {k : Draft → Recipe Draft}

theorem climbs_pure {m : Draft} (henv : m.env = env) (hn : n ≤ m.tags.length) :
    Climbs env n (pure m) := by
  refine ⟨List.Pairwise.nil, fun s hs => (by cases hs), ?_⟩
  rintro _ ⟨⟩
  exact ⟨henv, hn⟩

theorem climbs_none (env : Environment) (n : Nat) : Climbs env n (ofOption none) :=
  ⟨List.Pairwise.nil, fun s hs => (by cases hs), fun m hm => (by cases hm)⟩

theorem climbs_ofOption {o : Option Draft}
    (h : ∀ m, o = some m → m.env = env ∧ n ≤ m.tags.length) : Climbs env n (ofOption o) :=
  ⟨List.Pairwise.nil, fun s hs => (by cases hs), h⟩

theorem climbs_ofOption_bind {α : Type} {o : Option α} {k : α → Recipe Draft}
    (h : ∀ a, o = some a → Climbs env n (k a)) : Climbs env n (ofOption o >>= k) := by
  cases o with
  | none => exact climbs_none env n
  | some a => exact h a rfl

theorem Climbs.bind (hx : Climbs env n x)
    (hk : ∀ m, x.outcome = some m → Climbs env m.tags.length (k m)) : Climbs env n (x >>= k) := by
  cases hout : x.outcome with
  | none =>
    rw [bind_of_none hout]
    exact ⟨hx.rises, fun s hs => ⟨(hx.stage s hs).1, (hx.stage s hs).2.1, fun m hm => (by cases hm)⟩,
      fun m hm => (by cases hm)⟩
  | some a =>
    have ha := hk a hout
    obtain ⟨henv, hn⟩ := hx.outcome a hout
    rw [bind_of_some hout]
    refine ⟨?_, fun s hs => ?_, fun m hm => ?_⟩
    · refine List.pairwise_append.mpr ⟨hx.rises, ha.rises, fun s hs s' hs' => ?_⟩
      exact Nat.lt_of_le_of_lt ((hx.stage s hs).2.2 a hout) (ha.stage s' hs').2.1
    · rcases List.mem_append.mp hs with hs | hs
      · obtain ⟨henv', hn', hle⟩ := hx.stage s hs
        exact ⟨henv', hn', fun m hm => Nat.le_trans (hle a hout) (ha.outcome m hm).2⟩
      · obtain ⟨henv', hn', hle⟩ := ha.stage s hs
        exact ⟨henv', Nat.lt_of_le_of_lt hn hn', hle⟩
    · obtain ⟨henv', hn'⟩ := ha.outcome m hm
      exact ⟨henv', Nat.le_trans hn hn'⟩

/-- A recipe has one stage for a chain. -/
theorem Climbs.eq_of_tags (h : Climbs env n y) {s s' : Draft} (hs : s ∈ y.stages)
    (hs' : s' ∈ y.stages) (htags : s.tags = s'.tags) : s = s' := by
  obtain ⟨i, hi, rfl⟩ := List.getElem_of_mem hs
  obtain ⟨j, hj, rfl⟩ := List.getElem_of_mem hs'
  have hrises := List.pairwise_iff_getElem.mp h.rises
  have hlength := congrArg List.length htags
  rcases Nat.lt_trichotomy i j with hlt | heq | hgt
  · have := hrises i j hi hj hlt
    omega
  · subst heq
    rfl
  · have := hrises j i hj hi hgt
    omega

end Recipe

namespace Pipeline

variable {p : Pipeline} {f : Files}

theorem climbs_stage {env : Environment} {n : Nat} {target : Draft} (henv : target.env = env)
    (hn : n < target.tags.length) : Recipe.Climbs env n (p.stage f target) := by
  refine ⟨List.pairwise_singleton _ _, fun s hs => ?_, fun m hm => ?_⟩
  · have hs := List.mem_singleton.mp hs
    subst hs
    refine ⟨henv, hn, fun m hm => ?_⟩
    obtain ⟨_, -, rfl⟩ := Option.map_eq_some_iff.mp hm
    exact Nat.le_refl _
  · obtain ⟨_, -, rfl⟩ := Option.map_eq_some_iff.mp hm
    exact ⟨henv, Nat.le_of_lt hn⟩

theorem rawDraft_eq_some {env : Environment} {m : Draft} (h : p.rawDraft f env = some m) :
    m.env = env ∧ m.tags = [] := by
  obtain ⟨raw, -, h⟩ := Option.bind_eq_some_iff.mp h
  obtain ⟨ns, -, h⟩ := Option.bind_eq_some_iff.mp h
  split at h
  · cases h
    exact ⟨rfl, rfl⟩
  · cases h

theorem climbs_inputDraft (env : Environment) : Recipe.Climbs env 0 (p.inputDraft f env) := by
  have hraw : ∀ env, Recipe.Climbs env 0 (.ofOption (p.rawDraft f env)) := fun env =>
    Recipe.climbs_ofOption fun m hm => ⟨(rawDraft_eq_some hm).1, Nat.zero_le _⟩
  cases env with
  | client => exact hraw .client
  | server => exact hraw .server
  | datagen => exact hraw .datagen
  | combined =>
    refine Recipe.climbs_ofOption_bind fun client _ => Recipe.climbs_ofOption_bind fun server _ => ?_
    unfold mergedDraft
    split
    · exact Recipe.climbs_ofOption_bind fun merger _ => climbs_stage rfl (by simp)
    · exact Recipe.climbs_none _ _

theorem climbs_patchedDraft (input : Draft) (patcher : Patcher) :
    Recipe.Climbs input.env input.tags.length (p.patchedDraft f input patcher) := by
  induction patcher with
  | plain base => exact Recipe.climbs_pure rfl (Nat.le_refl _)
  | jarMod base mods =>
    unfold patchedDraft
    split
    · exact Recipe.climbs_pure rfl (Nat.le_refl _)
    · exact climbs_stage rfl (by simp [Draft.derive, Draft.deriveInto])
  | binary b =>
    unfold patchedDraft
    split
    · exact climbs_stage rfl (by simp [Draft.derive, Draft.deriveInto])
    · exact Recipe.climbs_ofOption_bind fun ns _ =>
        climbs_stage rfl (by simp [Draft.deriveInto])
  | widened inner widener ih => exact ih

theorem climbs_baseDraft (env : Environment) : Recipe.Climbs env 0 (p.baseDraft f env) := by
  refine (climbs_inputDraft env).bind fun input hinput => ?_
  have hfixed : Recipe.Climbs env input.tags.length (p.fixedDraft f input) :=
    climbs_stage ((climbs_inputDraft env).outcome input hinput).1
      (by simp [Draft.derive, Draft.deriveInto])
  refine hfixed.bind fun fixed hout => ?_
  obtain rfl := (hfixed.outcome fixed hout).1
  exact climbs_patchedDraft fixed p.patcher

/-! ## The hops -/

theorem climbs_hopDraft (current : Draft) (next : String) :
    Recipe.Climbs current.env current.tags.length (p.hopDraft f current next) :=
  Recipe.climbs_ofOption_bind fun _ _ => climbs_stage rfl (by simp [Draft.deriveInto])

theorem tags_of_stage {target m : Draft} (h : (p.stage f target).outcome = some m) :
    m.tags = target.tags := by
  obtain ⟨_, -, rfl⟩ := Option.map_eq_some_iff.mp h
  rfl

theorem mem_stages_stage {target s : Draft} (h : s ∈ (p.stage f target).stages) :
    s.tags = target.tags := by
  obtain rfl := List.mem_singleton.mp h
  rfl

theorem tags_of_hopDraft {current m : Draft} {next : String}
    (h : (p.hopDraft f current next).outcome = some m) : m.tags = current.tags ++ [next] := by
  unfold hopDraft at h
  rw [Recipe.outcome_bind] at h
  obtain ⟨v, -, h⟩ := Option.bind_eq_some_iff.mp h
  exact tags_of_stage h

theorem tags_of_mem_hopDraft {current s : Draft} {next : String}
    (h : s ∈ (p.hopDraft f current next).stages) : s.tags = current.tags ++ [next] := by
  rcases Recipe.mem_stages_bind.mp h with h | ⟨v, -, h⟩
  · cases h
  · exact mem_stages_stage h

theorem hopDrafts_cons (next : String) (rest : List String) (current : Draft) :
    p.hopDrafts f (next :: rest) current =
      p.hopDraft f current next >>= p.hopDrafts f rest := List.foldlM_cons

theorem tags_of_hopDrafts {names : List String} {current m : Draft}
    (h : (p.hopDrafts f names current).outcome = some m) : m.tags = current.tags ++ names := by
  induction names generalizing current with
  | nil =>
    cases h
    simp
  | cons next rest ih =>
    rw [hopDrafts_cons, Recipe.outcome_bind] at h
    obtain ⟨mid, hmid, h⟩ := Option.bind_eq_some_iff.mp h
    rw [ih h, tags_of_hopDraft hmid]
    simp

/-- A stage of a run of hops is the stage of one hop, after the hops before it. -/
theorem mem_hopDrafts {names : List String} {current s : Draft}
    (h : s ∈ (p.hopDrafts f names current).stages) :
    ∃ before next rest mid, names = before ++ next :: rest ∧
      (p.hopDrafts f before current).outcome = some mid ∧ s ∈ (p.hopDraft f mid next).stages := by
  induction names generalizing current with
  | nil => cases h
  | cons next rest ih =>
    rw [hopDrafts_cons] at h
    rcases Recipe.mem_stages_bind.mp h with h | ⟨mid, hmid, h⟩
    · exact ⟨[], next, rest, current, rfl, rfl, h⟩
    · obtain ⟨before, next', rest', mid', rfl, hmid', hs⟩ := ih h
      refine ⟨next :: before, next', rest', mid', rfl, ?_, hs⟩
      rw [hopDrafts_cons, Recipe.outcome_bind, hmid]
      exact hmid'

/-! ## The finish -/

/-- A recipe that starts from a chain and appends only some tags, at least one at each stage. -/
structure Appends (allowed start : List String) (y : Recipe Draft) : Prop where
  stage : ∀ s ∈ y.stages, ∃ tags, tags ≠ [] ∧ (∀ t ∈ tags, t ∈ allowed) ∧ s.tags = start ++ tags
  outcome : ∀ m, y.outcome = some m →
    ∃ tags, (∀ t ∈ tags, t ∈ allowed) ∧ m.tags = start ++ tags

theorem appends_pure {allowed : List String} (m : Draft) : Appends allowed m.tags (pure m) := by
  refine ⟨fun s hs => (by cases hs), ?_⟩
  rintro _ ⟨⟩
  exact ⟨[], by simp, by simp⟩

theorem appends_stage {allowed start : List String} {tag : String} {target : Draft}
    (htag : tag ∈ allowed) (htags : target.tags = start ++ [tag]) :
    Appends allowed start (p.stage f target) where
  stage s hs := ⟨[tag], by simp, by simpa using htag, (mem_stages_stage hs).trans htags⟩
  outcome m hm := ⟨[tag], by simpa using htag, (tags_of_stage hm).trans htags⟩

theorem Appends.bind {allowed allowed' start : List String} {x : Recipe Draft}
    {k : Draft → Recipe Draft} (hx : Appends allowed start x)
    (hk : ∀ m, x.outcome = some m → Appends allowed' m.tags (k m)) :
    Appends (allowed ++ allowed') start (x >>= k) := by
  refine ⟨fun s hs => ?_, fun m hm => ?_⟩
  · rcases Recipe.mem_stages_bind.mp hs with hs | ⟨a, ha, hs⟩
    · obtain ⟨tags, hne, htags, heq⟩ := hx.stage s hs
      exact ⟨tags, hne, fun t ht => List.mem_append_left _ (htags t ht), heq⟩
    · obtain ⟨tags, htags, heq⟩ := hx.outcome a ha
      obtain ⟨tags', hne, htags', heq'⟩ := (hk a ha).stage s hs
      refine ⟨tags ++ tags', by simp [hne], fun t ht => ?_, by rw [heq', heq, List.append_assoc]⟩
      exact List.mem_append.mpr ((List.mem_append.mp ht).imp (htags t) (htags' t))
  · rw [Recipe.outcome_bind] at hm
    obtain ⟨a, ha, hm⟩ := Option.bind_eq_some_iff.mp hm
    obtain ⟨tags, htags, heq⟩ := hx.outcome a ha
    obtain ⟨tags', htags', heq'⟩ := (hk a ha).outcome m hm
    refine ⟨tags ++ tags', fun t ht => ?_, by rw [heq', heq, List.append_assoc]⟩
    exact List.mem_append.mpr ((List.mem_append.mp ht).imp (htags t) (htags' t))

theorem appends_widenedDraft (widener : String) (input : Draft) :
    Appends ((f.widener? widener).map Widener.tag).toList input.tags
      (p.widenedDraft f widener input) := by
  have hnone : ∀ allowed, Appends allowed input.tags (Recipe.ofOption none) := fun allowed =>
    ⟨fun s hs => (by cases hs), fun m hm => (by cases hm)⟩
  unfold widenedDraft
  cases f.widener? widener with
  | none => exact hnone _
  | some w =>
    rw [Recipe.bind_of_some (show (Recipe.ofOption (some w)).outcome = some w from rfl)]
    split
    · exact hnone _
    · exact appends_stage (by simp) rfl

theorem climbs_widenedDraft (widener : String) (input : Draft) :
    Recipe.Climbs input.env input.tags.length (p.widenedDraft f widener input) := by
  refine Recipe.climbs_ofOption_bind fun w _ => ?_
  split
  · exact Recipe.climbs_none _ _
  · exact climbs_stage rfl (by simp [Draft.derive, Draft.deriveInto])

theorem climbs_finishedDraft (input : Draft) (patcher : Patcher) :
    Recipe.Climbs input.env input.tags.length (p.finishedDraft f input patcher) := by
  induction patcher with
  | plain base => exact Recipe.climbs_pure rfl (Nat.le_refl _)
  | jarMod base mods => exact Recipe.climbs_pure rfl (Nat.le_refl _)
  | binary b =>
    unfold finishedDraft
    split
    · exact Recipe.climbs_pure rfl (Nat.le_refl _)
    · exact climbs_stage rfl (by simp [Draft.derive, Draft.deriveInto])
  | widened inner widener ih =>
    refine ih.bind fun m hm => ?_
    rw [← (ih.outcome m hm).1]
    exact climbs_widenedDraft widener m

/-- The stages after the remap append tags of their own. -/
theorem appends_finishedDraft (input : Draft) (patcher : Patcher) :
    Appends (finishingTags f patcher) input.tags (p.finishedDraft f input patcher) := by
  induction patcher with
  | plain base => exact appends_pure input
  | jarMod base mods => exact appends_pure input
  | binary b =>
    unfold finishedDraft
    split
    · exact appends_pure input
    · exact appends_stage (by simp [finishingTags]) rfl
  | widened inner widener ih =>
    exact ih.bind fun m _ => appends_widenedDraft widener m

/-! ## One jar for a chain -/

theorem climbs_hopDrafts (names : List String) (current : Draft) :
    Recipe.Climbs current.env current.tags.length (p.hopDrafts f names current) := by
  induction names generalizing current with
  | nil => exact Recipe.climbs_pure rfl (Nat.le_refl _)
  | cons next rest ih =>
    rw [hopDrafts_cons]
    refine (climbs_hopDraft current next).bind fun m hm => ?_
    rw [← ((climbs_hopDraft current next).outcome m hm).1]
    exact ih m

theorem climbs_recipe (env : Environment) (ns fallback : String) :
    Recipe.Climbs env 0 (p.recipe f env ns fallback) := by
  refine (climbs_baseDraft env).bind fun m hm => Recipe.climbs_ofOption_bind fun names _ => ?_
  rw [← ((climbs_baseDraft env).outcome m hm).1]
  refine (climbs_hopDrafts names m).bind fun remapped hout => ?_
  rw [← ((climbs_hopDrafts names m).outcome remapped hout).1]
  exact climbs_finishedDraft remapped p.patcher

/-- A stage that comes after those of the base: a hop, or a stage after the remap. The two lists
are the namespaces of the hops so far, and the tags that were appended to them. -/
inductive Later (p : Pipeline) (f : Files) (base s : Draft) : List String → List String → Prop
  | hop {before : List String} {next : String} {mid : Draft} :
    (p.hopDrafts f before base).outcome = some mid → s ∈ (p.hopDraft f mid next).stages →
      Later p f base s (before ++ [next]) []
  | finish {names tags : List String} {remapped : Draft} :
    (p.hopDrafts f names base).outcome = some remapped →
      s ∈ (p.finishedDraft f remapped p.patcher).stages → tags ≠ [] →
        (∀ t ∈ tags, t ∈ finishingTags f p.patcher) → s.tags = remapped.tags ++ tags →
          Later p f base s names tags

theorem Later.tags_eq {base s : Draft} {names tags : List String}
    (h : Later p f base s names tags) : s.tags = base.tags ++ (names ++ tags) := by
  cases h with
  | hop hmid hs => rw [tags_of_mem_hopDraft hs, tags_of_hopDrafts hmid]; simp
  | finish hout _ _ _ htags => rw [htags, tags_of_hopDrafts hout, List.append_assoc]

theorem Later.allowed {base s : Draft} {names tags : List String}
    (h : Later p f base s names tags) : ∀ t ∈ tags, t ∈ finishingTags f p.patcher := by
  cases h with
  | hop _ _ => simp
  | finish _ _ _ htags _ => exact htags

/-- Stages with the same hops and the same tags after them are the same. -/
theorem Later.unique {base s s' : Draft} {names tags : List String}
    (h : Later p f base s names tags) (h' : Later p f base s' names tags) : s = s' := by
  have heq : s.tags = s'.tags := by rw [h.tags_eq, h'.tags_eq]
  generalize hnames : names = names' at h'
  generalize htags : tags = tags' at h'
  cases h with
  | @hop before next mid hmid hs =>
    cases h' with
    | @hop before' next' mid' hmid' hs' =>
      obtain ⟨rfl, hnext⟩ := List.append_inj' hnames rfl
      obtain rfl := List.singleton_inj.mp hnext
      obtain rfl := Option.some.inj (hmid.symm.trans hmid')
      exact (climbs_hopDraft mid next).eq_of_tags hs hs' heq
    | finish _ _ hne _ _ => exact absurd htags.symm hne
  | @finish _ _ remapped hout hs hne _ _ =>
    cases h' with
    | hop _ _ => exact absurd htags hne
    | @finish _ _ remapped' hout' hs' _ _ _ =>
      subst hnames
      obtain rfl := Option.some.inj (hout.symm.trans hout')
      exact (climbs_finishedDraft remapped p.patcher).eq_of_tags hs hs' heq

/-- Where a stage of a recipe comes from. -/
theorem mem_recipe {env : Environment} {ns fallback : String} {s : Draft}
    (h : s ∈ (p.recipe f env ns fallback).stages) :
    s ∈ (p.baseDraft f env).stages ∨
      ∃ base names tags, (p.baseDraft f env).outcome = some base ∧
        (∀ n ∈ names, n ∈ p.hops f env ns fallback) ∧ Later p f base s names tags := by
  rcases Recipe.mem_stages_bind.mp h with h | ⟨base, hbase, h⟩
  · exact .inl h
  · right
    rcases Recipe.mem_stages_bind.mp h with h | ⟨route, hroute, h⟩
    · cases h
    · have hhops : p.hops f env ns fallback = route := by
        unfold hops
        rw [hbase, Option.bind_some]
        exact congrArg (·.getD []) hroute
      rcases Recipe.mem_stages_bind.mp h with h | ⟨remapped, hout, h⟩
      · obtain ⟨before, next, rest, mid, rfl, hmid, hs⟩ := mem_hopDrafts h
        refine ⟨base, _, _, hbase, fun n hn => ?_, .hop hmid hs⟩
        rw [hhops]
        rcases List.mem_append.mp hn with hn | hn
        · exact List.mem_append_left _ hn
        · exact List.mem_append_right _ (by simp_all)
      · obtain ⟨tags, hne, htags, heq⟩ := (appends_finishedDraft remapped p.patcher).stage s h
        exact ⟨base, route, tags, hbase, fun n hn => hhops ▸ hn, .finish hout h hne htags heq⟩

/-- A list is cut in one way only into what lacks a property and what has it. -/
theorem append_inj_of_separate {P : String → Prop} {a a' b b' : List String}
    (h : a ++ b = a' ++ b') (ha : ∀ t ∈ a, ¬ P t) (ha' : ∀ t ∈ a', ¬ P t) (hb : ∀ t ∈ b, P t)
    (hb' : ∀ t ∈ b', P t) : a = a' ∧ b = b' := by
  induction a generalizing a' with
  | nil =>
    cases a' with
    | nil => exact ⟨rfl, h⟩
    | cons t rest =>
      rw [List.nil_append] at h
      exact absurd (hb t (by simp [h])) (ha' t (by simp))
  | cons t rest ih =>
    cases a' with
    | nil =>
      rw [List.nil_append] at h
      exact absurd (hb' t (by simp [← h])) (ha t (by simp))
    | cons t' rest' =>
      rw [List.cons_append, List.cons_append, List.cons.injEq] at h
      obtain ⟨rfl, hrest⟩ := ih h.2 (fun t ht => ha t (by simp [ht])) fun t ht => ha' t (by simp [ht])
      exact ⟨by rw [h.1], hrest⟩

/-- Two requests of an environment that come to the same chain make the same jar there, if they
pass no namespace that is called like a tag of the stages after the remap. -/
theorem stage_of_chain {env : Environment} {ns fallback ns' fallback' : String} {s s' : Draft}
    (hfree : ∀ n ∈ p.hops f env ns fallback, n ∉ finishingTags f p.patcher)
    (hfree' : ∀ n ∈ p.hops f env ns' fallback', n ∉ finishingTags f p.patcher)
    (hs : s ∈ (p.recipe f env ns fallback).stages)
    (hs' : s' ∈ (p.recipe f env ns' fallback').stages) (htags : s.tags = s'.tags) : s = s' := by
  have hbase := climbs_baseDraft env (p := p) (f := f)
  -- a stage of the base has a shorter chain than every later stage
  have hshort : ∀ {s s' base : Draft} {names tags : List String}, s ∈ (p.baseDraft f env).stages →
      (p.baseDraft f env).outcome = some base → Later p f base s' names tags → s.tags ≠ s'.tags := by
    intro s s' base names tags hs hout hlater heq
    have hle := (hbase.stage s hs).2.2 base hout
    have hlength := congrArg List.length (heq.trans hlater.tags_eq)
    have hnil : names = [] ∧ tags = [] := by
      simp only [List.length_append] at hlength
      exact ⟨List.length_eq_zero_iff.mp (by omega), List.length_eq_zero_iff.mp (by omega)⟩
    cases hlater with
    | hop _ _ => simp at hnil
    | finish _ _ hne _ _ => exact hne hnil.2
  rcases mem_recipe hs with hs | ⟨base, names, tags, hout, hnames, hlater⟩ <;>
    rcases mem_recipe hs' with hs' | ⟨base', names', tags', hout', hnames', hlater'⟩
  · exact hbase.eq_of_tags hs hs' htags
  · exact absurd htags (hshort hs hout' hlater')
  · exact absurd htags.symm (hshort hs' hout hlater)
  · obtain rfl := Option.some.inj (hout.symm.trans hout')
    have hchains : names ++ tags = names' ++ tags' := by
      rw [hlater.tags_eq, hlater'.tags_eq] at htags
      exact List.append_cancel_left htags
    obtain ⟨rfl, rfl⟩ := append_inj_of_separate hchains (fun n hn => hfree n (hnames n hn))
      (fun n hn => hfree' n (hnames' n hn)) hlater.allowed hlater'.allowed
    exact hlater.unique hlater'

end Pipeline

end JarDerivation
