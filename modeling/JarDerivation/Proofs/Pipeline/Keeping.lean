-- What a cache may hold: each output that a stage would use as it is, is the jar that
-- the recipe makes there. Work that realizes a recipe keeps the cache so, whatever
-- else is in it, and gives what the recipe gives. Work that is done step by step
-- realizes a recipe step by step.
import JarDerivation.Proofs.Stage.Produce
import Mathlib.Data.Option.Basic

namespace JarDerivation

/-- An artifact at its place in the cache. -/
def Artifact.IsCached (a : Artifact) : Prop :=
  a = .cached a.root a.version a.env a.namespaceOf a.fallback a.tags

namespace Pipeline

variable {p : Pipeline} {f : Files} {T : List Draft} {u v w : Workspace} {α β γ δ : Type}

/-! ## The invariant -/

/-- Stages with one path have made one jar. -/
def Consistent (p : Pipeline) (T : List Draft) : Prop :=
  ∀ s ∈ T, ∀ s' ∈ T, p.artifactPath s.env s.tags = p.artifactPath s'.env s'.tags → s.jar = s'.jar

/-- What is found at a path for good: at one outside of the cache, or at the path of an output
that is trusted. -/
inductive Settled (p : Pipeline) (f : Files) (T : List Draft) (w : Workspace) (path : String) :
    Option Jar → Prop
  | outside : Cache.Outside p.ctx.config.cacheRoot p.version f path →
      Settled p f T w path (f.jar? path)
  | output {s : Draft} : s ∈ T → path = p.artifactPath s.env s.tags → p.Trusted w path →
      Settled p f T w path s.jar

/-- A state in which each trusted output is the right one, and so is what was provided. -/
structure Keeps (p : Pipeline) (f : Files) (T : List Draft) (w : Workspace) : Prop where
  filled : p.Filled f w.files
  right : ∀ s ∈ T, p.Trusted w (p.artifactPath s.env s.tags) →
    ∃ j, s.jar = some j ∧ w.files.jar? (p.artifactPath s.env s.tags) = some j
  provided : ∀ entry ∈ w.provided, ∃ m j,
    (p.recipe f entry.1.env entry.1.namespaceName entry.1.fallback).outcome = some m ∧
      m.jar = some j ∧ Settled p f T w entry.2.path (some j)

/-- A state that was kept, and in which no output has lost the trust. -/
structure After (p : Pipeline) (f : Files) (T : List Draft) (w v : Workspace) : Prop where
  keeps : Keeps p f T v
  trusted : ∀ e tags, p.Trusted w (p.artifactPath e tags) → p.Trusted v (p.artifactPath e tags)

theorem After.refl (h : Keeps p f T w) : After p f T w w := ⟨h, fun _ _ ht => ht⟩

theorem After.trans (h : After p f T u v) (h' : After p f T v w) : After p f T u w :=
  ⟨h'.keeps, fun e tags ht => h'.trusted e tags (h.trusted e tags ht)⟩

theorem Settled.after {path : String} {o : Option Jar} (h : Settled p f T w path o)
    (hafter : ∀ e tags, p.Trusted w (p.artifactPath e tags) → p.Trusted v (p.artifactPath e tags)) :
    Settled p f T v path o := by
  cases h with
  | outside hout => exact .outside hout
  | output hs hpath ht => exact .output hs hpath (hpath ▸ hafter _ _ (hpath ▸ ht))

theorem Settled.jar? {path : String} {o : Option Jar} (h : Settled p f T w path o)
    (hk : Keeps p f T w) : w.files.jar? path = o := by
  cases h with
  | outside hout => exact Files.jar?_congr (hk.filled.find?_outside hout)
  | output hs hpath ht =>
    rw [hpath] at ht ⊢
    obtain ⟨j, hj, hfound⟩ := hk.right _ hs ht
    rw [hfound, hj]

theorem Settled.openJar {path : String} {j : Jar} (h : Settled p f T w path (some j))
    (hk : Keeps p f T w) : w.files.openJar path = .ok j := Files.openJar_of_jar? (h.jar? hk)

/-- Work that has left alone all outputs but one keeps the cache right if that one was not
trusted before, and is right if it is trusted now. -/
theorem LeavesOthers.after {e : Environment} {tags : List String}
    (h : LeavesOthers p f (p.artifactPath e tags) w v) (hk : Keeps p f T w)
    (hnot : ¬ p.Trusted w (p.artifactPath e tags))
    (hright : p.Trusted v (p.artifactPath e tags) → ∀ s ∈ T,
      p.artifactPath s.env s.tags = p.artifactPath e tags →
        ∃ j, s.jar = some j ∧ v.files.jar? (p.artifactPath e tags) = some j) :
    After p f T w v := by
  have hsame : ∀ e' tags', p.artifactPath e' tags' ≠ p.artifactPath e tags →
      (p.Trusted v (p.artifactPath e' tags') ↔ p.Trusted w (p.artifactPath e' tags')) := by
    intro e' tags' hne
    have hparts : Path.components (p.artifactPath e' tags') ≠
        Path.components (p.artifactPath e tags) := fun heq => hne (Cache.components_injective heq)
    unfold Trusted
    rw [Files.isFile_congr (h.others e' tags' hne), h.rebuilt _ hparts]
  have htrusted : ∀ e' tags', p.Trusted w (p.artifactPath e' tags') →
      p.Trusted v (p.artifactPath e' tags') := by
    intro e' tags' ht
    by_cases hpath : p.artifactPath e' tags' = p.artifactPath e tags
    · exact absurd (hpath ▸ ht) hnot
    · exact (hsame e' tags' hpath).mpr ht
  refine ⟨⟨h.filled, fun s hs ht => ?_, fun entry hentry => ?_⟩, htrusted⟩
  · by_cases hpath : p.artifactPath s.env s.tags = p.artifactPath e tags
    · rw [hpath] at ht ⊢
      exact hright ht s hs hpath
    · obtain ⟨j, hj, hfound⟩ := hk.right s hs ((hsame _ _ hpath).mp ht)
      exact ⟨j, hj, (Files.jar?_congr (h.others _ _ hpath)).trans hfound⟩
  · rw [h.provided] at hentry
    obtain ⟨m, j, hm, hj, hsettled⟩ := hk.provided entry hentry
    exact ⟨m, j, hm, hj, hsettled.after htrusted⟩

/-! ## Realizing a recipe -/

/-- Work that does what a recipe says, if all stages of the recipe are among those that the cache
is right for: it ends well just when the recipe gives something, and then with the like. -/
def Realizes (p : Pipeline) (f : Files) (T : List Draft) (w : Workspace) (x : Work α)
    (y : Recipe β) (Q : α → β → Workspace → Prop) : Prop :=
  (∀ s ∈ y.stages, s ∈ T) → ∀ r v, x.exec w = (r, v) →
    After p f T w v ∧
      match r with
      | .ok a => ∃ b, y.outcome = some b ∧ Q a b v
      | .error _ => y.outcome = none

variable {x : Work α} {y : Recipe β} {Q Q' : α → β → Workspace → Prop}

theorem Realizes.mono (h : Realizes p f T w x y Q)
    (hQ : ∀ a b v, Keeps p f T v → Q a b v → Q' a b v) : Realizes p f T w x y Q' := by
  intro hstages r v hx
  obtain ⟨hafter, hr⟩ := h hstages r v hx
  refine ⟨hafter, ?_⟩
  cases r with
  | error e => exact hr
  | ok a =>
    obtain ⟨b, hb, hq⟩ := hr
    exact ⟨b, hb, hQ a b v hafter.keeps hq⟩

theorem realizes_pure {a : α} {b : β} (hk : Keeps p f T w) (hQ : Q a b w) :
    Realizes p f T w (pure a) (pure b) Q := by
  intro _ r v hx
  cases hx
  exact ⟨.refl hk, b, rfl, hQ⟩

theorem realizes_throw {e : Error} (hk : Keeps p f T w) :
    Realizes p f T w (throw e) (Recipe.ofOption none) Q := by
  intro _ r v hx
  cases hx
  exact ⟨.refl hk, rfl⟩

/-- A look at the workspace, which changes nothing. -/
theorem realizes_look {o : Option β} {r : Except Error α} (hk : Keeps p f T w)
    (h : match r with
      | .ok a => ∃ b, o = some b ∧ Q a b w
      | .error _ => o = none) (hx : x.exec w = (r, w)) : Realizes p f T w x (Recipe.ofOption o) Q := by
  intro _ r' v hx'
  rw [hx] at hx'
  cases hx'
  exact ⟨.refl hk, h⟩

theorem realizes_toOption (hk : Keeps p f T w) (r : Except Error α) :
    Realizes p f T w (Work.ofExcept r) (Recipe.ofOption r.toOption) fun a b _ => a = b := by
  refine realizes_look hk ?_ (Work.exec_ofExcept r w)
  cases r with
  | error e => rfl
  | ok a => exact ⟨a, rfl, rfl⟩

/-- Steps that realize the steps of a recipe make work that realizes the recipe. -/
theorem Realizes.bind {k : α → Work γ} {l : β → Recipe δ} {R : γ → δ → Workspace → Prop}
    (hx : Realizes p f T w x y Q)
    (hk : ∀ a b v, After p f T w v → Q a b v → Realizes p f T v (k a) (l b) R) :
    Realizes p f T w (x >>= k) (y >>= l) R := by
  intro hstages r v hrun
  rw [Work.exec_bind] at hrun
  cases hfirst : x.exec w with
  | mk r' v' =>
    rw [hfirst] at hrun
    obtain ⟨hafter, hr⟩ :=
      hx (fun s hs => hstages s (Recipe.mem_stages_bind.mpr (.inl hs))) r' v' hfirst
    cases r' with
    | error e =>
      have hr : y.outcome = none := hr
      cases hrun
      exact ⟨hafter, by rw [Recipe.bind_of_none hr]⟩
    | ok a =>
      obtain ⟨b, hb, hq⟩ := hr
      obtain ⟨hafter', hr'⟩ := hk a b v' hafter hq
        (fun s hs => hstages s (Recipe.mem_stages_bind.mpr (.inr ⟨b, hb, hs⟩))) r v hrun
      refine ⟨hafter.trans hafter', ?_⟩
      rw [Recipe.bind_of_some hb]
      exact hr'

/-- A check before the work. -/
theorem Realizes.ite {c c' : Prop} [Decidable c] [Decidable c'] {x' : Work α} {y' : Recipe β}
    (hc : c ↔ c') (hx : Realizes p f T w x y Q) (hx' : Realizes p f T w x' y' Q) :
    Realizes p f T w (if c then x else x') (if c' then y else y') Q := by
  by_cases h : c
  · rw [if_pos h, if_pos (hc.mp h)]
    exact hx
  · rw [if_neg h, if_neg (h ∘ hc.mpr)]
    exact hx'

/-! ## Stages -/

/-- An artifact goes by the names of a draft. -/
structure Named (p : Pipeline) (a : Artifact) (m : Draft) : Prop where
  root : a.root = p.ctx.config.cacheRoot
  version : a.version = p.version
  env : a.env = m.env
  tags : a.tags = m.tags
  namespaceOf : a.namespaceOf.name = m.namespaceName

theorem Named.deriveInto {a : Artifact} {m : Draft} (h : p.Named a m) (tag : String)
    (ns fallback : Namespace) (fallbackName : String) (jar : Option Jar) :
    p.Named (a.deriveInto tag ns fallback) (m.deriveInto tag ns.name fallbackName jar) where
  root := h.root
  version := h.version
  env := h.env
  tags := by simp [Artifact.deriveInto, Artifact.cached, Draft.deriveInto, h.tags]
  namespaceOf := rfl

/-- The place of an artifact in the cache is that of the draft. -/
theorem Named.path_eq {a : Artifact} {m : Draft} (h : p.Named a m) (hcached : a.IsCached) :
    a.path = p.artifactPath m.env m.tags := by
  unfold artifactPath
  rw [hcached, ← h.root, ← h.version, ← h.env, ← h.tags]
  simp only [Artifact.cached]

/-- An artifact whose jar is that of a draft. -/
structure Stands (p : Pipeline) (f : Files) (T : List Draft) (w : Workspace) (a : Artifact)
    (m : Draft) : Prop extends p.Named a m where
  settled : Settled p f T w a.path m.jar

/-- An artifact that was made, and the draft of its jar. -/
structure Made (p : Pipeline) (f : Files) (T : List Draft) (w : Workspace) (a : Artifact)
    (m : Draft) : Prop extends Stands p f T w a m where
  jar : ∃ j, m.jar = some j

theorem Stands.after {a : Artifact} {m : Draft} (h : Stands p f T w a m)
    (hafter : After p f T w v) : Stands p f T v a m :=
  ⟨h.toNamed, h.settled.after hafter.trusted⟩

theorem Made.after {a : Artifact} {m : Draft} (h : Made p f T w a m) (hafter : After p f T w v) :
    Made p f T v a m := ⟨h.toStands.after hafter, h.jar⟩

variable {target : Artifact} {m : Draft} {inputs : Inputs} {build : Work Unit}

theorem exec_produce (p : Pipeline) (target : Artifact) (build : Work Unit) (w : Workspace) :
    (p.ctx.produce target build).exec w =
      if p.Trusted w target.path then (.ok target, w)
      else
        match (FileWork.ensureAround target.path).exec w.files with
        | (.error fault, g) => (.error (.io fault), { w with files := g })
        | (.ok (), g) =>
          match build.exec { w with files := g } with
          | (.ok (), v) => (.ok target, ((p.ctx.noteBuild target).exec v).2)
          | (.error e, v) => (.error e, ((Work.discard target.path).exec v).2) :=
  StageContext.exec_produce p.ctx target build w

/-- Making the folders around an output keeps the cache right. -/
theorem after_ensureAround (hbare : p.Bare f) (hk : Keeps p f T w) {e : Environment}
    {tags : List String} {r : Except IoFault Unit} {g : Files}
    (hr : (FileWork.ensureAround (p.artifactPath e tags)).exec w.files = (r, g))
    (hnot : ¬ p.Trusted w (p.artifactPath e tags)) :
    LeavesOthers p f (p.artifactPath e tags) w { w with files := g } ∧
      After p f T w { w with files := g } ∧
        (f.canWrite (p.artifactPath e tags) = true → r = .ok ()) := by
  obtain ⟨hfilled, hfind, hwrite⟩ := hk.filled.ensureAround hbare e tags hr
  have hleaves : LeavesOthers p f (p.artifactPath e tags) w { w with files := g } :=
    ⟨hfilled, fun e' tags' _ => hfind e' tags', fun _ _ => Iff.rfl, rfl⟩
  refine ⟨hleaves, hleaves.after hk hnot fun ht => absurd ?_ hnot, hwrite⟩
  exact ⟨(Files.isFile_congr (hfind e tags)).symm.trans ht.1, ht.2⟩

/-- Discarding what was left of an output keeps the cache right. -/
theorem after_discard (hbare : p.Bare f) (hk : Keeps p f T w) {e : Environment}
    {tags : List String} (hleaves : LeavesOthers p f (p.artifactPath e tags) w v)
    (hnot : ¬ p.Trusted w (p.artifactPath e tags)) :
    After p f T w ((Work.discard (p.artifactPath e tags)).exec v).2 := by
  rw [Work.exec_discard]
  generalize hg : (v.files.remove (p.artifactPath e tags)).toOption.getD v.files = g
  obtain ⟨hfilled, hfind, hgone⟩ := hleaves.filled.discard hbare e tags hg.symm
  have hlast : LeavesOthers p f (p.artifactPath e tags) w { v with files := g } :=
    hleaves.trans ⟨hfilled, hfind, fun _ _ => Iff.rfl, rfl⟩
  have hgone : g.isFile (p.artifactPath e tags) = false := congrArg Option.isSome hgone
  exact hlast.after hk hnot fun ht => absurd (hgone.symm.trans ht.1) (by decide)

/-- Noting that an output was built makes it a trusted one. -/
theorem after_noteBuild (hT : p.Consistent T) (hk : Keeps p f T w) (hm : m ∈ T)
    (hpath : target.path = p.artifactPath m.env m.tags)
    (hleaves : LeavesOthers p f (p.artifactPath m.env m.tags) w v)
    (hnot : ¬ p.Trusted w (p.artifactPath m.env m.tags)) {j : Jar} (hj : m.jar = some j)
    (hfound : v.files.jar? (p.artifactPath m.env m.tags) = some j) :
    After p f T w ((p.ctx.noteBuild target).exec v).2 ∧
      p.Trusted ((p.ctx.noteBuild target).exec v).2 (p.artifactPath m.env m.tags) := by
  have hnoted : LeavesOthers p f (p.artifactPath m.env m.tags) v
      ((p.ctx.noteBuild target).exec v).2 := by
    refine ⟨hleaves.filled, fun _ _ _ => rfl, fun other hne => ?_, rfl⟩
    rw [StageContext.rebuilt_noteBuild, hpath]
    split
    · exact List.mem_cons.trans (or_iff_right hne)
    · rfl
  refine ⟨(hleaves.trans hnoted).after hk hnot fun _ s hs hsame => ⟨j, ?_, hfound⟩,
    Files.isFile_of_jar? hfound, ?_⟩
  · rw [hT s hs m hm hsame, hj]
  · cases hforce : p.ctx.config.forceReload with
    | false => exact .inl rfl
    | true =>
      right
      rw [StageContext.rebuilt_noteBuild, if_pos hforce, hpath]
      exact List.mem_cons_self

/-- An output that is trusted has the jar of its stage. -/
theorem made_of_trusted (hnamed : p.Named target m) (hcached : target.IsCached) (hm : m ∈ T)
    {j : Jar} (hj : m.jar = some j) (ht : p.Trusted w (p.artifactPath m.env m.tags)) :
    Made p f T w target m :=
  ⟨⟨hnamed, hnamed.path_eq hcached ▸ .output hm rfl ht⟩, j, hj⟩

/-- An output that is trusted stands for its stage, which then does not run. -/
theorem realizes_cached (hk : Keeps p f T w) (hnamed : p.Named target m)
    (hcached : target.IsCached) (ht : p.Trusted w (p.artifactPath m.env m.tags)) :
    Realizes p f T w (p.ctx.produce target build) (p.stage f m)
      fun a s v => a = target ∧ s = m ∧ Made p f T v a s := by
  intro hstages r v hx
  rw [exec_produce, hnamed.path_eq hcached, if_pos ht] at hx
  cases hx
  refine ⟨.refl hk, ?_⟩
  rcases p.stage_cases f m with ⟨j, hj, -, hstage⟩ | ⟨-, hstage⟩ <;> rw [hstage] at hstages ⊢
  · exact ⟨m, rfl, rfl, rfl, made_of_trusted hnamed hcached (hstages m (by simp)) hj ht⟩
  · obtain ⟨j, hj, -⟩ := hk.right _ (hstages { m with jar := none } (by simp)) ht
    cases hj

/-- An output that is not trusted is built, and discarded again if that fails. -/
theorem realizes_built (hT : p.Consistent T) (hbare : p.Bare f) (hk : Keeps p f T w)
    (hnamed : p.Named target m) (hcached : target.IsCached)
    (hinputs : ∀ i ∈ inputs, Settled p f T w i.1 i.2)
    (hbuild : Makes p f inputs build target.path m.jar)
    (ht : ¬ p.Trusted w (p.artifactPath m.env m.tags)) :
    Realizes p f T w (p.ctx.produce target build) (p.stage f m)
      fun a s v => a = target ∧ s = m ∧ Made p f T v a s := by
  intro hstages r v hx
  have hpath := hnamed.path_eq hcached
  rw [exec_produce, hpath, if_neg ht] at hx
  rw [hpath] at hbuild
  cases hensure : (FileWork.ensureAround (p.artifactPath m.env m.tags)).exec w.files with
  | mk r' g =>
    obtain ⟨hleaves, hafter, hwrite⟩ := after_ensureAround hbare hk hensure ht
    have hfound : Found inputs g := fun i hi =>
      ((hinputs i hi).after hafter.trusted).jar? hafter.keeps
    rw [hensure] at hx
    cases r' with
    | error fault =>
      cases hx
      refine ⟨hafter, ?_⟩
      rcases p.stage_cases f m with ⟨j, -, hcan, -⟩ | ⟨-, hstage⟩
      · cases hwrite hcan
      · rw [hstage]
    | ok u =>
      dsimp only at hx
      cases hrun : build.exec { w with files := g } with
      | mk r' v' =>
        obtain ⟨hbuilt, hdone⟩ := hbuild _ r' v' hleaves.filled hfound hrun
        have hleaves := hleaves.trans hbuilt
        rw [hrun] at hx
        cases r' with
        | error e =>
          cases hx
          refine ⟨after_discard hbare hk hleaves ht, ?_⟩
          rcases p.stage_cases f m with ⟨j, hj, hcan, -⟩ | ⟨-, hstage⟩
          · have hdone : m.jar = none ∨ f.canWrite (p.artifactPath m.env m.tags) = false := hdone
            simp [hj, hcan] at hdone
          · rw [hstage]
        | ok u =>
          obtain ⟨j, hj, hcan, hjar⟩ := hdone
          cases hx
          rcases p.stage_cases f m with ⟨_, -, -, hstage⟩ | ⟨hbad, -⟩
          · rw [hstage] at hstages ⊢
            have hm := hstages m (by simp)
            obtain ⟨hafter, ht'⟩ := after_noteBuild hT hk hm hpath hleaves ht hj hjar
            exact ⟨hafter, m, rfl, rfl, rfl, made_of_trusted hnamed hcached hm hj ht'⟩
          · simp [hj, hcan] at hbad

/-- Making sure of an output gives the jar of its stage, whether it is built or was there. -/
theorem realizes_produce (hT : p.Consistent T) (hbare : p.Bare f) (hk : Keeps p f T w)
    (hnamed : p.Named target m) (hcached : target.IsCached)
    (hinputs : ∀ i ∈ inputs, Settled p f T w i.1 i.2)
    (hbuild : Makes p f inputs build target.path m.jar) :
    Realizes p f T w (p.ctx.produce target build) (p.stage f m)
      fun a s v => a = target ∧ s = m ∧ Made p f T v a s := by
  by_cases ht : p.Trusted w (p.artifactPath m.env m.tags)
  · exact realizes_cached hk hnamed hcached ht
  · exact realizes_built hT hbare hk hnamed hcached hinputs hbuild ht

end Pipeline

end JarDerivation
