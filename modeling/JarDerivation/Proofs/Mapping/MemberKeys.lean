-- The keys of members. Within a class and kind a member row is known by its source name and its
-- source descriptor. A look-up takes a descriptor that is missing on either side for any, but a
-- row is only added where none answers yet, so no two rows ever answer to the same key.
import JarDerivation.Proofs.Mapping.TreeSession
import JarDerivation.Proofs.Mapping.UniqueNames

namespace JarDerivation

namespace MappingTree

/-! ## Keys -/

/-- Two keys with the same name have descriptors, and these differ. -/
def ToldApart (a b : Option String × Option String) : Prop :=
  a.1 = b.1 → ∃ d d', a.2 = some d ∧ b.2 = some d' ∧ d ≠ d'

theorem ToldApart.symm {a b : Option String × Option String} (h : ToldApart a b) :
    ToldApart b a := by
  intro hname
  obtain ⟨d, d', hd, hd', hne⟩ := h hname.symm
  exact ⟨d', d, hd', hd, hne.symm⟩

/-- Each key has a name, and each two are told apart. -/
structure KeysApart (keys : List (Option String × Option String)) : Prop where
  named : ∀ key ∈ keys, ∃ name, key.1 = some name
  apart : keys.Pairwise ToldApart

/-- Whether a key answers to a source name and descriptor. -/
def keyAnswers (name : String) (desc : Option String)
    (key : Option String × Option String) : Bool :=
  key.1 == some name && descAgrees desc key.2

variable {keys keys' : List (Option String × Option String)} {name : String} {desc : Option String}

theorem keyAnswers_self (name : String) (desc : Option String) :
    keyAnswers name desc (some name, desc) = true := by
  unfold keyAnswers descAgrees
  rw [beq_self_eq_true, Bool.true_and]
  cases desc with
  | none => rfl
  | some d => exact beq_self_eq_true d

theorem KeysApart.sublist (h : KeysApart keys) (hsub : keys'.Sublist keys) : KeysApart keys' :=
  ⟨fun key hkey => h.named key (hsub.subset hkey), h.apart.sublist hsub⟩

/-- A key that none answers to is told apart from all. -/
theorem KeysApart.concat (h : KeysApart keys) (hnew : keys.findIdx? (keyAnswers name desc) = none) :
    KeysApart (keys ++ [(some name, desc)]) := by
  refine ⟨?_, List.pairwise_append.mpr ⟨h.apart, List.pairwise_singleton _ _, ?_⟩⟩
  · intro key hkey
    rcases List.mem_append.mp hkey with hold | hlast
    · exact h.named key hold
    · exact ⟨name, by rw [List.mem_singleton.mp hlast]⟩
  · intro key hkey last hlast hname
    rw [List.mem_singleton.mp hlast] at hname ⊢
    have hrefused : keyAnswers name desc key = false := List.findIdx?_eq_none_iff.mp hnew key hkey
    unfold keyAnswers at hrefused
    rw [hname, beq_self_eq_true, Bool.true_and] at hrefused
    obtain ⟨d, d', hd, hd', hne⟩ := descAgrees_eq_false.mp hrefused
    exact ⟨d', d, hd', hd, hne.symm⟩

theorem KeysApart.toldApart (h : KeysApart keys) {i j : Nat}
    {a b : Option String × Option String} (hij : i ≠ j) (ha : keys[i]? = some a)
    (hb : keys[j]? = some b) : ToldApart a b := by
  obtain ⟨hi, rfl⟩ := List.getElem?_eq_some_iff.mp ha
  obtain ⟨hj, rfl⟩ := List.getElem?_eq_some_iff.mp hb
  rcases Nat.lt_or_gt_of_ne hij with hlt | hgt
  · exact List.pairwise_iff_getElem.mp h.apart i j hi hj hlt
  · exact (List.pairwise_iff_getElem.mp h.apart j i hj hi hgt).symm

/-- Keys that are added at the end leave the first answer as it is. -/
theorem findIdx?_of_prefix {answers : Option String × Option String → Bool} {k : Nat}
    (h : keys <+: keys') (hk : keys.findIdx? answers = some k) :
    keys'.findIdx? answers = some k := by
  obtain ⟨added, rfl⟩ := h
  rw [List.findIdx?_append, hk]
  rfl

/-! ## The members of a tree -/

variable {t t' : MappingTree} {row : Nat} {kind : MemberKind}

theorem getElem?_memberSources (t : MappingTree) (row : Nat) (kind : MemberKind) (i : Nat) :
    (t.memberSources row kind)[i]? = (t.member? row kind i).map sourceOf := by
  unfold memberSources
  rw [member?_eq, List.getElem?_map]
  cases membersIn t.classes row kind <;> rfl

/-- A look-up in the source column reads the keys only. -/
theorem findMember_eq_findIdx? (t : MappingTree) (row : Nat) (kind : MemberKind) (name : String)
    (desc : Option String) :
    t.findMember row kind name 0 desc =
      (t.memberSources row kind).findIdx? (keyAnswers name desc) := by
  unfold memberSources
  rw [findMember_eq, List.findIdx?_map]
  cases membersIn t.classes row kind <;> rfl

/-- The first row that answers is found. -/
theorem findMember_eq_some {col i : Nat} :
    t.findMember row kind name col desc = some i ↔
      (∃ r, t.member? row kind i = some r ∧ AnswersTo r name col desc) ∧
        ∀ j < i, ∀ r, t.member? row kind j = some r → ¬ AnswersTo r name col desc := by
  simp only [findMember_eq, member?_eq]
  cases membersIn t.classes row kind with
  | none => simp
  | some ms => exact findIn_eq_some

/-- The keys of all classes are told apart. -/
def DistinctKeys (t : MappingTree) : Prop := ∀ row kind, KeysApart (t.memberSources row kind)

/-- Member rows are only added, and all are still told apart. -/
structure Extends (t t' : MappingTree) : Prop where
  distinct : t'.DistinctKeys
  grows : ∀ row kind, t.memberSources row kind <+: t'.memberSources row kind

theorem Extends.refl (ht : t.DistinctKeys) : Extends t t := ⟨ht, fun _ _ => List.prefix_rfl⟩

theorem Extends.trans {u : MappingTree} (h : Extends t t') (h' : Extends t' u) : Extends t u :=
  ⟨h'.distinct, fun row kind => (h.grows row kind).trans (h'.grows row kind)⟩

theorem extends_of_same (ht : t.DistinctKeys)
    (hsame : ∀ row kind, t'.memberSources row kind = t.memberSources row kind) : Extends t t' :=
  ⟨fun row kind => hsame row kind ▸ ht row kind, fun row kind => hsame row kind ▸ List.prefix_rfl⟩

theorem extends_of_members (ht : t.DistinctKeys)
    (hsame : ∀ row kind, membersIn t'.classes row kind = membersIn t.classes row kind) :
    Extends t t' :=
  extends_of_same ht fun row kind => memberSources_congr (hsame row kind)

theorem Extends.findMember (h : Extends t t') {k : Nat}
    (hk : t.findMember row kind name 0 desc = some k) :
    t'.findMember row kind name 0 desc = some k := by
  rw [findMember_eq_findIdx?] at hk ⊢
  exact findIdx?_of_prefix (h.grows row kind) hk

/-! ## Operations -/

theorem extends_renameClass (ht : t.DistinctKeys) (row col : Nat) (name : Option String)
    (shared : Bool) : Extends t (t.renameClass row col name shared).2 :=
  extends_of_members ht (frame_renameClass t row col name shared).2.2

theorem extends_addNamespace (ht : t.DistinctKeys) (name : String) :
    Extends t (t.addNamespace name).2 :=
  extends_of_members ht fun _ _ => by rw [classes_addNamespace]

/-- A new class has no members, just as a class that is not there. -/
theorem extends_addClass (ht : t.DistinctKeys) (srcName : String) :
    Extends t (t.addClass srcName).2 := by
  cases hf : t.findClass srcName 0 with
  | some row =>
    unfold addClass
    rw [hf]
    exact .refl ht
  | none =>
    obtain ⟨_, _, _, _, hmembers⟩ := addClass_new hf
    refine extends_of_same ht fun j kind => ?_
    unfold memberSources
    rw [hmembers]
    split
    · rename_i hj
      unfold membersIn
      rw [hj, List.getElem?_eq_none (Nat.le_refl _)]
      rfl
    · rfl

/-- A new member adds its key to those of its class and kind. -/
theorem memberSources_addMember {idx : Nat} (hnone : t.findMember row kind name 0 desc = none)
    (h : t.addMember row kind name desc = some (idx, t')) (j : Nat) (k : MemberKind) :
    idx = (t.memberSources row kind).length ∧
      t'.memberSources j k = if j = row ∧ k = kind then
        t.memberSources row kind ++ [(some name, desc)] else t.memberSources j k := by
  obtain ⟨ms, hms, hidx, _, _, _, hmembers⟩ := addMember_new hnone h
  unfold memberSources
  rw [hms, hmembers, Option.getD_some]
  refine ⟨hidx.trans (List.length_map _).symm, ?_⟩
  split
  · have hkey : sourceOf (memberRow t.namespaces.length name desc) = (some name, desc) :=
      congrArg (·, desc) (name_memberRow t.namespaces.length name desc 0)
    rw [Option.getD_some, List.map_append, List.map_singleton, hkey]
  · rfl

/-- A member is added under a key that none answered to, and then answers to it. -/
theorem extends_addMember (ht : t.DistinctKeys) {idx : Nat}
    (h : t.addMember row kind name desc = some (idx, t')) :
    Extends t t' ∧ t'.findMember row kind name 0 desc = some idx := by
  cases hf : t.findMember row kind name 0 desc with
  | some found =>
    unfold addMember at h
    rw [hf] at h
    cases h
    exact ⟨.refl ht, hf⟩
  | none =>
    have hkeys := memberSources_addMember hf h
    rw [findMember_eq_findIdx?] at hf
    refine ⟨⟨fun j k => ?_, fun j k => ?_⟩, ?_⟩
    · rw [(hkeys j k).2]
      split
      · exact (ht row kind).concat hf
      · exact ht j k
    · rw [(hkeys j k).2]
      split
      · rename_i hjk
        rw [hjk.1, hjk.2]
        exact List.prefix_append _ _
      · exact List.prefix_rfl
    · obtain ⟨hidx, hnew⟩ := hkeys row kind
      rw [if_pos ⟨rfl, rfl⟩] at hnew
      rw [findMember_eq_findIdx?, hnew, List.findIdx?_append, hf, hidx, List.findIdx?_singleton,
        if_pos (keyAnswers_self name desc)]
      simp

/-- What is written to other columns leaves the keys as they are. -/
theorem extends_modifyMember (ht : t.DistinctKeys) (row : Nat) (kind : MemberKind) (idx : Nat)
    {f : MemberRow → MemberRow} (hf : ∀ m, sourceOf (f m) = sourceOf m) :
    Extends t (t.modifyMember row kind idx f) := by
  refine extends_of_same ht fun j k => ?_
  unfold memberSources
  rw [membersIn_modifyMember]
  split
  · cases membersIn t.classes j k with
    | none => rfl
    | some ms =>
      refine List.ext_getElem? fun i => ?_
      rw [Option.map_some, Option.getD_some, Option.getD_some, List.getElem?_map,
        List.getElem?_map, List.getElem?_modify]
      cases ms[i]? with
      | none => rfl
      | some m =>
        rw [Option.map_eq_map, Option.map_some, Option.map_some, Option.map_some]
        split
        · rw [hf m]
        · rfl
  · rfl

/-! ## Joins -/

theorem extends_write (ht : t.DistinctKeys) (h : Write (· ≠ 0) t t') : Extends t t' := by
  rcases h with name | src | ⟨row, col, name, shared, _⟩ | hadd | ⟨row, kind, idx, f, hname, hdesc⟩
  · exact extends_addNamespace ht name
  · exact extends_addClass ht src
  · exact extends_renameClass ht row col _ shared
  · exact (extends_addMember ht hadd).1
  · refine extends_modifyMember ht row kind idx fun m => ?_
    unfold sourceOf
    rw [hname m 0 fun h => h rfl, hdesc m]

theorem extends_join (ht : t.DistinctKeys) {i : MappingInput} (h : t.join i = .ok t') :
    Extends t t' := by
  obtain ⟨p, _, _, hopens⟩ := writes_join h
  have hwrites : Writes (· ≠ 0) t t' := hopens.mono fun _ ho => ho.1
  clear h hopens
  induction hwrites with
  | refl => exact .refl ht
  | tail _ hw ih => exact ih.trans (extends_write ih.distinct hw)

theorem distinct_of_no_classes (h : t.classes = []) : t.DistinctKeys := by
  intro row kind
  unfold memberSources membersIn
  rw [h]
  exact ⟨nofun, .nil⟩

theorem Built.distinct (h : t.Built) : t.DistinctKeys := by
  induction h with
  | empty => exact distinct_of_no_classes rfl
  | join _ h ih => exact (extends_join ih h).distinct

/-! ## Passes -/

theorem extends_renest (ht : t.DistinctKeys) (p : PassColumns) : Extends t (t.renest p) :=
  renest_induction (motive := Extends t) (.refl ht) fun _ row name hs =>
    hs.trans (extends_renameClass hs.distinct row p.dst (some name) p.shared)

theorem extends_fillClass (ht : t.DistinctKeys) (p : PassColumns) (row : Nat) :
    Extends t (fillClass p t row) := by
  have hname : Extends t (fillName p t row) := by
    unfold fillName
    split
    · exact extends_renameClass ht row p.dst _ p.shared
    · exact .refl ht
  rw [fillClass_eq]
  refine hname.trans (extends_of_same hname.distinct fun j kind => ?_)
  refine memberSources_fillMembers p (fun ms hms m hm => ?_) row
  refine (hname.distinct j kind).named (sourceOf m) ?_
  unfold memberSources
  rw [hms]
  exact List.mem_map_of_mem hm

theorem extends_copyUnnamed (ht : t.DistinctKeys) (p : PassColumns) :
    Extends t (t.copyUnnamed p) := by
  unfold copyUnnamed
  refine List.foldlRecOn (motive := Extends t) _ _ (.refl ht) ?_
  intro s hs row _
  exact hs.trans (extends_fillClass hs.distinct p row)

/-! ## Trees that arise -/

/-- A change of a tree that takes no member row away. -/
inductive Change (t : MappingTree) : MappingTree → Prop where
  | op (op : TreeOp) : Change t (TreeSession.step ⟨t, []⟩ op).tree
  | join {t' : MappingTree} {i : MappingInput} (h : t.join i = .ok t') : Change t t'
  | renest (p : PassColumns) : Change t (t.renest p)
  | copyUnnamed (p : PassColumns) : Change t (t.copyUnnamed p)

theorem extends_change (ht : t.DistinctKeys) (h : Change t t') : Extends t t' := by
  cases h with
  | op op =>
    cases op with
    | addNamespace name => exact extends_addNamespace ht name
    | addClass srcName => exact extends_addClass ht srcName
    | setClassName row col name => exact extends_renameClass ht row col name false
    | setClassNameShared row col name => exact extends_renameClass ht row col name true
    | addMember row kind srcName srcDesc =>
      simp only [TreeSession.step]
      cases hadd : t.addMember row kind srcName srcDesc with
      | none => exact .refl ht
      | some added => exact (extends_addMember ht hadd).1
    | rebuildIndex => exact extends_of_members ht fun _ _ => rfl
  | join h => exact extends_join ht h
  | renest p => exact extends_renest ht p
  | copyUnnamed p => exact extends_copyUnnamed ht p

theorem extends_changes (ht : t.DistinctKeys) (h : Relation.ReflTransGen Change t t') :
    Extends t t' := by
  induction h with
  | refl => exact .refl ht
  | tail _ hstep ih => exact ih.trans (extends_change ih.distinct hstep)

/-- The trees that a build returns, those without classes, and all that changes make of them. -/
inductive Arises : MappingTree → Prop where
  | built {b : MappingBuilder} {disk : Files} {h : Option Hierarchy} {r : Registry}
      {t : MappingTree} (hbuild : (b.build disk h r).1 = .ok t) : Arises t
  | blank {t : MappingTree} (hblank : t.classes = []) : Arises t
  | change {t t' : MappingTree} (ht : Arises t) (h : Change t t') : Arises t'

theorem Arises.distinct (h : t.Arises) : t.DistinctKeys := by
  induction h with
  | built hbuild =>
    obtain ⟨_, _, _, hbuilt, hrun⟩ := MappingBuilder.build_ok hbuild
    have hkept := kept_runSteps hbuilt.indexed hbuilt.sourced hrun
    exact fun row kind => (hbuilt.distinct row kind).sublist (hkept.members row kind)
  | blank hblank => exact distinct_of_no_classes hblank
  | change _ hchange ih => exact (extends_change ih hchange).distinct

/-- Within a class and kind, members with the same source name have descriptors that differ. So
at most one answers to a name and descriptor, which is the one that is found, and a member that
was added or found is found under its key for as long as no rows are taken away. -/
theorem members_of_one_name_differ_in_their_descriptors (ht : t.Arises) (row : Nat)
    (kind : MemberKind) :
    (∀ i j a b, i ≠ j → t.member? row kind i = some a → t.member? row kind j = some b →
      a.name 0 = b.name 0 → ∃ d d', a.srcDesc = some d ∧ b.srcDesc = some d' ∧ d ≠ d') ∧
    (∀ name desc i a, t.member? row kind i = some a → AnswersTo a name 0 (some desc) →
      t.findMember row kind name 0 (some desc) = some i ∧
        ∀ j b, t.member? row kind j = some b → AnswersTo b name 0 (some desc) → j = i) ∧
    ∀ name desc k t', t.addMember row kind name desc = some (k, t') →
      ∀ later, Relation.ReflTransGen Change t' later →
        later.findMember row kind name 0 desc = some k := by
  have hdistinct := ht.distinct
  have hapart : ∀ i j a b, i ≠ j → t.member? row kind i = some a → t.member? row kind j = some b →
      a.name 0 = b.name 0 → ∃ d d', a.srcDesc = some d ∧ b.srcDesc = some d' ∧ d ≠ d' := by
    intro i j a b hij ha hb
    refine (hdistinct row kind).toldApart (a := sourceOf a) (b := sourceOf b) hij ?_ ?_
    · rw [getElem?_memberSources, ha, Option.map_some]
    · rw [getElem?_memberSources, hb, Option.map_some]
  refine ⟨hapart, ?_, ?_⟩
  · intro name desc i a ha ⟨hname, hdesc⟩
    have hsole : ∀ j b, t.member? row kind j = some b → AnswersTo b name 0 (some desc) →
        j = i := by
      rintro j b hb ⟨hname', hdesc'⟩
      by_contra hij
      obtain ⟨d, d', hd, hd', hne⟩ := hapart j i b a hij hb ha (hname'.trans hname.symm)
      -- Both descriptors are known, so both are the one that is looked for.
      rw [hd] at hdesc'
      rw [hd'] at hdesc
      exact hne ((beq_iff_eq.mp hdesc').symm.trans (beq_iff_eq.mp hdesc))
    refine ⟨findMember_eq_some.mpr ⟨⟨a, ha, hname, hdesc⟩, fun j hj b hb hanswers => ?_⟩, hsole⟩
    exact Nat.ne_of_lt hj (hsole j b hb hanswers)
  · intro name desc k t' hadd later hlater
    obtain ⟨hextends, hfound⟩ := extends_addMember hdistinct hadd
    exact (extends_changes hextends.distinct hlater).findMember hfound

end MappingTree

namespace MappingBuilder

open MappingTree

/-- A file with one class that has one method. -/
def methodFile (namespaces className methodName : List String) (desc : String) : MappingFile :=
  ⟨namespaces, [⟨className.map some, [], [⟨methodName.map some, some desc⟩]⟩]⟩

/-- Two files each bring one method of a name. The second is joined on `intermediary`. -/
def anchoredOverloads : MappingBuilder :=
  ⟨[fileDependency "base"
      (methodFile ["official", "intermediary"] ["a", "class_1"] ["b", "method_1"] "()V") [],
    fileDependency "more"
      (methodFile ["intermediary", "official"] ["class_1", "a"] ["method_2", "b"] "(I)V")
      [.sourceNamespace "intermediary"]]⟩

/-- The tree of `anchoredOverloads`, with more methods of the same name. -/
def overloadsTree (more : List MemberRow) : MappingTree :=
  ⟨["official", "intermediary"],
    [⟨[some "a", some "class_1"], [], [⟨[some "b", some "method_1"], some "()V"⟩,
      ⟨[some "b", some "method_2"], some "(I)V"⟩] ++ more⟩],
    [[("a", 0)], [("class_1", 0)]]⟩

theorem overloads_are_told_apart :
    (anchoredOverloads.build .empty none .empty).1 = .ok (overloadsTree []) ∧
      (overloadsTree []).findMember 0 .method "b" 0 (some "(I)V") = some 1 ∧
      (overloadsTree []).addMember 0 .method "b" (some "(J)V") =
        some (2, overloadsTree [⟨[some "b", none], some "(J)V"⟩]) ∧
      ((overloadsTree [⟨[some "b", none], some "(J)V"⟩]).copyUnnamed ⟨0, 1, false⟩).findMember 0
        .method "b" 0 (some "(J)V") = some 2 ∧
      ∃ d d', some "()V" = some d ∧ some "(I)V" = some d' ∧ d ≠ d' := by
  have hbuild : (anchoredOverloads.build .empty none .empty).1 = .ok (overloadsTree []) := by decide
  have hadd : (overloadsTree []).addMember 0 .method "b" (some "(J)V") =
      some (2, overloadsTree [⟨[some "b", none], some "(J)V"⟩]) := by decide
  obtain ⟨hapart, hunique, hfound⟩ :=
    members_of_one_name_differ_in_their_descriptors (.built hbuild) 0 .method
  exact ⟨hbuild, (hunique "b" "(I)V" 1 _ rfl ⟨rfl, by decide⟩).1, hadd,
    hfound "b" _ 2 _ hadd _ (.single (.copyUnnamed _)), hapart 0 1 _ _ (by decide) rfl rfl rfl⟩

end MappingBuilder

end JarDerivation
