-- Which versions of a class merge, and what the merged class holds. Each of its lists is
-- the client's, and behind it what only the server has; so merging the server in once more
-- finds nothing left to add.
import JarDerivation.Merge.Class
import Mathlib.Data.List.Forall2
import Mathlib.Data.List.Nodup

namespace JarDerivation.ClassMerger

/-! ## Lists joined by a key -/

section Union

variable {α β : Type} [BEq β] {key : α → β}

@[simp] theorem union_nil (xs : List α) : union key xs [] = xs := rfl

variable [LawfulBEq β]

theorem union_cons_of_mem {xs : List α} {y : α} (h : key y ∈ xs.map key) (ys : List α) :
    union key xs (y :: ys) = union key xs ys := by
  have hany : xs.any (fun x => key x == key y) = true := by simpa using h
  simp [union, hany]

theorem union_cons_of_not_mem {xs : List α} {y : α} (h : key y ∉ xs.map key) (ys : List α) :
    union key xs (y :: ys) = union key (xs ++ [y]) ys := by
  have hany : xs.any (fun x => key x == key y) = false := by simpa using h
  simp [union, hany]

/-- The keys of a union: those of the first list, and each of the others once. -/
theorem map_union (xs ys : List α) :
    (union key xs ys).map key =
      xs.map key ++ ((ys.map key).filter (· ∉ xs.map key)).eraseDups := by
  induction ys generalizing xs with
  | nil => simp
  | cons y ys ih =>
    by_cases h : key y ∈ xs.map key
    · rw [union_cons_of_mem h, ih, List.map_cons, List.filter_cons_of_neg (by simpa using h)]
    · have hfilter : (ys.map key).filter (· ∉ (xs ++ [y]).map key) =
          ((ys.map key).filter (· ∉ xs.map key)).filter fun k => !k == key y := by
        rw [List.filter_filter]
        apply List.filter_congr
        intro k _
        rw [Bool.eq_iff_iff]
        simp [not_or, and_comm]
      rw [union_cons_of_not_mem h, ih, hfilter, List.map_cons,
        List.filter_cons_of_pos (by simpa using h), List.eraseDups_cons]
      simp

/-- What a union has under a key is the first that either list has, the first list first. -/
theorem find?_union (k : β) (xs ys : List α) :
    (union key xs ys).find? (fun x => key x == k) =
      (xs.find? fun x => key x == k).or (ys.find? fun y => key y == k) := by
  induction ys generalizing xs with
  | nil => simp
  | cons y ys ih =>
    by_cases h : key y ∈ xs.map key
    · rw [union_cons_of_mem h, ih]
      by_cases hk : key y = k
      · -- The item was left out for one of the first list, which is what the search finds.
        obtain ⟨x, hx, hxy⟩ := List.mem_map.mp h
        have hsome : (xs.find? fun x => key x == k).isSome :=
          List.find?_isSome.mpr ⟨x, hx, by simp [hxy, hk]⟩
        rw [Option.or_of_isSome hsome, Option.or_of_isSome hsome]
      · rw [List.find?_cons_of_neg (by simpa using hk)]
    · rw [union_cons_of_not_mem h, ih, List.find?_append, Option.or_assoc]
      congr 1
      by_cases hk : key y = k
      · simp [hk]
      · simp [hk]

theorem union_eq_self {xs ys : List α} (h : ∀ y ∈ ys, key y ∈ xs.map key) :
    union key xs ys = xs := by
  induction ys with
  | nil => rfl
  | cons y ys ih =>
    rw [union_cons_of_mem (h y List.mem_cons_self)]
    exact ih fun z hz => h z (List.mem_cons_of_mem y hz)

theorem union_union (xs ys : List α) :
    union key (union key xs ys) ys = union key xs ys := by
  apply union_eq_self
  intro y hy
  rw [map_union, List.mem_append, List.mem_eraseDups, List.mem_filter]
  by_cases h : key y ∈ xs.map key
  · exact .inl h
  · exact .inr ⟨List.mem_map_of_mem hy, by simpa using h⟩

end Union

/-! ## Members -/

/-- The keys that members have in their class. -/
def keys (members : List MemberNode) : List (String × String) := members.map MemberNode.key

theorem hasKey_eq (members : List MemberNode) (member : MemberNode) :
    hasKey members member = decide (member.key ∈ keys members) := by
  rw [Bool.eq_iff_iff]
  simp [hasKey, keys]

variable (m : ClassMerger)

@[simp] theorem key_mark (side : Side) (member : MemberNode) :
    (m.mark side member).key = member.key := by
  unfold mark
  split <;> rfl

@[simp] theorem mark_mark (side : Side) (member : MemberNode) :
    m.mark side (m.mark side member) = m.mark side member := by
  unfold mark
  split <;> rfl

/-- A member of one side in a merged class: the original, but for the side that it is
annotated with. -/
def OneSided (side : Side) (original member : MemberNode) : Prop :=
  member = if m.annotateSides then { original with side := some side } else original

/-- The members of two versions in one list. -/
structure Joined (client server merged : List MemberNode) : Prop where
  keys : keys merged = keys client ++ (keys server).filter (· ∉ keys client)
  nodup : (ClassMerger.keys client).Nodup → (ClassMerger.keys server).Nodup →
    (ClassMerger.keys merged).Nodup
  /-- The client's members come first, and each list is in the order of its side. -/
  members : ∃ first rest, merged = first ++ rest ∧
    List.Forall₂ (fun c member =>
      if c.key ∈ ClassMerger.keys server then member = c else m.OneSided .client c member)
      client first ∧
    List.Forall₂ (m.OneSided .server)
      (server.filter fun s => s.key ∉ ClassMerger.keys client) rest

variable {m} {client server : List MemberNode}

theorem filter_hasKey :
    server.filter (!hasKey client ·) = server.filter fun s => s.key ∉ keys client := by
  apply List.filter_congr
  intro s _
  rw [hasKey_eq, decide_not]

theorem keys_mergeMembers : keys (m.mergeMembers client server) =
    keys client ++ (keys server).filter (· ∉ keys client) := by
  have hclient : (client.map fun c => if hasKey server c then c else m.mark .client c).map
      MemberNode.key = keys client := by
    rw [List.map_map]
    apply List.map_congr_left
    intro c _
    dsimp only [Function.comp]
    split <;> simp
  have hserver : ((server.filter (!hasKey client ·)).map (m.mark .server)).map MemberNode.key =
      (keys server).filter (· ∉ keys client) := by
    have hmark : MemberNode.key ∘ m.mark .server = MemberNode.key := funext (key_mark m .server)
    rw [List.map_map, hmark, filter_hasKey]
    exact (List.filter_map (p := (· ∉ keys client))).symm
  rw [mergeMembers, keys, List.map_append, hclient, hserver]

theorem joined_mergeMembers : m.Joined client server (m.mergeMembers client server) where
  keys := keys_mergeMembers
  nodup hclient hserver := by
    rw [keys_mergeMembers]
    refine List.nodup_append'.mpr ⟨hclient, hserver.filter _, ?_⟩
    intro k hk hrest
    simp [hk] at hrest
  members := by
    refine ⟨_, _, rfl, ?_, ?_⟩
    · rw [List.forall₂_map_right_iff]
      apply List.forall₂_same.mpr
      intro c _
      by_cases h : c.key ∈ ClassMerger.keys server
      · simp [hasKey_eq, h]
      · simp [hasKey_eq, h, OneSided, mark]
    · rw [filter_hasKey, List.forall₂_map_right_iff]
      exact List.forall₂_same.mpr fun s _ => rfl

/-- Members that were joined already have all that the server has, and their marks. -/
theorem mergeMembers_mergeMembers :
    m.mergeMembers (m.mergeMembers client server) server = m.mergeMembers client server := by
  have hnone : server.filter (!hasKey (m.mergeMembers client server) ·) = [] := by
    rw [filter_hasKey, List.filter_eq_nil_iff]
    intro s hs
    have hkey : s.key ∈ keys server := List.mem_map_of_mem hs
    simp [keys_mergeMembers, hkey, em]
  have hmarked : ∀ member ∈ m.mergeMembers client server,
      (if hasKey server member then member else m.mark .client member) = member := by
    intro member hmember
    split
    · rfl
    · next h =>
      -- What is not the server's came from the client, and has been marked so.
      rcases List.mem_append.mp hmember with hmember | hmember
      · obtain ⟨c, -, rfl⟩ := List.mem_map.mp hmember
        split
        · next hc => exact absurd (by rwa [if_pos hc]) h
        · exact mark_mark m .client c
      · obtain ⟨s, hs, rfl⟩ := List.mem_map.mp hmember
        have hkey : s.key ∈ keys server := List.mem_map_of_mem (List.mem_filter.mp hs).1
        exact absurd (by simpa [hasKey_eq] using hkey) h
  calc m.mergeMembers (m.mergeMembers client server) server
    _ = (m.mergeMembers client server).map
          (fun c => if hasKey server c then c else m.mark .client c) ++
        (server.filter (!hasKey (m.mergeMembers client server) ·)).map (m.mark .server) := rfl
    _ = (m.mergeMembers client server).map
          (fun c => if hasKey server c then c else m.mark .client c) := by
      rw [hnone, List.map_nil, List.append_nil]
    _ = m.mergeMembers client server := by
      rw [List.map_congr_left hmarked, List.map_id']

/-! ## Versions of a class -/

/-- What two versions of a class have to agree in. -/
structure Agree (client server : ClassNode) : Prop where
  name : client.name = server.name
  superName : client.superName = server.superName
  anonymity : client.isAnonymous = server.isAnonymous

/-- The first thing in which two versions differ, with what they have there. -/
inductive Differ (client server : ClassNode) : MergeConflict → Prop
  | name : client.name ≠ server.name → Differ client server (.name server.name)
  | superClass : client.name = server.name → client.superName ≠ server.superName →
      Differ client server (.superClass client.superName server.superName)
  | anonymity : client.name = server.name → client.superName = server.superName →
      client.isAnonymous ≠ server.isAnonymous → Differ client server .anonymity

/-- What a merged class holds of the two versions. -/
structure Combined (m : ClassMerger) (client server node : ClassNode) : Prop where
  fields : m.Joined client.fields server.fields node.fields
  methods : m.Joined client.methods server.methods node.methods
  interfaces : node.interfaces = client.interfaces ++
    (server.interfaces.filter (· ∉ client.interfaces)).eraseDups
  innerNames : node.innerClasses.map InnerClass.name = client.innerClasses.map InnerClass.name ++
    ((server.innerClasses.map InnerClass.name).filter
      (· ∉ client.innerClasses.map InnerClass.name)).eraseDups
  anonymity : node.isAnonymous = client.isAnonymous ∧ node.isAnonymous = server.isAnonymous

theorem conflict?_spec (client server : ClassNode) :
    (Agree client server ∧ conflict? client server = none) ∨
    (¬ Agree client server ∧
      ∃ conflict, Differ client server conflict ∧ conflict? client server = some conflict) := by
  unfold conflict?
  by_cases hname : client.name = server.name
  · by_cases hsuper : client.superName = server.superName
    · by_cases hanonymous : client.isAnonymous = server.isAnonymous
      · exact .inl ⟨⟨hname, hsuper, hanonymous⟩, by simp [hname, hsuper, hanonymous]⟩
      · exact .inr ⟨fun h => hanonymous h.anonymity, _, .anonymity hname hsuper hanonymous,
          by simp [hname, hsuper, hanonymous]⟩
    · exact .inr ⟨fun h => hsuper h.superName, _, .superClass hname hsuper,
        by simp [hname, hsuper]⟩
  · exact .inr ⟨fun h => hname h.name, _, .name hname, by simp [hname]⟩

variable {client server : ClassNode}

/-- A merged class has the record of the client about itself, or else that of the server. -/
theorem ownRecord?_combine (h : client.name = server.name) :
    (m.combine client server).ownRecord? = client.ownRecord?.or server.ownRecord? := by
  unfold ClassNode.ownRecord?
  rw [← h]
  exact find?_union client.name client.innerClasses server.innerClasses

theorem isAnonymous_combine (h : Agree client server) :
    (m.combine client server).isAnonymous = client.isAnonymous := by
  have hanonymity := h.anonymity
  unfold ClassNode.isAnonymous at hanonymity ⊢
  rw [ownRecord?_combine h.name]
  cases hown : client.ownRecord? with
  | some record => rfl
  | none =>
    rw [hown] at hanonymity
    exact hanonymity.symm

theorem combined_combine (h : Agree client server) :
    Combined m client server (m.combine client server) where
  fields := joined_mergeMembers
  methods := joined_mergeMembers
  interfaces := by
    have hkeys : (m.combine client server).interfaces.map id = _ :=
      map_union client.interfaces server.interfaces
    simpa only [List.map_id] using hkeys
  innerNames := map_union client.innerClasses server.innerClasses
  anonymity := ⟨isAnonymous_combine h, (isAnonymous_combine h).trans h.anonymity⟩

theorem Agree.combine (h : Agree client server) : Agree (m.combine client server) server :=
  ⟨h.name, h.superName, (isAnonymous_combine h).trans h.anonymity⟩

theorem combine_combine : m.combine (m.combine client server) server = m.combine client server := by
  simp [combine, union_union, mergeMembers_mergeMembers, Option.or_assoc]

theorem merge_eq_merged_iff {node : ClassNode} :
    m.merge (some client) (some server) = some (.merged node) ↔
      Agree client server ∧ node = m.combine client server := by
  rcases conflict?_spec client server with ⟨hagree, hnone⟩ | ⟨hdisagree, conflict, -, hconflict⟩
  · simp [merge, mergeBoth, hnone, hagree, eq_comm]
  · simp [merge, mergeBoth, hconflict, hdisagree]

/-- Two versions of a class merge just when they agree; else both come back as they are. The
merged class has what its versions have, and takes nothing more from the server's version. -/
theorem versions_merge_just_when_they_agree (m : ClassMerger) (client server : ClassNode) :
    ((∃ node, m.merge (some client) (some server) = some (.merged node)) ↔
      Agree client server) ∧
    (¬ Agree client server → ∃ conflict, Differ client server conflict ∧
      m.merge (some client) (some server) =
        some (.failed client server (.mergeConflict client.name conflict.reason))) ∧
    ∀ node, m.merge (some client) (some server) = some (.merged node) →
      Combined m client server node ∧
        m.merge (some node) (some server) = some (.merged node) := by
  refine ⟨?_, ?_, ?_⟩
  · simp [merge_eq_merged_iff]
  · intro hdisagree
    rcases conflict?_spec client server with ⟨hagree, -⟩ | ⟨-, conflict, hdiffer, hconflict⟩
    · exact absurd hagree hdisagree
    · exact ⟨conflict, hdiffer, by simp [merge, mergeBoth, hconflict]⟩
  · intro node h
    obtain ⟨hagree, rfl⟩ := merge_eq_merged_iff.mp h
    exact ⟨combined_combine hagree, merge_eq_merged_iff.mpr ⟨hagree.combine, combine_combine.symm⟩⟩

/-- The version of a class that a client has, and the version that a server has. -/
def clientVersion : ClassNode :=
  { access := 1, name := "World", superName := some "Level", interfaces := ["Shown", "Shown"]
    fields := [], methods := [⟨1, "tick", "()V", none, none⟩, ⟨1, "draw", "()V", none, none⟩]
    innerClasses := [], outerClass := none, side := none }

def serverVersion : ClassNode :=
  { clientVersion with
    interfaces := ["Saved", "Shown", "Saved"]
    methods := [⟨1, "save", "()V", none, none⟩, ⟨2, "tick", "()V", none, none⟩] }

example : ((ClassMerger.mk true).combine clientVersion serverVersion).interfaces =
    ["Shown", "Shown", "Saved"] := by decide

example : ((ClassMerger.mk true).combine clientVersion serverVersion).methods =
    [⟨1, "tick", "()V", none, none⟩, ⟨1, "draw", "()V", none, some .client⟩,
      ⟨1, "save", "()V", none, some .server⟩] := by decide

/-- Two versions with methods of their own merge, and the class keeps the marks of both sides. -/
theorem versions_with_methods_of_their_own_merge :
    ∃ node, (ClassMerger.mk true).merge (some clientVersion) (some serverVersion) =
        some (.merged node) ∧
      Combined (ClassMerger.mk true) clientVersion serverVersion node ∧
      (ClassMerger.mk true).merge (some node) (some serverVersion) = some (.merged node) := by
  obtain ⟨hmerges, -, hmerged⟩ :=
    versions_merge_just_when_they_agree (ClassMerger.mk true) clientVersion serverVersion
  obtain ⟨node, hnode⟩ := hmerges.mpr ⟨rfl, rfl, rfl⟩
  exact ⟨node, hnode, hmerged node hnode⟩

end JarDerivation.ClassMerger
