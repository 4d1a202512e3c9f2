-- The order in which a build joins its inputs. An input is joined at its turn, when
-- each namespace that it depends on is written already or provided by no other input
-- that still waits. The first input whose turn it is goes next. This never misses an
-- order, since an input that can be joined can still be joined after others.
import JarDerivation.Proofs.Mapping.MemberJoin
import JarDerivation.Proofs.Mapping.RepeatedBuild
import JarDerivation.Proofs.Mapping.SourceColumn
import Mathlib.Data.List.Nodup
import Mathlib.Data.List.Perm.Basic

namespace JarDerivation

/-- The namespaces of the columns that an input writes. -/
def MappingInput.writes (i : MappingInput) : List String :=
  i.written.filterMap (i.file.namespaces[·]?)

/-! ## The columns of a join -/

namespace MappingTree

variable {t t' : MappingTree} {ns : String}

theorem mem_addNamespace (t : MappingTree) (name : String) :
    ns ∈ (t.addNamespace name).2.namespaces ↔ ns ∈ t.namespaces ∨ ns = name := by
  unfold addNamespace
  cases h : t.namespaceId? name with
  | some col =>
    have hmem : name ∈ t.namespaces := List.mem_of_getElem? (getElem?_of_namespaceId? h)
    constructor
    · exact Or.inl
    · rintro (h | rfl)
      · exact h
      · exact hmem
  | none => simp

theorem mem_namespaces_addColumns (t : MappingTree) (namespaces : List String) (keyCol : Nat)
    (js : List Nat) :
    ns ∈ (t.addColumns namespaces keyCol js).1.namespaces ↔
      ns ∈ t.namespaces ∨ ns ∈ js.filterMap (namespaces[·]?) := by
  induction js generalizing t with
  | nil => simp [addColumns]
  | cons j rest ih =>
    unfold addColumns
    cases hj : namespaces[j]? with
    | none =>
      rw [List.filterMap_cons_none hj]
      exact ih t
    | some name =>
      rw [List.filterMap_cons_some hj, List.mem_cons, ← or_assoc, ← mem_addNamespace]
      exact ih _

theorem namespaces_placeClass {p : JoinPlan} {e : ClassEntry} {row : Nat}
    (h : t.placeClass p e = some (row, t')) : t'.namespaces = t.namespaces := by
  have hadd : ∀ src, (t.addClass src).2.namespaces = t.namespaces := by
    intro src
    rcases addClass_cases t src with ⟨_, _, heq⟩ | ⟨hnone, _⟩
    · rw [heq]
    · exact (addClass_new hnone).2.1
  obtain ⟨key, _, ⟨_, ht⟩ | ⟨_, _, _, hkey⟩ | ⟨_, _, _, src, _, _, ht⟩⟩ := placeClass_cases h
  · rw [ht]
  · have hnew := hadd key
    rwa [hkey] at hnew
  · rw [ht, (frame_renameClass _ _ _ _ _).1, hadd]

theorem namespaces_joinClasses (t : MappingTree) (p : JoinPlan) (es : List ClassEntry) :
    (t.joinClasses p es).tree.namespaces = t.namespaces := by
  unfold joinClasses
  refine List.foldlRecOn (motive := fun s : ClassJoin => s.tree.namespaces = t.namespaces) es _ rfl ?_
  intro s hs e _
  show (s.tree.joinClass p e).2.namespaces = t.namespaces
  unfold joinClass
  cases hplace : s.tree.placeClass p e with
  | none => exact hs
  | some found =>
    obtain ⟨row, u⟩ := found
    have hu : u.namespaces = t.namespaces := (namespaces_placeClass hplace).trans hs
    simp only
    split
    · exact hu
    · refine nameClass_induction (motive := (·.namespaces = t.namespaces)) hu ?_
      intro v j col name _ hv
      rw [(frame_renameClass _ _ _ _ _).1, hv]

/-- A join adds the columns that its input writes, and no others. -/
theorem mem_namespaces_join {i : MappingInput} (hkey : i.keyNs ∈ i.writes)
    (h : t.join i = .ok t') : ns ∈ t'.namespaces ↔ ns ∈ t.namespaces ∨ ns ∈ i.writes := by
  obtain ⟨p, s, hplan, ht⟩ := join_ok h
  obtain ⟨_, hs, _⟩ := planJoin_ok hplan
  rw [ht, (joined_joinAllMembers p _ _ _).namespaces, namespaces_joinClasses, hs,
    mem_namespaces_addColumns]
  show _ ∨ ns ∈ i.writes ↔ _
  unfold withKey
  split
  · rw [mem_addNamespace, or_assoc]
    constructor
    · rintro (h | rfl | h)
      · exact Or.inl h
      · exact Or.inr hkey
      · exact Or.inr h
    · rintro (h | h)
      · exact Or.inl h
      · exact Or.inr (Or.inr h)
  · rfl

end MappingTree

namespace MappingBuilder

/-! ## Inputs -/

/-- What holds of every input that a file can give holds of the inputs of a build. -/
theorem forall_inputs {motive : MappingInput → Prop} {disk : Files} {ds : List MappingDependency}
    {is : List MappingInput}
    (hfile : ∀ label file block i, MappingInput.ofFile label file block = .ok (some i) → motive i)
    (h : inputs disk ds = .ok is) : ∀ i ∈ is, motive i := by
  obtain ⟨lists, hlists, h⟩ := ok_of_bind h
  cases h
  intro i hi
  obtain ⟨list, hlist, hi⟩ := List.mem_flatten.mp hi
  have hd : (.ok list : Except Error _) ∈ ds.map (inputsOf disk) := by
    rw [map_eq_of_mapM hlists]
    exact List.mem_map_of_mem hlist
  obtain ⟨d, _, hd⟩ := List.mem_map.mp hd
  obtain ⟨files, _, hd⟩ := ok_of_bind hd
  obtain ⟨found, hfound, hd⟩ := ok_of_bind hd
  cases hd
  obtain ⟨i', hi', hsome⟩ := List.mem_filterMap.mp hi
  cases hsome
  have hf : (.ok (some i) : Except Error _) ∈ files.map fun f =>
      MappingInput.ofFile s!"{d.describe}:{f.name}" f.content (d.blockFor f) := by
    rw [map_eq_of_mapM hfound]
    exact List.mem_map_of_mem hi'
  obtain ⟨f, _, hf⟩ := List.mem_map.mp hf
  exact hfile _ _ _ _ hf

theorem keyNs_mem_writes {label : String} {file : MappingFile} {block : MappingBlock}
    {i : MappingInput} (h : MappingInput.ofFile label file block = .ok (some i)) :
    i.keyNs ∈ i.writes := by
  unfold MappingInput.ofFile at h
  simp only at h
  split at h
  · cases h
  · split at h
    · rename_i hkey
      cases h
      rw [List.contains_iff_mem] at hkey
      obtain ⟨j, hj⟩ := List.mem_iff_getElem?.mp hkey
      refine List.mem_filterMap.mpr ⟨j, List.mem_filter.mpr ⟨?_, ?_⟩, hj⟩
      · exact List.mem_range.mpr (List.getElem?_eq_some_iff.mp hj).1
      · simp [hj]
    · cases h

/-! ## Turns -/

variable {is : List MappingInput} {done : List Nat} {place : Nat}

/-- An input at one of the places `done` writes the namespace. -/
def WrittenAt (is : List MappingInput) (done : List Nat) (ns : String) : Prop :=
  ∃ p ∈ done, ∃ i, is[p]? = some i ∧ ns ∈ i.writes

/-- An input that is still to come, other than the one at `place`, provides the namespace. -/
def AwaitedAt (is : List MappingInput) (done : List Nat) (place : Nat) (ns : String) : Prop :=
  ∃ p, p ∉ done ∧ p ≠ place ∧ ∃ i, is[p]? = some i ∧ ns ∈ i.provides

/-- After the inputs at `done`, the one at `place` can be joined. -/
structure Turn (is : List MappingInput) (done : List Nat) (place : Nat) : Prop where
  waits : place ∉ done
  served : ∃ i, is[place]? = some i ∧
    ∀ ns ∈ i.depends, WrittenAt is done ns ∨ ¬AwaitedAt is done place ns

/-- No input that was declared earlier can be joined. -/
structure FirstTurn (is : List MappingInput) (done : List Nat) (place : Nat) : Prop where
  turn : Turn is done place
  first : ∀ earlier < place, ¬Turn is done earlier

theorem FirstTurn.unique {other : Nat} (h : FirstTurn is done place) (h' : FirstTurn is done other) :
    place = other := by
  rcases Nat.lt_trichotomy place other with hlt | heq | hlt
  · exact absurd h.turn (h'.first place hlt)
  · exact heq
  · exact absurd h'.turn (h.first other hlt)

/-- An order of all the inputs in which each is joined at its turn. -/
structure Orders (is : List MappingInput) (order : List Nat) : Prop where
  all : order.Perm (List.range is.length)
  turns : ∀ done place rest, order = done ++ place :: rest → Turn is done place

/-- What can be joined can still be joined after others. -/
theorem Turn.mono (h : Turn is done place) {more : List Nat} (hsub : done ⊆ more)
    (hwaits : place ∉ more) : Turn is more place := by
  obtain ⟨i, hi, hserved⟩ := h.served
  refine ⟨hwaits, i, hi, ?_⟩
  intro ns hns
  rcases hserved ns hns with ⟨p, hp, hwritten⟩ | hnone
  · exact Or.inl ⟨p, hsub hp, hwritten⟩
  · right
    rintro ⟨p, hp, hother⟩
    exact hnone ⟨p, fun hdone => hp (hsub hdone), hother⟩

/-- Where inputs are left and none of them can be joined, no order was missed. -/
theorem not_orders_of_stuck (hleft : ∃ p < is.length, p ∉ done) (hstuck : ∀ p, ¬Turn is done p)
    (order : List Nat) : ¬Orders is order := by
  intro horder
  obtain ⟨p, hp, hnot⟩ := hleft
  have hmem : p ∈ order := horder.all.mem_iff.mpr (List.mem_range.mpr hp)
  -- The first place of the order that is not done could be joined.
  have hsplit : ∀ before rest, order = before ++ rest → before ⊆ done → p ∈ rest → False := by
    intro before rest
    induction rest generalizing before with
    | nil => simp
    | cons q rest ih =>
      intro heq hbefore hrest
      by_cases hq : q ∈ done
      · refine ih (before ++ [q]) (by simp [heq]) ?_ ?_
        · simpa using ⟨hbefore, hq⟩
        · rcases List.mem_cons.mp hrest with rfl | hrest
          · exact absurd hq hnot
          · exact hrest
      · exact hstuck q ((horder.turns before q rest heq).mono hbefore hq)
  exact hsplit [] order rfl (List.nil_subset _) hmem

/-! ## The inputs that wait -/

/-- The inputs at places. -/
def inputsAt (is : List MappingInput) (places : List Nat) : List MappingInput :=
  places.filterMap (is[·]?)

/-- The places that are not done, in the order of declaration. -/
def left (is : List MappingInput) (done : List Nat) : List Nat :=
  (List.range is.length).filter (· ∉ done)

theorem mem_left : place ∈ left is done ↔ place < is.length ∧ place ∉ done := by
  unfold left
  rw [List.mem_filter, List.mem_range, decide_eq_true_iff]

theorem sorted_left (is : List MappingInput) (done : List Nat) :
    (left is done).Pairwise (· < ·) := List.pairwise_lt_range.filter _

theorem inputsAt_range (is : List MappingInput) : inputsAt is (List.range is.length) = is := by
  unfold inputsAt
  induction is using List.reverseRecOn with
  | nil => rfl
  | append_singleton is i ih =>
    rw [List.length_append, List.length_singleton, List.range_succ, List.filterMap_append]
    have hfront : (List.range is.length).filterMap ((is ++ [i])[·]?) =
        (List.range is.length).filterMap (is[·]?) := by
      apply List.filterMap_congr
      intro p hp
      exact List.getElem?_append_left (List.mem_range.mp hp)
    rw [hfront, ih]
    simp

section Indices

variable {places : List Nat} (h : ∀ p ∈ places, p < is.length)
include h

theorem getElem?_inputsAt (k : Nat) : (inputsAt is places)[k]? = places[k]?.bind (is[·]?) := by
  unfold inputsAt
  induction places generalizing k with
  | nil => rfl
  | cons p places ih =>
    rw [List.filterMap_cons_some (List.getElem?_eq_getElem (h p List.mem_cons_self))]
    cases k with
    | zero => simp [h p List.mem_cons_self]
    | succ k => simpa using ih (fun q hq => h q (List.mem_cons_of_mem _ hq)) k

theorem length_inputsAt : (inputsAt is places).length = places.length := by
  unfold inputsAt
  induction places with
  | nil => rfl
  | cons p places ih =>
    rw [List.filterMap_cons_some (List.getElem?_eq_getElem (h p List.mem_cons_self)),
      List.length_cons, List.length_cons, ih fun q hq => h q (List.mem_cons_of_mem _ hq)]

theorem eraseIdx_inputsAt (k : Nat) :
    (inputsAt is places).eraseIdx k = inputsAt is (places.eraseIdx k) := by
  unfold inputsAt
  induction places generalizing k with
  | nil => rfl
  | cons p places ih =>
    have hp := List.getElem?_eq_getElem (h p List.mem_cons_self)
    rw [List.filterMap_cons_some hp]
    cases k with
    | zero => rfl
    | succ k =>
      rw [List.eraseIdx_cons_succ, List.eraseIdx_cons_succ, List.filterMap_cons_some hp,
        ih fun q hq => h q (List.mem_cons_of_mem _ hq)]

end Indices

theorem left_lt : ∀ p ∈ left is done, p < is.length := fun _ hp => (mem_left.mp hp).1

/-- Joining the input at a place takes the place out of those that are left. -/
theorem eraseIdx_left {k : Nat} (hk : (left is done)[k]? = some place) :
    (left is done).eraseIdx k = left is (done ++ [place]) := by
  obtain ⟨hlt, rfl⟩ := List.getElem?_eq_some_iff.mp hk
  have hnodup : (left is done).Nodup := (sorted_left is done).imp Nat.ne_of_lt
  rw [← List.Nodup.erase_getElem hnodup k hlt, List.Nodup.erase_eq_filter hnodup]
  generalize (left is done)[k] = p
  unfold left
  rw [List.filter_filter]
  apply List.filter_congr
  intro q _
  rw [Bool.eq_iff_iff]
  simp [and_comm]

/-! ## Ready inputs -/

/-- The input at a place among those that are left is ready just when it is its turn. -/
theorem isReady_iff {namespaces : List String} (hnames : ∀ ns, ns ∈ namespaces ↔ WrittenAt is done ns)
    {k : Nat} (hk : (left is done)[k]? = some place) :
    isReady namespaces (inputsAt is (left is done)) k ↔ Turn is done place := by
  have hmem := mem_left.mp (List.mem_of_getElem? hk)
  have hi : is[place]? = some is[place] := List.getElem?_eq_getElem hmem.1
  have hwaiting : (inputsAt is (left is done))[k]? = some is[place] := by
    rw [getElem?_inputsAt left_lt, hk, Option.bind_some, hi]
  have hawaited : ∀ ns, (inputsAt is ((left is done).eraseIdx k)).any (·.provides.contains ns) ↔
      AwaitedAt is done place ns := by
    intro ns
    rw [eraseIdx_left hk, List.any_eq_true]
    unfold inputsAt AwaitedAt
    constructor
    · rintro ⟨i, hi, hprovides⟩
      obtain ⟨p, hp, hi⟩ := List.mem_filterMap.mp hi
      have hp := (mem_left.mp hp).2
      rw [List.mem_append, List.mem_singleton, not_or] at hp
      exact ⟨p, hp.1, hp.2, i, hi, by simpa using hprovides⟩
    · rintro ⟨p, hp, hne, i, hi, hprovides⟩
      refine ⟨i, List.mem_filterMap.mpr ⟨p, mem_left.mpr ⟨?_, ?_⟩, hi⟩, by simpa using hprovides⟩
      · exact (List.getElem?_eq_some_iff.mp hi).1
      · simp [hp, hne]
  have hsettled : ∀ ns, isSettled namespaces (inputsAt is ((left is done).eraseIdx k)) ns ↔
      WrittenAt is done ns ∨ ¬AwaitedAt is done place ns := by
    intro ns
    unfold isSettled
    rw [Bool.or_eq_true, Bool.not_eq_true', ← Bool.not_eq_true, hawaited, List.contains_iff_mem, hnames]
  unfold isReady
  simp only [hwaiting]
  rw [List.all_eq_true, eraseIdx_inputsAt left_lt]
  constructor
  · intro hall
    exact ⟨hmem.2, _, hi, fun ns hns => (hsettled ns).mp (hall ns hns)⟩
  · rintro ⟨_, i, hi', hserved⟩ ns hns
    rw [hi] at hi'
    cases hi'
    exact (hsettled ns).mpr (hserved ns hns)

theorem exists_left_of_turn (h : Turn is done place) : ∃ k : Nat, (left is done)[k]? = some place := by
  obtain ⟨i, hi, _⟩ := h.served
  exact List.mem_iff_getElem?.mp
    (mem_left.mpr ⟨(List.getElem?_eq_some_iff.mp hi).1, h.waits⟩)

/-- The next input is the first whose turn it is, and there is none if it is no input's turn. -/
theorem nextReady_cases {namespaces : List String}
    (hnames : ∀ ns, ns ∈ namespaces ↔ WrittenAt is done ns) :
    (nextReady? namespaces (inputsAt is (left is done)) = none ∧ ∀ place, ¬Turn is done place) ∨
      ∃ k place i, nextReady? namespaces (inputsAt is (left is done)) = some k ∧
        (inputsAt is (left is done))[k]? = some i ∧ is[place]? = some i ∧ FirstTurn is done place ∧
        (inputsAt is (left is done)).eraseIdx k = inputsAt is (left is (done ++ [place])) := by
  unfold nextReady?
  rw [length_inputsAt left_lt]
  cases hfind : (List.range (left is done).length).find?
      (isReady namespaces (inputsAt is (left is done))) with
  | none =>
    refine Or.inl ⟨rfl, ?_⟩
    intro place hturn
    obtain ⟨k, hk⟩ := exists_left_of_turn hturn
    have hready := (isReady_iff hnames hk).mpr hturn
    have hlt := (List.getElem?_eq_some_iff.mp hk).1
    exact absurd hready (List.find?_eq_none.mp hfind k (List.mem_range.mpr hlt))
  | some k =>
    obtain ⟨hready, hlt, hfirst⟩ := List.find?_range_eq_some.mp hfind
    rw [List.mem_range] at hlt
    have hk : (left is done)[k]? = some (left is done)[k] := List.getElem?_eq_getElem hlt
    have hturn : Turn is done (left is done)[k] := (isReady_iff hnames hk).mp hready
    have hi := List.getElem?_eq_getElem (left_lt _ (List.mem_of_getElem? hk))
    refine Or.inr ⟨k, _, _, rfl, ?_, hi, ⟨hturn, ?_⟩, ?_⟩
    · rw [getElem?_inputsAt left_lt, hk, Option.bind_some, hi]
    · intro earlier hearlier hearly
      obtain ⟨j, hj⟩ := exists_left_of_turn hearly
      obtain ⟨hjlt, rfl⟩ := List.getElem?_eq_some_iff.mp hj
      have hjk : j < k := by
        by_contra hge
        rcases Nat.lt_or_eq_of_le (Nat.le_of_not_lt hge) with hgt | rfl
        · exact Nat.lt_asymm hearlier (List.pairwise_iff_getElem.mp (sorted_left is done) k j hlt hjlt hgt)
        · exact Nat.lt_irrefl _ hearlier
      have hnot := hfirst j hjk
      rw [(isReady_iff hnames hj).mpr hearly] at hnot
      cases hnot
    · rw [eraseIdx_inputsAt left_lt, eraseIdx_left hk]

/-! ## The run of the joins -/

/-- The trees after joins, each of the first input whose turn it is. -/
inductive Reached (is : List MappingInput) : List Nat → MappingTree → Prop where
  | start : Reached is [] .empty
  | join {done : List Nat} {t t' : MappingTree} {place : Nat} {i : MappingInput}
      (h : Reached is done t) (hturn : FirstTurn is done place) (hi : is[place]? = some i)
      (hjoin : t.join i = .ok t') : Reached is (done ++ [place]) t'

/-- No join fails on the way. -/
def JoinsSucceed (is : List MappingInput) : Prop :=
  ∀ done t, Reached is done t → ∀ place i, FirstTurn is done place → is[place]? = some i →
    ∃ t', t.join i = .ok t'

variable {t : MappingTree}

/-- The columns of a tree are those that the inputs so far have written. -/
theorem Reached.namespaces (h : Reached is done t) (hkeys : ∀ i ∈ is, i.keyNs ∈ i.writes)
    (ns : String) : ns ∈ t.namespaces ↔ WrittenAt is done ns := by
  induction h with
  | start => simp [WrittenAt, MappingTree.empty]
  | @join done t t' place i _ _ hi hjoin ih =>
    rw [MappingTree.mem_namespaces_join (hkeys i (List.mem_of_getElem? hi)) hjoin, ih]
    unfold WrittenAt
    constructor
    · rintro (⟨p, hp, hwritten⟩ | hns)
      · exact ⟨p, List.mem_append_left _ hp, hwritten⟩
      · exact ⟨place, by simp, i, hi, hns⟩
    · rintro ⟨p, hp, i', hi', hns⟩
      rcases List.mem_append.mp hp with hp | hp
      · exact Or.inl ⟨p, hp, i', hi', hns⟩
      · rw [List.mem_singleton.mp hp, hi] at hi'
        cases hi'
        exact Or.inr hns

theorem Reached.turns (h : Reached is done t) :
    ∀ before place rest, done = before ++ place :: rest → FirstTurn is before place := by
  induction h with
  | start =>
    intro before place rest heq
    simp at heq
  | join _ hturn _ _ ih =>
    intro before place rest heq
    rcases List.eq_nil_or_concat rest with rfl | ⟨rest, last, rfl⟩
    · obtain ⟨rfl, hlast⟩ := List.append_inj' heq rfl
      obtain rfl := List.singleton_inj.mp hlast
      exact hturn
    · rw [List.concat_eq_append, ← List.cons_append, ← List.append_assoc] at heq
      exact ih before place rest (List.append_inj' heq rfl).1

theorem Reached.joins (h : Reached is done t) :
    (inputsAt is done).foldlM (fun (t : MappingTree) i => t.join i) .empty = .ok t := by
  induction h with
  | start => rfl
  | @join done t t' place i _ _ hi hjoin ih =>
    have hlast : inputsAt is [place] = [i] := List.filterMap_cons_some hi
    unfold inputsAt at ih hlast ⊢
    rw [List.filterMap_append, List.foldlM_append, ih, hlast]
    show t.join i >>= pure = .ok t'
    rw [hjoin]
    rfl

/-- Every input is joined once, and the others are left. -/
theorem Reached.perm (h : Reached is done t) :
    (done ++ left is done).Perm (List.range is.length) := by
  induction h with
  | start =>
    have hall : left is [] = List.range is.length := by simp [left]
    rw [hall, List.nil_append]
  | @join done t t' place i _ hturn _ _ ih =>
    obtain ⟨k, hk⟩ := exists_left_of_turn hturn.turn
    obtain ⟨hlt, hplace⟩ := List.getElem?_eq_some_iff.mp hk
    rw [← eraseIdx_left hk, List.append_assoc, List.singleton_append, ← hplace]
    exact (List.Perm.append_left done (List.getElem_cons_eraseIdx_perm hlt)).trans ih

theorem Reached.orders (h : Reached is done t) (hleft : left is done = []) : Orders is done where
  all := by
    have hperm := h.perm
    rwa [hleft, List.append_nil] at hperm
  turns before place rest heq := (h.turns before place rest heq).turn

/-- A run of turns joins all inputs, or stops where none can be joined. -/
theorem joinAll_runs (hkeys : ∀ i ∈ is, i.keyNs ∈ i.writes) (hjoins : JoinsSucceed is)
    (turns : Nat) (h : Reached is done t) (hturns : (left is done).length ≤ turns) :
    (∃ order t', Reached is (done ++ order) t' ∧ left is (done ++ order) = [] ∧
        joinAll turns (inputsAt is (left is done)) t = .ok (t', inputsAt is order)) ∨
      ∃ stuck waiting, (∃ p < is.length, p ∉ stuck) ∧ (∀ place, ¬Turn is stuck place) ∧
        joinAll turns (inputsAt is (left is done)) t = .error (circular waiting) := by
  induction turns generalizing done t with
  | zero =>
    have hnil : left is done = [] := List.length_eq_zero_iff.mp (Nat.le_zero.mp hturns)
    exact Or.inl ⟨[], t, by simpa using h, by simpa using hnil, rfl⟩
  | succ turns ih =>
    unfold joinAll
    by_cases hnil : left is done = []
    · refine Or.inl ⟨[], t, by simpa using h, by simpa using hnil, ?_⟩
      simp [hnil, inputsAt]
    · have hwaiting : (inputsAt is (left is done)).isEmpty = false := by
        rw [List.isEmpty_eq_false_iff, ← List.length_pos_iff, length_inputsAt left_lt]
        exact List.length_pos_iff.mpr hnil
      simp only [hwaiting, Bool.false_eq_true, if_false]
      rcases nextReady_cases (h.namespaces hkeys) with
        ⟨hnone, hstuck⟩ | ⟨k, place, i, hsome, hk, hi, hturn, herase⟩
      · obtain ⟨p, hp⟩ := List.exists_mem_of_ne_nil _ hnil
        exact Or.inr ⟨done, _, ⟨p, mem_left.mp hp⟩, hstuck, by rw [hnone]⟩
      · obtain ⟨t', hjoin⟩ := hjoins done t h place i hturn hi
        have hless : (left is (done ++ [place])).length ≤ turns := by
          obtain ⟨j, hj⟩ := exists_left_of_turn hturn.turn
          rw [← eraseIdx_left hj, List.length_eraseIdx, if_pos (List.getElem?_eq_some_iff.mp hj).1]
          omega
        simp only [hsome, hk, hjoin, herase]
        rcases ih (h.join hturn hi hjoin) hless with
          ⟨order, u, hreached, hdone, hrest⟩ | ⟨stuck, waiting, hleft, hstuck, hrest⟩
        · refine Or.inl ⟨place :: order, u, by simpa using hreached, by simpa using hdone, ?_⟩
          have hcons : inputsAt is (place :: order) = i :: inputsAt is order :=
            List.filterMap_cons_some hi
          rw [hcons]
          show (joinAll turns _ t' >>= fun x => pure (x.1, i :: x.2)) = _
          rw [hrest]
          rfl
        · refine Or.inr ⟨stuck, waiting, hleft, hstuck, ?_⟩
          show (joinAll turns _ t' >>= fun x => pure (x.1, i :: x.2)) = _
          rw [hrest]
          rfl

/-- A run that succeeds joins the first input whose turn it is, and goes on with the others. -/
theorem joinAll_first {turns : Nat} {y : MappingTree × List MappingInput} {i : MappingInput}
    (hkeys : ∀ i ∈ is, i.keyNs ∈ i.writes) (h : Reached is done t) (hturn : FirstTurn is done place)
    (hi : is[place]? = some i) (hturns : (left is done).length ≤ turns)
    (hrun : joinAll turns (inputsAt is (left is done)) t = .ok y) :
    ∃ t' turns' y', t.join i = .ok t' ∧ (left is (done ++ [place])).length ≤ turns' ∧
      joinAll turns' (inputsAt is (left is (done ++ [place]))) t' = .ok y' := by
  obtain ⟨j, hj⟩ := exists_left_of_turn hturn.turn
  have hlt := (List.getElem?_eq_some_iff.mp hj).1
  cases turns with
  | zero => omega
  | succ turns =>
    have hwaiting : (inputsAt is (left is done)).isEmpty = false := by
      rw [List.isEmpty_eq_false_iff, ← List.length_pos_iff, length_inputsAt left_lt]
      omega
    unfold joinAll at hrun
    simp only [hwaiting, Bool.false_eq_true, if_false] at hrun
    rcases nextReady_cases (h.namespaces hkeys) with
      ⟨_, hstuck⟩ | ⟨k, place', i', hsome, hk, hi', hturn', herase⟩
    · exact absurd hturn.turn (hstuck place)
    · obtain rfl : place' = place := hturn'.unique hturn
      rw [hi] at hi'
      cases hi'
      simp only [hsome, hk, herase] at hrun
      obtain ⟨t', hjoin, hrun⟩ := ok_of_bind hrun
      obtain ⟨y', hrest, _⟩ := ok_of_bind hrun
      refine ⟨t', turns, y', hjoin, ?_, hrest⟩
      rw [← eraseIdx_left hj, List.length_eraseIdx, if_pos hlt]
      omega

/-- No join fails on the way of a run that succeeds. -/
theorem joinsSucceed_of_joinAll {y : MappingTree × List MappingInput}
    (hkeys : ∀ i ∈ is, i.keyNs ∈ i.writes) (hrun : joinAll is.length is .empty = .ok y) :
    JoinsSucceed is := by
  have hrest : ∀ done t, Reached is done t → ∃ turns y, (left is done).length ≤ turns ∧
      joinAll turns (inputsAt is (left is done)) t = .ok y := by
    intro done t h
    induction h with
    | start =>
      have hall : left is [] = List.range is.length := by simp [left]
      rw [hall, inputsAt_range]
      exact ⟨is.length, y, by simp, hrun⟩
    | join h hturn hi hjoin ih =>
      obtain ⟨turns, y, hturns, hrun⟩ := ih
      obtain ⟨t'', turns', y', hjoin', hturns', hrun'⟩ := joinAll_first hkeys h hturn hi hturns hrun
      rw [hjoin] at hjoin'
      cases hjoin'
      exact ⟨turns', y', hturns', hrun'⟩
  intro done t h place i hturn hi
  obtain ⟨turns, y, hturns, hrun⟩ := hrest done t h
  obtain ⟨t', _, _, hjoin, _⟩ := joinAll_first hkeys h hturn hi hturns hrun
  exact ⟨t', hjoin⟩

/-! ## The law of the order -/

/-- The error tells of inputs that wait for each other. -/
def IsCircular (e : Error) : Prop := ∃ waiting, e = circular waiting

/-- No pass fails as joins do that wait for each other. -/
theorem runPasses_not_circular (t : MappingTree) (h : Option Hierarchy) (i : MappingInput) :
    FailsOnlyWith (¬IsCircular ·) (t.runPasses h i) := by
  refine failsOnlyWith_foldlM (fun t pass => ?_) i.postPasses t
  refine MappingTree.runPass_fails_with (fun name context => ?_) (fun label => ?_) t h i pass
  · rintro ⟨waiting, heq⟩
    cases heq
  · rintro ⟨waiting, heq⟩
    have htext := congrArg (fun s : String => s.toList[1]?) (Error.configuration.inj heq)
    simp [toString] at htext

/-- A build fails for inputs that wait for each other just when no order of all the inputs
serves each at its turn. Otherwise it joins every input once, always the first that can be
joined, and runs the passes in the order of the joins. -/
theorem a_build_is_circular_just_when_no_order_serves_every_input {b : MappingBuilder}
    {disk : Files} {r r' : Registry} {ds : List MappingDependency}
    (hfrozen : finalizeAll r b.dependencies = (.ok (), ds, r'))
    (hinputs : inputs disk b.dependencies = .ok is) (hjoins : JoinsSucceed is)
    (h : Option Hierarchy) :
    ((∃ waiting, (b.build disk h r).1 = .error (circular waiting)) ↔ ¬∃ order, Orders is order) ∧
      ((∃ order, Orders is order) → ∃ order t, Orders is order ∧
        (∀ done place rest, order = done ++ place :: rest → FirstTurn is done place) ∧
        (inputsAt is order).foldlM (fun (t : MappingTree) i => t.join i) .empty = .ok t ∧
        (b.build disk h r).1 =
          (inputsAt is order).foldlM (fun (t : MappingTree) i => t.runPasses h i) t) := by
  have hkeys : ∀ i ∈ is, i.keyNs ∈ i.writes :=
    forall_inputs (fun _ _ _ _ hi => keyNs_mem_writes hi) hinputs
  have hbuild := build_of_finalizeAll hfrozen hinputs h
  have hall : left is [] = List.range is.length := by simp [left]
  have hrun := joinAll_runs hkeys hjoins is.length .start (by simp [hall])
  rw [hall, inputsAt_range] at hrun
  rw [hbuild]
  rcases hrun with ⟨order, t, hreached, hleft, hjoin⟩ | ⟨stuck, waiting, hleft, hstuck, hjoin⟩
  · rw [List.nil_append] at hreached hleft
    have horders := hreached.orders hleft
    have htree : treeOf h is =
        (inputsAt is order).foldlM (fun (t : MappingTree) i => t.runPasses h i) t := by
      unfold treeOf
      rw [hjoin]
      rfl
    rw [htree]
    refine ⟨⟨?_, fun hnone => absurd ⟨order, horders⟩ hnone⟩, fun _ => ?_⟩
    · rintro ⟨waiting, heq⟩
      exact absurd ⟨waiting, rfl⟩
        (failsOnlyWith_foldlM (fun t i => runPasses_not_circular t h i) _ t _ heq)
    · exact ⟨order, t, horders, hreached.turns, hreached.joins, rfl⟩
  · have hnone : ¬∃ order, Orders is order :=
      fun ⟨order, horder⟩ => not_orders_of_stuck hleft hstuck order horder
    have htree : treeOf h is = .error (circular waiting) := by
      unfold treeOf
      rw [hjoin]
      rfl
    exact ⟨⟨fun _ => hnone, fun _ => ⟨waiting, htree⟩⟩, fun horder => absurd horder hnone⟩

/-- The readable names are declared first, and depend on the names that they are joined on. -/
def namesFirst : MappingBuilder :=
  ⟨[fileDependency "names" (classFile ["intermediary", "named"] [["class_1", "World"]])
      [.dependsOn "intermediary"],
    fileDependency "base" (classFile ["official", "intermediary"] [["a", "class_1"]]) []]⟩

/-- The inputs of `namesFirst`. -/
def namesFirstInputs : List MappingInput :=
  [{ MappingInput.plain "names:mappings.json"
        (classFile ["intermediary", "named"] [["class_1", "World"]]) with
      keyNs := "intermediary", written := [0, 1], depends := ["intermediary"] },
    { MappingInput.plain "base:mappings.json"
        (classFile ["official", "intermediary"] [["a", "class_1"]]) with
      keyNs := "official", written := [0, 1] }]

def namesFirstTree : MappingTree :=
  ⟨["official", "intermediary", "named"], [⟨[some "a", some "class_1", some "World"], [], []⟩],
    [[("a", 0)], [("class_1", 0)], [("World", 0)]]⟩

theorem readable_names_wait_for_the_names_that_they_depend_on :
    (∃ ds r', finalizeAll .empty namesFirst.dependencies = (.ok (), ds, r')) ∧
      inputs .empty namesFirst.dependencies = .ok namesFirstInputs ∧
      JoinsSucceed namesFirstInputs ∧
      ∃ order t, Orders namesFirstInputs order ∧
        (∀ done place rest, order = done ++ place :: rest → FirstTurn namesFirstInputs done place) ∧
        (inputsAt namesFirstInputs order).foldlM (fun (t : MappingTree) i => t.join i) .empty = .ok t ∧
        (inputsAt namesFirstInputs order).foldlM (fun (t : MappingTree) i => t.runPasses none i) t =
          .ok namesFirstTree := by
  obtain ⟨ds, r', hfrozen⟩ :
      ∃ ds r', finalizeAll .empty namesFirst.dependencies = (.ok (), ds, r') := ⟨_, _, rfl⟩
  have hinputs : inputs .empty namesFirst.dependencies = .ok namesFirstInputs := by decide
  have hjoins : JoinsSucceed namesFirstInputs :=
    joinsSucceed_of_joinAll (y := (namesFirstTree, namesFirstInputs.reverse)) (by decide) (by decide)
  have hbuild : (namesFirst.build .empty none .empty).1 = .ok namesFirstTree := by decide
  obtain ⟨hiff, horder⟩ :=
    a_build_is_circular_just_when_no_order_serves_every_input hfrozen hinputs hjoins none
  have hsome : ∃ order, Orders namesFirstInputs order := by
    by_contra hnone
    obtain ⟨waiting, hcircular⟩ := hiff.mpr hnone
    rw [hbuild] at hcircular
    cases hcircular
  obtain ⟨order, t, horders, hfirst, hmerged, hresult⟩ := horder hsome
  exact ⟨⟨ds, r', hfrozen⟩, hinputs, hjoins, order, t, horders, hfirst, hmerged,
    hresult.symm.trans hbuild⟩

end MappingBuilder

end JarDerivation
