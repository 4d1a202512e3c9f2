-- What a merged jar holds. Both passes together look at each name once: the first at the
-- names of the client, the second at those that only the server has, also when the first
-- one has left a name out. Each look writes at most one entry and counts one.
import JarDerivation.Merge.Jar
import JarDerivation.Proofs.Jar.Entries
import JarDerivation.Proofs.Work
import Mathlib.Data.List.Dedup
import Mathlib.Data.List.Perm.Basic

namespace JarDerivation

/-! ## What a merge does with an entry -/

/-- The policies that come with the merge. -/
def FailurePolicy.BuiltIn : FailurePolicy → Prop
  | .custom _ => False
  | _ => True

/-- Whether a class with a conflict is left out. -/
def FailurePolicy.skips : FailurePolicy → Bool
  | .skipClass => true
  | _ => false

namespace Codec

theorem decode_of_decodeEntry {codec : Codec} {entry : String} {bytes : Bytes} {c : ClassNode}
    (h : (codec.decodeEntry entry bytes).outcome = .ok c) : codec.decode bytes = .ok c := by
  unfold Codec.decodeEntry at h
  rw [Traced.outcome_bind] at h
  obtain ⟨_, _, h⟩ := ok_of_bind h
  cases hdecode : codec.decode bytes with
  | error reason =>
    rw [hdecode] at h
    cases h
  | ok d =>
    rw [hdecode] at h
    cases h
    rfl

theorem encode_of_encodeClass {codec : Codec} {c : ClassNode} {bytes : Bytes}
    (h : codec.encodeClass c = .ok bytes) : codec.encode c = .ok bytes := by
  unfold Codec.encodeClass at h
  cases hencode : codec.encode c with
  | error reason =>
    rw [hencode] at h
    cases h
  | ok made =>
    rw [hencode] at h
    cases h
    rfl

end Codec

/-- An entry that was stored is written, and nothing is counted. -/
theorem MergeState.eq_of_store {s s' : MergeState} {entry : String} {bytes : Bytes}
    (h : (s.store entry bytes).outcome = .ok s') :
    s' = { s with jar := s.jar.write entry bytes } := by
  unfold store at h
  rw [Traced.outcome_bind] at h
  obtain ⟨jar, hjar, h⟩ := ok_of_bind h
  cases h
  rw [(Jar.store_eq_ok.mp hjar).2]

namespace JarMerger

/-- Whether there are two versions of a class that cannot be merged. -/
def conflicts (m : JarMerger) : EntrySides → Bool
  | .both client server =>
    client != server && match m.codec.decode client, m.codec.decode server with
      | .ok c, .ok d => (ClassMerger.conflict? c d).isSome
      | _, _ => false
  | _ => false

/-- Whether an entry is left out: only classes are, for the filter or for a conflict. -/
def leavesOut (m : JarMerger) (entry : String) (sides : EntrySides) : Bool :=
  match ClassNode.nameOfEntry? entry with
  | some className => !m.filter.includes className || (m.onFailure.skips && m.conflicts sides)
  | none => false

/-- The bytes that a merged jar has for an entry. They are copied, but for a class of which
the sides have different versions: this one is merged, or kept as the client has it. -/
def Gives (m : JarMerger) (entry : String) (bytes : Bytes) : EntrySides → Prop
  | .client c => bytes = c
  | .server s => bytes = s
  | .both c s =>
    if ClassNode.nameOfEntry? entry = none ∨ c = s then bytes = c
    else ∃ client server, m.codec.decode c = .ok client ∧ m.codec.decode s = .ok server ∧
      if ClassMerger.conflict? client server = none then
        m.codec.encode (m.merger.combine client server) = .ok bytes
      else m.onFailure = .keepClient ∧ bytes = c

variable {m : JarMerger} {entry : String} {sides : EntrySides} {s s' : MergeState}

/-- One look at an entry: it is left out or written, and counted. -/
structure Taken (m : JarMerger) (entry : String) (sides : EntrySides) (s s' : MergeState) : Prop where
  written : (m.leavesOut entry sides = true ∧ s'.jar = s.jar) ∨
    (m.leavesOut entry sides = false ∧ ∃ bytes, m.Gives entry bytes sides ∧ s'.jar = s.jar.write entry bytes)
  counted : s'.stats.total = s.stats.total + 1

theorem gives_copy {c d : Bytes} (h : ClassNode.nameOfEntry? entry = none ∨ c = d) :
    m.Gives entry c (.both c d) := by
  unfold Gives
  dsimp only
  rw [if_pos h]

theorem gives_versions {c d bytes : Bytes} {client server : ClassNode}
    (h : ¬ (ClassNode.nameOfEntry? entry = none ∨ c = d)) (hc : m.codec.decode c = .ok client)
    (hd : m.codec.decode d = .ok server)
    (hbytes : if ClassMerger.conflict? client server = none then
        m.codec.encode (m.merger.combine client server) = .ok bytes
      else m.onFailure = .keepClient ∧ bytes = c) : m.Gives entry bytes (.both c d) := by
  unfold Gives
  dsimp only
  rw [if_neg h]
  exact ⟨client, server, hc, hd, hbytes⟩

theorem taken_mergeVersions {className : String} {c d : Bytes} (hp : m.onFailure.BuiltIn)
    (hclass : ClassNode.nameOfEntry? entry = some className)
    (hfilter : m.filter.includes className = true) (hdiffer : c ≠ d)
    (h : (m.mergeVersions entry c d s).outcome = .ok s') : m.Taken entry (.both c d) s s' := by
  unfold mergeVersions at h
  rw [Traced.outcome_bind] at h
  obtain ⟨client, hclient, h⟩ := ok_of_bind h
  rw [Traced.outcome_bind] at h
  obtain ⟨server, hserver, h⟩ := ok_of_bind h
  have hc := Codec.decode_of_decodeEntry hclient
  have hd := Codec.decode_of_decodeEntry hserver
  have hconflicts : m.conflicts (.both c d) = (ClassMerger.conflict? client server).isSome := by
    simp [conflicts, hdiffer, hc, hd]
  have hleaves : m.leavesOut entry (.both c d) =
      (m.onFailure.skips && (ClassMerger.conflict? client server).isSome) := by
    simp [leavesOut, hclass, hfilter, hconflicts]
  have hversions : ¬ (ClassNode.nameOfEntry? entry = none ∨ c = d) := by simp [hclass, hdiffer]
  unfold ClassMerger.mergeBoth at h
  cases hconflict : ClassMerger.conflict? client server with
  | none =>
    rw [hconflict] at h
    dsimp only at h
    rw [Traced.outcome_bind] at h
    obtain ⟨bytes, hbytes, h⟩ := ok_of_bind h
    obtain rfl := MergeState.eq_of_store h
    refine ⟨.inr ⟨by simp [hleaves, hconflict], bytes, ?_, rfl⟩, ?_⟩
    · refine gives_versions hversions hc hd ?_
      rw [if_pos hconflict]
      exact Codec.encode_of_encodeClass hbytes
    · simp only [MergeState.count, MergeStats.total]
      omega
  | some reason =>
    rw [hconflict] at h
    have hcount : (s.count fun n => { n with failed := n.failed + 1 }).stats.total =
        s.stats.total + 1 := by
      simp only [MergeState.count, MergeStats.total]
      omega
    dsimp only at h
    unfold handleFailure at h
    cases hpolicy : m.onFailure with
    | fatal =>
      rw [hpolicy] at h
      cases h
    | keepClient =>
      rw [hpolicy] at h
      obtain rfl := MergeState.eq_of_store h
      refine ⟨.inr ⟨by simp [hleaves, hpolicy, FailurePolicy.skips], c, ?_, rfl⟩, hcount⟩
      refine gives_versions hversions hc hd ?_
      rw [if_neg (by simp [hconflict])]
      exact ⟨hpolicy, rfl⟩
    | skipClass =>
      rw [hpolicy] at h
      cases h
      exact ⟨.inl ⟨by simp [hleaves, hpolicy, hconflict, FailurePolicy.skips], rfl⟩, hcount⟩
    | custom handle =>
      rw [hpolicy] at hp
      cases hp

/-- Bytes that are copied are written and counted. -/
theorem taken_store {bytes : Bytes} {f : MergeStats → MergeStats}
    (hleaves : m.leavesOut entry sides = false) (hgives : m.Gives entry bytes sides)
    (hcount : ∀ n, (f n).total = n.total + 1)
    (h : ((s.count f).store entry bytes).outcome = .ok s') : m.Taken entry sides s s' := by
  obtain rfl := MergeState.eq_of_store h
  exact ⟨.inr ⟨hleaves, bytes, hgives, rfl⟩, hcount s.stats⟩

theorem taken_mergeEntry (hp : m.onFailure.BuiltIn)
    (h : (m.mergeEntry entry sides s).outcome = .ok s') : m.Taken entry sides s s' := by
  unfold mergeEntry at h
  cases hclass : ClassNode.nameOfEntry? entry with
  | none =>
    rw [hclass] at h
    refine taken_store (by simp [leavesOut, hclass]) ?_ (fun n => ?_) h
    · cases sides with
      | client bytes => rfl
      | server bytes => rfl
      | both c d => exact gives_copy (.inl hclass)
    · simp only [MergeStats.total]
      omega
  | some className =>
    rw [hclass] at h
    dsimp only at h
    split at h
    · rename_i hfilter
      have hone : ∀ one, m.conflicts one = false → m.leavesOut entry one = false := by
        intro one hconflicts
        simp [leavesOut, hclass, hfilter, hconflicts]
      unfold mergeClass at h
      cases sides with
      | client bytes =>
        refine taken_store (hone _ rfl) rfl (fun n => ?_) h
        simp only [MergeStats.total]
        omega
      | server bytes =>
        refine taken_store (hone _ rfl) rfl (fun n => ?_) h
        simp only [MergeStats.total]
        omega
      | both c d =>
        dsimp only at h
        split at h
        · rename_i hsame
          refine taken_store (hone _ (by simp [conflicts, hsame])) (gives_copy (.inr hsame))
            (fun n => ?_) h
          simp only [MergeStats.total]
          omega
        · rename_i hdiffer
          exact taken_mergeVersions hp hclass hfilter hdiffer h
    · rename_i hfilter
      cases h
      refine ⟨.inl ⟨by simp [leavesOut, hclass, hfilter], rfl⟩, ?_⟩
      simp only [MergeState.count, MergeStats.total]
      omega

/-! ## A pass -/

variable {es : List Entry} {f : Entry → EntrySides}

/-- A pass over entries: those that are not left out are written in their order, and each
one is counted. -/
structure Ran (m : JarMerger) (f : Entry → EntrySides) (es : List Entry) (s s' : MergeState) :
    Prop where
  names : s'.jar.allNames =
    s.jar.allNames ++ (es.filter fun e => !m.leavesOut e.name (f e)).map Entry.name
  bytes : ∀ e ∈ s'.jar.entries,
    e ∈ s.jar.entries ∨ ∃ d ∈ es, e.name = d.name ∧ m.Gives e.name e.bytes (f d)
  counted : s'.stats.total = s.stats.total + es.length

/-- A look at an entry and then a pass over others are a pass over all of them. -/
theorem Ran.cons {e : Entry} {u : MergeState} (hfree : ¬ s.jar.contains e.name)
    (hfirst : m.Taken e.name (f e) s u) (hrest : m.Ran f es u s') : m.Ran f (e :: es) s s' := by
  have hcount : s'.stats.total = s.stats.total + (es.length + 1) := by
    rw [hrest.counted, hfirst.counted]
    omega
  rcases hfirst.written with ⟨hleft, hjar⟩ | ⟨hleft, bytes, hgives, hjar⟩
  · refine ⟨?_, fun x hx => ?_, hcount⟩
    · rw [hrest.names, hjar, List.filter_cons_of_neg (by simp [hleft])]
    · rcases hrest.bytes x hx with hx | ⟨d, hd, hx⟩
      · exact .inl (hjar ▸ hx)
      · exact .inr ⟨d, List.mem_cons_of_mem e hd, hx⟩
  · have hentries := Jar.entries_write hfree bytes
    refine ⟨?_, fun x hx => ?_, hcount⟩
    · rw [hrest.names, List.filter_cons_of_pos (by simp [hleft])]
      unfold Jar.allNames
      rw [hjar, hentries]
      simp
    · rcases hrest.bytes x hx with hx | ⟨d, hd, hx⟩
      · rw [hjar, hentries] at hx
        rcases List.mem_append.mp hx with hx | hx
        · exact .inl hx
        · rw [List.mem_singleton.mp hx]
          exact .inr ⟨e, List.mem_cons_self, rfl, hgives⟩
      · exact .inr ⟨d, List.mem_cons_of_mem e hd, hx⟩

/-- A pass over new names, if each step is a look at the entry. -/
theorem ran_of_steps (hp : m.onFailure.BuiltIn) {step : MergeState → Entry → Traced MergeState}
    (hstep : ∀ u v, ∀ e ∈ es, ¬ u.jar.contains e.name → (step u e).outcome = .ok v →
      (m.mergeEntry e.name (f e) u).outcome = .ok v)
    (hdistinct : (es.map Entry.name).Nodup) (hfree : ∀ e ∈ es, ¬ s.jar.contains e.name)
    (h : (es.foldlM step s).outcome = .ok s') : m.Ran f es s s' := by
  induction es generalizing s with
  | nil =>
    cases h
    exact ⟨by simp, fun e he => .inl he, rfl⟩
  | cons e rest ih =>
    obtain ⟨hnew, hothers⟩ := List.forall_mem_cons.mp hfree
    obtain ⟨hname, hdistinct⟩ := List.nodup_cons.mp hdistinct
    rw [List.foldlM_cons, Traced.outcome_bind] at h
    obtain ⟨u, hu, h⟩ := ok_of_bind h
    have hfirst := taken_mergeEntry hp (hstep s u e List.mem_cons_self hnew hu)
    have hlater : ∀ d ∈ rest, ¬ u.jar.contains d.name := by
      intro d hd
      rcases hfirst.written with ⟨_, hjar⟩ | ⟨_, bytes, _, hjar⟩
      · rw [hjar]
        exact hothers d hd
      · rw [hjar, Jar.contains_write]
        rintro (hin | heq)
        · exact hothers d hd hin
        · exact hname (heq ▸ List.mem_map_of_mem hd)
    refine .cons hnew hfirst (ih (fun u v d hd => hstep u v d (List.mem_cons_of_mem e hd)) hdistinct
      hlater h)

/-! ## Both passes -/

variable {client server : Jar}

/-- The names that a merge looks at. -/
def names (j : Jar) : List String := (mergeable j).map Entry.name

/-- What two jars have under a name. -/
def sidesOf (client server : Jar) (name : String) : Option EntrySides :=
  match client.get? name, server.get? name with
  | some c, some s => some (.both c s)
  | some c, none => some (.client c)
  | none, some s => some (.server s)
  | none, none => none

theorem nodup_names (j : Jar) : (names j).Nodup :=
  j.distinct.sublist (List.filter_sublist.map Entry.name)

/-- An entry of the client, with the server's version of it. -/
def clientSides (server : Jar) (e : Entry) : EntrySides :=
  match server.get? e.name with
  | some bytes => .both e.bytes bytes
  | none => .client e.bytes

theorem clientSides_of_readSides {e : Entry} {sides : EntrySides}
    (h : readSides client server e = .ok sides) : sides = clientSides server e := by
  obtain ⟨found, hfound, h⟩ := ok_of_bind h
  unfold clientSides
  rw [Jar.get?_of_readOptional hfound]
  cases found <;>
  · obtain ⟨bytes, hread, h⟩ := ok_of_bind h
    obtain ⟨-, rfl⟩ := Jar.read_eq_ok.mp hread
    cases h
    rfl

theorem sidesOf_client {e : Entry} (h : e ∈ mergeable client) :
    sidesOf client server e.name = some (clientSides server e) := by
  unfold sidesOf clientSides
  rw [Jar.get?_of_mem (List.mem_of_mem_filter h)]
  cases server.get? e.name <;> rfl

theorem sidesOf_server {e : Entry} (h : e ∈ mergeable server) (hnot : ¬ client.contains e.name) :
    sidesOf client server e.name = some (.server e.bytes) := by
  unfold sidesOf
  rw [Jar.get?_of_mem (List.mem_of_mem_filter h), Jar.get?_eq_none.mpr hnot]

/-- The entries that only the server has. -/
def serverOnly (client server : Jar) : List Entry :=
  (mergeable server).filter fun e => !client.contains e.name

/-- The pass over the server passes over what the client has. -/
theorem foldlM_mergeServerEntry (m : JarMerger) (client server : Jar) (es : List Entry)
    (s : MergeState) :
    (es.foldlM (m.mergeServerEntry client server) s).outcome =
      ((es.filter fun e => !client.contains e.name).foldlM (m.mergeServerEntry client server)
        s).outcome := by
  induction es generalizing s with
  | nil => rfl
  | cons e rest ih =>
    rw [List.foldlM_cons, Traced.outcome_bind]
    by_cases hin : client.contains e.name
    · have hskip : m.mergeServerEntry client server s e = pure s := by simp [mergeServerEntry, hin]
      rw [List.filter_cons_of_neg (by simp [hin]), hskip, ← ih]
      rfl
    · rw [List.filter_cons_of_pos (by simp [hin]), List.foldlM_cons, Traced.outcome_bind]
      simp only [ih]

theorem contains_names {e : Entry} (h : e ∈ mergeable server) :
    (names client).contains e.name = client.contains e.name := by
  rw [Bool.eq_iff_iff, List.contains_iff_mem, Jar.contains_iff]
  unfold names
  rw [List.mem_map]
  constructor
  · rintro ⟨d, hd, hname⟩
    exact ⟨d, List.mem_of_mem_filter hd, hname⟩
  · rintro ⟨d, hd, hname⟩
    refine ⟨d, List.mem_filter.mpr ⟨hd, ?_⟩, hname⟩
    rw [hname]
    exact (List.mem_filter.mp h).2

/-- A merge is a pass over the entries of the client and one over those that only the
server has. -/
theorem passes_of_merge (hp : m.onFailure.BuiltIn) (h : (m.merge client server).outcome = .ok s') :
    ∃ u, m.Ran (clientSides server) (mergeable client) .start u ∧
      m.Ran (fun e => .server e.bytes) (serverOnly client server) u s' := by
  unfold merge at h
  rw [Traced.outcome_bind] at h
  obtain ⟨u, hu, h⟩ := ok_of_bind h
  have hfirst : m.Ran (clientSides server) (mergeable client) .start u :=
    ran_of_steps hp (fun u v e _ _ hv => by
      unfold mergeClientEntry at hv
      rw [Traced.outcome_bind, Traced.outcome_ofExcept] at hv
      obtain ⟨sides, hsides, hv⟩ := ok_of_bind hv
      exact clientSides_of_readSides hsides ▸ hv) (nodup_names client) (fun _ _ hin => by cases hin)
      hu
  refine ⟨u, hfirst, ?_⟩
  rw [foldlM_mergeServerEntry] at h
  have hnot : ∀ e ∈ serverOnly client server, ¬ client.contains e.name := by
    intro e he
    simpa using (List.mem_filter.mp he).2
  refine ran_of_steps hp (fun v v' e he hnew hv => ?_) ?_ (fun e he hin => ?_) h
  · unfold mergeServerEntry at hv
    rw [if_neg (by simp [hnew, hnot e he]), Traced.outcome_bind, Traced.outcome_ofExcept] at hv
    obtain ⟨bytes, hread, hv⟩ := ok_of_bind hv
    obtain ⟨-, rfl⟩ := Jar.read_eq_ok.mp hread
    exact hv
  · exact (nodup_names server).sublist (List.filter_sublist.map Entry.name)
  · -- all that is there so far are names of the client
    obtain ⟨d, hd, hname⟩ := Jar.contains_iff.mp hin
    rcases hfirst.bytes d hd with hstart | ⟨d', hd', heq, _⟩
    · cases hstart
    · refine hnot e he (Jar.contains_iff.mpr ⟨d', List.mem_of_mem_filter hd', ?_⟩)
      rw [← heq, hname]

/-- The names of the entries that a pass writes are those of its entries that are not left out. -/
theorem map_filter_leavesOut
    (h : ∀ e ∈ es, sidesOf client server e.name = some (f e)) :
    (es.filter fun e => !m.leavesOut e.name (f e)).map Entry.name =
      (es.map Entry.name).filter fun name =>
        !(sidesOf client server name).any (m.leavesOut name) := by
  rw [List.filter_map]
  congr 1
  apply List.filter_congr
  intro e he
  simp [h e he]

theorem length_dedup_append {a b : List String} (ha : a.Nodup) (hb : b.Nodup) :
    (a ++ b).dedup.length = (a ++ b.filter fun name => !a.contains name).length := by
  have hnodup : (a ++ b.filter fun name => !a.contains name).Nodup := by
    refine List.nodup_append.mpr ⟨ha, hb.filter _, ?_⟩
    rintro x hx y hy rfl
    simp [hx] at hy
  have hsame : (a ++ b).dedup.Perm (a ++ b.filter fun name => !a.contains name) := by
    refine (List.perm_ext_iff_of_nodup (List.nodup_dedup _) hnodup).mpr fun x => ?_
    by_cases hx : x ∈ a <;> simp [hx]
  exact hsame.length_eq

/-- A merge that ends has written its jar and hands on its counts. -/
theorem ends_mergeFiles {clientPath serverPath output : String} {w w' : Workspace}
    {stats : MergeStats} (h : Work.Ends (m.mergeFiles clientPath serverPath output) w stats w') :
    ∃ client server s, w.files.openJar clientPath = .ok client ∧
      w.files.openJar serverPath = .ok server ∧ (m.merge client server).outcome = .ok s ∧
      w'.files.openJar output = .ok s.jar ∧ stats = s.stats := by
  obtain ⟨client, v, hclient, hnext⟩ := Work.ends_of_bind h
  obtain ⟨hopened, hv⟩ := Work.ends_openJar hclient
  obtain ⟨server, u, hserver, hwrite⟩ := Work.ends_of_bind hnext
  obtain ⟨hopened', hu⟩ := Work.ends_openJar hserver
  rw [hv] at hopened'
  obtain ⟨out, hout, hfound⟩ := Work.ends_writeJarWith hwrite
  rw [Work.outcome_map] at hout
  obtain ⟨s, hmerge, heq⟩ := ok_of_bind hout
  obtain ⟨hjar, hstats⟩ := Prod.mk.inj (Except.ok.inj heq)
  exact ⟨client, server, s, hopened, hopened', hmerge, hjar ▸ hfound, hstats.symm⟩

/-- A merge that succeeds, under a policy of its own, gives one look to each name outside
`META-INF`: those of the client in its order, then those that only the server has. It leaves
out just the classes that the filter rejects and, if it skips them, those with a conflict;
every other name has the bytes that its sides give it. -/
theorem a_merge_gives_one_look_to_each_name (hp : m.onFailure.BuiltIn)
    {clientPath serverPath output : String} {w w' : Workspace} {stats : MergeStats}
    (h : Work.Ends (m.mergeFiles clientPath serverPath output) w stats w') :
    ∃ client server out, w.files.openJar clientPath = .ok client ∧
      w.files.openJar serverPath = .ok server ∧ w'.files.openJar output = .ok out ∧
      out.allNames =
        (names client ++ (names server).filter fun name => !(names client).contains name).filter
          (fun name => !(sidesOf client server name).any (m.leavesOut name)) ∧
      (∀ e ∈ out.entries, ∃ sides, sidesOf client server e.name = some sides ∧
        m.Gives e.name e.bytes sides) ∧
      stats.total = (names client ++ names server).dedup.length := by
  obtain ⟨client, server, s, hopened, hopened', hmerge, hfound, rfl⟩ := ends_mergeFiles h
  obtain ⟨u, hfirst, hsecond⟩ := passes_of_merge hp hmerge
  have hnot : ∀ e ∈ serverOnly client server, ¬ client.contains e.name := by
    intro e he
    simpa using (List.mem_filter.mp he).2
  have hsides : ∀ e ∈ serverOnly client server,
      sidesOf client server e.name = some (.server e.bytes) := fun e he =>
    sidesOf_server (List.mem_of_mem_filter he) (hnot e he)
  have honly : (serverOnly client server).map Entry.name =
      (names server).filter fun name => !(names client).contains name := by
    unfold serverOnly
    rw [show names server = (mergeable server).map Entry.name from rfl, List.filter_map]
    congr 1
    apply List.filter_congr
    intro e he
    rw [Function.comp, contains_names he]
  refine ⟨client, server, s.jar, hopened, hopened', hfound, ?_, fun e he => ?_, ?_⟩
  · have hstart : MergeState.start.jar.allNames = [] := rfl
    have hclients : (mergeable client).map Entry.name = names client := rfl
    rw [hsecond.names, hfirst.names, map_filter_leavesOut fun e he => sidesOf_client he,
      map_filter_leavesOut hsides, honly, List.filter_append, hstart, hclients, List.nil_append]
  · rcases hsecond.bytes e he with he | ⟨d, hd, hname, hgives⟩
    · rcases hfirst.bytes e he with hstart | ⟨d, hd, hname, hgives⟩
      · cases hstart
      · exact ⟨_, hname ▸ sidesOf_client hd, hgives⟩
    · exact ⟨_, hname ▸ hsides d hd, hgives⟩
  · rw [hsecond.counted, hfirst.counted, length_dedup_append (nodup_names client)
      (nodup_names server), List.length_append, ← honly, List.length_map]
    have hstart : MergeState.start.stats.total = 0 := rfl
    have hclients : (names client).length = (mergeable client).length := List.length_map _
    omega

/-- A merge of classes whose names have one letter, without those that conflict. -/
def smallMerge : JarMerger :=
  ⟨.json, ⟨true⟩, ⟨[Regex.isMatch [.start, .one (.except '/'), .stop]]⟩, .skipClass⟩

def smallClient : Jar :=
  Jar.ofEntries [⟨"META-INF/MANIFEST.MF", [0]⟩, ⟨"notes.txt", [1]⟩,
    ⟨"a.class", Utf8.encode "\x7b\"name\":\"a\"\x7d"⟩, ⟨"b.class", [2]⟩, ⟨"far/c.class", [3]⟩]

def smallServer : Jar :=
  Jar.ofEntries [⟨"d.class", [4]⟩, ⟨"notes.txt", [5]⟩,
    ⟨"a.class", Utf8.encode "\x7b\"name\":\"a\",\"super_name\":\"b\"\x7d"⟩, ⟨"b.class", [2]⟩]

def smallWorkspace : Workspace :=
  .ofFiles ((Files.empty.putAt (Files.home.push "client.jar") (.file (.jar smallClient))).putAt
    (Files.home.push "server.jar") (.file (.jar smallServer)))

theorem a_small_merge_skips_a_conflict :
    ∃ w out stats, Work.Ends (smallMerge.mergeFiles "client.jar" "server.jar" "out.jar")
        smallWorkspace stats w ∧
      w.files.openJar "out.jar" = .ok out ∧ out.allNames = ["notes.txt", "b.class", "d.class"] ∧
      stats.total = 5 := by
  have hclient : smallWorkspace.files.openJar "client.jar" = .ok smallClient :=
    Files.openJar_of_plain ⟨by simp, by decide, by decide, by decide, by decide, by decide⟩ rfl rfl
  have hserver : smallWorkspace.files.openJar "server.jar" = .ok smallServer :=
    Files.openJar_of_plain ⟨by simp, by decide, by decide, by decide, by decide, by decide⟩ rfl rfl
  have hout : Files.PlainName "out.jar" :=
    ⟨by simp, by decide, by decide, by decide, by decide, by decide⟩
  cases hmerge : (smallMerge.merge smallClient smallServer).outcome with
  | error e =>
    have hok : (smallMerge.merge smallClient smallServer).outcome.isOk = true := by decide +kernel
    rw [hmerge] at hok
    cases hok
  | ok s =>
    have hbody : ((fun r : MergeState => (r.jar, r.stats)) <$>
        smallMerge.merge smallClient smallServer).outcome = .ok (s.jar, s.stats) := by
      rw [Work.outcome_map, hmerge]
      rfl
    obtain ⟨w, hwrite⟩ := Work.writeJarWith_ends (w := smallWorkspace) hout rfl rfl hbody
    have hends : Work.Ends (smallMerge.mergeFiles "client.jar" "server.jar" "out.jar")
        smallWorkspace s.stats w :=
      Work.ends_bind (Work.openJar_ends hclient) (Work.ends_bind (Work.openJar_ends hserver) hwrite)
    obtain ⟨client, server, out, hopened, hopened', hfound, hnames, _, htotal⟩ :=
      a_merge_gives_one_look_to_each_name (m := smallMerge) trivial hends
    rw [hclient] at hopened
    cases hopened
    rw [hserver] at hopened'
    cases hopened'
    refine ⟨w, out, s.stats, hends, hfound, ?_, ?_⟩
    · rw [hnames]
      decide +kernel
    · rw [htotal]
      decide +kernel

end JarMerger

end JarDerivation
