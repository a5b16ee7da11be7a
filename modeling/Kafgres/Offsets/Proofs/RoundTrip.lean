/-
What OffsetFetch reads back. From version 10 on a fetch has ids alone;
the handler passes on the empty name, which no topic has, so every
partition reads as never committed.
-/
import Kafgres.Offsets.Proofs.Commit

namespace Kafgres.Offsets

open Meta Codec Access List Function OffsetFetchRequest
open Txn (OffsetKey OffsetCommit Staged)

variable {db : Db} {group : String} {authz : Authz} {v : ℤ} {b : Bool} {g : FetchGroup}
  {name : String → Uuid} {α : Type}

-- ==== rows

theorem committedForTopic_eq (t : Topic) (p : Int32) :
    committedForTopic db group t.topicId p = db.stored ⟨group, t.key p⟩ := by
  unfold committedForTopic Db.stored Txn.stored
  congr 2
  funext r
  obtain ⟨⟨g, k⟩, c⟩ := r
  obtain ⟨topic, partition, _⟩ := k
  simp [Topic.key]

/-- Nothing is stored under the id zero. -/
theorem committedForTopic_zero (p : Int32) : committedForTopic db group 0 p = none := by
  unfold committedForTopic
  rw [Option.map_eq_none_iff, find?_eq_none]
  intro r _ h
  exact r.1.key.topic_ne_zero (of_decide_eq_true h).2.1

theorem fetchPartition_eq (topicId : UInt32) (p : Int32) :
    fetchPartition db group false topicId p = answer p (committedForTopic db group topicId p) := rfl

theorem mem_committedTopics {e : String × UInt32 × List Int32} :
    e ∈ committedTopics db group ↔ ∃ t ∈ db.topics.rows.rows,
      e.1 = t.name ∧ e.2.1 = t.topicId ∧ e.2.2 ≠ [] ∧
      e.2.2 = ((db.offsets.filter fun r =>
        r.1.group = group ∧ r.1.key.topic = t.topicId).map
          (·.1.key.partition)).insertionSort (· ≤ ·) := by
  unfold committedTopics
  rw [mem_filterMap]
  constructor
  · rintro ⟨t, ht, h⟩
    dsimp only at h
    split at h
    next => cases h
    next hne =>
      cases h
      exact ⟨t, ht, rfl, rfl, hne, rfl⟩
  · rintro ⟨t, ht, h1, h2, h3, h4⟩
    refine ⟨t, ht, ?_⟩
    rw [← h4, if_neg h3, ← h1, ← h2]

/-- The partitions listed of a topic are those with an offset. -/
theorem mem_committed_partitions (t : Topic) (p : Int32) :
    p ∈ ((db.offsets.filter fun r => r.1.group = group ∧ r.1.key.topic = t.topicId).map
        (·.1.key.partition)).insertionSort (· ≤ ·) ↔ ∃ c, db.stored ⟨group, t.key p⟩ = some c := by
  rw [(perm_insertionSort _ _).mem_iff, mem_map]
  unfold Db.stored Txn.stored
  constructor
  · rintro ⟨r, hr, rfl⟩
    obtain ⟨hr, hk⟩ := mem_filter.1 hr
    obtain ⟨hg, ht⟩ := of_decide_eq_true hk
    have hsome : ((db.offsets.find? fun r' => r'.1 = ⟨group, t.key r.1.key.partition⟩).isSome) := by
      rw [find?_isSome]
      refine ⟨r, hr, decide_eq_true ?_⟩
      obtain ⟨⟨g, ⟨topic, partition, hne⟩⟩, c⟩ := r
      subst hg
      subst ht
      rfl
    obtain ⟨r', hr'⟩ := Option.isSome_iff_exists.1 hsome
    exact ⟨r'.2, by rw [hr']; rfl⟩
  · rintro ⟨c, hc⟩
    obtain ⟨r, hr, -⟩ := Option.map_eq_some_iff.1 hc
    have hk : r.1 = ⟨group, t.key p⟩ := by
      simpa using find?_some hr
    exact ⟨r, mem_filter.2 ⟨mem_of_find?_eq_some hr, decide_eq_true ⟨hk ▸ rfl, hk ▸ rfl⟩⟩, hk ▸ rfl⟩

-- ==== a group

/-- Topics that were asked for, in an answer that reads by name. -/
theorem told_some (db : Db) (group : String) {list : List FetchTopic}
    (hids : v ≥ 10 → ∀ t ∈ list, t.name = "") (hname : name "" = 0) :
    Told db.stored db.topics v group (list.map fun t => ⟨name t.name, t.name,
        t.partitionIndexes.map (fetchPartition db group false
          ((db.topics.byName t.name).elim 0 (·.topicId)))⟩) (some list) ↔
      (v ≥ 10 → ∀ t ∈ list, t.Blank v db group) := by
  simp only [Told]
  rw [map_map, map_inj_left]
  by_cases hv : v ≥ 10
  · -- by id: the name is empty, and what is read is nothing
    constructor
    · intro h _ t ht
      have h := h t ht
      simp only [comp_apply, label, if_pos hv, hids hv t ht, hname,
        Topics.byName_empty, Option.elim_none, fetchPartition_eq,
        committedForTopic_zero, Prod.mk.injEq, Sum.inr.injEq,
        map_inj_left] at h
      exact ⟨h.1.symm, fun p hp => (h.2 p hp).symm⟩
    · intro h t ht
      have hb := h hv t ht
      simp only [comp_apply, label, if_pos hv, hids hv t ht, hname,
        Topics.byName_empty, Option.elim_none, fetchPartition_eq,
        committedForTopic_zero, Prod.mk.injEq, Sum.inr.injEq,
        map_inj_left]
      exact ⟨hb.1.symm, fun p hp => (hb.2 p hp).symm⟩
  · refine iff_of_true (fun t _ => ?_) fun h => absurd h hv
    simp only [comp_apply, label, if_neg hv, Prod.mk.injEq, true_and, map_inj_left]
    intro p _
    unfold FetchTopic.expected FetchTopic.topic
    rw [if_neg hv, fetchPartition_eq]
    cases db.topics.byName t.name with
    | none => rw [Option.elim_none, committedForTopic_zero]; rfl
    | some topic => rw [Option.elim_some, committedForTopic_eq]; rfl

/-- Every topic with an offset. -/
theorem told_none (db : Db) (group : String)
    (hname : v ≥ 10 → ∀ t ∈ db.topics.rows.rows, name t.name = t.uuid) :
    Told db.stored db.topics v group ((committedTopics db group).map fun e => ⟨name e.1, e.1,
        e.2.2.map (fetchPartition db group false e.2.1)⟩) none := by
  -- an entry under a topic's label is the topic's
  have hlabel : ∀ t ∈ db.topics.rows.rows, ∀ t' ∈ db.topics.rows.rows,
      label v t.name (name t.name) = label v t'.name t'.uuid → t = t' := by
    intro t ht t' ht' h
    unfold label at h
    by_cases hv : v ≥ 10
    · rw [if_pos hv, if_pos hv, Sum.inr.injEq, hname hv t ht] at h
      exact inj_on_of_nodup_map db.topics.uuids ht ht' h
    · rw [if_neg hv, if_neg hv, Sum.inl.injEq] at h
      exact inj_on_of_nodup_map db.topics.names ht ht' h
  intro topic htopic fp
  constructor
  · rintro ⟨_, hgot, hl, hfp⟩
    obtain ⟨e, he, rfl⟩ := mem_map.1 hgot
    obtain ⟨t, ht, h1, h2, -, h4⟩ := mem_committedTopics.1 he
    rw [h1] at hl
    obtain rfl := hlabel t ht topic htopic hl
    rw [h2, h4] at hfp
    obtain ⟨p, hp, rfl⟩ := mem_map.1 hfp
    obtain ⟨c, hc⟩ := (mem_committed_partitions t p).1 hp
    rw [fetchPartition_eq, committedForTopic_eq, hc]
    exact ⟨c, hc, rfl⟩
  · rintro ⟨c, hc, hfp⟩
    have hp := (mem_committed_partitions topic fp.partitionIndex).2 ⟨c, hc⟩
    have hmem : (topic.name, topic.topicId, _) ∈ committedTopics db group :=
      mem_committedTopics.2 ⟨topic, htopic, rfl, rfl, ne_nil_of_mem hp, rfl⟩
    refine ⟨_, mem_map_of_mem hmem, ?_, ?_⟩
    · unfold label
      split
      next hv => rw [hname hv topic htopic]
      next => rfl
    · refine mem_map.2 ⟨fp.partitionIndex, hp, ?_⟩
      rw [fetchPartition_eq, committedForTopic_eq, hc]
      exact hfp.symm

-- ==== the caps

theorem checkLen_bind {what : String} {cap n : ℕ} {x : Unit → Except HandlerError α} {r : α} :
    (checkLen what cap n >>= x) = .ok r ↔ n ≤ cap ∧ x () = .ok r := by
  unfold checkLen
  by_cases h : n > cap
  · rw [if_pos h]
    exact iff_of_false nofun fun h' => not_lt.2 h'.1 h
  · rw [if_neg h]
    exact (and_iff_right (not_lt.1 h)).symm

theorem fetchTopics_some {list : List (String × List Int32)} {r : List FetchedTopic} :
    fetchTopics db group (some list) b = .ok r ↔ (list.length ≤ maxOffsetPartitions ∧
        (list.map fun e => e.2.length).sum ≤ maxOffsetPartitions) ∧
      r = list.map fun e => ⟨e.1, e.2.map (fetchPartition db group b
        ((db.topics.byName e.1).elim 0 (·.topicId)))⟩ := by
  have hread : (resolveRequested db.topics list).map (fun e =>
      (⟨e.1, e.2.2.map (fetchPartition db group b e.2.1)⟩ : FetchedTopic)) =
      list.map fun e => ⟨e.1, e.2.map (fetchPartition db group b
        ((db.topics.byName e.1).elim 0 (·.topicId)))⟩ := by
    unfold resolveRequested
    rw [map_map]
    rfl
  have hsum : ((resolveRequested db.topics list).map
      fun e => e.2.2.length).sum = (list.map fun e => e.2.length).sum := by
    unfold resolveRequested
    rw [map_map]
    rfl
  unfold fetchTopics wantedTopics
  rw [bind_assoc, checkLen_bind, pure_bind, checkLen_bind, hsum, hread, and_assoc]
  exact and_congr_right fun _ => and_congr_right fun _ =>
    ⟨fun h => (Except.ok.inj h).symm, fun h => congrArg _ h.symm⟩

theorem fetchTopics_none {r : List FetchedTopic} :
    fetchTopics db group none b = .ok r ↔
      ((committedTopics db group).map fun e => e.2.2.length).sum ≤ maxOffsetPartitions ∧
      r = (committedTopics db group).map fun e =>
        ⟨e.1, e.2.2.map (fetchPartition db group b e.2.1)⟩ := by
  refine checkLen_bind.trans (and_congr_right fun _ => ?_)
  exact ⟨fun h => (Except.ok.inj h).symm, fun h => congrArg _ h.symm⟩

/-- The names and partitions of a list, as `fetch_topics` takes it. -/
abbrev names (topics : Option (List FetchTopic)) : Option (List (String × List Int32)) :=
  topics.map fun list => list.map fun t => (t.name, t.partitionIndexes)

/-- A request at version `v` has no names where topics go by id. -/
def FetchGroup.Decoded (g : FetchGroup) (v : ℤ) : Prop :=
  v ≥ 10 → ∀ list, g.topics = some list → ∀ t ∈ list, t.name = ""

/-- `fetch_topics` reads back the last accepted commits of a group if the
list fits and names its topics, and then only. -/
theorem fetchTopics_told (hg : g.Decoded v) (hempty : name "" = 0)
    (hname : v ≥ 10 → ∀ t ∈ db.topics.rows.rows, name t.name = t.uuid) :
    (∃ r, fetchTopics db g.groupId (names g.topics) false = .ok r ∧
      Told db.stored db.topics v g.groupId
        (r.map fun t => ⟨name t.name, t.name, t.partitions⟩) g.topics) ↔
      g.Fits db ∧ g.NamesTopics v db := by
  obtain ⟨groupId, topics⟩ := g
  cases topics with
  | some list =>
    have htold := told_some db groupId (fun hv t ht => hg hv list rfl t ht) hempty
    simp only [FetchGroup.Fits, FetchGroup.NamesTopics, ← htold, names,
      Option.map_some, fetchTopics_some, length_map, map_map]
    constructor
    · rintro ⟨_, ⟨hfits, rfl⟩, h⟩
      rw [map_map] at h
      exact ⟨hfits, h⟩
    intro h
    refine ⟨_, ⟨h.1, rfl⟩, ?_⟩
    rw [map_map]
    exact h.2
  | none =>
    have htold := told_none db groupId hname
    simp only [FetchGroup.Fits, FetchGroup.NamesTopics, and_true, names,
      Option.map_none, fetchTopics_none]
    refine ⟨fun ⟨_, h, _⟩ => h.1, ?_⟩
    intro h
    refine ⟨_, ⟨h, rfl⟩, ?_⟩
    rw [map_map]
    exact htold

-- ==== a request

/-- The two ways a group is answered, with the group's part of the answer
and the ids put to the names. -/
theorem checked_right (db : Db) (authz : Authz) (hg : g.Decoded v) (name : String → Uuid)
    (hempty : name "" = 0) (hname : v ≥ 10 → ∀ t ∈ db.topics.rows.rows, name t.name = t.uuid)
    (part : α → FetchedGroup) (refused : ErrorCode → α) (served : List FetchedTopic → α)
    (hrefused : ∀ code, (part (refused code)).errorCode = code)
    (hserved : ∀ r, part (served r) = ⟨g.groupId,
      r.map fun t => ⟨name t.name, t.name, t.partitions⟩, .none⟩) :
    (∃ a, (match authz.check .read .group g.groupId with
        | some code => .ok (refused code)
        | none => do
            let r ← fetchTopics db g.groupId (names g.topics) false
            return served r) = Except.ok a ∧
      (part a).Right db.stored db.topics v g) ↔
      authz.allows .read .group g.groupId = true ∧ g.Fits db ∧ g.NamesTopics v db := by
  rw [← fetchTopics_told hg hempty hname]
  cases hc : authz.check .read .group g.groupId with
  | some code =>
    refine iff_of_false ?_ fun h =>
      nomatch hc.symm.trans (Authz.check_eq_none.2 h.1)
    rintro ⟨a, ha, hr⟩
    cases ha
    exact check_ne_none (hc.trans (congrArg some ((hrefused code).symm.trans hr.errorCode)))
  | none =>
    rw [Authz.check_eq_none.1 hc, eq_self_iff_true, true_and]
    cases hf : fetchTopics db g.groupId (names g.topics) false with
    | error e =>
      exact iff_of_false (fun ⟨_, h, _⟩ => nomatch h) fun ⟨_, h, _⟩ => nomatch h
    | ok r =>
      constructor
      · rintro ⟨a, ha, hr⟩
        cases ha
        have ht := hr.told
        rw [hserved] at ht
        exact ⟨r, rfl, ht⟩
      · rintro ⟨r', hr', ht⟩
        cases hr'
        refine ⟨_, rfl, ?_⟩
        rw [hserved]
        exact ⟨rfl, rfl, ht⟩

/-- One group, from version 8 on. -/
theorem fetchGroup_right (hg : g.Decoded v) :
    (∃ e, fetchGroup db authz false g = .ok e ∧ e.Right db.stored db.topics v g) ↔
      authz.allows .read .group g.groupId = true ∧ g.Fits db ∧ g.NamesTopics v db := by
  -- the id that goes with a name is the topic's own
  let name : String → Uuid := fun n => ((db.topics.byName n).bind fun _ =>
    db.topics.resolve n 0).elim 0 (·.uuid)
  have hempty : name "" = 0 := by
    show ((db.topics.byName "").bind _).elim 0 _ = 0
    rw [Topics.byName_empty]
    rfl
  have hname : v ≥ 10 → ∀ t ∈ db.topics.rows.rows, name t.name = t.uuid := by
    intro _ t ht
    show ((db.topics.byName t.name).bind _).elim 0 _ = t.uuid
    unfold Topics.resolve
    rw [Topics.byName_eq_some.2 ⟨ht, rfl⟩, if_neg t.name_ne_empty]
    rfl
  unfold fetchGroup fetchTopicsV8
  simp only [bind_assoc, pure_bind]
  exact checked_right db authz hg name hempty hname id _ _ (fun _ => rfl) fun _ => rfl

/-- A request of several groups succeeds if each of them does. -/
theorem mapM_right {β ε : Type} {f : α → Except ε β} {P : α → β → Prop} {l : List α} :
    (∃ r, l.mapM f = .ok r ∧ List.Forall₂ P l r) ↔ ∀ a ∈ l, ∃ b, f a = .ok b ∧ P a b := by
  induction l with
  | nil => exact iff_of_true ⟨[], rfl, .nil⟩ nofun
  | cons a l ih =>
    rw [forall_mem_cons, ← ih, mapM_cons]
    cases hf : f a with
    | error e =>
      exact iff_of_false (fun ⟨_, h, _⟩ => nomatch h) fun ⟨⟨_, h, _⟩, _⟩ => nomatch h
    | ok b =>
      cases hl : l.mapM f with
      | error e =>
        exact iff_of_false (fun ⟨_, h, _⟩ => nomatch h) fun ⟨_, _, h, _⟩ => nomatch h
      | ok r =>
        constructor
        · rintro ⟨r', hr', h⟩
          cases hr'
          cases h with
          | cons hb hr => exact ⟨⟨b, rfl, hb⟩, r, rfl, hr⟩
        · rintro ⟨⟨b', hb', hb⟩, r', hr', hr⟩
          cases hb'
          cases hr'
          exact ⟨_, rfl, .cons hb hr⟩

theorem OffsetFetchRequest.carried_decoded (req : OffsetFetchRequest)
    (v : ℤ) : ∀ g ∈ (req.carried v).asked v, g.Decoded v := by
  intro g hg hv list hlist t ht
  unfold carried asked at hg
  have hb : ¬ v < batchedFrom := by
    unfold batchedFrom
    omega
  rw [if_neg hb, if_pos (not_lt.1 hb)] at hg
  obtain ⟨g, -, rfl⟩ := mem_map.1 hg
  obtain ⟨ts, -, rfl⟩ := Option.map_eq_some_iff.1 hlist
  obtain ⟨t, -, rfl⟩ := mem_map.1 ht
  exact if_pos hv

variable {req : OffsetFetchRequest}

/-- Below version 8 a request has one group, and names topics. -/
theorem roundTrip_single (hstable : req.requireStable = false) (hv : v < batchedFrom) :
    req.RoundTrip v db.stored db.topics (offsetFetch db req v authz) ↔
      req.Answerable v db authz := by
  have hv' : ¬ v ≥ 10 := by
    unfold batchedFrom at hv
    omega
  let g : FetchGroup := ⟨req.groupId, req.topics.map fun list =>
    list.map fun e => ⟨e.1, 0, e.2⟩⟩
  have hnames : names g.topics = req.topics := by
    show (req.topics.map _).map _ = req.topics
    rw [Option.map_map]
    refine (Option.map_congr fun list _ => ?_).trans Option.map_id'
    show (list.map _).map _ = list
    rw [map_map]
    exact map_id _
  have hg : g.Decoded v := fun h => absurd h hv'
  have hright := checked_right db authz hg (fun _ => 0) rfl (fun h => absurd h hv')
    (fun resp : OffsetFetchResponse => ⟨req.groupId,
      resp.topics.map fun t => ⟨0, t.name, t.partitions⟩, resp.errorCode⟩)
    (fun code => ⟨[], code, []⟩) (fun r => ⟨r, .none, []⟩) (fun _ => rfl)
    fun _ => rfl
  rw [hnames] at hright
  unfold RoundTrip Answerable asked told offsetFetch
  simp only [if_pos hv, forall_mem_singleton, hstable, forall₂_cons, forall₂_nil_left_iff, and_true]
  rw [and_iff_right fun h => absurd hv (not_lt.2 h)]
  exact hright

/-- From version 8 on. -/
theorem roundTrip_batched (hstable : req.requireStable = false)
    (hv : ¬ v < batchedFrom) (hreq : ∀ g ∈ req.asked v, g.Decoded v) :
    req.RoundTrip v db.stored db.topics (offsetFetch db req v authz) ↔
      req.Answerable v db authz := by
  unfold RoundTrip Answerable told offsetFetch
  unfold asked at hreq ⊢
  simp only [if_neg hv, hstable] at hreq ⊢
  rw [forall_congr' fun g => forall_congr' fun hg =>
    (fetchGroup_right (hreq g hg)).symm, ← mapM_right]
  constructor
  · rintro ⟨resp, hresp, hall⟩
    obtain ⟨hlen, hresp⟩ := checkLen_bind.1 hresp
    cases hm : req.groups.mapM (fetchGroup db authz false) with
    | error e =>
      simp [hm] at hresp
    | ok r =>
      rw [hm] at hresp
      cases hresp
      exact ⟨fun _ => hlen, r, rfl, hall⟩
  · rintro ⟨hlen, r, hm, hall⟩
    refine ⟨⟨[], .none, r⟩, checkLen_bind.2 ⟨hlen (not_lt.1 hv), ?_⟩, hall⟩
    rw [hm]
    rfl

/-- For every run of commits and deletions and every version, a fetch that
does not ask for stable offsets reads back the last accepted commits
exactly when it is answerable: the sender may read its groups, its lists
fit, and it does not name topics by id. -/
theorem offset_fetch_reads_back_iff (topics : Topics)
    (groups : String → GroupTables) (ops : List Op)
    (v : ℤ) (authz : Authz) (req : OffsetFetchRequest) (hstable : req.requireStable = false) :
    (req.carried v).RoundTrip v (last (ops.foldl System.step (System.init topics groups)).history)
      (ops.foldl System.step (System.init topics groups)).db.topics
      (offsetFetch (ops.foldl System.step (System.init topics groups)).db (req.carried v) v authz) ↔
      (req.carried v).Answerable v
        (ops.foldl System.step (System.init topics groups)).db authz := by
  have hst : (req.carried v).requireStable = false := by
    unfold carried
    split
    · exact hstable
    · rw [hstable, Bool.and_false]
  rw [← stored_eq_last]
  by_cases hv : v < batchedFrom
  · exact roundTrip_single hst hv
  · exact roundTrip_batched hst hv (req.carried_decoded v)

-- ==== an order

/-- A broker without ACLs. -/
def anyone : Authz := ⟨⟨[], false, []⟩, ⟨"User:ANONYMOUS", "127.0.0.1"⟩⟩

/-- One commit at version `v`, with the name and the id of the topic. -/
def commitsOrders (v : ℤ) : List Op := [.createTopic orders,
    .offsetCommit v 0 anyone ⟨"g", -1, "", none, [⟨"orders", 7, [⟨0, 42, 3, some "m"⟩]⟩]⟩]

def ordersSystem (v : ℤ) : System :=
  (commitsOrders v).foldl System.step (System.init .empty fun _ => {})

/-- Asks for the first partition, by name and by id. -/
def fetchOrders : OffsetFetchRequest :=
  ⟨"g", some [("orders", [0])], [⟨"g", some [⟨"orders", 7, [0]⟩]⟩], false⟩

/-- Committed by id at version 10 and read back by name at version 9. -/
theorem offset_fetch_reads_back_orders :
    (fetchOrders.carried 9).RoundTrip 9 (last (ordersSystem 10).history) (ordersSystem 10).db.topics
      (offsetFetch (ordersSystem 10).db (fetchOrders.carried 9) 9 anyone) :=
  (offset_fetch_reads_back_iff .empty (fun _ => {}) (commitsOrders 10) 9
    anyone fetchOrders rfl).2 (by decide +kernel)

/-- Committed and accepted, and read back at version 10 by the id the
version provides: no offset, under no id. -/
theorem fetch_by_id_reads_nothing :
    last (ordersSystem 10).history ⟨"g", orders.key 0⟩ = some ⟨42, 3, some "m"⟩ ∧
      offsetFetch (ordersSystem 10).db (fetchOrders.carried 10) 10 anyone =
        .ok ⟨[], .none, [⟨"g", [⟨0, "", [⟨0, -1, -1, some "", .none⟩]⟩], .none⟩]⟩ ∧
      ¬ (fetchOrders.carried 10).RoundTrip 10 (last (ordersSystem 10).history)
        (ordersSystem 10).db.topics
        (offsetFetch (ordersSystem 10).db (fetchOrders.carried 10) 10 anyone) := by
  refine ⟨by decide +kernel, by decide +kernel, ?_⟩
  unfold ordersSystem
  rw [← stored_eq_last, roundTrip_batched rfl (by decide) (fetchOrders.carried_decoded 10)]
  decide +kernel

end Kafgres.Offsets
