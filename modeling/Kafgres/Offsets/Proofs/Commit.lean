/-
The table of committed offsets holds the last accepted commits.
-/
import Kafgres.Lib.Run
import Kafgres.Offsets.History

namespace Kafgres.Offsets

open Meta Codec Access Last Turns
open Txn (OffsetKey OffsetCommit Staged upsert)

variable {db : Db} {group : String} {authz : Authz} {v now : ℤ} {t : Bool} {c : Committer}
  {members : List ClassicGroup.Member}

-- ==== the table

theorem stored_commitOne (db : Db) (row : Staged) :
    (commitOne db row).stored = db.stored.after (.committed row) :=
  Txn.stored_upsert row db.offsets

theorem stored_filter (db : Db) (gone : OffsetKey → Prop) [DecidablePred gone] :
    { db with offsets := db.offsets.filter fun r => ¬ gone r.1 }.stored =
      db.stored.after (.deleted fun k => gone k) :=
  Txn.stored_filter gone db.offsets

-- ==== verdict

/-- Only the group's own tables are touched. -/
theorem validateCommit_db (db : Db) (c : Committer) (t : Bool) (v now : ℤ) :
    ∃ groups, (validateCommit db c t v now).1 = { db with groups } := by
  unfold validateCommit
  dsimp only
  split
  · exact ⟨_, rfl⟩
  split
  · exact ⟨_, rfl⟩
  split
  next row _ =>
    split
    · split <;> exact ⟨_, rfl⟩
    · exact ⟨_, rfl⟩
  next =>
    split
    · exact ⟨_, rfl⟩
    split
    · exact ⟨_, rfl⟩
    split <;> exact ⟨_, rfl⟩

theorem instanceCode_ne_none : instanceCode c members ≠ some .none := by
  unfold instanceCode
  split
  · exact nofun
  split
  · exact nofun
  split <;> exact nofun

/-- A refusal has a code. -/
theorem validateClassic_ne_none {state : ClassicGroup.GroupState} {generation : ℤ} :
    validateClassic c t state generation members ≠ .refuse .none := by
  have hlate : (if t = false ∧ state = .completingRebalance then
      GroupVerdict.refuse .rebalanceInProgress else .accept) ≠
      .refuse .none := by
    split <;> exact nofun
  unfold validateClassic
  dsimp only
  split
  · exact nofun
  split
  · cases hi : instanceCode c members with
    | some code =>
      intro h
      cases h
      exact instanceCode_ne_none hi
    | none =>
      dsimp only
      split
      · exact nofun
      split
      · exact nofun
      · exact hlate
  split
  · exact nofun
  · exact hlate

theorem validateConsumerGroup_ne_none {g : ConsumerGroup.Group} :
    validateConsumerGroup g c t v ≠ .refuse .none := by
  unfold validateConsumerGroup
  split
  · simp
  split
  · simp
  split
  · simp
  split
  · simp
  split
  · simp
  split <;> simp

theorem validateCommit_ne_none : (validateCommit db c t v now).2 ≠ .refuse .none := by
  unfold validateCommit
  dsimp only
  split
  · exact nofun
  split
  · exact validateConsumerGroup_ne_none
  split
  next row _ =>
    split
    next hv => split <;> exact fun h => validateClassic_ne_none h
    next => exact validateClassic_ne_none
  next =>
    split
    · exact validateClassic_ne_none
    split
    · exact nofun
    split <;> exact nofun

theorem check_ne_none {op : Operation} {rt : ResourceType} {name : String} :
    authz.check op rt name ≠ some .none := by
  unfold Authz.check
  split
  · exact nofun
  · cases rt <;> exact nofun

-- ==== commit

/-- What holds between two partitions of a commit. -/
structure Midway (ts : Topics) (s : Db × Option GroupVerdict) : Prop where
  topics : s.1.topics = ts
  verdict : s.2 ≠ some (.refuse .none)

variable {ts : Topics} {req : OffsetCommitRequest}
  {denied : Option ErrorCode} {s : Db × Option GroupVerdict} {db' : Db}

/-- The verdict, kept or asked for now. -/
theorem groupVerdict_spec (req : OffsetCommitRequest) (v now : ℤ)
    (hs : Midway ts s) :
    ∃ groups verdict,
    groupVerdict req v now s = ({ s.1 with groups }, verdict) ∧ verdict ≠ .refuse .none := by
  unfold groupVerdict
  cases hk : s.2 with
  | some verdict =>
    exact ⟨_, verdict, rfl, fun h => hs.verdict (hk.trans (h ▸ rfl))⟩
  | none =>
    obtain ⟨groups, h⟩ := validateCommit_db s.1 req.committer false v now
    exact ⟨groups, _, Prod.ext h rfl, validateCommit_ne_none⟩

/-- One partition: the rows it leaves are those its answer says, and the
next partition finds what this one found. -/
theorem commitPartition_spec (req : OffsetCommitRequest) (v now : ℤ)
    (resolved : Option Topic) (hdenied : denied ≠ some .none)
    (hs : Midway ts s) (p : CommitPartition) :
    Midway ts (commitPartition req v now denied resolved s p).1 ∧
      (commitPartition req v now denied resolved s p).1.1.stored =
        (acceptedPartition req.groupId resolved p
          (commitPartition req v now denied resolved s p).2).foldl after s.1.stored := by
  unfold commitPartition acceptedPartition
  cases denied with
  | some code =>
    refine ⟨hs, ?_⟩
    cases resolved with
    | none => rfl
    | some t =>
      dsimp only
      rw [if_neg fun h => hdenied (congrArg some h)]
      rfl
  | none =>
    cases resolved with
    | none => exact ⟨hs, rfl⟩
    | some t =>
      dsimp only
      split
      next => exact ⟨hs, rfl⟩
      next =>
      obtain ⟨groups, verdict, hv, hne⟩ := groupVerdict_spec req v now hs
      rw [hv]
      have hmid : Midway ts ({ s.1 with groups }, some verdict) :=
        ⟨hs.topics, fun h => hne (Option.some_inj.1 h)⟩
      cases verdict with
      | refuse code =>
        refine ⟨hmid, ?_⟩
        rw [if_neg fun h => hne (congrArg _ h)]
        rfl
      | accept | heldOnly =>
        dsimp only
        split
        · exact ⟨hmid, rfl⟩
        split
        · exact ⟨⟨hmid.1, hmid.2⟩, stored_commitOne _ _⟩
        · exact ⟨hmid, rfl⟩

theorem denied_ne_none (authz : Authz) (group name : String) :
    ((authz.check .read .group group).or (authz.check .read .topic name)) ≠ some .none := by
  intro h
  rcases Option.or_eq_some_iff.1 h with h | h
  · exact check_ne_none h
  · exact check_ne_none h.2

theorem commitTopic_spec (hs : Midway ts s) (t : CommitTopic) :
    Midway ts (commitTopic req v now authz s t).1 ∧ (commitTopic req v now authz s t).1.1.stored =
        (acceptedTopic ts req.groupId t (commitTopic req v now authz s t).2).foldl
          after s.1.stored := by
  have hdenied := denied_ne_none authz req.groupId t.name
  have hstep := fun s (p : CommitPartition) (hs : Midway ts s) =>
    commitPartition_spec req v now (ts.resolve t.name t.topicId) hdenied hs p
  unfold commitTopic acceptedTopic
  rw [hs.topics]
  constructor
  · exact inv_serve (Midway ts) (fun s p _ hs => (hstep s p hs).1) hs
  · exact trace_serve (Midway ts) (fun s p hs => (hstep s p hs).1)
      (fun s => s.1.stored) (fun s p hs => (hstep s p hs).2) hs _

/-- The offsets after a commit are those its answer says it accepted. -/
theorem offsetCommit_stored {got : OffsetCommitResponse}
    (h : offsetCommit db req v now authz = .ok (db', got)) :
    db'.topics = db.topics ∧ db'.stored = (req.accepted db.topics got).foldl after db.stored := by
  have hs : Midway db.topics (db, none) := ⟨rfl, nofun⟩
  unfold offsetCommit checkLen at h
  split at h
  next => cases h
  next =>
  split at h
  next => cases h
  next =>
  cases h
  constructor
  · exact (inv_serve (Midway db.topics) (fun s t _ hs => (commitTopic_spec hs t).1) hs).topics
  · exact trace_serve (Midway db.topics)
      (fun s t hs => (commitTopic_spec hs t).1) (fun s => s.1.stored)
      (fun s t hs => (commitTopic_spec hs t).2) hs _

-- ==== deletion

theorem deletePartition_spec (group : String) (hasMembers : Bool)
    (topic : Option Topic) (hdenied : denied ≠ some .none) (hdb : db.topics = ts) (p : Int32) :
    (deletePartition group denied hasMembers topic db p).1.topics = ts ∧
      (deletePartition group denied hasMembers topic db p).1.stored =
        (deletedPartition group topic p
          (deletePartition group denied hasMembers topic db p).2).foldl after db.stored := by
  unfold deletePartition deletedPartition
  cases denied with
  | some code =>
    refine ⟨hdb, ?_⟩
    cases topic with
    | none => rfl
    | some t =>
      dsimp only
      rw [if_neg fun h => hdenied (congrArg some h)]
      rfl
  | none =>
    cases hasMembers with
    | true => cases topic <;> exact ⟨hdb, rfl⟩
    | false =>
      cases topic with
      | none => exact ⟨hdb, rfl⟩
      | some t =>
        exact ⟨hdb, stored_filter db fun k => k = ⟨group, t.key p⟩⟩

theorem deleteTopicOffsets_spec (req : OffsetDeleteRequest)
    (authz : Authz) (hasMembers : Bool) (hdb : db.topics = ts) (t : String × List Int32) :
    (deleteTopicOffsets req authz hasMembers db t).1.topics = ts ∧
      (deleteTopicOffsets req authz hasMembers db t).1.stored = (deletedTopic ts req.groupId t
          (deleteTopicOffsets req authz hasMembers db t).2).foldl after db.stored := by
  have hdenied : authz.check .delete .topic t.1 ≠ some .none := check_ne_none
  have hstep := fun (db : Db) (p : Int32) (hdb : db.topics = ts) =>
    deletePartition_spec req.groupId hasMembers (ts.byName t.1) hdenied hdb p
  unfold deleteTopicOffsets deletedTopic
  rw [hdb]
  constructor
  · exact inv_serve (fun db => db.topics = ts) (fun db p _ hdb => (hstep db p hdb).1) hdb
  · exact trace_serve (fun db => db.topics = ts)
      (fun db p hdb => (hstep db p hdb).1) Db.stored
      (fun db p hdb => (hstep db p hdb).2) hdb _

theorem offsetDelete_stored {req : OffsetDeleteRequest} {got : OffsetDeleteResponse}
    (h : offsetDelete db req authz = .ok (db', got)) :
    db'.stored = (req.deleted db.topics got).foldl after db.stored := by
  have hnone : req.deleted db.topics ⟨got.errorCode, []⟩ = [] := by
    unfold OffsetDeleteRequest.deleted
    simp
  unfold offsetDelete checkLen at h
  split at h
  next =>
    cases h
    rw [hnone]
    rfl
  next =>
    split at h
    next => cases h
    next =>
    split at h
    next => cases h
    next =>
    by_cases he : (db.existence req.groupId).1 = false
    · rw [if_pos he] at h
      cases h
      rw [hnone]
      rfl
    · rw [if_neg he] at h
      cases h
      exact trace_serve (fun db' => db'.topics = db.topics)
        (fun _ t hdb => (deleteTopicOffsets_spec req authz _ hdb t).1) Db.stored
        (fun _ t hdb => (deleteTopicOffsets_spec req authz _ hdb t).2) rfl _

theorem deleteOneGroup_stored (authz : Authz) (db : Db) (group : String) :
    (deleteOneGroup authz db group).1.stored =
      (deletedGroup group (deleteOneGroup authz db group).2).foldl after db.stored := by
  unfold deleteOneGroup deleteGroup deletedGroup
  cases hc : authz.check .delete .group group with
  | some code =>
    rw [if_neg fun h => check_ne_none (hc.trans (congrArg some h))]
    rfl
  | none =>
    dsimp only
    split
    next => rfl
    next =>
    split
    next => rfl
    next =>
    exact stored_filter db fun k => k.group = group

theorem deleteGroups_stored {groups : List String}
    {r : Db × List ErrorCode} (h : deleteGroups db groups authz = .ok r) :
    r.1.stored = ((groups.zip r.2).flatMap fun p =>
      deletedGroup p.1 p.2).foldl after db.stored := by
  unfold deleteGroups checkLen at h
  split at h
  next => cases h
  next =>
  cases h
  exact trace_serve (fun _ => True) (fun _ _ _ => trivial)
    Db.stored (fun db g _ => deleteOneGroup_stored authz db g) trivial _

-- ==== runs

theorem stored_applied (rows : List Staged) (db : Db) :
    { db with offsets := rows.foldl (fun rows row => upsert row rows) db.offsets }.stored =
      (rows.map Event.committed).foldl after db.stored := by
  induction rows generalizing db with
  | nil => rfl
  | cons row rest ih =>
    rw [List.map_cons, List.foldl_cons (f := after), ← stored_commitOne]
    exact ih (commitOne db row)

/-- What an operation does to the table is what it adds to the
history. -/
theorem Op.run_stored (db : Db) (op : Op) :
    (op.run db).1.stored = (op.run db).2.foldl after db.stored := by
  cases op with
  | offsetCommit v now authz req =>
    simp only [Op.run]
    cases h : Offsets.offsetCommit db (req.carried v) v now authz with
    | ok r => exact (offsetCommit_stored h).2
    | error e => rfl
  | offsetDelete authz req =>
    simp only [Op.run]
    cases h : Offsets.offsetDelete db req authz with
    | ok r => exact offsetDelete_stored h
    | error e => rfl
  | deleteGroups authz groups =>
    simp only [Op.run]
    cases h : Offsets.deleteGroups db groups authz with
    | ok r => exact deleteGroups_stored h
    | error e => rfl
  | endTxn rows => exact stored_applied rows db
  | createTopic | createPartitions => rfl
  | deleteTopic name =>
    simp only [Op.run]
    cases ht : db.topics.byName name with
    | none => rfl
    | some t => exact stored_filter db fun k => k.key.topic = t.topicId
  | regroup | restage => rfl

/-- The table holds the last accepted commits, in every run. -/
theorem stored_eq_last (topics : Topics) (groups : String → GroupTables) (ops : List Op) :
    (ops.foldl System.step (System.init topics groups)).db.stored =
      last (ops.foldl System.step (System.init topics groups)).history := by
  refine Run.foldl_inv (fun s : System => s.db.stored = last s.history) (fun s op hs => ?_) rfl ops
  show (op.run s.db).1.stored = last (s.history ++ (op.run s.db).2)
  unfold last at hs ⊢
  rw [List.foldl_append, ← hs]
  exact Op.run_stored s.db op

end Kafgres.Offsets
