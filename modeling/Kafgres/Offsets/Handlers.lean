/-
OffsetCommit, OffsetFetch, OffsetDelete and DeleteGroups
(handlers/offsets.rs, handlers/admin.rs).

A request carries what its version has room for: from version 10 a topic
is named by its id alone, before that by its name alone (`carried`). The
rows of a request are written in one Postgres transaction, so an error
leaves none of them.
-/
import Kafgres.Access.Rules
import Kafgres.Lib.Turns
import Kafgres.Offsets.Groups

namespace Kafgres.Offsets

open Meta Codec Access
open Txn (OffsetKey OffsetCommit Staged upsert)

inductive HandlerError where
  | tooLarge (what : String) (n : ℕ)
deriving DecidableEq

/-- `MAX_OFFSET_PARTITIONS`. -/
def maxOffsetPartitions : ℕ := 4096

/-- `MAX_METADATA_BYTES`. -/
def maxMetadataBytes : ℕ := 4096

/-- `MAX_ADMIN_ITEMS`. -/
def maxAdminItems : ℕ := 1000

/-- A list of a request against its cap. -/
def checkLen (what : String) (cap n : ℕ) : Except HandlerError Unit :=
  if n > cap then .error (.tooLarge what n) else .ok ()

-- ==== commit

structure CommitPartition where
  partitionIndex : Int32
  committedOffset : ℤ
  committedLeaderEpoch : ℤ
  committedMetadata : Option String

structure CommitTopic where
  name : String
  topicId : Uuid
  partitions : List CommitPartition

structure OffsetCommitRequest where
  groupId : String
  generationIdOrMemberEpoch : ℤ
  memberId : String
  groupInstanceId : Option String
  topics : List CommitTopic

/-- What version `v` carries of a commit; the rest arrives as its
default. -/
def OffsetCommitRequest.carried (v : ℤ) (req : OffsetCommitRequest) : OffsetCommitRequest :=
  { req with
    groupInstanceId := if v ≥ 7 then req.groupInstanceId else none
    topics := req.topics.map fun t =>
      { name := if v ≥ 10 then "" else t.name
        topicId := if v ≥ 10 then t.topicId else 0
        partitions := t.partitions.map fun p =>
          { p with
            committedLeaderEpoch :=
              if v ≥ 6 then p.committedLeaderEpoch else -1 } } }

structure CommittedPartition where
  partitionIndex : Int32
  errorCode : ErrorCode

structure CommittedTopic where
  name : String
  topicId : Uuid
  partitions : List CommittedPartition

abbrev OffsetCommitResponse := List CommittedTopic

def OffsetCommitRequest.committer (req : OffsetCommitRequest) : Committer where
  groupId := req.groupId
  generation := req.generationIdOrMemberEpoch
  memberId := req.memberId
  instanceId := req.groupInstanceId

def CommitPartition.oversized (p : CommitPartition) : Bool :=
  p.committedMetadata.any fun m => decide (m.utf8ByteSize > maxMetadataBytes)

/-- The row a partition asks for. -/
def CommitPartition.row (p : CommitPartition) (group : String) (t : Topic) : Staged :=
  (⟨group, t.key p.partitionIndex⟩,
    ⟨p.committedOffset, p.committedLeaderEpoch, p.committedMetadata⟩)

/-- `commit_one`. -/
def commitOne (db : Db) (row : Staged) : Db :=
  { db with offsets := upsert row db.offsets }

/-- The group's verdict, asked for when the first partition passes the
topic checks, and kept. -/
def groupVerdict (req : OffsetCommitRequest) (version now : ℤ)
    (s : Db × Option GroupVerdict) : Db × GroupVerdict :=
  match s.2 with
  | some v => (s.1, v)
  | none => validateCommit s.1 req.committer false version now

/-- One partition of a commit. -/
def commitPartition (req : OffsetCommitRequest) (version now : ℤ)
    (denied : Option ErrorCode) (resolved : Option Topic)
    (s : Db × Option GroupVerdict) (p : CommitPartition) :
    (Db × Option GroupVerdict) × CommittedPartition :=
  match denied with
  | some code => (s, ⟨p.partitionIndex, code⟩)
  | none =>
    match resolved with
    | none => (s, ⟨p.partitionIndex, .unknownTopicOrPartition⟩)
    | some t =>
      if t.has p.partitionIndex = false then
        (s, ⟨p.partitionIndex, .unknownTopicOrPartition⟩)
      else
        match groupVerdict req version now s with
        | (db, .refuse code) =>
          ((db, some (.refuse code)), ⟨p.partitionIndex, code⟩)
        | (db, v) =>
          if p.oversized then
            ((db, some v), ⟨p.partitionIndex, .offsetMetadataTooLarge⟩)
          else if v.codeFor (t.key p.partitionIndex) = .none then
            ((commitOne db (p.row req.groupId t), some v), ⟨p.partitionIndex, .none⟩)
          else ((db, some v), ⟨p.partitionIndex, v.codeFor (t.key p.partitionIndex)⟩)

/-- One topic of a commit. What is checked is the name in the request. -/
def commitTopic (req : OffsetCommitRequest) (version now : ℤ)
    (authz : Authz) (s : Db × Option GroupVerdict) (t : CommitTopic) :
    (Db × Option GroupVerdict) × CommittedTopic :=
  let denied := (authz.check .read .group req.groupId).or (authz.check .read .topic t.name)
  let resolved := s.1.topics.resolve t.name t.topicId
  let r := Turns.serve (commitPartition req version now denied resolved) s t.partitions
  (r.1,
    { name := resolved.elim t.name (·.name)
      topicId := resolved.elim t.topicId (·.uuid)
      partitions := r.2 })

/-- `offset_commit`. -/
def offsetCommit (db : Db) (req : OffsetCommitRequest) (version now : ℤ)
    (authz : Authz) : Except HandlerError (Db × OffsetCommitResponse) := do
  checkLen "offset commit topic list" maxOffsetPartitions req.topics.length
  checkLen "offset commit partition list" maxOffsetPartitions
    (req.topics.map fun t => t.partitions.length).sum
  let r := Turns.serve (commitTopic req version now authz) (db, none) req.topics
  return (r.1.1, r.2)

-- ==== fetch

structure FetchTopic where
  name : String
  topicId : Uuid
  partitionIndexes : List Int32

/-- Null asks for every topic the group has an offset in. -/
structure FetchGroup where
  groupId : String
  topics : Option (List FetchTopic)

structure OffsetFetchRequest where
  groupId : String
  topics : Option (List (String × List Int32))
  groups : List FetchGroup
  requireStable : Bool

/-- `OFFSET_FETCH_BATCHED_FROM`. -/
def batchedFrom : ℤ := 8

def FetchTopic.carried (v : ℤ) (t : FetchTopic) : FetchTopic :=
  { t with
    name := if v ≥ 10 then "" else t.name
    topicId := if v ≥ 10 then t.topicId else 0 }

/-- What version `v` carries of a fetch; the rest arrives as its
default. Only from version 2 can the topics be null. -/
def OffsetFetchRequest.carried (v : ℤ) (req : OffsetFetchRequest) : OffsetFetchRequest :=
  if v ≥ batchedFrom then
    { groupId := ""
      topics := some []
      groups := req.groups.map fun g =>
        { g with topics := g.topics.map fun ts => ts.map (·.carried v) }
      requireStable := req.requireStable }
  else
    { groupId := req.groupId
      topics := if v ≥ 2 then req.topics else some (req.topics.getD [])
      groups := []
      requireStable := decide (v ≥ 7) && req.requireStable }

structure FetchedPartition where
  partitionIndex : Int32
  committedOffset : ℤ
  committedLeaderEpoch : ℤ
  metadata : Option String
  errorCode : ErrorCode
deriving DecidableEq

structure FetchedTopic where
  name : String
  partitions : List FetchedPartition
deriving DecidableEq

/-- From version 8 on. -/
structure FetchedTopics where
  topicId : Uuid
  name : String
  partitions : List FetchedPartition
deriving DecidableEq

structure FetchedGroup where
  groupId : String
  topics : List FetchedTopics
  errorCode : ErrorCode
deriving DecidableEq

structure OffsetFetchResponse where
  topics : List FetchedTopic
  errorCode : ErrorCode
  groups : List FetchedGroup
deriving DecidableEq

/-- `NO_OFFSET`. -/
def noOffset : ℤ := -1

/-- A partition as it is read back. A null metadata reads as empty. -/
def answer (partition : Int32) : Option OffsetCommit → FetchedPartition
  | none => ⟨partition, noOffset, -1, some "", .none⟩
  | some c => ⟨partition, c.committedOffset, c.committedLeaderEpoch,
      some (c.metadata.getD ""), .none⟩

/-- `committed_for_topic`, at a partition. -/
def committedForTopic (db : Db) (group : String) (topicId : UInt32)
    (partition : Int32) : Option OffsetCommit :=
  (db.offsets.find? fun r => r.1.group = group ∧ r.1.key.topic = topicId ∧
    r.1.key.partition = partition).map (·.2)

/-- `unstable_for_topic`, at a partition. -/
def unstableForTopic (db : Db) (group : String) (topicId : UInt32) (partition : Int32) : Bool :=
  db.unstable.any fun k => k.group = group ∧ k.key.topic = topicId ∧ k.key.partition = partition

/-- `committed_topics`: the order of the topics is the database's. -/
def committedTopics (db : Db) (group : String) : List (String × UInt32 × List Int32) :=
  db.topics.rows.rows.filterMap fun t =>
    let ps := ((db.offsets.filter fun r =>
      r.1.group = group ∧ r.1.key.topic = t.topicId).map (·.1.key.partition)).insertionSort (· ≤ ·)
    if ps = [] then none else some (t.name, t.topicId, ps)

/-- `resolve_requested`: an unknown topic reads under the id zero. -/
def resolveRequested (ts : Topics) (list : List (String × List Int32)) :
    List (String × UInt32 × List Int32) :=
  list.map fun e => (e.1, (ts.byName e.1).elim 0 (·.topicId), e.2)

def fetchPartition (db : Db) (group : String) (requireStable : Bool)
    (topicId : UInt32) (p : Int32) : FetchedPartition :=
  if requireStable && unstableForTopic db group topicId p then
    ⟨p, noOffset, -1, some "", .unstableOffsetCommit⟩
  else answer p (committedForTopic db group topicId p)

/-- The topics a fetch reads: a list, or all there are. -/
def wantedTopics (db : Db) (group : String) : Option (List (String × List Int32)) →
      Except HandlerError (List (String × UInt32 × List Int32))
  | some list => do
      checkLen "offset fetch topic list" maxOffsetPartitions list.length
      return resolveRequested db.topics list
  | none => .ok (committedTopics db group)

/-- `fetch_topics`. -/
def fetchTopics (db : Db) (group : String) (requested : Option (List (String × List Int32)))
    (requireStable : Bool) : Except HandlerError (List FetchedTopic) := do
  let wanted ← wantedTopics db group requested
  checkLen "offset fetch partition list" maxOffsetPartitions (wanted.map fun e => e.2.2.length).sum
  return wanted.map fun e =>
    ⟨e.1, e.2.2.map (fetchPartition db group requireStable e.2.1)⟩

/-- `fetch_topics_v8`: the ids in the request are not looked at. -/
def fetchTopicsV8 (db : Db) (group : String)
    (requested : Option (List FetchTopic)) (requireStable : Bool) :
    Except HandlerError (List FetchedTopics) := do
  let topics ← fetchTopics db group
    (requested.map fun list => list.map fun t => (t.name, t.partitionIndexes))
    requireStable
  return topics.map fun t =>
    { topicId := ((db.topics.byName t.name).bind fun _ =>
        db.topics.resolve t.name 0).elim 0 (·.uuid)
      name := t.name
      partitions := t.partitions }

/-- One group of a fetch. -/
def fetchGroup (db : Db) (authz : Authz) (requireStable : Bool)
    (g : FetchGroup) : Except HandlerError FetchedGroup :=
  match authz.check .read .group g.groupId with
  | some code => .ok ⟨g.groupId, [], code⟩
  | none => do
      let topics ← fetchTopicsV8 db g.groupId g.topics requireStable
      return ⟨g.groupId, topics, .none⟩

/-- `offset_fetch`. -/
def offsetFetch (db : Db) (req : OffsetFetchRequest) (version : ℤ)
    (authz : Authz) : Except HandlerError OffsetFetchResponse :=
  if version < batchedFrom then
    match authz.check .read .group req.groupId with
    | some code => .ok ⟨[], code, []⟩
    | none => do
        let topics ← fetchTopics db req.groupId req.topics req.requireStable
        return ⟨topics, .none, []⟩
  else do
    checkLen "offset fetch group list" maxAdminItems req.groups.length
    let groups ← req.groups.mapM (fetchGroup db authz req.requireStable)
    return ⟨[], .none, groups⟩

-- ==== delete

/-- `delete_offset`. -/
def deleteOffset (db : Db) (k : OffsetKey) : Db :=
  { db with offsets := db.offsets.filter fun r => r.1 ≠ k }

namespace Db

/-- `existence`: whether the group is there, and has members. Only the
classic tables are asked. -/
def existence (db : Db) (group : String) : Bool × Bool :=
  ((db.groups group).classic.group.isSome || db.known group,
    !(db.groups group).classic.members.rows.isEmpty)

end Db

structure OffsetDeleteRequest where
  groupId : String
  topics : List (String × List Int32)

/-- The code of the whole request, and those of its partitions. -/
structure OffsetDeleteResponse where
  errorCode : ErrorCode
  topics : List (String × List (Int32 × ErrorCode))

def deletePartition (group : String) (denied : Option ErrorCode)
    (hasMembers : Bool) (topic : Option Topic) (db : Db) (p : Int32) : Db × Int32 × ErrorCode :=
  match denied with
  | some code => (db, p, code)
  | none =>
    if hasMembers then (db, p, .groupSubscribedToTopic)
    else match topic with
    | some t => (deleteOffset db ⟨group, t.key p⟩, p, .none)
    | none => (db, p, .none)

def deleteTopicOffsets (req : OffsetDeleteRequest) (authz : Authz)
    (hasMembers : Bool) (db : Db) (t : String × List Int32) :
    Db × String × List (Int32 × ErrorCode) :=
  let r := Turns.serve (deletePartition req.groupId
    (authz.check .delete .topic t.1) hasMembers (db.topics.byName t.1))
    db t.2
  (r.1, t.1, r.2)

/-- `offset_delete`. -/
def offsetDelete (db : Db) (req : OffsetDeleteRequest) (authz : Authz) :
    Except HandlerError (Db × OffsetDeleteResponse) :=
  match authz.check .delete .group req.groupId with
  | some code => .ok (db, ⟨code, []⟩)
  | none => do
      checkLen "offset delete topic list" maxAdminItems req.topics.length
      checkLen "offset delete partition list" maxOffsetPartitions
        (req.topics.map fun t => t.2.length).sum
      let e := db.existence req.groupId
      if e.1 = false then return (db, ⟨.groupIdNotFound, []⟩)
      else
        let r := Turns.serve (deleteTopicOffsets req authz e.2) db req.topics
        return (r.1, ⟨.none, r.2⟩)

/-- `delete` of a group. -/
def deleteGroup (db : Db) (group : String) : Db × ErrorCode :=
  if (db.existence group).1 = false then (db, .groupIdNotFound)
  else if (db.existence group).2 then (db, .nonEmptyGroup)
  else
    let g := db.groups group
    ({ db with offsets := db.offsets.filter fun r => r.1.group ≠ group
      }.setGroup group { g with classic := { g.classic with group := none } },
      .none)

/-- One name of `delete_groups`. -/
def deleteOneGroup (authz : Authz) (db : Db) (group : String) : Db × ErrorCode :=
  match authz.check .delete .group group with
  | some code => (db, code)
  | none => deleteGroup db group

/-- `delete_groups`. -/
def deleteGroups (db : Db) (groups : List String) (authz : Authz) :
    Except HandlerError (Db × List ErrorCode) := do
  checkLen "delete groups list" maxAdminItems groups.length
  return Turns.serve (deleteOneGroup authz) db groups

end Kafgres.Offsets
