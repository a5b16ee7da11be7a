/-
Committed offsets over a run: what a fetch should read back.

A history lists the commits a group was told are accepted and the
deletions it was told are done, read off the requests and their answers.
Besides those, a run creates, extends and deletes topics, ends
transactions that have staged offsets, and changes the groups and the
staged rows in any way.
-/
import Kafgres.Offsets.Handlers
import Kafgres.Txn.Offsets

namespace Kafgres.Offsets

open Meta Codec Access
open Txn (OffsetKey OffsetCommit Staged upsert)

-- ==== history

inductive Event where
  | committed (row : Staged)
  | deleted (gone : OffsetKey → Bool)

/-- An offset, or none, for each partition of each group. -/
abbrev Last := OffsetKey → Option OffsetCommit

def Last.after (l : Last) : Event → Last
  | .committed row => Function.update l row.1 (some row.2)
  | .deleted gone => fun k => if gone k then none else l k

/-- The last accepted commit, if it was not deleted since. -/
def last (history : List Event) : Last := history.foldl Last.after fun _ => none

/-- A partition answered without an error was accepted. -/
def acceptedPartition (group : String) (topic : Option Topic)
    (p : CommitPartition) (got : CommittedPartition) : List Event :=
  match topic with
  | none => []
  | some t =>
    if got.errorCode = .none then [.committed (p.row group t)] else []

def acceptedTopic (ts : Topics) (group : String) (t : CommitTopic)
    (got : CommittedTopic) : List Event :=
  (t.partitions.zip got.partitions).flatMap fun p =>
    acceptedPartition group (ts.resolve t.name t.topicId) p.1 p.2

/-- The commits an answer accepts. -/
def OffsetCommitRequest.accepted (req : OffsetCommitRequest) (ts : Topics)
    (got : OffsetCommitResponse) : List Event :=
  (req.topics.zip got).flatMap fun p =>
    acceptedTopic ts req.groupId p.1 p.2

def deletedPartition (group : String) (topic : Option Topic) (p : Int32)
    (got : Int32 × ErrorCode) : List Event :=
  match topic with
  | none => []
  | some t =>
    if got.2 = .none then [.deleted fun k => k = ⟨group, t.key p⟩] else []

def deletedTopic (ts : Topics) (group : String) (t : String × List Int32)
    (got : String × List (Int32 × ErrorCode)) : List Event :=
  (t.2.zip got.2).flatMap fun p =>
    deletedPartition group (ts.byName t.1) p.1 p.2

/-- The deletions an answer reports as done. -/
def OffsetDeleteRequest.deleted (req : OffsetDeleteRequest) (ts : Topics)
    (got : OffsetDeleteResponse) : List Event :=
  (req.topics.zip got.topics).flatMap fun p =>
    deletedTopic ts req.groupId p.1 p.2

def deletedGroup (group : String) (got : ErrorCode) : List Event :=
  if got = .none then [.deleted fun k => k.group = group] else []

-- ==== runs

inductive Op where
  | offsetCommit (version now : ℤ) (authz : Authz)
      (req : OffsetCommitRequest)
  | offsetDelete (authz : Authz) (req : OffsetDeleteRequest)
  | deleteGroups (authz : Authz) (groups : List String)
  /-- A transaction commits with the offsets it has staged. -/
  | endTxn (rows : List Staged)
  | createTopic (t : Topic)
  | createPartitions (topicId : UInt32) (total : Int32)
  | deleteTopic (name : String)
  /-- The group tables change. -/
  | regroup (group : String) (tables : GroupTables)
  /-- Offsets are staged, or their transactions end. -/
  | restage (unstable : List OffsetKey)

/-- What an operation leaves, and its part of the history. A request that
fails has neither. -/
def Op.run (db : Db) : Op → Db × List Event
  | .offsetCommit v now authz req =>
    match Offsets.offsetCommit db (req.carried v) v now authz with
    | .ok (db', got) => (db', (req.carried v).accepted db.topics got)
    | .error _ => (db, [])
  | .offsetDelete authz req =>
    match Offsets.offsetDelete db req authz with
    | .ok (db', got) => (db', req.deleted db.topics got)
    | .error _ => (db, [])
  | .deleteGroups authz groups =>
    match Offsets.deleteGroups db groups authz with
    | .ok (db', got) => (db', (groups.zip got).flatMap fun p =>
      deletedGroup p.1 p.2)
    | .error _ => (db, [])
  | .endTxn rows =>
    ({ db with
      offsets := rows.foldl (fun rows row => upsert row rows) db.offsets },
      rows.map .committed)
  | .createTopic t => ({ db with topics := db.topics.create t }, [])
  | .createPartitions topicId total =>
    ({ db with topics := db.topics.extend topicId total }, [])
  | .deleteTopic name =>
    match db.topics.byName name with
    | none => (db, [])
    | some t =>
      ({ db with
        topics := db.topics.drop t.topicId
        offsets := db.offsets.filter fun r => r.1.key.topic ≠ t.topicId
        unstable := db.unstable.filter fun k => k.key.topic ≠ t.topicId },
        [.deleted fun k => k.key.topic = t.topicId])
  | .regroup group tables => (db.setGroup group tables, [])
  | .restage unstable => ({ db with unstable := unstable }, [])

structure System where
  db : Db
  history : List Event

def System.step (s : System) (op : Op) : System :=
  let r := op.run s.db
  ⟨r.1, s.history ++ r.2⟩

/-- Nothing is committed yet. -/
def System.init (topics : Topics) (groups : String → GroupTables) : System :=
  ⟨⟨topics, [], groups, []⟩, []⟩

-- ==== round trip

/-- How version `v` names a topic. -/
def label (v : ℤ) (name : String) (uuid : Uuid) : String ⊕ Uuid :=
  if v ≥ 10 then .inr uuid else .inl name

/-- The topic a fetch at version `v` means. -/
def FetchTopic.topic (t : FetchTopic) (v : ℤ) (ts : Topics) : Option Topic :=
  if v ≥ 10 then ts.byUuid t.topicId else ts.byName t.name

/-- What should be read back of a partition. -/
def FetchTopic.expected (t : FetchTopic) (v : ℤ) (ts : Topics) (l : Last)
    (group : String) (p : Int32) : FetchedPartition :=
  answer p ((t.topic v ts).bind fun topic => l ⟨group, topic.key p⟩)

/-- The topics of an answer against those asked for, in their order, or
against every topic with an offset. -/
def Told (l : Last) (ts : Topics) (v : ℤ) (group : String)
    (got : List FetchedTopics) : Option (List FetchTopic) → Prop
  | some list =>
    got.map (fun e => (label v e.name e.topicId, e.partitions)) =
      list.map fun t => (label v t.name t.topicId, t.partitionIndexes.map (t.expected v ts l group))
  | none => ∀ topic ∈ ts.rows.rows, ∀ fp,
      (∃ e ∈ got, label v e.name e.topicId = label v topic.name topic.uuid ∧ fp ∈ e.partitions) ↔
      ∃ c, l ⟨group, topic.key fp.partitionIndex⟩ = some c ∧ fp = answer fp.partitionIndex (some c)

/-- A group's part of an answer reads back its last accepted commits. -/
structure FetchedGroup.Right (e : FetchedGroup) (l : Last) (ts : Topics)
    (v : ℤ) (g : FetchGroup) : Prop where
  groupId : e.groupId = g.groupId
  errorCode : e.errorCode = .none
  told : Told l ts v g.groupId e.topics g.topics

namespace OffsetFetchRequest

/-- The groups a request at version `v` asks about. -/
def asked (req : OffsetFetchRequest) (v : ℤ) : List FetchGroup :=
  if v < batchedFrom then
    [⟨req.groupId, req.topics.map fun list =>
      list.map fun e => ⟨e.1, 0, e.2⟩⟩]
  else req.groups

/-- What the answer says of each. -/
def told (req : OffsetFetchRequest) (v : ℤ) (resp : OffsetFetchResponse) : List FetchedGroup :=
  if v < batchedFrom then
    [⟨req.groupId, resp.topics.map fun t => ⟨0, t.name, t.partitions⟩, resp.errorCode⟩]
  else resp.groups

/-- The answer reads back the last accepted commits. -/
def RoundTrip (req : OffsetFetchRequest) (v : ℤ) (l : Last) (ts : Topics)
    (reply : Except HandlerError OffsetFetchResponse) : Prop :=
  ∃ resp, reply = .ok resp ∧ List.Forall₂ (fun g e => e.Right l ts v g) (req.asked v)
      (req.told v resp)

end OffsetFetchRequest

-- ==== condition

/-- `kafgres_offsets` at a partition. -/
def Db.stored (db : Db) : Last := Txn.stored db.offsets

/-- A list of topics is within the caps. -/
def FetchGroup.Fits (g : FetchGroup) (db : Db) : Prop :=
  match g.topics with
  | some list => list.length ≤ maxOffsetPartitions ∧
      (list.map fun t => t.partitionIndexes.length).sum ≤ maxOffsetPartitions
  | none => ((committedTopics db g.groupId).map fun e => e.2.2.length).sum ≤ maxOffsetPartitions

instance : (g : FetchGroup) → (db : Db) → Decidable (g.Fits db)
  | ⟨_, some _⟩, _ => inferInstanceAs (Decidable (_ ∧ _))
  | ⟨_, none⟩, _ => inferInstanceAs (Decidable (_ ≤ _))

/-- The zero id, where nothing is to be read. -/
def FetchTopic.Blank (t : FetchTopic) (v : ℤ) (db : Db) (group : String) : Prop :=
  t.topicId = 0 ∧ ∀ p ∈ t.partitionIndexes, t.expected v db.topics db.stored group p = answer p none

instance (t : FetchTopic) (v : ℤ) (db : Db) (group : String) : Decidable (t.Blank v db group) :=
  inferInstanceAs (Decidable (_ ∧ _))

/-- No topic is asked for by its id. -/
def FetchGroup.NamesTopics (g : FetchGroup) (v : ℤ) (db : Db) : Prop :=
  match g.topics with
  | some list => v ≥ 10 → ∀ t ∈ list, t.Blank v db g.groupId
  | none => True

instance (v : ℤ) (db : Db) : (g : FetchGroup) → Decidable (g.NamesTopics v db)
  | ⟨group, some list⟩ =>
    inferInstanceAs (Decidable (v ≥ 10 → ∀ t ∈ list, t.Blank v db group))
  | ⟨_, none⟩ => .isTrue trivial

/-- The sender may read the groups, the lists fit, and topics go by
name. -/
def OffsetFetchRequest.Answerable (req : OffsetFetchRequest) (v : ℤ)
    (db : Db) (authz : Authz) : Prop :=
  (v ≥ batchedFrom → req.groups.length ≤ maxAdminItems) ∧
    ∀ g ∈ req.asked v, authz.allows .read .group g.groupId = true ∧ g.Fits db ∧ g.NamesTopics v db

instance (req : OffsetFetchRequest) (v : ℤ) (db : Db) (authz : Authz) :
    Decidable (req.Answerable v db authz) :=
  inferInstanceAs (Decidable (_ ∧ _))

end Kafgres.Offsets
