/-
Requests as the dispatcher hands them to their handlers
(server/dispatch.rs): which are given the sender's authorisation, and
what each checks.

`AddPartitionsToTxn`, `AddOffsetsToTxn`, `TxnOffsetCommit` and `EndTxn`
are not given the authorisation at all. A produce asks for Write on each
topic, and writes the control batches a client sends like any others: in
the log they are markers.

`Gated` is what is to hold, `Covered` what the checks leave out.
-/
import Kafgres.Lib.Run
import Kafgres.Offsets.Handlers
import Kafgres.TxnTables.Handlers
import Kafgres.Txn.Offsets

namespace Kafgres.Access

open Storage Meta
open Txn (OffsetKey OffsetCommit Staged)
open TxnTables (Db Marker Force TxnRow)
open Offsets (GroupTables OffsetCommitRequest OffsetDeleteRequest)

-- ==== tables

structure Tables where
  db : Db
  groups : String → GroupTables

namespace Tables

/-- The tables the offset handlers see. -/
def offsets (s : Tables) : Offsets.Db where
  topics := s.db.topics
  offsets := s.db.offsets
  groups := s.groups
  unstable := (s.db.staged.filter fun r => s.db.ongoing r.1).map (·.2.1)

/-- What they leave. -/
def putOffsets (s : Tables) (d : Offsets.Db) : Tables where
  db := { s.db with offsets := d.offsets }
  groups := d.groups

end Tables

/-- `kafgres_offsets` at a key. -/
def stored (db : Db) : OffsetKey → Option OffsetCommit := Txn.stored db.offsets

/-- What there is of a transaction under a producer id: its row, its
partitions and its staged offsets. -/
def view (db : Db) (pid : ℤ) : Option TxnRow × List (ℤ × Key) × List (ℤ × Staged) :=
  (db.txn pid, db.partitions.filter fun r => r.1 = pid, db.staged.filter fun r => r.1 = pid)

-- ==== requests

/-- The cluster's one resource name. -/
def cluster : String := "kafka-cluster"

/-- A transaction request past its authorisation, if it gets there. The
sweeps are not requests, topics are deleted by `DeleteTopics`, and a
produce comes with its control batches. -/
def permit (authz : Authz) (db : Db) : TxnTables.Request → Option TxnTables.Request
  | .initProducerId id now timeoutMs lands =>
    if authz.allows .idempotentWrite .cluster cluster then
      some (.initProducerId id now timeoutMs lands)
    else none
  | .writeTxnMarkers entries =>
    if authz.allows .clusterAction .cluster cluster then
      some (.writeTxnMarkers entries)
    else none
  | .createTopic t =>
    if authz.allows .create .topic t.name ||
        authz.allows .create .cluster cluster then some (.createTopic t)
    else none
  | .createPartitions topicId total =>
    if (db.topics.rows.find? topicId).any fun t =>
        authz.allows .alter .topic t.name then
      some (.createPartitions topicId total)
    else none
  | .produce .. | .expire .. | .sweepProducers _ | .deleteTopic _ => none
  | req => some req

/-- The check of a produce, on the topic of a batch. -/
def writable (authz : Authz) (db : Db) (k : Key) : Bool :=
  (db.topics.rows.find? k.topic).any fun t => authz.allows .write .topic t.name

/-- A topic in `DeleteTopics`: by its id unless that is zero. -/
def resolveDeleted (ts : Topics) (wanted : Option String × Uuid) : Option Topic :=
  if wanted.2 ≠ 0 then ts.byUuid wanted.2 else wanted.1.bind ts.byName

/-- One topic of `delete_topics`, authorised against the resolved
name. -/
def deleteOneTopic (authz : Authz) (db : Db) (wanted : Option String × Uuid) : Db :=
  match resolveDeleted db.topics wanted with
  | none => db
  | some t =>
    if authz.allows .delete .topic t.name then
      TxnTables.deleteTopic db t.name
    else db

/-- The requests that reach the tables. A request of the group APIs
leaves the group's tables in some state. The batches of a produce are
those its window check appends; `control` are the control batches among
them, as the markers they read as. -/
inductive Request where
  | transaction (req : TxnTables.Request)
  | produce (id : Option String) (version now : ℤ) (batches : List TxnTables.Batch)
      (control : List Marker)
  | offsetCommit (version now : ℤ) (req : OffsetCommitRequest)
  | offsetDelete (req : OffsetDeleteRequest)
  | deleteGroups (groups : List String)
  | deleteTopics (wanted : List (Option String × Uuid))
  | group (id : String) (tables : GroupTables)

/-- The rows of an offset request that did not fail. -/
def Tables.serve {α : Type} (s : Tables)
    (r : Except Offsets.HandlerError (Offsets.Db × α)) : Option Tables :=
  match r with
  | .ok (d, _) => some (s.putOffsets d)
  | .error _ => none

/-- The tables a request leaves, none if it fails, and the markers that
landed. -/
def Request.run (s : Tables) (authz : Authz) : Request → Option Tables × List Marker
  | .transaction req =>
    match permit authz s.db req with
    | none => (some s, [])
    | some req =>
      let r := req.run s.db
      (r.1.map fun db => { s with db := db }, r.2)
  | .produce id version now batches control =>
    let batches := batches.filter fun b => writable authz s.db b.key
    (some { s with db := (TxnTables.produce s.db id version now batches).1 },
      control.filter fun m => writable authz s.db m.key)
  | .offsetCommit version now req =>
    (s.serve (Offsets.offsetCommit s.offsets (req.carried version) version now authz), [])
  | .offsetDelete req => (s.serve (Offsets.offsetDelete s.offsets req authz), [])
  | .deleteGroups groups =>
    (s.serve (Offsets.deleteGroups s.offsets groups authz), [])
  | .deleteTopics wanted =>
    (some { s with db := wanted.foldl (deleteOneTopic authz) s.db }, [])
  | .group id tables =>
    (some { s with groups := Function.update s.groups id tables }, [])

-- ==== steps

/-- A request and its sender, or a sweep. The transaction of either may
not commit, and values of the producer id sequence are lost around it. -/
inductive Op where
  | request (authz : Authz) (req : Request) (commits : Bool) (lost : ℕ)
  | expire (now : ℤ) (stale : List ℤ) (lands : Key → Bool) (commits : Bool)
  | sweepProducers (victims : List ℤ)

/-- The rows after a run that may be rolled back. -/
def Tables.after (s : Tables) (r : Option Tables) (commits : Bool) : Tables :=
  if commits then r.getD s else s

/-- The tables after an operation, and the markers it wrote. -/
def Op.run (s : Tables) : Op → Tables × List Marker
  | .request authz req commits lost =>
    let r := req.run s authz
    let s' := s.after r.1 commits
    ({ s' with db := s'.db.lose lost }, r.2)
  | .expire now stale lands commits =>
    let r := TxnTables.expireStaleTransactions now lands s.db stale
    (s.after (r.1.map fun db => { s with db := db }) commits, r.2)
  | .sweepProducers victims =>
    ({ s with db := TxnTables.sweepProducers s.db victims }, [])

def Tables.step (s : Tables) (op : Op) : Tables := (op.run s).1

def Tables.init (topics : Topics) (groups : String → GroupTables) : Tables :=
  ⟨(TxnTables.System.init topics).db, groups⟩

-- ==== property

variable (authz : Authz)

/-- The sender may read the group and the topic of an offset. -/
def MayRead (ts : Topics) (k : OffsetKey) : Prop := authz.allows .read .group k.group = true ∧
    ∀ t ∈ ts.rows.rows, t.topicId = k.key.topic → authz.allows .read .topic t.name = true

instance (ts : Topics) (k : OffsetKey) : Decidable (MayRead authz ts k) :=
  inferInstanceAs (Decidable (_ ∧ _))

/-- The sender may write under the transactional id. -/
def MayWrite (id : String) : Prop := authz.allows .write .transactionalId id = true

instance (id : String) : Decidable (MayWrite authz id) := inferInstanceAs (Decidable (_ = _))

/-- The sender may write markers, and does. -/
def MarksTxns : Request → Prop
  | .transaction (.writeTxnMarkers _) =>
    authz.allows .clusterAction .cluster cluster = true
  | _ => False

/-- A change of offsets or of a transaction is allowed to the sender. -/
structure Gated (req : Request) (s s' : Tables) (ms : List Marker) :
    Prop where
  offsets : ∀ k, stored s'.db k ≠ stored s.db k →
    MayRead authz s.db.topics k
  transactions : ∀ pid t, s.db.txn pid = some t ∨ s'.db.txn pid = some t →
    (view s'.db pid ≠ view s.db pid ∨ ∃ m ∈ ms, m.producerId = pid) →
    MayWrite authz t.transactionalId ∨ MarksTxns authz req

/-- Every change a request makes is allowed to its sender. -/
def Op.Gated (s : Tables) : Op → Prop
  | .request authz req commits lost =>
    Access.Gated authz req s ((Op.request authz req commits lost).run s).1
      ((Op.request authz req commits lost).run s).2
  | .expire .. | .sweepProducers _ => True

-- ==== condition

/-- What the checks of the transaction APIs leave out. -/
def TxnCovered (db : Db) : TxnTables.Request → Prop
  | .initProducerId id _ _ _ => ∀ id' ∈ id, id' ≠ "" →
      MayWrite authz id' ∧ ∀ row ∈ db.txns.rows, row.transactionalId = id' → ∀ r ∈ db.staged,
        r.1 = row.producerId → MayRead authz db.topics r.2.1
  | .addPartitions id .. | .addOffsets id .. => MayWrite authz id
  | .txnOffsetCommit req => MayWrite authz req.transactionalId
  | .endTxn req => MayWrite authz req.transactionalId ∧ ∀ r ∈ db.staged, r.1 = req.producerId →
        MayRead authz db.topics r.2.1
  | .writeTxnMarkers entries => ∀ e ∈ entries, ∀ r ∈ db.staged,
      r.1 = e.producerId → MayRead authz db.topics r.2.1
  | .produce .. | .expire .. | .sweepProducers _ | .createTopic _ => True
  | .createPartitions .. | .deleteTopic _ => True

/-- A topic may be deleted only by those who may change what goes with
it. -/
def TopicCovered (db : Db) (t : Topic) : Prop := authz.allows .delete .topic t.name = true →
    (∀ r ∈ db.offsets, r.1.key.topic = t.topicId → MayRead authz db.topics r.1) ∧
    ∀ row ∈ db.txns.rows, ((∃ r ∈ db.partitions, r.1 = row.producerId ∧ r.2.topic = t.topicId) ∨
        ∃ r ∈ db.staged, r.1 = row.producerId ∧ r.2.1.key.topic = t.topicId) →
      MayWrite authz row.transactionalId

/-- The rules allow the sender what the handler does not check: Write on
the transactional id, also that of a transaction a produce has a marker
of, Read on a topic that goes by its id, Read where Delete was asked for,
and Read on what a transaction has staged. -/
def Request.Covered (s : Tables) : Request → Prop
  | .transaction req => TxnCovered authz s.db req
  | .produce id _ _ _ control => (∀ id' ∈ id, id' ≠ "" → MayWrite authz id') ∧
      ∀ m ∈ control, writable authz s.db m.key = true →
        ∀ row ∈ s.db.txns.rows, row.producerId = m.producerId → MayWrite authz row.transactionalId
  | .offsetCommit version _ req => ∀ t ∈ (req.carried version).topics,
      t.name = "" → ∀ topic ∈ s.db.topics.byUuid t.topicId,
        authz.allows .read .topic topic.name = true
  | .offsetDelete req =>
    (authz.allows .delete .group req.groupId = true →
      authz.allows .read .group req.groupId = true) ∧
    ∀ t ∈ req.topics, authz.allows .delete .topic t.1 = true → authz.allows .read .topic t.1 = true
  | .deleteGroups groups => ∀ g ∈ groups, authz.allows .delete .group g = true →
      ∀ r ∈ s.db.offsets, r.1.group = g → MayRead authz s.db.topics r.1
  | .deleteTopics wanted => ∀ w ∈ wanted,
      ∀ t, resolveDeleted s.db.topics w = some t → TopicCovered authz s.db t
  | .group .. => True

def Op.Covered (s : Tables) : Op → Prop
  | .request authz req _ _ => req.Covered authz s
  | .expire .. | .sweepProducers _ => True

end Kafgres.Access
