/-
Who writes to a partition's log: Produce, `kafgres_produce()`, the change
stream, and the transaction coordinator with its markers.

A Produce request carries a `records` blob for each partition.
`BatchIter` cuts it into batches, the handler plans and writes them
(`Produce.handle`), and the store takes a batch whose checksum holds,
stamped with its offset and the leader epoch. `raw_batch` copies the
header's fields, the control flag among them.

`State.log` lists every batch that was stored with the writer it came
from. The source keeps no such list: it is what the statements are about.
-/
import Kafgres.Codec.Build
import Kafgres.Produce.Handle
import Kafgres.ProduceSql.Session
import Kafgres.TxnTables.Handlers

namespace Kafgres.Writers

open Storage Codec
open Produce (PartitionData View World Pos Env Catalog)

-- ==== requests

/-- What planning reads off a batch. -/
def view (bs : List UInt8) : Except BatchError View :=
  match h : RecordBatch.new bs with
  | .error e => .error e
  | .ok _ => .ok {
      producerId := RecordBatch.producerId bs
      producerEpoch := RecordBatch.producerEpoch bs
      baseSequence := RecordBatch.baseSequence bs
      lastOffsetDelta := lastOffsetDelta bs
      transactional := RecordBatch.isTransactional bs
      control := RecordBatch.isControl bs
      delta_nonneg := (RecordBatch.of_new h).2.2 }

/-- A partition of the request as it was sent. `gate` is the code of the
first check in front of planning that refuses it. -/
structure PartitionBytes where
  index : Int32
  gate : Option Produce.ErrorCode
  records : Option (List UInt8)

/-- The batches of the field; an absent or empty one has none. -/
def PartitionBytes.batches (p : PartitionBytes) : List (Except BatchError (List UInt8)) :=
  match p.records with
  | none => []
  | some buf => batchIter buf

def PartitionBytes.decode (p : PartitionBytes) : PartitionData where
  index := p.index
  gate := p.gate
  size := (p.records.map List.length).getD 0
  records := p.batches.map fun b => b.bind view

structure TopicBytes where
  name : String
  topic : Option { id : UInt32 // id ≠ 0 }
  partitions : List PartitionBytes

structure Request where
  topics : List TopicBytes
  acksNone : Bool

namespace Request

/-- The request with its batches cut out and read. -/
def decode (req : Request) : Produce.Request where
  topics := req.topics.map fun t =>
    ⟨t.name, t.topic, t.partitions.map PartitionBytes.decode⟩
  acksNone := req.acksNone

/-- The bytes of a batch of the request. -/
def batchAt (req : Request) (pos : Pos) : Option (List UInt8) := do
  let t ← req.topics[pos.site.1]?
  let p ← t.partitions[pos.site.2]?
  let b ← p.batches[pos.batch]?
  b.toOption

/-- The store refuses a batch whose checksum fails; how its other calls
end is up to `env`. -/
def checked (crc : List UInt8 → ℕ) (req : Request) (env : Env) : Env :=
  { env with
    append := fun n pos =>
      match req.batchAt pos with
      | some bs => if IsBatch crc bs then env.append n pos
          else .err .corruptBatch
      | none => env.append n pos }

end Request

-- ==== the log

inductive Writer where
  | client
  | sql
  | changes
  | coordinator
deriving DecidableEq

/-- A batch in the log of a partition, and who wrote it. -/
structure Stored where
  key : Key
  writer : Writer
  bytes : List UInt8
deriving DecidableEq

structure State where
  /-- The producer windows and the log ends. -/
  world : World
  tables : TxnTables.System
  log : List Stored

namespace State

variable (crc : List UInt8 → ℕ)

/-- The store takes one batch: it is stamped at the log end. -/
def append (s : State) (w : Writer) (k : Key) (epoch : ℤ) (bytes : List UInt8) : State :=
  { s with
    world := { s.world with
      next := Function.update s.world.next k (s.world.next k + lastOffsetDelta bytes + 1) }
    log := s.log ++ [⟨k, w, RecordBatch.stamp bytes (s.world.next k) epoch⟩] }

/-- A Produce request; `epoch` are the leader epochs its appends are
stamped with. -/
def produce (s : State) (env : Env) (cat : Catalog) (epoch : Key → ℤ) (req : Request) : State :=
  let w := (Produce.handle (req.checked crc env) cat req.decode s.world.cleared).1
  { s with
    world := w
    log := s.log ++ w.log.filterMap fun x =>
      (req.batchAt x.pos).map fun bs =>
        ⟨x.key, .client, RecordBatch.stamp bs x.base (epoch x.key)⟩ }

/-- `kafgres_produce()` of one record in transaction `xid`, once its
checks pass and the store has taken the batch. -/
def sql (s : State) (xid : ProduceSql.Xid) (generation : ℕ) (k : Key)
    (epoch : ℤ) (record : NewRecord) : State :=
  match ProduceSql.sqlProducerId xid generation with
  | none => s
  | some pid => s.append .sql k epoch (buildBatchFull crc record [] pid.toInt true)

/-- A row change the change stream publishes. -/
def change (s : State) (k : Key) (epoch : ℤ) (record : NewRecord) : State :=
  s.append .changes k epoch (buildBatch crc record [])

/-- `append_marker`, once the store has taken the batch. -/
def appendMarker (epoch : Key → ℤ) (s : State) (m : TxnTables.Marker) : State :=
  s.append .coordinator m.key (epoch m.key)
    (buildControlBatch crc m.producerId m.producerEpoch m.committed)

/-- A request of the transaction APIs, with the markers that landed. -/
def txn (s : State) (epoch : Key → ℤ) (op : TxnTables.Op) : State :=
  (op.request.run s.tables.db).2.foldl (appendMarker crc epoch)
    { s with tables := s.tables.step op }

end State

/-- One request, or one call from SQL. -/
inductive Op where
  | produce (env : Env) (cat : Catalog) (epoch : Key → ℤ) (req : Request)
  | sql (xid : ProduceSql.Xid) (generation : ℕ) (k : Key) (epoch : ℤ)
      (record : NewRecord)
  | change (k : Key) (epoch : ℤ) (record : NewRecord)
  | txn (epoch : Key → ℤ) (op : TxnTables.Op)

def State.step (crc : List UInt8 → ℕ) (s : State) : Op → State
  | .produce env cat epoch req => s.produce crc env cat epoch req
  | .sql xid generation k epoch record =>
    s.sql crc xid generation k epoch record
  | .change k epoch record => s.change crc k epoch record
  | .txn epoch op => s.txn crc epoch op

/-- A broker whose logs are empty. -/
def State.init (topics : Meta.Topics) : State where
  world := ⟨fun _ _ => [], fun _ => 0, [], []⟩
  tables := .init topics
  log := []

/-- Every batch with the control attribute is the coordinator's. -/
def OnlyCoordinator (s : State) : Prop := ∀ b ∈ s.log, RecordBatch.isControl b.bytes = true →
    b.writer = .coordinator

instance (s : State) : Decidable (OnlyCoordinator s) := inferInstanceAs (Decidable (∀ b ∈ s.log, _))

/-- Planning gives the store no control batch whose checksum holds: each
is refused, or taken for one sent before. -/
def Request.NoControl (crc : List UInt8 → ℕ) (req : Request) (cat : Catalog) (w : World) : Prop :=
  ∀ p ∈ req.decode.pendings cat w, ∀ b ∈ p.plan.zipIdx,
    b.1.1.control = true → b.1.2.stores = true →
      ∀ bs ∈ req.batchAt ⟨p.site, b.2⟩, ¬ IsBatch crc bs

/-- The condition on a step, in the state it is taken in. -/
def Op.NoControl (crc : List UInt8 → ℕ) (s : State) : Op → Prop
  | .produce _ cat _ req => req.NoControl crc cat s.world
  | .sql .. | .change .. | .txn .. => True

instance (crc : List UInt8 → ℕ) (s : State) : (op : Op) → Decidable (op.NoControl crc s)
  | .produce _ cat _ req => by
    unfold Op.NoControl Request.NoControl
    infer_instance
  | .sql .. | .change .. | .txn .. => isTrue trivial

end Kafgres.Writers
