/-
The transaction coordinator over its tables (handlers/txn.rs,
handlers/init_producer_id.rs). A producer and its transaction are two
rows of two tables, joined by the producer id, and either can be missing.
An epoch is stored in both.

A request runs in one Postgres transaction, and locks make the requests
on one transactional id take turns, so a request is one step. An error
rolls back every row; markers that landed stay.

Given with a request: whether each marker append lands, which rows the
sweeps look at, and what the group says of a committed offset. The
batches of a produce are those its window check appends. The first offset
of a transaction in a partition, which only a fetch reads, is not kept.
-/
import Kafgres.Codec.ErrorCode
import Kafgres.Meta.Topics
import Kafgres.Txn.Coordinator
import Kafgres.TxnTables.Producers

namespace Kafgres.TxnTables

open Storage Meta Codec
open Txn (TxnState OffsetKey OffsetCommit Staged Finish upsert keyLe appendMarkers)

-- ==== rows

/-- A row of `kafgres_txns`. -/
structure TxnRow where
  producerId : ℤ
  epoch : ℤ
  transactionalId : String
  state : TxnState
  startedAt : ℤ
  timeoutMs : ℤ := 60000
  forcedResult : Option Bool := none
  offsetsPartitions : List ℤ := []

structure Db where
  producers : Producers
  txns : Table TxnRow.producerId
  /-- `kafgres_txn_partitions`. -/
  partitions : List (ℤ × Key)
  /-- `kafgres_txn_offsets`. -/
  staged : List (ℤ × Staged)
  /-- `kafgres_offsets`. -/
  offsets : List Staged
  topics : Topics

/-- A control batch in the log. -/
structure Marker where
  key : Key
  producerId : ℤ
  producerEpoch : ℤ
  committed : Bool
deriving DecidableEq

namespace Db

def txn (db : Db) (pid : ℤ) : Option TxnRow := db.txns.find? pid

/-- The producer has an open transaction. -/
def ongoing (db : Db) (pid : ℤ) : Bool :=
  match db.txn pid with
  | none => false
  | some t => t.state = .ongoing

/-- `UPDATE kafgres_txns … WHERE producer_id`. -/
def onTxn (db : Db) (pid : ℤ) (set : TxnRow → TxnRow)
    (same : ∀ t, (set t).producerId = t.producerId) : Db :=
  { db with
    txns := db.txns.updateWhere (fun t => t.producerId = pid) set same }

/-- What a transaction has listed and staged goes. -/
def clear (db : Db) (pid : ℤ) : Db :=
  { db with
    partitions := db.partitions.filter fun r => r.1 ≠ pid
    staged := db.staged.filter fun r => r.1 ≠ pid }

def fence (db : Db) (pid : ℤ) : Option Db :=
  (db.producers.fence pid).map fun ps => { db with producers := ps }

end Db

-- ==== admission

/-- Why a request's transactional id, producer id and epoch cannot
act. -/
inductive Verdict where
  | noTransactionalId
  | unknownProducer
  | stale
deriving DecidableEq

/-- `Verdict::code`. -/
def Verdict.code (version : ℤ) : Verdict → ErrorCode
  | .noTransactionalId => .invalidRequest
  | .unknownProducer => .invalidProducerIdMapping
  | .stale =>
    if version ≥ 2 then .producerFenced else .invalidProducerEpoch

/-- A pair that was accepted. -/
structure Admitted where
  producerId : ℤ
  epoch : ℤ

/-- `admission`. -/
def admission (producerId epoch current : ℤ) (mapped listed : Bool)
    (txn : Option (TxnState × ℤ)) : Except Verdict Admitted × Bool :=
  if !mapped then (.error .unknownProducer, false)
  else if epoch ≠ current then (.error .stale, false)
  else (.ok ⟨producerId, epoch⟩, listed && decide (txn = some (.ongoing, epoch)))

/-- `judge`, and `judge_held`, which reads the same rows. A producer
without a transactional id reads as no producer. -/
def judge (db : Db) (id : String) (pid epoch : ℤ) (partition : Option Key) :
    Except Verdict Admitted × Bool :=
  if id = "" then (.error .noTransactionalId, false)
  else match db.producers.ofId pid with
  | none => (.error .unknownProducer, false)
  | some p =>
    match p.transactionalId with
    | none => (.error .unknownProducer, false)
    | some owner =>
      admission pid epoch p.epoch.1 (decide (owner = id))
        (partition.any fun k => decide ((pid, k) ∈ db.partitions))
        ((db.txn pid).map fun t => (t.state, t.epoch))

/-- `verdict`. -/
def verdict (db : Db) (id : String) (pid epoch : ℤ) : Except Verdict Admitted :=
  (judge db id pid epoch none).1

/-- `begin_or_continue`: a new transaction clears what the last one
left, and starts its clock. -/
def beginOrContinue (db : Db) (now : ℤ) (a : Admitted) (id : String) : Db :=
  let cleared := if db.ongoing a.producerId then db else db.clear a.producerId
  { cleared with
    txns := db.txns.upsert
      { producerId := a.producerId
        epoch := a.epoch
        transactionalId := id
        state := .ongoing
        startedAt := now }
      (fun t => { t with
        epoch := a.epoch
        state := .ongoing
        startedAt := if t.state = .ongoing then t.startedAt else now
        offsetsPartitions :=
          if t.state = .ongoing then t.offsetsPartitions else []
        forcedResult :=
          if t.state = .ongoing then t.forcedResult else none })
      fun _ => rfl }

/-- `add_partition`, and `register_txn_partition`. -/
def addPartition (db : Db) (pid : ℤ) (k : Key) : Db :=
  if (pid, k) ∈ db.partitions then db
  else { db with partitions := db.partitions ++ [(pid, k)] }

-- ==== offsets

/-- A character in UTF-16. -/
def utf16 (c : Char) : List UInt32 :=
  if c.val < 0x10000 then [c.val]
  else [0xd800 + (c.val - 0x10000) / 0x400, 0xdc00 + (c.val - 0x10000) % 0x400]

/-- `offsets_partition`: Java's string hash modulo the partitions of
`__consumer_offsets`. -/
def offsetsPartition (group : String) : ℤ :=
  let h : UInt32 :=
    (group.toList.flatMap utf16).foldl (fun h u => h * 31 + u) 0
  if h = 0x80000000 then 0 else (h.toInt32.toInt.natAbs % 50 : ℕ)

/-- `add_offsets_partition`. -/
def addOffsetsPartition (db : Db) (a : Admitted) (group : String) : Db :=
  db.onTxn a.producerId (fun t => { t with
    offsetsPartitions :=
      if offsetsPartition group ∈ t.offsetsPartitions
      then t.offsetsPartitions
      else t.offsetsPartitions ++ [offsetsPartition group] }) fun _ => rfl

/-- `offsets_partition_added`. -/
def offsetsPartitionAdded (db : Db) (a : Admitted) (group : String) : Bool :=
  match db.txn a.producerId with
  | none => false
  | some t => decide (t.state = .ongoing) && decide (t.epoch = a.epoch) &&
      decide (offsetsPartition group ∈ t.offsetsPartitions)

/-- One row of `TxnOffsetCommit`. -/
def stage (db : Db) (pid : ℤ) (row : Staged) : Db :=
  { db with
    staged := db.staged.filter (fun r => ¬ (r.1 = pid ∧ r.2.1 = row.1)) ++ [(pid, row)] }

-- ==== ending

/-- The partitions a marker is due on, in order. -/
def Db.markable (db : Db) (pid : ℤ) : List Key := ((db.partitions.filter fun r =>
    r.1 = pid ∧ db.topics.has r.2.topic = true).map (·.2)).insertionSort keyLe

/-- The end of a transaction: its offsets are applied or dropped, its
rows go, and the outcome is its state. -/
def Db.close (db : Db) (pid : ℤ) (committed : Bool) : Db :=
  let applied := if committed then
      ((db.staged.filter fun r => r.1 = pid).map (·.2)).foldl
        (fun rows row => upsert row rows) db.offsets
    else db.offsets
  ({ db with offsets := applied }.clear pid).onTxn pid (fun t => { t with
      state := .ofResult committed
      offsetsPartitions := [] }) fun _ => rfl

/-- `finish_transaction`: a forced result goes before the one asked for.
None is an error, and the markers are what landed all the same. -/
def finishTransaction (db : Db) (pid epoch : ℤ) (committed : Bool)
    (lands : Key → Bool) : Option (Db × Finish) × List Marker :=
  match db.txn pid with
  | none => (some (db, .notOurs), [])
  | some t =>
    if (db.producers.ofId pid).any fun p => decide (epoch < p.epoch.1) then
      (some (db, .notOurs), [])
    else match t.state with
    | .empty => (some (db, .notOpen none), [])
    | .committed => (some (db, .notOpen (some true)), [])
    | .aborted => (some (db, .notOpen (some false)), [])
    | .ongoing =>
      let outcome := t.forcedResult.getD committed
      let mark (k : Key) : Marker := ⟨k, pid, epoch, outcome⟩
      let r := appendMarkers mark lands (db.markable pid)
      if r.1 then
        if outcome ≠ committed then
          (((db.close pid outcome).fence pid).map (·, .overridden), r.2)
        else (some (db.close pid outcome, .ended), r.2)
      else (none, r.2)

/-- The row of the partition goes and the first outcome is the forced
one. -/
def Db.mark (db : Db) (pid : ℤ) (k : Key) (committed : Bool) : Db :=
  { db with partitions := db.partitions.filter (· ≠ (pid, k)) }.onTxn pid (fun t => { t with
      forcedResult := some (t.forcedResult.getD committed) }) fun _ => rfl

/-- `finish_partition`. A failed append is reported by the caller and
changes nothing. -/
def finishPartition (db : Db) (pid epoch : ℤ) (k : Key) (committed : Bool)
    (lands : Bool) : Option (Db × ErrorCode) × List Marker :=
  match db.txn pid with
  | none => (some (db, .none), [])
  | some t =>
    if t.state ≠ .ongoing ∨ (pid, k) ∉ db.partitions then
      (some (db, .none), [])
    else if epoch < t.epoch then (some (db, .invalidProducerEpoch), [])
    else if lands then
      let marked := db.mark pid k committed
      if marked.partitions.any fun r => r.1 = pid then
        (some (marked, .none), [⟨k, pid, epoch, committed⟩])
      else (((marked.close pid committed).fence pid).map (·, .none), [⟨k, pid, epoch, committed⟩])
    else (some (db, .unknownServerError), [])

-- ==== requests

/-- `handle_add_partitions`: the code is that of every partition. -/
def handleAddPartitions (db : Db) (id : String) (pid epoch version now : ℤ)
    (topics : List (String × List Int32)) : Db × ErrorCode :=
  if version ≥ 4 then (db, .invalidRequest)
  else match verdict db id pid epoch with
  | .error v => (db, v.code version)
  | .ok a =>
    let keys := topics.flatMap fun t =>
      match db.topics.byName t.1 with
      | none => []
      | some topic => (t.2.filter topic.has).map topic.key
    (keys.foldl (fun db k => addPartition db pid k) (beginOrContinue db now a id), .none)

/-- `handle_add_offsets`. -/
def handleAddOffsets (db : Db) (id : String) (pid epoch version now : ℤ)
    (group : String) : Db × ErrorCode :=
  match verdict db id pid epoch with
  | .error v => (db, v.code version)
  | .ok a => (addOffsetsPartition (beginOrContinue db now a id) a group, .none)

/-- A `TxnOffsetCommit` as it arrives. -/
structure TxnOffsetCommit where
  transactionalId : String
  producerId : ℤ
  producerEpoch : ℤ
  version : ℤ
  groupId : String
  now : ℤ
  partitions : List (String × Int32 × OffsetCommit)
  /-- `validate_commit`, and what it says of a partition. -/
  group : Key → ErrorCode

namespace TxnOffsetCommit

/-- Before version 5 the group's offsets partition must be in the
transaction. -/
def unverified (req : TxnOffsetCommit) (db : Db) : Except Verdict Admitted → ErrorCode
  | .ok a =>
    if req.version < 5 ∧ req.groupId ≠ "" then
      if offsetsPartitionAdded db a req.groupId then .none
      else if req.version ≥ 4 then .transactionAbortable
      else .invalidTxnState
    else .none
  | .error _ => .none

/-- The code of the producer. A stale epoch has one at every version. -/
def code (req : TxnOffsetCommit) : Except Verdict Admitted → ErrorCode
  | .ok _ => .none
  | .error .stale => .invalidProducerEpoch
  | .error v => v.code req.version

/-- The topic and the partition, if there are such. -/
def key (db : Db) (p : String × Int32 × OffsetCommit) : Option Key :=
  match db.topics.byName p.1 with
  | none => none
  | some t => if t.has p.2.1 then some (t.key p.2.1) else none

/-- The code of a partition. -/
def partitionCode (req : TxnOffsetCommit) (db : Db)
    (p : String × Int32 × OffsetCommit) : ErrorCode :=
  let admitted := verdict db req.transactionalId req.producerId req.producerEpoch
  let code := req.code admitted
  if code = .invalidRequest ∧ req.groupId ≠ "" then code
  else match key db p with
  | none => .unknownTopicOrPartition
  | some k =>
    if req.groupId = "" then .invalidGroupId
    else if req.unverified db admitted ≠ .none then
      req.unverified db admitted
    else if code = .none then req.group k
    else code

/-- The rows it stages. -/
def accepted (req : TxnOffsetCommit) (db : Db) : List Staged := req.partitions.filterMap fun p =>
    match key db p with
    | none => none
    | some k =>
      if req.partitionCode db p = .none then
        some (⟨req.groupId, k⟩, p.2.2)
      else none

/-- Version 5 begins the transaction before the group checks. -/
def begins (req : TxnOffsetCommit) (db : Db) : Bool :=
  decide (req.version ≥ 5) && req.partitions.any (fun p => (key db p).isSome) &&
    decide (req.groupId ≠ "")

end TxnOffsetCommit

/-- `handle_txn_offset_commit`, with the code of each partition. -/
def handleTxnOffsetCommit (db : Db) (req : TxnOffsetCommit) : Db × List ErrorCode :=
  let begun := match verdict db req.transactionalId req.producerId req.producerEpoch with
    | .ok a =>
      if req.begins db then
        addOffsetsPartition (beginOrContinue db req.now a req.transactionalId) a req.groupId
      else db
    | .error _ => db
  ((req.accepted db).foldl (fun db row => stage db req.producerId row) begun,
    req.partitions.map (req.partitionCode db))

/-- A transactional batch checked against its transaction. -/
inductive ProduceTxn where
  | added
  | addsPartition (a : Admitted)
  | refused (code : ErrorCode)

/-- `produce_verdict`. -/
def produceVerdict (judged : Except Verdict Admitted × Bool) (version : ℤ) : ProduceTxn :=
  match judged with
  | (.error .stale, _) => .refused .invalidProducerEpoch
  | (.error _, _) => .refused .invalidProducerIdMapping
  | (.ok _, true) => .added
  | (.ok a, false) =>
    if version ≥ 12 then .addsPartition a
    else if version ≥ 11 then .refused .transactionAbortable
    else .refused .invalidTxnState

/-- A transactional batch of a produce. -/
structure Batch where
  producerId : ℤ
  producerEpoch : ℤ
  key : Key

/-- `verify_held_produce`. -/
def verifyHeldProduce (db : Db) (id : Option String) (b : Batch) (version : ℤ) : ProduceTxn :=
  match id with
  | none => .refused .transactionalIdAuthorizationFailed
  | some id => produceVerdict (judge db id b.producerId b.producerEpoch (some b.key)) version

/-- One batch of `reserve_partition`, with the producers begun in the
request. -/
def reserve (now : ℤ) (id : String) (s : Db × List ℤ) (b : Batch × ProduceTxn) : Db × List ℤ :=
  match b.2 with
  | .refused _ => s
  | .added => (addPartition s.1 b.1.producerId b.1.key, s.2)
  | .addsPartition a =>
    if b.1.producerId ∈ s.2 then
      (addPartition s.1 b.1.producerId b.1.key, s.2)
    else (addPartition (beginOrContinue s.1 now a id) b.1.producerId b.1.key, b.1.producerId :: s.2)

/-- What a produce does to the transactions of its batches: all are
checked before any is reserved. -/
def produce (db : Db) (id : Option String) (version now : ℤ)
    (batches : List Batch) : Db × List ProduceTxn :=
  let judged := batches.map fun b => verifyHeldProduce db id b version
  (((batches.zip judged).foldl (reserve now (id.getD "")) (db, [])).1, judged)

/-- An `EndTxn` as it arrives, and `kafgres.transaction_version`. -/
structure EndTxn where
  transactionalId : String
  producerId : ℤ
  producerEpoch : ℤ
  committed : Bool
  version : ℤ
  transactionVersion : ℤ
  lands : Key → Bool

/-- The error code with the pair in the reply. -/
abbrev EndTxnReply := ErrorCode × ℤ × ℤ

namespace EndTxn

def unchanged (req : EndTxn) (code : ErrorCode) : EndTxnReply :=
  (code, req.producerId, req.producerEpoch)

/-- The epoch moves on with the transaction's end. -/
def rotating (req : EndTxn) : Bool :=
  decide (req.version ≥ 5) && decide (req.transactionVersion ≥ 2)

end EndTxn

/-- What an `EndTxn` with a pair that may be retired turns out to be. -/
inductive Retry where
  | of (producerId epoch : ℤ)
  | outcomeMismatch
  | no

/-- `completed_retry`. -/
def completedRetry (db : Db) (id : String) (pid epoch : ℤ) (committed : Bool) : Retry :=
  match db.producers.ofTxn id with
  | none => .no
  | some p =>
    match p.retired with
    | none => .no
    | some r =>
      if r.producerId = pid ∧ r.epoch = epoch ∧ db.ongoing p.producerId = false then
        if r.committed = committed then .of p.producerId p.epoch.1
        else .outcomeMismatch
      else .no

/-- `bump_epoch_for_next_txn`: the transaction row moves with its
producer. -/
def Db.rotate (db : Db) (pid : ℤ) (committed : Bool) : Option (Db × ℤ × ℤ) :=
  let r := db.producers.rotate pid committed
  if r.2.1 = pid then some ({ db with producers := r.1 }, r.2)
  else if free : r.2.1 ∉ db.txns.keys then
    some ({ db with
      producers := r.1
      txns := db.txns.rename pid r.2.1 (fun t => { t with producerId := r.2.1, epoch := 0 })
        (fun _ => rfl) free }, r.2)
  else none

/-- The tail of `handle_end_txn`. -/
def EndTxn.rotate (req : EndTxn) (db : Db) : Option (Db × EndTxnReply) :=
  if req.rotating then
    (db.rotate req.producerId req.committed).map fun r =>
      (r.1, .none, r.2)
  else some (db, req.unchanged .none)

/-- An abort that finds nothing open. -/
abbrev EndTxn.aborted (req : EndTxn) (db : Db) : Db := db.onTxn req.producerId (fun t => { t with
    state := .aborted
    offsetsPartitions := [] }) fun _ => rfl

/-- `handle_end_txn` after `finish_transaction`. -/
def EndTxn.answer (req : EndTxn) (db : Db) : Finish → Option (Db × EndTxnReply)
  | .notOurs | .overridden => some (db, req.unchanged .invalidProducerEpoch)
  | .notOpen last =>
    if req.rotating then
      if req.committed then some (db, req.unchanged .invalidTxnState)
      else req.rotate (req.aborted db)
    else if last = some req.committed then some (db, req.unchanged .none)
    else some (db, req.unchanged .invalidTxnState)
  | .ended => req.rotate db

/-- `handle_end_txn`. -/
def handleEndTxn (db : Db) (req : EndTxn) : Option (Db × EndTxnReply) × List Marker :=
  if req.transactionalId = "" then
    (some (db, req.unchanged .invalidRequest), [])
  else
    match (if req.rotating then completedRetry db req.transactionalId
      req.producerId req.producerEpoch req.committed else .no) with
    | .of pid epoch => (some (db, .none, pid, epoch), [])
    | .outcomeMismatch => (some (db, req.unchanged .invalidTxnState), [])
    | .no =>
      match verdict db req.transactionalId req.producerId req.producerEpoch with
      | .error v => (some (db, req.unchanged (v.code req.version)), [])
      | .ok _ =>
        let r := finishTransaction db req.producerId req.producerEpoch req.committed req.lands
        (r.1.bind fun f => req.answer f.1 f.2, r.2)

/-- `MAX_TRANSACTION_TIMEOUT_MS`. -/
def maxTransactionTimeoutMs : ℤ := 900000

/-- The transactions `abort_abandoned` finds: the id's open ones, each at
its producer's epoch. -/
def abandoned (db : Db) (id : String) : List (ℤ × ℤ) := (db.txns.rows.filterMap fun t =>
    if t.transactionalId = id ∧ t.state = .ongoing then
      match db.producers.ofId t.producerId with
      | none => some (t.producerId, t.epoch)
      | some p =>
        if p.transactionalId = some id then
          some (t.producerId, p.epoch.1)
        else none
    else none).mergeSort fun a b => decide (a.1 ≤ b.1)

/-- The loop of `abort_abandoned`. -/
def abortAll (lands : Key → Bool) : Db → List (ℤ × ℤ) → Option Db × List Marker
  | db, [] => (some db, [])
  | db, (pid, epoch) :: rest =>
    match finishTransaction db pid epoch false lands with
    | (none, ms) => (none, ms)
    | (some (db, _), ms) =>
      let r := abortAll lands db rest
      (r.1, ms ++ r.2)

/-- A finished row left by a producer that is gone is not listed beside
the live one. -/
def Db.tidy (db : Db) (id : String) (pid : ℤ) : Db :=
  let old : TxnRow → Bool := fun t => decide (t.transactionalId = id) &&
    decide (t.producerId ≠ pid) && decide (t.state ≠ .ongoing)
  let gone : ℤ → Bool := fun q => (db.txn q).any old
  { db with
    partitions := db.partitions.filter fun r => !gone r.1
    staged := db.staged.filter fun r => !gone r.1
    txns := db.txns.delete old }

/-- The transaction row of an id that was initialised. -/
def Db.initTxn (db : Db) (id : String) (pid epoch now timeout : ℤ) : Db :=
  { db with
    txns := db.txns.upsert
      { producerId := pid
        epoch := epoch
        transactionalId := id
        state := .empty
        startedAt := now
        timeoutMs := timeout }
      (fun t => { t with
        epoch := epoch
        timeoutMs := timeout
        forcedResult :=
          if t.state = .ongoing then t.forcedResult else none
        state := if t.state = .ongoing then .ongoing else .empty })
      fun _ => rfl }

/-- `22 InitProducerId`, past its authorisation. -/
def handleInitProducerId (db : Db) (id : Option String) (now timeoutMs : ℤ)
    (lands : Key → Bool) : Option (Db × ℤ × ℤ) × List Marker :=
  match id.filter (· ≠ "") with
  | none => (some ({ db with producers := db.producers.allocate }, db.producers.next, 0), [])
  | some id =>
    let r := abortAll lands db (abandoned db id)
    (r.1.bind fun db =>
      (db.producers.initProducerId id).map fun (ps, pid, epoch) =>
        ((({ db with producers := ps }.tidy id pid).initTxn id pid epoch
          now (max 1000 (min timeoutMs maxTransactionTimeoutMs))),
          pid, epoch), r.2)

/-- One round of `expire_stale_transactions`: staleness is checked again
under the lock, and the producer is fenced. -/
def expireOne (db : Db) (now pid : ℤ) (lands : Key → Bool) : Option Db × List Marker :=
  match db.txn pid with
  | none => (some db, [])
  | some t =>
    if t.state = .ongoing ∧ now - t.startedAt > t.timeoutMs then
      let r := finishTransaction db pid t.epoch false lands
      (r.1.bind fun (db', f) =>
        match f with
        | .notOurs | .notOpen _ | .overridden => some db'
        | .ended => db'.fence pid, r.2)
    else (some db, [])

/-- `expire_stale_transactions`: one error ends the sweep, and all of it
is rolled back. -/
def expireStaleTransactions (now : ℤ) (lands : Key → Bool) : Db → List ℤ → Option Db × List Marker
  | db, [] => (some db, [])
  | db, pid :: rest =>
    match expireOne db now pid lands with
    | (none, ms) => (none, ms)
    | (some db', ms) =>
      let r := expireStaleTransactions now lands db' rest
      (r.1, ms ++ r.2)

/-- One partition of a `WriteTxnMarkers`. -/
structure Force where
  producerId : ℤ
  producerEpoch : ℤ
  topic : String
  partition : Int32
  committed : Bool
  lands : Bool

/-- `mark_one`. -/
def markOne (db : Db) (e : Force) : Option (Db × ErrorCode) × List Marker :=
  match db.topics.byName e.topic with
  | none => (some (db, .unknownTopicOrPartition), [])
  | some t =>
    if t.has e.partition = false then
      (some (db, .unknownTopicOrPartition), [])
    else match db.producers.ofId e.producerId with
    | none => (some (db, .invalidProducerEpoch), [])
    | some p =>
      if e.producerEpoch < p.epoch.1 then
        (some (db, .invalidProducerEpoch), [])
      else if (e.producerId, t.key e.partition) ∉ db.partitions then
        (some (db, .invalidTxnState), [])
      else finishPartition db e.producerId e.producerEpoch (t.key e.partition) e.committed e.lands

/-- `write_txn_markers`, past its authorisation: the partitions in turn,
each with its code. -/
def writeTxnMarkers : Db → List Force → Option (Db × List ErrorCode) × List Marker
  | db, [] => (some (db, []), [])
  | db, e :: rest =>
    match markOne db e with
    | (none, ms) => (none, ms)
    | (some (db, code), ms) =>
      let r := writeTxnMarkers db rest
      (r.1.map fun (db, codes) => (db, code :: codes), ms ++ r.2)

/-- `sweep` of producers: those with an open transaction are exempt. -/
def sweepProducers (db : Db) (victims : List ℤ) : Db :=
  { db with
    producers := db.producers.remove fun p =>
      decide (p.producerId ∈ victims) && !db.ongoing p.producerId }

/-- `delete_topic`: its rows go with it. -/
def deleteTopic (db : Db) (name : String) : Db :=
  match db.topics.byName name with
  | none => db
  | some t =>
    { db with
      partitions := db.partitions.filter fun r => r.2.topic ≠ t.topicId
      staged := db.staged.filter fun r => r.2.1.key.topic ≠ t.topicId
      offsets := db.offsets.filter fun r => r.1.key.topic ≠ t.topicId
      topics := db.topics.drop t.topicId }

-- ==== the system

/-- A request, with what the environment decides of it. -/
inductive Request where
  | initProducerId (id : Option String) (now timeoutMs : ℤ)
      (lands : Key → Bool)
  | addPartitions (id : String) (pid epoch version now : ℤ)
      (topics : List (String × List Int32))
  | addOffsets (id : String) (pid epoch version now : ℤ) (group : String)
  | txnOffsetCommit (req : TxnOffsetCommit)
  | produce (id : Option String) (version now : ℤ) (batches : List Batch)
  | endTxn (req : EndTxn)
  | writeTxnMarkers (entries : List Force)
  | expire (now : ℤ) (stale : List ℤ) (lands : Key → Bool)
  | sweepProducers (victims : List ℤ)
  | createTopic (t : Topic)
  | createPartitions (topicId : UInt32) (total : Int32)
  | deleteTopic (name : String)

/-- The rows a request leaves, none if it fails, and the markers that
landed. -/
def Request.run (db : Db) : Request → Option Db × List Marker
  | .initProducerId id now timeoutMs lands =>
    let r := handleInitProducerId db id now timeoutMs lands
    (r.1.map (·.1), r.2)
  | .addPartitions id pid epoch version now topics =>
    (some (handleAddPartitions db id pid epoch version now topics).1, [])
  | .addOffsets id pid epoch version now group =>
    (some (handleAddOffsets db id pid epoch version now group).1, [])
  | .txnOffsetCommit req => (some (handleTxnOffsetCommit db req).1, [])
  | .produce id version now batches =>
    (some (TxnTables.produce db id version now batches).1, [])
  | .endTxn req =>
    let r := handleEndTxn db req
    (r.1.map (·.1), r.2)
  | .writeTxnMarkers entries =>
    let r := TxnTables.writeTxnMarkers db entries
    (r.1.map (·.1), r.2)
  | .expire now stale lands => expireStaleTransactions now lands db stale
  | .sweepProducers victims => (some (TxnTables.sweepProducers db victims), [])
  | .createTopic t => (some { db with topics := db.topics.create t }, [])
  | .createPartitions topicId total =>
    (some { db with topics := db.topics.extend topicId total }, [])
  | .deleteTopic name => (some (TxnTables.deleteTopic db name), [])

/-- A request, whether its Postgres transaction commits, and how many
values of the producer id sequence are lost around it. -/
structure Op where
  request : Request
  commits : Bool := true
  lost : ℕ := 0

structure System where
  db : Db
  log : List Marker

/-- The sequence is not rolled back. -/
def Db.lose (db : Db) (n : ℕ) : Db :=
  { db with producers := Producers.skip^[n] db.producers }

def System.step (s : System) (op : Op) : System :=
  let r := op.request.run s.db
  { db := (if op.commits then r.1.getD s.db else s.db).lose op.lost
    log := s.log ++ r.2 }

/-- A broker that has handed out no producer id. -/
def System.init (topics : Topics) : System := ⟨⟨.empty, .empty, [], [], [], topics⟩, []⟩

end Kafgres.TxnTables
