/-
The transaction coordinator (handlers/txn.rs, handlers/
init_producer_id.rs): who may end a transaction, and how it is ended.

# Rows and log

A request runs in one Postgres transaction, and an error rolls back
every row it wrote. The markers it appended stay. Locks make the requests
on one transactional id take turns, so a request is one step.

# What is given with a request

Whether each marker append lands (`lands`), and whether the Postgres
transaction commits in the end. `TxnOffsetCommit` comes with the rows its
checks of the group and of the topics accept. The range an abort records
for `Fetch` is not kept here.

# History

A coordinator also counts its transactions (`txn`) and remembers what was
staged in each, what was applied of it to the groups and how each ended.
The code keeps none of this; markers carry the number of the transaction
they were written for in the same way.
-/
import Kafgres.Storage.Basic
import Mathlib.Data.List.Sort

namespace Kafgres.Txn

open Storage

-- ==== rows

/-- `kafgres_txns.state`. -/
inductive TxnState where
  | empty
  | ongoing
  | committed
  | aborted
deriving DecidableEq, Repr

/-- The state a transaction ends in. -/
def TxnState.ofResult (committed : Bool) : TxnState :=
  if committed then .committed else .aborted

/-- The primary key of `kafgres_offsets` (and with the producer id of
`kafgres_txn_offsets`). -/
structure OffsetKey where
  group : String
  key : Key
deriving DecidableEq

/-- What is committed under it. -/
structure OffsetCommit where
  committedOffset : ℤ
  committedLeaderEpoch : ℤ
  metadata : Option String
deriving DecidableEq

abbrev Staged := OffsetKey × OffsetCommit

/-- `ON CONFLICT DO UPDATE`: the row under the key is replaced. -/
def upsert (row : Staged) : List Staged → List Staged
  | [] => [row]
  | r :: rest => if r.1 = row.1 then row :: rest else r :: upsert row rest

/-- The pair an `EndTxn` retired, and the outcome it asked for. -/
structure Retired where
  producerId : ℕ
  epoch : ℕ
  committed : Bool

/-- What the coordinator holds on one transactional id. -/
structure Coordinator where
  /-- Its row of `kafgres_producers`. -/
  producerId : ℕ
  epoch : ℕ
  retired : Option Retired
  /-- Its row of `kafgres_txns`. -/
  txnEpoch : ℕ
  state : TxnState
  startedAt : ℤ
  timeoutMs : ℤ
  forcedResult : Option Bool
  /-- Its rows of `kafgres_txn_partitions`, in the order they are read. -/
  partitions : List Key
  /-- Its rows of `kafgres_txn_offsets`. -/
  offsets : List Staged
  /-- The number of its latest transaction. -/
  txn : ℕ
  /-- What each transaction was given to commit, in order. -/
  staged : List (ℕ × Staged)
  /-- What each transaction wrote to `kafgres_offsets`, in order. -/
  applied : List (ℕ × Staged)
  /-- How each transaction ended. -/
  ended : List (ℕ × Bool)

/-- A control batch in the log, with the transaction it was written
for. -/
structure Marker where
  key : Key
  producerId : ℕ
  producerEpoch : ℕ
  committed : Bool
  transactionalId : ℕ
  txn : ℕ
deriving DecidableEq

/-- The tables: the coordinators by transactional id, and the number of
partitions of each topic there is. -/
structure Db where
  rows : ℕ → Option Coordinator
  topics : UInt32 → Option Int32

def Db.put (db : Db) (id : ℕ) (c : Coordinator) : Db :=
  { db with rows := Function.update db.rows id (some c) }

/-- The topic exists and the partition is in its range. -/
def Db.has (db : Db) (k : Key) : Bool :=
  match db.topics k.topic with
  | none => false
  | some n => decide (0 ≤ k.partition) && decide (k.partition < n)

-- ==== admission

/-- Why a request's producer id and epoch cannot act. -/
inductive Verdict where
  | unknownProducer
  | stale
deriving DecidableEq

/-- `verdict`: the id must be the one mapped to the transactional id, and
the epoch exactly the current one. -/
def verdict (c : Coordinator) (producerId epoch : ℕ) : Option Verdict :=
  if c.producerId ≠ producerId then some .unknownProducer
  else if c.epoch ≠ epoch then some .stale
  else none

/-- `begin_or_continue` at the current epoch. -/
def beginOrContinue (now : ℤ) (c : Coordinator) : Coordinator :=
  if c.state = .ongoing then { c with txnEpoch := c.epoch }
  else { c with
    txnEpoch := c.epoch
    state := .ongoing
    startedAt := now
    forcedResult := none
    partitions := []
    offsets := []
    txn := c.txn + 1 }

/-- `ORDER BY topic_id, partition`. -/
def keyLe (a b : Key) : Prop := a.topic < b.topic ∨ a.topic = b.topic ∧ a.partition ≤ b.partition

instance : DecidableRel keyLe := fun _ _ => inferInstanceAs (Decidable (_ ∨ _))

/-- `add_partition`. -/
def addPartition (c : Coordinator) (k : Key) : Coordinator :=
  if k ∈ c.partitions then c
  else { c with partitions := c.partitions.orderedInsert keyLe k }

/-- One row of `TxnOffsetCommit`. -/
def stage (c : Coordinator) (row : Staged) : Coordinator :=
  { c with
    offsets := upsert row c.offsets
    staged := c.staged ++ [(c.txn, row)] }

/-- `fence`: the epoch moves on and nothing is a retry any more. -/
def fence (c : Coordinator) : Coordinator :=
  { c with epoch := c.epoch + 1, retired := none }

/-- Below `i16::MAX`, as the other bumps add one unguarded. -/
def epochCeiling : ℕ := 32766

/-- `bump_epoch_for_next_txn`. At the ceiling the transactional id moves
to a fresh producer id, and its transaction row with it. -/
def bumpEpochForNextTxn (fresh : ℕ) (committed : Bool) (c : Coordinator) : Coordinator :=
  let retired := some ⟨c.producerId, c.epoch, committed⟩
  if c.epoch < epochCeiling then
    { c with retired := retired, epoch := c.epoch + 1 }
  else
    { c with retired := retired, producerId := fresh, epoch := 0,
             txnEpoch := 0 }

-- ==== ending

/-- The end of a transaction: its offsets are applied or dropped, its
rows go, and the outcome is its state. -/
def close (committed : Bool) (c : Coordinator) : Coordinator :=
  { c with
    applied := if committed then
        c.applied ++ c.offsets.map fun row => (c.txn, row)
      else c.applied
    offsets := []
    partitions := []
    state := .ofResult committed
    ended := c.ended ++ [(c.txn, committed)] }

/-- `build_control_batch` for the transaction that is open. -/
def marker (id : ℕ) (c : Coordinator) (epoch : ℕ) (committed : Bool) (k : Key) : Marker :=
  ⟨k, c.producerId, epoch, committed, id, c.txn⟩

/-- The loop of `append_marker`: it stops at the first append that
fails, and what landed before has landed. -/
def appendMarkers {M : Type} (mark : Key → M) (lands : Key → Bool) : List Key → Bool × List M
  | [] => (true, [])
  | k :: rest =>
    if lands k then
      let r := appendMarkers mark lands rest
      (r.1, mark k :: r.2)
    else (false, [])

theorem appendMarkers_wrote {M : Type} {mark : Key → M} {lands : Key → Bool} {ks : List Key}
    {m : M} (hm : m ∈ (appendMarkers mark lands ks).2) : ∃ k, m = mark k := by
  induction ks with
  | nil => cases hm
  | cons k rest ih =>
    unfold appendMarkers at hm
    split at hm
    · rcases List.mem_cons.1 hm with rfl | hm
      · exact ⟨k, rfl⟩
      · exact ih hm
    · cases hm

/-- What `finish_transaction` did. -/
inductive Finish where
  | notOurs
  | ended
  | notOpen (last : Option Bool)
  | overridden
deriving DecidableEq

/-- `finish_transaction`: a forced result goes before the one asked for.
None is an error, and the markers are what landed all the same. -/
def finishTransaction (db : Db) (id : ℕ) (c : Coordinator) (epoch : ℕ)
    (committed : Bool) (lands : Key → Bool) : Option (Coordinator × Finish) × List Marker :=
  if epoch < c.epoch then (some (c, .notOurs), [])
  else match c.state with
  | .empty => (some (c, .notOpen none), [])
  | .committed => (some (c, .notOpen (some true)), [])
  | .aborted => (some (c, .notOpen (some false)), [])
  | .ongoing =>
    let outcome := c.forcedResult.getD committed
    let r := appendMarkers (marker id c epoch outcome) lands
      (c.partitions.filter fun k => (db.topics k.topic).isSome)
    if r.1 then
      if outcome ≠ committed then
        (some (fence (close outcome c), .overridden), r.2)
      else (some (close outcome c, .ended), r.2)
    else (none, r.2)

/-- `finish_partition` with the epoch and the registration checked: one
marker, with the outcome asked for. The first one is recorded as the
forced result, and the last one ends the transaction. -/
def finishPartition (c : Coordinator) (k : Key) (committed : Bool) : Coordinator :=
  let marked := { c with
    partitions := c.partitions.erase k
    forcedResult := some (c.forcedResult.getD committed) }
  if marked.partitions = [] then fence (close committed marked)
  else marked

-- ==== requests

inductive ErrorCode where
  | none
  | invalidProducerEpoch
  | invalidProducerIdMapping
  | producerFenced
  | invalidTxnState
  | unknownTopicOrPartition
  | unknownServerError
deriving DecidableEq, Repr

/-- `Verdict::code`. -/
def Verdict.code (version : ℕ) : Verdict → ErrorCode
  | .unknownProducer => .invalidProducerIdMapping
  | .stale =>
    if version ≥ 2 then .producerFenced else .invalidProducerEpoch

/-- What a request leaves: its rows unless it failed, the markers that
landed, and its reply. -/
structure Effect (α : Type) where
  rows : Option (Db × α)
  wrote : List Marker

/-- An `EndTxn` as it arrives. `rotating` is version 5 at transaction
version 2. -/
structure EndTxn where
  transactionalId : ℕ
  producerId : ℕ
  producerEpoch : ℕ
  committed : Bool
  version : ℕ
  rotating : Bool
  lands : Key → Bool
  /-- The producer id the sequence gives next. -/
  fresh : ℕ

/-- The error code with the pair in the reply. -/
abbrev EndTxnReply := ErrorCode × ℕ × ℕ

def EndTxn.unchanged (req : EndTxn) (code : ErrorCode) : EndTxnReply :=
  (code, req.producerId, req.producerEpoch)

/-- `completed_retry`: the retired pair of a transactional id with
nothing open. The answer says whether the outcome is the same. -/
def completedRetry (c : Coordinator) (req : EndTxn) : Option Bool :=
  match c.retired with
  | none => none
  | some r =>
    if r.producerId = req.producerId ∧ r.epoch = req.producerEpoch ∧ c.state ≠ .ongoing then
      some (decide (r.committed = req.committed))
    else none

/-- The tail of `handle_end_txn`: rotate the epoch if asked to. -/
def EndTxn.rotate (req : EndTxn) (c : Coordinator) : Coordinator × EndTxnReply :=
  if req.rotating then
    let c := bumpEpochForNextTxn req.fresh req.committed c
    (c, (.none, c.producerId, c.epoch))
  else (c, req.unchanged .none)

/-- `handle_end_txn` after `finish_transaction`. -/
def EndTxn.answer (req : EndTxn) (c : Coordinator) : Finish → Coordinator × EndTxnReply
  | .notOurs | .overridden => (c, req.unchanged .invalidProducerEpoch)
  | .notOpen last =>
    if req.rotating then
      if req.committed then (c, req.unchanged .invalidTxnState)
      else req.rotate { c with state := .aborted }
    else if last = some req.committed then (c, req.unchanged .none)
    else (c, req.unchanged .invalidTxnState)
  | .ended => req.rotate c

/-- `handle_end_txn`. -/
def handleEndTxn (db : Db) (req : EndTxn) : Effect EndTxnReply :=
  let unchanged code := ⟨some (db, req.unchanged code), []⟩
  match db.rows req.transactionalId with
  | none => unchanged .invalidProducerIdMapping
  | some c =>
    match (if req.rotating then completedRetry c req else none) with
    | some true => ⟨some (db, .none, c.producerId, c.epoch), []⟩
    | some false => unchanged .invalidTxnState
    | none =>
      match verdict c req.producerId req.producerEpoch with
      | some v => unchanged (v.code req.version)
      | none =>
        let r := finishTransaction db req.transactionalId c
          req.producerEpoch req.committed req.lands
        ⟨r.1.map fun (c, f) =>
          let a := req.answer c f
          (db.put req.transactionalId a.1, a.2), r.2⟩

/-- `MAX_TRANSACTION_TIMEOUT_MS`. -/
def maxTransactionTimeoutMs : ℤ := 900000

/-- `init_producer_id` on a known transactional id, with the update of
its transaction row. -/
def reinit (timeout : ℤ) (c : Coordinator) : Coordinator :=
  { c with
    epoch := c.epoch + 1
    retired := none
    txnEpoch := c.epoch + 1
    timeoutMs := timeout
    forcedResult := if c.state = .ongoing then c.forcedResult else none
    state := if c.state = .ongoing then .ongoing else .empty }

/-- A transactional id seen for the first time. -/
def register (now timeout : ℤ) (fresh : ℕ) : Coordinator :=
  { producerId := fresh, epoch := 0, retired := none, txnEpoch := 0,
    state := .empty, startedAt := now, timeoutMs := timeout,
    forcedResult := none, partitions := [], offsets := [], txn := 0,
    staged := [], applied := [], ended := [] }

/-- `abort_abandoned`: what is still open is aborted, at the epoch it ran
under. -/
def abortAbandoned (db : Db) (id : ℕ) (c : Coordinator)
    (lands : Key → Bool) : Option Coordinator × List Marker :=
  if c.state = .ongoing then
    let r := finishTransaction db id c c.epoch false lands
    (r.1.map (·.1), r.2)
  else (some c, [])

/-- `InitProducerId` for a transactional id. -/
def initProducerId (db : Db) (id : ℕ) (now timeoutMs : ℤ) (fresh : ℕ)
    (lands : Key → Bool) : Effect (ℕ × ℕ) :=
  let timeout := max 1000 (min timeoutMs maxTransactionTimeoutMs)
  match db.rows id with
  | none => ⟨some (db.put id (register now timeout fresh), fresh, 0), []⟩
  | some c =>
    let r := abortAbandoned db id c lands
    ⟨r.1.map fun c => (db.put id (reinit timeout c), c.producerId, c.epoch + 1), r.2⟩

/-- A transactional id of an expiry sweep. -/
structure Stale where
  transactionalId : ℕ
  lands : Key → Bool

/-- One round of `expire_stale_transactions`: staleness is checked again
under the lock, and the producer is fenced. -/
def expireOne (db : Db) (now : ℤ) (e : Stale) : Option Db × List Marker :=
  match db.rows e.transactionalId with
  | none => (some db, [])
  | some c =>
    if c.state = .ongoing ∧ now - c.startedAt > c.timeoutMs then
      let r := finishTransaction db e.transactionalId c c.txnEpoch false e.lands
      (r.1.map fun (c, f) =>
        match f with
        | .notOurs | .notOpen _ => db
        | .overridden => db.put e.transactionalId c
        | .ended => db.put e.transactionalId (fence c), r.2)
    else (some db, [])

/-- `expire_stale_transactions`: one error ends the sweep, and all of it
is rolled back. -/
def expireStaleTransactions (now : ℤ) : Db → List Stale → Option Db × List Marker
  | db, [] => (some db, [])
  | db, e :: rest =>
    match expireOne db now e with
    | (none, ms) => (none, ms)
    | (some db', ms) =>
      let r := expireStaleTransactions now db' rest
      (r.1, ms ++ r.2)

/-- One partition of a `WriteTxnMarkers`. The producer id is looked up,
and `transactionalId` is the one it belongs to. -/
structure Force where
  transactionalId : ℕ
  producerId : ℕ
  producerEpoch : ℕ
  key : Key
  committed : Bool
  lands : Bool

/-- What `mark_one` and then `finish_partition` check of the producer: the
code to answer with, or none when the marker is to be written. -/
def refuses (e : Force) (c : Coordinator) : Option ErrorCode :=
  if c.producerId ≠ e.producerId ∨ e.producerEpoch < c.epoch then
    some .invalidProducerEpoch
  else if e.key ∉ c.partitions then some .invalidTxnState
  else if c.state ≠ .ongoing then some .none
  else if e.producerEpoch < c.txnEpoch then some .invalidProducerEpoch
  else none

/-- `mark_one`. A failed append is reported and changes nothing. -/
def markOne (db : Db) (e : Force) : (Db × ErrorCode) × List Marker :=
  if db.has e.key then
    match db.rows e.transactionalId with
    | none => ((db, .invalidProducerEpoch), [])
    | some c =>
      match refuses e c with
      | some code => ((db, code), [])
      | none =>
        if e.lands then
          ((db.put e.transactionalId (finishPartition c e.key e.committed), .none),
            [marker e.transactionalId c e.producerEpoch e.committed e.key])
        else ((db, .unknownServerError), [])
  else ((db, .unknownTopicOrPartition), [])

/-- `write_txn_markers`: the partitions in turn, each with its code. -/
def writeTxnMarkers : Db → List Force → (Db × List ErrorCode) × List Marker
  | db, [] => ((db, []), [])
  | db, e :: rest =>
    let one := markOne db e
    let r := writeTxnMarkers one.1.1 rest
    ((r.1.1, one.1.2 :: r.1.2), one.2 ++ r.2)

/-- `handle_add_partitions`, and what a version 12 produce does before
its append. -/
def handleAddPartitions (db : Db) (id producerId epoch : ℕ) (now : ℤ)
    (keys : List Key) : Db × Option Verdict :=
  match db.rows id with
  | none => (db, some .unknownProducer)
  | some c =>
    match verdict c producerId epoch with
    | some v => (db, some v)
    | none => (db.put id ((keys.filter db.has).foldl addPartition (beginOrContinue now c)), none)

/-- `handle_add_offsets`. -/
def handleAddOffsets (db : Db) (id producerId epoch : ℕ) (now : ℤ) : Db × Option Verdict :=
  handleAddPartitions db id producerId epoch now []

/-- `handle_txn_offset_commit` with the rows its checks accepted. Version
5 begins the transaction if the request names a partition there is;
before it the transaction must be open at this epoch. -/
def handleTxnOffsetCommit (db : Db) (id producerId epoch version : ℕ)
    (now : ℤ) (anyPartition : Bool) (accepted : List Staged) : Db × Option Verdict :=
  match db.rows id with
  | none => (db, some .unknownProducer)
  | some c =>
    match verdict c producerId epoch with
    | some v => (db, some v)
    | none =>
      if version ≥ 5 then
        if anyPartition then
          (db.put id (accepted.foldl stage (beginOrContinue now c)), none)
        else (db, none)
      else if c.state = .ongoing ∧ c.txnEpoch = epoch then
        (db.put id (accepted.foldl stage c), none)
      else (db, none)

-- ==== the system

/-- A request, with what the environment decides of it. -/
inductive Request where
  | initProducerId (id : ℕ) (now timeoutMs : ℤ) (fresh : ℕ)
      (lands : Key → Bool)
  | addPartitions (id producerId epoch : ℕ) (now : ℤ) (keys : List Key)
  | addOffsets (id producerId epoch : ℕ) (now : ℤ)
  | txnOffsetCommit (id producerId epoch version : ℕ) (now : ℤ)
      (anyPartition : Bool) (accepted : List Staged)
  | endTxn (req : EndTxn)
  | expire (now : ℤ) (stale : List Stale)
  | writeTxnMarkers (entries : List Force)
  /-- A topic is created, extended or deleted. -/
  | setTopic (topic : UInt32) (count : Option Int32)

/-- The rows a request leaves, none if it fails, and the markers that
landed. -/
def Request.run (db : Db) : Request → Option Db × List Marker
  | .initProducerId id now timeoutMs fresh lands =>
    let e := Txn.initProducerId db id now timeoutMs fresh lands
    (e.rows.map (·.1), e.wrote)
  | .addPartitions id producerId epoch now keys =>
    (some (handleAddPartitions db id producerId epoch now keys).1, [])
  | .addOffsets id producerId epoch now =>
    (some (handleAddOffsets db id producerId epoch now).1, [])
  | .txnOffsetCommit id producerId epoch version now anyPartition acc =>
    (some (handleTxnOffsetCommit db id producerId epoch version now anyPartition acc).1, [])
  | .endTxn req =>
    let e := handleEndTxn db req
    (e.rows.map (·.1), e.wrote)
  | .expire now stale => expireStaleTransactions now db stale
  | .writeTxnMarkers entries =>
    let r := Txn.writeTxnMarkers db entries
    (some r.1.1, r.2)
  | .setTopic topic count =>
    (some { db with topics := Function.update db.topics topic count }, [])

structure System where
  db : Db
  log : List Marker

/-- One request, and whether its Postgres transaction commits. -/
def System.step (s : System) (op : Request × Bool) : System :=
  let r := op.1.run s.db
  { db := if op.2 then r.1.getD s.db else s.db
    log := s.log ++ r.2 }

/-- A broker that has seen no transactional id. -/
def System.init (topics : UInt32 → Option Int32) : System := ⟨⟨fun _ => none, topics⟩, []⟩

-- ==== one outcome

/-- The marker was written for that transaction. -/
def Marker.IsOf (m : Marker) (id n : ℕ) : Prop := m.transactionalId = id ∧ m.txn = n

instance (m : Marker) (id n : ℕ) : Decidable (m.IsOf id n) := inferInstanceAs (Decidable (_ ∧ _))

/-- What a transaction was given to commit: of each key the last. -/
def Coordinator.stagedIn (c : Coordinator) (n : ℕ) : List Staged :=
  ((c.staged.filter fun x => x.1 = n).map (·.2)).foldl (fun rows row => upsert row rows) []

/-- What a transaction wrote to the groups, in order. -/
def Coordinator.appliedIn (c : Coordinator) (n : ℕ) : List Staged :=
  (c.applied.filter fun x => x.1 = n).map (·.2)

/-- The transaction has ended. -/
def Coordinator.Over (c : Coordinator) (n : ℕ) : Prop := n ∈ c.ended.map (·.1)

/-- Every transaction has one outcome: its markers carry it, and what was
staged in it is applied once if it is a commit and not at all
otherwise, nor before it ended. -/
structure OneOutcome (s : System) : Prop where
  agree : ∀ m ∈ s.log, ∀ m' ∈ s.log,
    m.transactionalId = m'.transactionalId → m.txn = m'.txn →
    m.committed = m'.committed
  ended : ∀ id c, s.db.rows id = some c → ∀ n o, (n, o) ∈ c.ended →
    (∀ m ∈ s.log, m.IsOf id n → m.committed = o) ∧
    c.appliedIn n = if o then c.stagedIn n else []
  pending : ∀ id c, s.db.rows id = some c → ∀ n, ¬ c.Over n →
    c.appliedIn n = []
  /-- One transaction is open at most, and all others are over. -/
  settled : ∀ id c, s.db.rows id = some c → ∀ n, 0 < n → n ≤ c.txn →
    c.Over n ∨ n = c.txn ∧ c.state = .ongoing

end Kafgres.Txn
