/-
Phase 1 of Produce (handlers/produce.rs): every batch of a partition is
decided before anything is written.

A batch is decided against the producer's window, unless an earlier
batch of the same request is to be appended for the producer: that one
is not in the window yet, so `decideAfter` applies the window's rules to
it. What the phase reads from Postgres is its `PlanInput`; a failed read
refuses the partition before anything was written and is left out.
-/
import Kafgres.Codec.RecordBatch
import Kafgres.Producer.Window
import Kafgres.Storage.Basic

namespace Kafgres.Produce

open Storage Codec Producer

-- ==== errors

/-- The Kafka error codes this path answers with. `ErrorCode::None` is
the absence of one. -/
inductive ErrorCode where
  | unknownServerError
  | offsetOutOfRange
  | corruptMessage
  | unknownTopicOrPartition
  | invalidFetchSize
  | leaderNotAvailable
  | requestTimedOut
  | messageTooLarge
  | topicAuthorizationFailed
  | outOfOrderSequenceNumber
  | duplicateSequenceNumber
  | invalidProducerEpoch
  | invalidTxnState
  | invalidProducerIdMapping
  | transactionalIdAuthorizationFailed
  | kafkaStorageError
  | unknownProducerId
  | invalidRecord
  | transactionAbortable
deriving DecidableEq, Repr

/-- `StoreError::error_code`. -/
def storeErrorCode : StoreError → ErrorCode
  | .unknownTopicOrPartition => .unknownTopicOrPartition
  | .offsetOutOfRange => .offsetOutOfRange
  | .corruptBatch => .corruptMessage
  | .invalidFetchSize => .invalidFetchSize
  | .leaderEpochUnsettled => .leaderNotAvailable
  | .io _ => .kafkaStorageError
  | .notImplemented _ => .unknownServerError

/-- `BatchError::error_code`. -/
def batchErrorCode : BatchError → ErrorCode
  | .crcMismatch .. | .tooShort _ | .lengthMismatch .. => .corruptMessage
  | .unsupportedMagic _ | .negativeExtent .. => .invalidRecord

/-- Why a partition of the request was refused. -/
inductive AppendError where
  | store (e : StoreError)
  | batch (e : BatchError)
  | producerState (message : String)
  | outOfOrderSequence (expected got : ℤ)
  | staleProducerState
  | fencedEpoch (current : ℤ)
  | tooLarge (bytes : ℕ) (limit : ℤ)
  | nullKeyOnCompacted
  /-- The savepoint around the partition was rolled back. -/
  | aborted
  /-- A resend of a batch whose window row never learned its offset. -/
  | duplicateUnknownOffset
  | txn (code : ErrorCode)
deriving DecidableEq, Repr

def AppendError.errorCode : AppendError → ErrorCode
  | .store e => storeErrorCode e
  | .batch e => batchErrorCode e
  | .producerState _ | .aborted => .requestTimedOut
  | .outOfOrderSequence .. => .outOfOrderSequenceNumber
  | .staleProducerState => .unknownProducerId
  | .fencedEpoch _ => .invalidProducerEpoch
  | .tooLarge .. => .messageTooLarge
  | .nullKeyOnCompacted => .invalidRecord
  | .duplicateUnknownOffset => .duplicateSequenceNumber
  | .txn code => code

-- ==== planning

/-- What planning and writing read off a batch header. `RecordBatch::new`
refuses a negative extent. -/
structure View where
  producerId : ℤ
  producerEpoch : ℤ
  baseSequence : ℤ
  lastOffsetDelta : ℤ
  transactional : Bool
  control : Bool
  delta_nonneg : 0 ≤ lastOffsetDelta
deriving DecidableEq

def noProducerId : ℤ := -1

def noSequence : ℤ := -1

/-- A transactional batch checked against its transaction. -/
inductive ProduceTxn where
  | added
  /-- Produce v12 and later: the append adds the partition. -/
  | addsPartition
  | refused (code : ErrorCode)

/-- An idempotent batch's identity in the producer's window. -/
structure Idem where
  producerId : ℤ
  epoch : ℤ
  firstSeq : ℤ
  lastSeq : ℤ
  transactional : Bool
  addsPartition : Bool
deriving DecidableEq

/-- What to do with one batch. -/
inductive Decision where
  /-- No producer id or sequence: append, no window entry. -/
  | plain
  /-- New for this producer: reserve a window row, append, stamp the
  offset in. -/
  | append (idem : Idem)
  /-- Exact resend of a retained batch. -/
  | duplicate (baseOffset : ℤ)
  /-- Exact resend of a batch earlier in this request, by its
  position. -/
  | duplicateOf (position : ℕ)
deriving DecidableEq

/-- The batch goes to the store. -/
def Decision.stores : Decision → Bool
  | .plain | .append _ => true
  | .duplicate _ | .duplicateOf _ => false

/-- The batches of one partition, decided. -/
abbrev Plan := List (View × Decision)

/-- What planning reads: the partition's windows, the start of its
current leader epoch, and the verdicts on transactional producers, which
are held locked through the request. -/
structure PlanInput where
  window : ℤ → Window
  epochStart : ℤ
  verify : ℤ → ℤ → ProduceTxn

/-- The newest batch of the request that is to be appended for the
producer. -/
def prior (batches : Plan) (producerId : ℤ) : Option Idem :=
  batches.reverse.findSome? fun b => match b.2 with
    | .append p => if p.producerId = producerId then some p else none
    | _ => none

/-- An append decided earlier with exactly this identity. -/
def sameBatch (idem : Idem) (b : View × Decision) : Bool :=
  match b.2 with
  | .append p => p.producerId = idem.producerId && p.epoch = idem.epoch
      && p.firstSeq = idem.firstSeq && p.lastSeq = idem.lastSeq
  | _ => false

/-- `check`'s rules, against the newest batch this request already
accepted for the producer. -/
def decideAfter (batches : Plan) (prev idem : Idem) : Except AppendError Decision :=
  if idem.epoch < prev.epoch then .error (.fencedEpoch prev.epoch)
  else if idem.epoch > prev.epoch then
    if idem.firstSeq ≠ 0 then .error (.outOfOrderSequence 0 idem.firstSeq)
    else .ok (.append idem)
  else
    match batches.findIdx? (sameBatch idem) with
    | some i => .ok (.duplicateOf i)
    | none =>
      if inSequence prev.lastSeq idem.firstSeq then .ok (.append idem)
      else .error (.outOfOrderSequence (incrementSequence prev.lastSeq 1) idem.firstSeq)

/-- The answer of `check` as a decision. -/
def decideChecked (idem : Idem) : SequenceCheck → Except AppendError Decision
  | .append => .ok (.append idem)
  | .duplicate base =>
    if base < 0 then .error .duplicateUnknownOffset
    else .ok (.duplicate base)
  | .outOfOrder expected got => .error (.outOfOrderSequence expected got)
  | .stale => .error .staleProducerState
  | .fenced current => .error (.fencedEpoch current)

/-- Whether the batch adds its partition to its transaction, or why it
may not. -/
def addsPartition (input : PlanInput) (view : View) : Except AppendError Bool :=
  if view.transactional ∧ ¬ view.control then
    match input.verify view.producerId view.producerEpoch with
    | .added => .ok false
    | .addsPartition => .ok true
    | .refused code => .error (.txn code)
  else .ok false

/-- The batch's identity. The client's sequence counter wraps through
zero. -/
def idemOf (view : View) (adds : Bool) : Idem where
  producerId := view.producerId
  epoch := view.producerEpoch
  firstSeq := view.baseSequence
  lastSeq := incrementSequence view.baseSequence view.lastOffsetDelta
  transactional := view.transactional && !view.control
  addsPartition := adds

/-- The loop body of `plan_partition`. -/
def decideBatch (input : PlanInput) (batches : Plan) (view : View) : Except AppendError Decision :=
  if view.producerId = noProducerId ∨ view.baseSequence = noSequence then
    -- Appended plain, no marker would ever close a transactional batch.
    if view.transactional ∧ ¬ view.control then
      .error (.txn .invalidRecord)
    else .ok .plain
  else
    match addsPartition input view with
    | .error e => .error e
    | .ok adds =>
      let idem := idemOf view adds
      match prior batches view.producerId with
      | some prev => decideAfter batches prev idem
      | none => decideChecked idem (check (input.window view.producerId)
          input.epochStart idem.epoch idem.firstSeq idem.lastSeq)

/-- The loop of `plan_partition` over the decoded batches. -/
def planLoop (input : PlanInput) : List (Except BatchError View) → Plan → Except AppendError Plan
  | [], batches => .ok batches
  | .error e :: _, _ => .error (.batch e)
  | .ok view :: rest, batches =>
    match decideBatch input batches view with
    | .error e => .error e
    | .ok d => planLoop input rest (batches ++ [(view, d)])

/-- Decode every batch and decide it. -/
def planPartition (input : PlanInput)
    (records : List (Except BatchError View)) : Except AppendError Plan :=
  planLoop input records []

end Kafgres.Produce
