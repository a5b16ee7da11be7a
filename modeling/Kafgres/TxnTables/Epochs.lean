/-
What the epochs of producers and transactions are to guarantee: fencing,
agreement, and answers to an `EndTxn` that is sent again.

`Request.Acts` are the transactional ids a request acts for: the one an
`InitProducerId` names, and one whose current pair it presents.
`Request.Turns` are those of them whose transaction it begins or ends.
-/
import Kafgres.Lib.Run
import Kafgres.TxnTables.Handlers

namespace Kafgres.TxnTables

open Codec

/-- The pair is refused by transactional produce and by the transaction
APIs, whatever the transactional id, and changes nothing; a retry
`EndTxn` recognises is the exception. -/
structure Refuses (db : Db) (pid epoch : ℤ) : Prop where
  produce : ∀ txn k version, ∃ code,
    verifyHeldProduce db txn ⟨pid, epoch, k⟩ version = .refused code
  addPartitions : ∀ id version now topics, ∃ code, code ≠ .none ∧
    handleAddPartitions db id pid epoch version now topics = (db, code)
  addOffsets : ∀ id version now group, ∃ code, code ≠ .none ∧
    handleAddOffsets db id pid epoch version now group = (db, code)
  txnOffsetCommit : ∀ req : TxnOffsetCommit, req.producerId = pid →
    req.producerEpoch = epoch →
    (handleTxnOffsetCommit db req).1 = db ∧ ErrorCode.none ∉ (handleTxnOffsetCommit db req).2
  endTxn : ∀ req : EndTxn, req.producerId = pid →
    req.producerEpoch = epoch →
    (req.rotating = true → completedRetry db req.transactionalId pid epoch req.committed = .no) →
    ∃ code, code ≠ .none ∧ handleEndTxn db req = (some (db, req.unchanged code), [])
  writeTxnMarkers : ∀ e : Force, e.producerId = pid →
    e.producerEpoch = epoch →
    ∃ code, code ≠ .none ∧ markOne db e = (some (db, code), [])

/-- The table after some calls. -/
def Producers.after (cs : List Call) : Producers := cs.foldl Producers.step .empty

/-- An open transaction carries its producer's epoch, and one that is
past its time and looked at by the sweep is ended. -/
structure EpochsAgree (db : Db) : Prop where
  agree : ∀ pid t p, db.txn pid = some t → t.state = .ongoing →
    db.producers.ofId pid = some p → t.epoch = p.epoch.1
  ours : ∀ pid t committed lands, db.txn pid = some t →
    t.state = .ongoing →
    ∀ db', (finishTransaction db pid t.epoch committed lands).1 ≠ some (db', .notOurs)
  expires : ∀ now lands stale db',
    (expireStaleTransactions now lands db stale).1 = some db' →
    ∀ pid ∈ stale, ∀ t, db.txn pid = some t → t.state = .ongoing →
    now - t.startedAt > t.timeoutMs → db'.ongoing pid = false

-- ==== retries

/-- The transactional ids a request acts for. -/
def Request.Acts (db : Db) : Request → String → Prop
  | .initProducerId id' _ _ _, id => id' = some id
  | .addPartitions id' pid epoch _ _ _, id
  | .addOffsets id' pid epoch _ _ _, id =>
    id' = id ∧ ∃ a, verdict db id pid epoch = .ok a
  | .txnOffsetCommit req, id =>
    req.transactionalId = id ∧ ∃ a, verdict db id req.producerId req.producerEpoch = .ok a
  | .produce id' _ _ batches, id =>
    id' = some id ∧ ∃ b ∈ batches, ∃ a, verdict db id b.producerId b.producerEpoch = .ok a
  | .endTxn req, id =>
    req.transactionalId = id ∧ ∃ a, verdict db id req.producerId req.producerEpoch = .ok a
  | .writeTxnMarkers _, _ | .expire .., _ | .sweepProducers _, _ => False
  | .createTopic _, _ | .createPartitions .., _ | .deleteTopic _, _ => False

/-- Those it initialises, or begins or ends a transaction of. -/
def Request.Turns (db : Db) : Request → String → Prop
  | .addPartitions id' pid epoch version _ _, id =>
    version < 4 ∧ id' = id ∧ ∃ a, verdict db id pid epoch = .ok a
  | .txnOffsetCommit req, id => req.begins db = true ∧
    req.transactionalId = id ∧ ∃ a, verdict db id req.producerId req.producerEpoch = .ok a
  | .produce id' version _ batches, id =>
    id' = some id ∧ ∃ b ∈ batches, ∃ a, verifyHeldProduce db id' b version = .addsPartition a
  | req, id => req.Acts db id

/-- The producers a request may drop. -/
def Request.Victims : Request → ℤ → Prop
  | .sweepProducers victims, pid => pid ∈ victims
  | _, _ => False

/-- The request with the opposite outcome. -/
def EndTxn.opposite (req : EndTxn) : EndTxn :=
  { req with committed := !req.committed }

/-- The request, sent again, is answered as it was, and with the opposite
outcome refused; neither changes anything, nor ends a transaction of the
id. -/
structure Retried (s : System) (req : EndTxn) (pid epoch : ℤ) : Prop where
  again : handleEndTxn s.db req = (some (s.db, .none, pid, epoch), [])
  opposite : handleEndTxn s.db req.opposite =
    (some (s.db, req.unchanged .invalidTxnState), [])
  again_same : s.step ⟨.endTxn req, true, 0⟩ = s
  opposite_same : s.step ⟨.endTxn req.opposite, true, 0⟩ = s
  quiet : ∀ c, ¬ (Request.endTxn { req with committed := c }).Turns s.db
    req.transactionalId

end Kafgres.TxnTables
