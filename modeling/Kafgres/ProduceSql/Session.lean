/-
`kafgres_produce()` inside one backend (produce_sql.rs): the
thread-local `PRODUCING`, the producer ids it hands out, and the
top-level transaction around it.

`Txn` is the part of Postgres the file relies on: the stack of open
subtransactions, their ids drawn in increasing order, and the callbacks
registered so far. A subtransaction hook, once registered, runs at every
subtransaction abort until the top-level transaction ends.

A batch is remembered with the subtransaction it now belongs to and with
whether an abort has undone it. The source keeps no such list: it is what
the statements are about.
-/
import Kafgres.Storage.Basic
import Mathlib.Algebra.Group.Nat.Defs
import Mathlib.Data.Finset.Insert

namespace Kafgres.ProduceSql

open Storage

/-- A `FullTransactionId`, cast to `i64` as the source does. -/
abbrev Xid := BitVec 64

-- ==== producer ids

/-- Bits of a generation-tagged producer id below the generation. -/
def xidBits : ℕ := 40

/-- `1 << 62`: flags the tag, so an untagged id is the xid itself. -/
def generationFlag : BitVec 64 := 1#64 <<< 62

def maxGeneration : ℕ := 2 ^ (62 - xidBits) - 1

/-- The producer id of a batch appended under `generation` of
transaction `xid`. -/
def sqlProducerId (xid : Xid) (generation : ℕ) : Option (BitVec 64) :=
  if generation = 0 then some xid
  else if xid.sshiftRight xidBits ≠ 0 ∨ generation > maxGeneration then none
  else some (generationFlag ||| (BitVec.ofNat 64 generation <<< xidBits)
    ||| xid)

/-- The top-level xid behind a `kafgres_produce()` batch's producer
id. -/
def xidOfSqlProducerId (producerId : BitVec 64) : Xid :=
  if producerId &&& generationFlag ≠ 0 then
    producerId &&& ((1#64 <<< xidBits) - 1#64)
  else producerId

-- ==== PRODUCING

/-- The current top-level transaction's produce state. -/
structure Producing where
  xid : Xid := 0
  /-- Partitions holding this transaction's LSO reservation. -/
  reserved : Finset Key := ∅
  /-- Bumped when a subtransaction that produced rolls back. -/
  generation : ℕ := 0
  /-- Highest subtransaction that produced under `generation`. -/
  maxSubid : ℕ := 0
  hooked : Bool := false

/-- What `enter_produce` leaves and answers: no id when the generation
no longer fits one, which is raised as an error. -/
structure Entered where
  producing : Producing
  id : Option (BitVec 64)
  reserve : Bool
  hook : Bool

/-- The producer id for this call, and whether it must reserve the
partition's LSO. -/
def enterProduce (p : Producing) (xid : Xid) (subid : ℕ) (k : Key) : Entered :=
  let p := if p.xid ≠ xid then { xid := xid } else p
  { producing := { p with maxSubid := max p.maxSubid subid, hooked := true }
    id := sqlProducerId xid p.generation
    reserve := decide (k ∉ p.reserved)
    hook := !p.hooked }

/-- The subtransaction abort hook: every subtransaction with an id at or
above `subid` is `subid` or its descendant. -/
def rolledBack (p : Producing) (xid : Xid) (subid : ℕ) : Producing :=
  if p.xid = xid ∧ p.maxSubid ≥ subid then
    { p with generation := p.generation + 1, maxSubid := 0 }
  else p

-- ==== the transaction

/-- A batch the transaction appended. -/
structure SqlBatch where
  key : Key
  base : ℤ
  producerId : BitVec 64
  generation : ℕ
  /-- The open subtransaction the batch belongs to. -/
  owner : ℕ
  /-- No subtransaction it belonged to has aborted. -/
  live : Bool

/-- One open top-level transaction. -/
structure Txn where
  xid : Xid
  /-- Open subtransaction ids, innermost first; the last is the top
  level's own. -/
  stack : List ℕ
  nextSubid : ℕ
  /-- The subtransaction hook is registered. -/
  hook : Bool
  /-- Commit and Abort callbacks registered: the reservations to release
  when the transaction ends. -/
  callbacks : List (Key × ℤ)
  batches : List SqlBatch

/-- `TopSubTransactionId`. -/
def topSubid : ℕ := 1

/-- A transaction as it begins. -/
def Txn.start (xid : Xid) : Txn := ⟨xid, [topSubid], topSubid + 1, false, [], []⟩

/-- `GetCurrentSubTransactionId()`. -/
def Txn.subid (t : Txn) : ℕ := t.stack.headD topSubid

/-- A backend inside a transaction. -/
structure Session where
  producing : Producing
  txn : Txn

namespace Session

/-- Open a subtransaction. -/
def savepoint (s : Session) : Session :=
  { s with txn := { s.txn with
      stack := s.txn.nextSubid :: s.txn.stack
      nextSubid := s.txn.nextSubid + 1 } }

/-- Commit the innermost subtransaction: what it appended now belongs to
its parent. -/
def releaseInnermost (s : Session) : Session :=
  match s.txn.stack with
  | sub :: parent :: rest =>
    { s with txn := { s.txn with
        stack := parent :: rest
        batches := s.txn.batches.map fun b =>
          if b.owner = sub then { b with owner := parent } else b } }
  | _ => s

/-- Abort the innermost subtransaction, running the hook if there is
one. -/
def abortInnermost (s : Session) : Session :=
  match s.txn.stack with
  | sub :: parent :: rest =>
    { producing := if s.txn.hook then
        rolledBack s.producing s.txn.xid sub else s.producing
      txn := { s.txn with
        stack := parent :: rest
        batches := s.txn.batches.map fun b =>
          if b.owner = sub then { b with live := false } else b } }
  | _ => s

/-- How many levels end when the savepoint `sub` does: it and every
level opened inside it. None if `sub` is not an open savepoint, which
Postgres refuses. -/
def levels (s : Session) (sub : ℕ) : ℕ :=
  if sub ∈ s.txn.stack.dropLast then s.txn.stack.idxOf sub + 1 else 0

/-- `RELEASE SAVEPOINT`: innermost first. -/
def release (s : Session) (sub : ℕ) : Session := releaseInnermost^[s.levels sub] s

/-- A rollback to the start of `sub`, innermost first. `ROLLBACK TO
SAVEPOINT` is this and then a new `savepoint`. -/
def rollback (s : Session) (sub : ℕ) : Session := abortInnermost^[s.levels sub] s

/-- `kafgres_produce()` on partition `k` once its checks pass. The store
answers the base offset of the batch, or refuses. The marker INSERT
that follows the append changes nothing here, whether or not it
fails. -/
def produce (s : Session) (k : Key) (append : Option ℤ) : Session :=
  let e := enterProduce s.producing s.txn.xid s.txn.subid k
  let t := { s.txn with hook := s.txn.hook || e.hook }
  match e.id, append with
  | some id, some base =>
    { producing := if e.reserve then
        { e.producing with reserved := insert k e.producing.reserved }
        else e.producing
      txn := { t with
        callbacks := if e.reserve then t.callbacks ++ [(k, base)]
          else t.callbacks
        batches := t.batches ++ [⟨k, base, id, e.producing.generation, t.subid, true⟩] } }
  | _, _ => ⟨e.producing, t⟩

end Session

/-- One statement of the transaction. -/
inductive SqlOp where
  | savepoint
  | release (sub : ℕ)
  | rollback (sub : ℕ)
  | produce (k : Key) (append : Option ℤ)

/-- The session after one statement. Postgres lets an erroring statement
be followed only by a rollback; the model does not insist, which only
adds runs. -/
def Session.step (s : Session) : SqlOp → Session
  | .savepoint => s.savepoint
  | .release sub => s.release sub
  | .rollback sub => s.rollback sub
  | .produce k append => s.produce k append

end Kafgres.ProduceSql
