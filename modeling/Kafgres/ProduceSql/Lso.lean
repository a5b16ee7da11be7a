/-
Many backends running `kafgres_produce()` over the partitions of one
log: every interleaving of their transactions with plain appends and LSO
reads.

A step is one critical section. Ending a transaction is `finish` and then
one `callback` for each release it registered, with any other step in
between; Commit and Abort register the same releases. `PREPARE
TRANSACTION` after a produce is refused and is no step.

A `FullTransactionId` is never zero and never handed out twice. The
steps that would break this, or run a statement outside a transaction,
change nothing. Every partition here is tracked and stays so.
-/
import Kafgres.ProduceSql.Session
import Kafgres.Segment.Reserve

namespace Kafgres.ProduceSql

open Storage Segment

-- ==== state

/-- A tracked partition: what its shard lock guards, its files and each
process's hints. -/
structure Part where
  slot : Slot
  ring : Cells
  hints : ℕ → Hints
  disk : Disk

/-- The writer process `proc` appends with. -/
def Part.writer (p : Part) (proc : ℕ) : Writer := ⟨p.slot, p.hints proc, p.disk⟩

/-- What process `proc` left behind. -/
def Part.put (p : Part) (proc : ℕ) (w : Writer) (ring : Cells) : Part :=
  { slot := w.slot
    ring := ring
    hints := Function.update p.hints proc w.hints
    disk := w.disk }

/-- One backend: its `PRODUCING`, which outlives transactions, and the
transaction it is in. `ending` from the commit or abort on, while the
registered callbacks run. -/
structure Backend where
  producing : Producing := {}
  txn : Option Txn := none
  ending : Bool := false

/-- All backends and partitions, and the transaction ids handed out. -/
structure System (n : ℕ) where
  part : Key → Part
  backend : Fin n → Backend
  used : Finset Xid

namespace System

variable {n : ℕ}

/-- Every partition as it was recovered, and no transaction yet. -/
def start (n stripes : ℕ) (found : Key → Recovered)
    (place : Key → Fin slotsPerShard) (ring : Key → Cells) (disk : Key → Disk) : System n where
  part k := ⟨(found k).slot stripes k (place k), ring k, fun _ _ => [], disk k⟩
  backend _ := {}
  used := ∅

def setPart (s : System n) (k : Key) (p : Part) : System n :=
  { s with part := Function.update s.part k p }

def setBackend (s : System n) (b : Fin n) (x : Backend) : System n :=
  { s with backend := Function.update s.backend b x }

/-- The backend's open transaction, if it is not ending. -/
def session (s : System n) (b : Fin n) : Option Session :=
  if (s.backend b).ending then none
  else (s.backend b).txn.map fun t => ⟨(s.backend b).producing, t⟩

/-- Put the session back after a statement. -/
def setSession (s : System n) (b : Fin n) (x : Session) : System n :=
  s.setBackend b ⟨x.producing, some x.txn, false⟩

-- ==== steps

/-- `BEGIN`. -/
def begin (s : System n) (b : Fin n) (xid : Xid) : System n :=
  if xid = 0 ∨ xid ∈ s.used ∨ (s.backend b).txn ≠ none then s
  else { s.setBackend b { s.backend b with txn := some (.start xid) } with
    used := insert xid s.used }

/-- A statement that touches no partition. -/
def statement (s : System n) (b : Fin n) (op : SqlOp) : System n :=
  match s.session b with
  | none => s
  | some x => s.setSession b (x.step op)

/-- `kafgres_produce()` once its checks pass. `call` is absent when the
store refuses before it takes the partition's lock. -/
def produce (crc : List UInt8 → ℕ) (defaultBytes : ℕ) (s : System n)
    (b : Fin n) (k : Key) (call : Option (AppendArgs × WriteIo)) : System n :=
  match s.session b with
  | none => s
  | some x =>
    let e := enterProduce x.producing x.txn.xid x.txn.subid k
    match e.id, call with
    | some _, some (a, io) =>
      let p := s.part k
      let r := appendPending crc defaultBytes k (p.writer b) p.ring a e.reserve io
      (s.setPart k (p.put b r.1.1 r.1.2)).setSession b (x.produce k (r.2.toOption.map Prod.fst))
    | _, _ => s.setSession b (x.produce k none)

/-- An append outside any SQL transaction. -/
def append (crc : List UInt8 → ℕ) (defaultBytes : ℕ) (s : System n)
    (proc : ℕ) (k : Key) (a : AppendArgs) (io : WriteIo) : System n :=
  let p := s.part k
  s.setPart k (p.put proc (Segment.append crc defaultBytes (p.writer proc) a io).1 p.ring)

/-- A top-level commit or abort: the registered callbacks are next. -/
def finish (s : System n) (b : Fin n) : System n :=
  if (s.backend b).txn = none then s
  else s.setBackend b { s.backend b with ending := true }

/-- `release_pending` on the partition. -/
def releasePending (s : System n) (k : Key) (base : ℤ) : System n :=
  let p := s.part k
  let r := p.slot.pending.release p.ring base
  s.setPart k { p with
    slot := { p.slot with pending := r.1 }
    ring := r.2.1 }

/-- The next callback of an ending transaction; after the last one it is
over. -/
def callback (s : System n) (b : Fin n) : System n :=
  match (s.backend b).ending, (s.backend b).txn with
  | true, some t =>
    match t.callbacks with
    | [] => s.setBackend b
        { s.backend b with txn := none, ending := false }
    | (k, base) :: rest =>
      (s.releasePending k base).setBackend b
        { s.backend b with txn := some { t with callbacks := rest } }
  | _, _ => s

end System

/-- One critical section of the system. -/
inductive LsoOp (n : ℕ) where
  | begin (b : Fin n) (xid : Xid)
  | savepoint (b : Fin n)
  | release (b : Fin n) (sub : ℕ)
  | rollback (b : Fin n) (sub : ℕ)
  | produce (b : Fin n) (k : Key) (call : Option (AppendArgs × WriteIo))
  | append (proc : ℕ) (k : Key) (a : AppendArgs) (io : WriteIo)
  /-- A read takes the lock and changes nothing. -/
  | readLso (k : Key)
  | finish (b : Fin n)
  | callback (b : Fin n)

def System.step {n : ℕ} (crc : List UInt8 → ℕ) (defaultBytes : ℕ)
    (s : System n) : LsoOp n → System n
  | .begin b xid => s.begin b xid
  | .savepoint b => s.statement b .savepoint
  | .release b sub => s.statement b (.release sub)
  | .rollback b sub => s.statement b (.rollback sub)
  | .produce b k call => s.produce crc defaultBytes b k call
  | .append proc k a io => s.append crc defaultBytes proc k a io
  | .readLso _ => s
  | .finish b => s.finish b
  | .callback b => s.callback b

end Kafgres.ProduceSql
