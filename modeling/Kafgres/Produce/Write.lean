/-
Phases 2 and 3 of Produce (handlers/produce.rs): reserve the window
rows, then append each batch and stamp its offset into its row.

A savepoint rolls back `World.windows`; the log and `LANDED` stay. Every
call to Postgres or the store can answer with an error or raise one,
which unwinds to the nearest savepoint. `Env` names each call by the
attempt it is made in and the batch it is about, and says how it ends. A
statement that fails has changed nothing, and a store append that does
not return `Ok` has not moved the log end.

`World.log` lists what this request appended. The source keeps no such
list: it is what the statements are about.
-/
import Kafgres.Lib.Fallible
import Kafgres.Produce.Plan

namespace Kafgres.Produce

open Storage Producer Fallible

-- ==== state

/-- A partition entry of the request: topic and partition index. -/
abbrev Site := ℕ × ℕ

/-- A batch of the request. -/
structure Pos where
  site : Site
  batch : ℕ
deriving DecidableEq

/-- An append of this request: its partition, base offset and batch. -/
structure LogEntry where
  key : Key
  base : ℤ
  pos : Pos
deriving DecidableEq

structure World where
  /-- Each partition's windows, by producer id. -/
  windows : Key → ℤ → Window
  /-- Each partition's log end. -/
  next : Key → ℤ
  log : List LogEntry
  /-- `LANDED`, newest first. -/
  landed : List (Pos × ℤ)

namespace World

/-- Change one producer's window on one partition. -/
def onWindow (w : World) (k : Key) (producerId : ℤ) (f : Window → Window) : World :=
  let rows := f (w.windows k producerId)
  let part := Function.update (w.windows k) producerId rows
  { w with windows := Function.update w.windows k part }

/-- `landed(at, batch)`. -/
def landedAt (w : World) (pos : Pos) : Option ℤ := w.landed.lookup pos

def anyLanded (w : World) (site : Site) : Bool := w.landed.any fun e => e.1.site = site

/-- The store took the batch, and `remember_landed`. -/
def land (w : World) (k : Key) (view : View) (pos : Pos) : World :=
  { w with
    next := Function.update w.next k (w.next k + view.lastOffsetDelta + 1)
    log := w.log ++ [⟨k, w.next k, pos⟩]
    landed := (pos, w.next k) :: w.landed }

/-- The offset at which the log has a batch of this request. -/
def offsetOf (w : World) (pos : Pos) : ℤ :=
  ((w.log.find? fun x => x.pos = pos).map LogEntry.base).getD (-1)

/-- What rolling back to `old` leaves of `new`. -/
def rollback (old new : World) : World :=
  { new with windows := old.windows }

end World

/-- Which try a call belongs to: the whole request in one savepoint, or
one of the two a partition gets on its own. -/
inductive Try where
  | shared
  | first
  | second
deriving DecidableEq

/-- How each call of a request ends. -/
structure Env where
  /-- What `handle` does before its savepoint. -/
  prelude : Fault String
  record : Try → Pos → Fault String
  beginOrContinue : Try → Pos → Fault String
  registerTxnPartition : Try → Pos → Fault String
  append : Try → Pos → Fault StoreError
  stamp : Try → Pos → Fault String
  stampTxnPartition : Try → Pos → Fault StoreError
  release : Try → Pos → Fault String
  highWatermark : Try → Site → Fault StoreError
  logStartOffset : Try → Site → Fault StoreError

/-- A partition still to be written, and where its response goes. -/
structure Pending where
  site : Site
  key : Key
  index : Int32
  size : ℕ
  plan : Plan
deriving DecidableEq

abbrev Action := Prog World AppendError

-- ==== reserve

/-- The row of a batch in its producer's window. -/
def Idem.row (idem : Idem) (baseOffset : ℤ) : Retained :=
  ⟨idem.epoch, idem.firstSeq, idem.lastSeq, baseOffset⟩

/-- Register the batch's transaction, beginning it if this append adds
the partition: the producers registered here and those begun. -/
def registerTxn (env : Env) (n : Try) (pos : Pos) (idem : Idem)
    (registered begun : List ℤ) : Action (List ℤ × List ℤ) :=
  if idem.transactional ∧ idem.producerId ∉ registered then do
    if idem.addsPartition ∧ idem.producerId ∉ begun then
      Prog.call (env.beginOrContinue n pos) .producerState
      Prog.call (env.registerTxnPartition n pos) .producerState
      return (idem.producerId :: registered, idem.producerId :: begun)
    else
      Prog.call (env.registerTxnPartition n pos) .producerState
      return (idem.producerId :: registered, begun)
  else return (registered, begun)

/-- The loop of `reserve_partition`. -/
def reserveLoop (env : Env) (n : Try) (k : Key) (site : Site) :
    Plan → ℕ → List ℤ → List ℤ → Action (List ℤ)
  | [], _, _, begun => return begun
  | (_, .append idem) :: rest, i, registered, begun => do
      Prog.call (env.record n ⟨site, i⟩) .producerState
      Prog.update fun w =>
        w.onWindow k idem.producerId fun rows => record rows (idem.row (-1))
      let r ← registerTxn env n ⟨site, i⟩ idem registered begun
      reserveLoop env n k site rest (i + 1) r.1 r.2
  | _ :: rest, i, registered, begun =>
    reserveLoop env n k site rest (i + 1) registered begun

/-- Phase 2: the window rows and the transaction registration, offsets
still unknown. `begun` is the producers whose transaction this attempt
has begun. -/
def reservePartition (env : Env) (n : Try) (p : Pending) (begun : List ℤ) : Action (List ℤ) :=
  reserveLoop env n p.key p.site p.plan 0 [] begun

-- ==== write

/-- The loop of `release_reservations`. -/
def releaseLoop (env : Env) (n : Try) (k : Key) (site : Site) : Plan → ℕ → Action Unit
  | [], _ => return ()
  | (_, .append idem) :: rest, i => do
      Prog.call (env.release n ⟨site, i⟩) .producerState
      Prog.update fun w =>
        w.onWindow k idem.producerId fun rows => release rows idem.firstSeq
      releaseLoop env n k site rest (i + 1)
  | _ :: rest, i => releaseLoop env n k site rest (i + 1)

/-- Drop the unstamped window rows from batch `from_` onward. -/
def releaseReservations (env : Env) (n : Try) (p : Pending) (from_ : ℕ) : Action Unit :=
  releaseLoop env n p.key p.site (p.plan.drop from_) from_

/-- The offset of a batch: where it landed in an earlier attempt, or
where the store puts it now. -/
def storeBatch (env : Env) (n : Try) (k : Key) (pos : Pos) (view : View) : Action ℤ := do
  match ← Prog.read fun w => w.landedAt pos with
  | some offset => return offset
  | none =>
    Prog.call (env.append n pos) .store
    let offset ← Prog.read fun w => w.next k
    Prog.update fun w => w.land k view pos
    return offset

/-- Stamp the offset into the batch's row, and into its transaction. -/
def stampBatch (env : Env) (n : Try) (k : Key) (pos : Pos) (idem : Idem)
    (offset : ℤ) : Action Unit := do
  Prog.call (env.stamp n pos) .producerState
  Prog.update fun w =>
    w.onWindow k idem.producerId fun rows => stamp rows idem.firstSeq offset
  if idem.transactional then
    Prog.call (env.stampTxnPartition n pos) .store

/-- One batch that goes to the store. -/
def writeBatch (env : Env) (n : Try) (p : Pending) (i : ℕ) (view : View)
    (idem : Option Idem) : Action ℤ := do
  match ← Prog.attempt (storeBatch env n p.key ⟨p.site, i⟩ view) with
  | .error e => do
      releaseReservations env n p i
      Prog.fail e
  | .ok offset =>
    match idem with
    | none => return offset
    | some idem =>
      match ← Prog.attempt (stampBatch env n p.key ⟨p.site, i⟩ idem offset) with
      | .error e => do
          releaseReservations env n p (i + 1)
          Prog.fail e
      | .ok () => return offset

/-- The locals of `write_partition`. -/
structure Written where
  base : Option ℤ := none
  wrote : Bool := false
  /-- The offset of each batch so far that went to the store. -/
  assigned : List (Option ℤ) := []

/-- A batch answered from the window or from an earlier batch. -/
def Written.answered (acc : Written) (offset : ℤ) : Written :=
  { acc with
    base := acc.base.or (some offset)
    assigned := acc.assigned ++ [none] }

/-- A batch at `offset` in the log. -/
def Written.stored (acc : Written) (offset : ℤ) : Written :=
  { base := acc.base.or (some offset)
    wrote := true
    assigned := acc.assigned ++ [some offset] }

/-- The loop of `write_partition`. -/
def writeLoop (env : Env) (n : Try) (p : Pending) : Plan → ℕ → Written → Action Written
  | [], _, acc => return acc
  | (_, .duplicate offset) :: rest, i, acc =>
    writeLoop env n p rest (i + 1) (acc.answered offset)
  | (_, .duplicateOf j) :: rest, i, acc =>
    writeLoop env n p rest (i + 1) (acc.answered (((acc.assigned[j]?).join).getD (-1)))
  | (view, .plain) :: rest, i, acc => do
      let offset ← writeBatch env n p i view none
      writeLoop env n p rest (i + 1) (acc.stored offset)
  | (view, .append idem) :: rest, i, acc => do
      let offset ← writeBatch env n p i view (some idem)
      writeLoop env n p rest (i + 1) (acc.stored offset)

/-- What a partition answers with: its base offset, and whether this
request has anything of it in the log. -/
structure Appended where
  baseOffset : ℤ
  wrote : Bool
deriving DecidableEq

/-- Phase 3. A partition without batches answers the high watermark. -/
def writePartition (env : Env) (n : Try) (p : Pending) : Action Appended := do
  let r ← writeLoop env n p p.plan 0 {}
  match r.base with
  | some base => return ⟨base, r.wrote⟩
  | none => do
      Prog.call (env.highWatermark n p.site) .store
      let next ← Prog.read fun w => w.next p.key
      return ⟨next, false⟩

end Kafgres.Produce
