/-
A crash and the start after it (server/mod.rs, producer.rs,
produce_sql.rs, storage/pmeta.rs): the rows that name offsets of a
partition, and what becomes of them when the log is shorter than it was.

# What survives

Postgres keeps every row that was committed. A crash drops batches off
the end of each log, down to what was synced at most. `kafgres_produce()`
syncs before its transaction commits; a `Produce` or `EndTxn` commits its
rows first.

# What is given with an operation

A broker request is a list of actions on partitions, in the order it
makes them. A savepoint that was rolled back shows in what is missing:
its rows, but not its appends. A stamp names the append it is about, as
`landed` does across the attempts of one request.
-/
import Kafgres.Producer.Window
import Kafgres.Storage.Basic

namespace Kafgres.Start

open Storage

-- ==== log

/-- An offset, and the append that was given it. -/
structure At where
  offset : ℤ
  append : ℕ
deriving DecidableEq

/-- A batch in the log. -/
structure Entry where
  base : ℤ
  last : ℤ
  append : ℕ
  base_le_last : base ≤ last

def Entry.at (e : Entry) : At := ⟨e.base, e.append⟩

/-- The log end. -/
def logEnd (log : List Entry) : ℤ :=
  match log.getLast? with
  | none => 0
  | some e => e.last + 1

-- ==== rows

/-- A row of `kafgres_producer_batches`; a reservation has no offset. -/
structure WindowRow where
  epoch : ℤ
  firstSeq : ℤ
  lastSeq : ℤ
  baseOffset : Option At

/-- A row of `kafgres_markers`. -/
structure MarkerRow where
  base : At
  last : ℤ

/-- A row of `kafgres_txn_aborted`. -/
structure AbortedRow where
  producerId : ℤ
  first : At
  last : At
deriving DecidableEq

/-- A row of `kafgres_txn_partitions` of an ongoing transaction. -/
structure OpenRow where
  producerId : ℤ
  first : Option At
deriving DecidableEq

/-- The rows of one partition. -/
structure Rows where
  windows : ℤ → List WindowRow
  markers : List MarkerRow
  aborted : List AbortedRow
  opens : List OpenRow

/-- A partition: its log, how many of its batches are synced, its
rows. -/
structure Part where
  log : List Entry
  synced : ℕ
  rows : Rows

/-- The store appends a batch of `delta + 1` offsets. -/
def Part.append (p : Part) (n : ℕ) (delta : ℕ) : Part :=
  { p with log := p.log ++ [⟨logEnd p.log, logEnd p.log + delta, n, by omega⟩] }

/-- Change the window of one producer. -/
def Rows.onWindow (r : Rows) (producerId : ℤ) (f : List WindowRow → List WindowRow) : Rows :=
  let rows := f (r.windows producerId)
  { r with windows := Function.update r.windows producerId rows }

/-- `producer::record` with no offset yet. -/
def Rows.reserve (r : Rows) (producerId epoch firstSeq lastSeq : ℤ) : Rows :=
  r.onWindow producerId fun rows =>
    Recency.put Producer.retainedBatches WindowRow.firstSeq rows ⟨epoch, firstSeq, lastSeq, none⟩

/-- `producer::stamp`. -/
def Rows.stamp (r : Rows) (producerId firstSeq : ℤ) (a : At) : Rows :=
  r.onWindow producerId fun rows => rows.map fun w =>
    if w.firstSeq = firstSeq then { w with baseOffset := some a } else w

/-- `producer::release`. -/
def Rows.release (r : Rows) (producerId firstSeq : ℤ) : Rows :=
  r.onWindow producerId fun rows => rows.filter fun w =>
    !(w.firstSeq = firstSeq && w.baseOffset.isNone)

/-- `register_txn_partition` and `add_partition`, before any append. -/
def Rows.register (r : Rows) (producerId : ℤ) : Rows :=
  if r.opens.any fun o => o.producerId = producerId then r
  else { r with opens := r.opens ++ [⟨producerId, none⟩] }

/-- `stamp_txn_partition`: only a placeholder is overwritten. -/
def Rows.stampTxn (r : Rows) (producerId : ℤ) (a : At) : Rows :=
  { r with opens := r.opens.map fun o =>
      if o.producerId = producerId ∧ o.first = none then
        { o with first := some a }
      else o }

/-- `record_aborted_txn`: one row per first offset. -/
def Rows.recordAborted (r : Rows) (row : AbortedRow) : Rows :=
  { r with aborted := (r.aborted.filter fun x =>
      x.first.offset ≠ row.first.offset) ++ [row] }

/-- The row of the transaction is deleted with its marker. -/
def Rows.forgetTxn (r : Rows) (producerId : ℤ) : Rows :=
  { r with opens := r.opens.filter fun o => o.producerId ≠ producerId }

/-- `append_marker` for a partition of a transaction that ends. -/
def Part.mark (p : Part) (n : ℕ) (producerId : ℤ) (committed : Bool) : Part :=
  let q := p.append n 0
  let first := (p.rows.opens.find? fun o =>
    o.producerId = producerId).bind (·.first)
  let rows := match committed, first with
    | false, some f =>
      q.rows.recordAborted ⟨producerId, f, ⟨logEnd p.log, n⟩⟩
    | _, _ => q.rows
  { q with rows := rows.forgetTxn producerId }

/-- `forget_past`. -/
def Rows.forgetPast (r : Rows) (ending : ℤ) : Rows :=
  { r with windows := fun id => (r.windows id).filter fun w =>
      w.baseOffset.all fun a => a.offset < ending }

/-- The `DELETE` of `reconcile_markers`. -/
def Rows.dropMarkers (r : Rows) (ending : ℤ) : Rows :=
  { r with markers := r.markers.filter fun m => m.base.offset < ending }

-- ==== the system

/-- What a broker request does on a partition. -/
inductive Action where
  | reserve (producerId epoch firstSeq lastSeq : ℤ)
  | append (delta : ℕ)
  /-- Stamp a window row with the offset of the batch at this place of
  the log. -/
  | stamp (producerId firstSeq : ℤ) (place : ℕ)
  | release (producerId firstSeq : ℤ)
  | register (producerId : ℤ)
  | stampTxn (producerId : ℤ) (place : ℕ)
  /-- A marker of `EndTxn`, `WriteTxnMarkers`, an expiry or an abort. -/
  | mark (producerId : ℤ) (committed : Bool)

def Part.act (p : Part) (n : ℕ) : Action → Part
  | .reserve id epoch first last =>
    { p with rows := p.rows.reserve id epoch first last }
  | .append delta => p.append n delta
  | .stamp id first place => match p.log[place]? with
      | none => p
      | some e => { p with rows := p.rows.stamp id first e.at }
  | .release id first => { p with rows := p.rows.release id first }
  | .register id => { p with rows := p.rows.register id }
  | .stampTxn id place => match p.log[place]? with
      | none => p
      | some e => { p with rows := p.rows.stampTxn id e.at }
  | .mark id committed => p.mark n id committed

/-- A `kafgres_produce()` whose transaction is open. -/
structure Pending where
  xact : ℕ
  key : Key
  row : MarkerRow

structure System where
  /-- The rows of `kafgres_partitions`. -/
  keys : List Key
  part : Key → Part
  pending : List Pending
  /-- How many appends there have been. -/
  appends : ℕ
  /-- `EPOCHS_RAISED`, and `epochs_ready` in the broker. -/
  epochsRaised : Bool
  markersReconciled : Bool

/-- The broker takes requests. -/
def System.serving (s : System) : Bool := s.epochsRaised && s.markersReconciled

def System.update (s : System) (k : Key) (f : Part → Part) : System :=
  { s with part := Function.update s.part k (f (s.part k)) }

/-- One action of a request. -/
def System.act (s : System) (a : Key × Action) : System :=
  { s.update a.1 fun p => p.act s.appends a.2 with
    appends := s.appends + 1 }

/-- What a rollback leaves: the rows as they were under the logs as they
are. -/
def System.rollback (old new : System) : System :=
  { new with part := fun k => { new.part k with rows := (old.part k).rows } }

/-- How a run of `reconcile_markers` ends: blocked on a table lock,
failed otherwise, or through, with the partitions it skipped. -/
inductive Reconcile where
  | locked
  | failed
  | ran (skipped : List Key)

inductive Op where
  /-- A request of the broker, or with `sql` one of the SQL functions
  that wait for the epochs only. -/
  | request (sql : Bool) (acts : List (Key × Action)) (commits : Bool)
  | sqlProduce (xact : ℕ) (key : Key)
  /-- The transaction commits, if the syncs it owes succeed. -/
  | sqlCommit (xact : ℕ) (syncs : Bool)
  | sqlAbort (xact : ℕ)
  | sync (key : Key)
  /-- How many batches of each log the crash leaves, beyond those that
  were synced. -/
  | crash (keep : Key → ℕ)
  | raise (ok : Bool)
  | reconcile (how : Reconcile)

/-- `kafgres_produce()`: wait for the epochs, append, insert the marker
row. A row already there under the offset raises an error, and the
transaction is lost. -/
def System.sqlProduce (s : System) (xact : ℕ) (k : Key) : System :=
  let base := logEnd (s.part k).log
  let t := { s.update k fun p => p.append s.appends 0 with
    appends := s.appends + 1 }
  if (s.part k).rows.markers.any fun m => m.base.offset = base then
    { t with pending := s.pending.filter fun q => q.xact ≠ xact }
  else
    { t with pending := s.pending ++ [⟨xact, k, ⟨⟨base, s.appends⟩, base⟩⟩] }

/-- The rows of a transaction that commits. -/
def Part.commit (p : Part) (rows : List MarkerRow) : Part :=
  { p with rows := { p.rows with markers := p.rows.markers ++ rows } }

/-- `sync_owed`, then the commit. A sync that fails aborts it. -/
def System.sqlCommit (s : System) (xact : ℕ) (syncs : Bool) : System :=
  let mine := s.pending.filter fun q => q.xact = xact
  let rest := s.pending.filter fun q => q.xact ≠ xact
  if syncs then
    { s with
      pending := rest
      part := fun k =>
        if mine.any fun q => q.key = k then
          let p := s.part k
          let owed : Part := { p with synced := p.log.length }
          owed.commit ((mine.filter fun q => q.key = k).map (·.row))
        else s.part k }
  else { s with pending := rest }

/-- What is left of a log. -/
def Part.cut (p : Part) (keep : ℕ) : List Entry := p.log.take (max p.synced keep)

def System.step (s : System) : Op → System
  | .request sql acts commits =>
    if s.epochsRaised && (sql || s.markersReconciled) then
      let t := (acts.filter fun a => a.1 ∈ s.keys).foldl System.act s
      if commits then t else s.rollback t
    else s
  | .sqlProduce xact k =>
    if s.epochsRaised && decide (k ∈ s.keys) then s.sqlProduce xact k
    else s
  | .sqlCommit xact syncs => s.sqlCommit xact syncs
  | .sqlAbort xact =>
    { s with pending := s.pending.filter fun q => q.xact ≠ xact }
  | .sync k => s.update k fun p => { p with synced := p.log.length }
  | .crash keep =>
    { s with
      part := fun k =>
        let log := (s.part k).cut (keep k)
        { s.part k with log := log, synced := log.length }
      pending := []
      epochsRaised := false
      markersReconciled := false }
  | .raise ok =>
    if s.epochsRaised || !ok then s
    else { s with
      part := fun k =>
        if k ∈ s.keys then
          let p := s.part k
          { p with rows := p.rows.forgetPast (logEnd p.log) }
        else s.part k
      epochsRaised := true }
  | .reconcile how =>
    if s.markersReconciled then s
    else match how with
    | .locked => s
    | .failed => { s with markersReconciled := true }
    | .ran skipped => { s with
        part := fun k =>
          if k ∈ s.keys ∧ k ∉ skipped then
            let p := s.part k
            { p with rows := p.rows.dropMarkers (logEnd p.log) }
          else s.part k
        markersReconciled := true }

/-- The first start, with nothing in any log. -/
def System.init (keys : List Key) : System where
  keys := keys
  part := fun _ => ⟨[], 0, ⟨fun _ => [], [], [], []⟩⟩
  pending := []
  appends := 0
  epochsRaised := false
  markersReconciled := false

-- ==== rows backed by the log

/-- A row of the partition names the offset. -/
inductive Rows.Names (r : Rows) : At → Prop
  | window {id : ℤ} {w : WindowRow} {a : At} (hw : w ∈ r.windows id)
      (ha : w.baseOffset = some a) : r.Names a
  | marker {m : MarkerRow} (hm : m ∈ r.markers) : r.Names m.base
  | abortedFirst {x : AbortedRow} (hx : x ∈ r.aborted) : r.Names x.first
  | abortedLast {x : AbortedRow} (hx : x ∈ r.aborted) : r.Names x.last
  | opened {o : OpenRow} {a : At} (ho : o ∈ r.opens)
      (ha : o.first = some a) : r.Names a

/-- The offset is in the log, with the batch that was given it. -/
def Holds (log : List Entry) (a : At) : Prop := ∃ e ∈ log, e.at = a

/-- While the broker serves, every row names batches that are in the
log: none at or past its end, and none whose offset another batch has
taken since. -/
def System.Backed (s : System) : Prop :=
  s.serving = true → ∀ k ∈ s.keys, ∀ a, (s.part k).rows.Names a →
    a.offset < logEnd (s.part k).log ∧ Holds (s.part k).log a

end Kafgres.Start
