/-
Share groups (handlers/share_group.rs), over the rows of one share
partition: the in-flight rows of one group and partition, and its row of
`kafgres_share_offsets`.

# Sessions

A call of the broker or of an SQL session is a sequence of statements,
and other sessions' statements fall between any two of them. A `Job` is
a call with what it has left to do; `exec` is its next statement.
`now()` is the start of the caller's transaction, so a job carries its
own, which may lie behind the clock.

The broker keeps what a failed acknowledgement did to the records before
it. `kafgres_share_ack` raises instead, which undoes all of its call;
what it updates stays locked until then, so its loop is one step here.

# What is left out

Members: `kafgres_share_acquire` asks for no membership, so any member id
may acquire at any time, and a leave is its `release_all`. Where a fetch
or an acquire by SQL stops reading (`upto`) is any offset.
-/
import Kafgres.Lib.Table
import Mathlib.Data.List.Sort

namespace Kafgres.ShareGroup

-- ==== rows

def maxDeliveryAttempts : ℕ := 5

def maxAcquirePerFetch : ℤ := 5000

def maxRecordLocks : ℕ := 200

def maxInflightRows : ℕ := 50000

inductive RecordState where
  | acquired
  | acked
  | archived
deriving DecidableEq

/-- A row of `kafgres_share_inflight`. -/
structure Row where
  recordOffset : ℤ
  state : RecordState
  deliveryCount : ℕ
  memberId : Option String
  acquiredUntil : Option ℤ
deriving DecidableEq

abbrev Rows := Table Row.recordOffset

structure Db where
  rows : Rows := .empty
  /-- The row of `kafgres_share_offsets`. -/
  offset : Option ℤ := none

/-- `start_offset`. -/
def Db.start (db : Db) : ℤ := db.offset.getD 0

/-- `acquired_until > now()`; no lock is never live. -/
def Row.live (r : Row) (now : ℤ) : Bool :=
  match r.acquiredUntil with
  | none => false
  | some t => decide (now < t)

/-- What the conflict resolution of `acquire` asks of a row. -/
def Row.lapsed (r : Row) (now : ℤ) : Bool :=
  decide (r.state = .acquired) && !r.live now

-- ==== acquire

/-- The limit `acquire` works with, after the two counts; none if it
hands out nothing. -/
def room (rows : Rows) (now limit : ℤ) : Option ℕ :=
  let held := (rows.rows.filter fun r =>
    decide (r.state = .acquired) && r.live now).length
  if rows.rows.length ≥ maxInflightRows then none
  else if maxRecordLocks - held = 0 then none
  else some (max 1 (min (max 1 (min limit maxAcquirePerFetch)).toNat (maxRecordLocks - held)))

/-- `generate_series`. -/
def series (first last : ℤ) : List ℤ :=
  (List.range (last + 1 - first).toNat).map fun i : ℕ => first + i

/-- No row, or one whose lock lapsed. -/
def free (rows : Rows) (now o : ℤ) : Bool :=
  match rows.find? o with
  | none => true
  | some r => r.lapsed now

def candidates (rows : Rows) (now first last : ℤ) (limit : ℕ) : List ℤ :=
  ((series first last).filter (free rows now)).take limit

/-- A record handed out again, or archived past the limit. -/
def Row.again (r : Row) (member : String) (lock : ℤ) : Row :=
  if r.deliveryCount + 1 > maxDeliveryAttempts then
    { r with
      state := .archived
      deliveryCount := r.deliveryCount + 1
      memberId := none
      acquiredUntil := none }
  else
    { r with
      state := .acquired
      deliveryCount := r.deliveryCount + 1
      memberId := some member
      acquiredUntil := some lock }

theorem Row.again_recordOffset (r : Row) (member : String) (lock : ℤ) :
    (r.again member lock).recordOffset = r.recordOffset := by
  unfold Row.again
  split <;> rfl

/-- The insert of one candidate; the row is looked at again where it
conflicts. -/
def takeOne (now : ℤ) (member : String) (lock : ℤ) (rows : Rows) (o : ℤ) : Rows :=
  rows.upsert ⟨o, .acquired, 1, some member, some lock⟩
    (fun r => if r.lapsed now then r.again member lock else r) (by
      intro r
      split
      · exact r.again_recordOffset member lock
      · rfl)

/-- Whether the insert of a candidate returns it as acquired. -/
def returned (rows : Rows) (now o : ℤ) : Bool :=
  match rows.find? o with
  | none => true
  | some r => r.lapsed now && !decide (r.deliveryCount + 1 > maxDeliveryAttempts)

-- ==== acknowledge

inductive Ack where
  | gap
  | accept
  | release
  | reject
  | renew
deriving DecidableEq

/-- The state an acknowledgement finishes a record with. -/
def Ack.finishes : Ack → Option RecordState
  | .gap => some .archived
  | .accept => some .acked
  | .reject => some .archived
  | .release => none
  | .renew => none

def Row.unlock (r : Row) : Row :=
  { r with memberId := none, acquiredUntil := none }

/-- What an acknowledgement sets. -/
def Ack.set (kind : Ack) (lock : ℤ) (r : Row) : Row :=
  match kind.finishes with
  | some state => { r.unlock with state := state }
  | none => match kind with
    | .renew => { r with acquiredUntil := some lock }
    | _ => { r.unlock with state := .acquired }

theorem Ack.set_recordOffset (kind : Ack) (lock : ℤ) (r : Row) :
    (kind.set lock r).recordOffset = r.recordOffset := by
  cases kind with
  | _ => rfl

/-- Its `WHERE`: rows that name the member; a renewal asks for the state
too. -/
def Ack.applies (kind : Ack) (member : String) (first last : ℤ) (r : Row) : Bool :=
  decide (first ≤ r.recordOffset) && decide (r.recordOffset ≤ last)
    && decide (r.memberId = some member)
    && (decide (kind ≠ .renew) || decide (r.state = .acquired))

/-- The statement of an acknowledgement of a range. -/
def ackUpdate (rows : Rows) (member : String) (first last : ℤ) (kind : Ack) (lock : ℤ) : Rows :=
  rows.updateWhere (kind.applies member first last) (kind.set lock) (kind.set_recordOffset lock)

/-- Accept and Reject need every record held. -/
def ackHeld (rows : Rows) (member : String) (first last : ℤ) (kind : Ack) : Bool :=
  if kind = .accept ∨ kind = .reject then
    decide (last - first + 1 ≤ ((rows.rows.filter (kind.applies member first last)).length : ℤ))
  else true

/-- What one acknowledgement makes of the rows, none for `NOT_HELD`. -/
def ackOne (rows : Rows) (member : String) (o : ℤ) (kind : Ack) (lock : ℤ) : Option Rows :=
  if ackHeld rows member o o kind then
    some (ackUpdate rows member o o kind lock)
  else none

/-- The loop of `acknowledge`, up to the first that is not held. -/
def ackAll (rows : Rows) (member : String) (lock : ℤ) : List (ℤ × Ack) → Option Rows
  | [] => some rows
  | (o, kind) :: rest =>
    match ackOne rows member o kind lock with
    | none => none
    | some rows => ackAll rows member lock rest

/-- The records a list of types speaks of. -/
def ackList (first last : ℤ) (types : List Ack) : List (ℤ × Ack) :=
  (types.zipIdx.map fun p : Ack × ℕ => (first + p.2, p.1)).takeWhile fun p => p.1 ≤ last

-- ==== the others

/-- `release_all`. -/
def releaseAll (rows : Rows) (member : String) : Rows :=
  rows.updateWhere (fun r => decide (r.memberId = some member)
      && decide (r.state = .acquired)) Row.unlock fun _ => rfl

/-- `expire`: of the lapsed rows the sweep gets to, which are the oldest
ones of all groups. -/
def expire (rows : Rows) (now : ℤ) (reached : List ℤ) : Rows :=
  rows.updateWhere (fun r => decide (r.recordOffset ∈ reached) && decide (r.state = .acquired)
      && (match r.acquiredUntil with
        | none => false
        | some t => decide (t < now))) Row.unlock fun _ => rfl

/-- The finished records from the start offset on, in order. -/
def finishedFrom (db : Db) : List ℤ := ((db.rows.rows.filter fun r =>
    decide (r.state ≠ .acquired) && decide (db.start ≤ r.recordOffset)).map
      (·.recordOffset)).insertionSort (· ≤ ·)

/-- The first statement of `advance_start_offset`: past the last record
whose distance to its row number is that of the first position. -/
def advance (db : Db) : Db :=
  let run := ((finishedFrom db).zipIdx 1).filter fun p : ℤ × ℕ => p.1 - p.2 = db.start - 1
  let next := match (run.map Prod.fst).max? with
    | none => db.start
    | some o => o + 1
  { db with offset := some next }

/-- The second: rows below the start offset go. -/
def prune (db : Db) : Db :=
  match db.offset with
  | none => db
  | some start =>
    { db with rows := db.rows.delete fun r => r.recordOffset < start }

-- ==== jobs

/-- What a call has left to do. -/
inductive Task where
  /-- `start_offset`, before an acquire. -/
  | look (member : String) (upto limit : ℤ)
  /-- The counts of `acquire`. -/
  | count (member : String) (start upto limit : ℤ)
  /-- Its insert. -/
  | take (member : String) (start upto : ℤ) (limit : ℕ)
  | ackRange (member : String) (first last : ℤ) (kind : Ack)
  | acks (member : String) (left : List (ℤ × Ack))
  | sqlAcks (member : String) (left : List (ℤ × Ack))
  | release (member : String)
  | sweep (reached : List ℤ)
  | advance
  | prune

structure Job where
  now : ℤ
  lockMs : ℤ
  task : Task

/-- A statement's effect: the rows, what the call does next, and the
offsets it hands out to a member. -/
structure Effect where
  db : Db
  next : Option Task := none
  given : List (ℤ × String) := []

/-- The next statement of a call. -/
def exec (db : Db) (job : Job) : Effect :=
  match job.task with
  | .look member upto limit =>
    if upto < db.start then { db := db }
    else { db := db, next := some (.count member db.start upto limit) }
  | .count member start upto limit =>
    { db := db
      next := (room db.rows job.now limit).map (.take member start upto) }
  | .take member start upto limit =>
    let cs := candidates db.rows job.now start upto limit
    let rows := cs.foldl (takeOne job.now member (job.now + job.lockMs)) db.rows
    { db := { db with rows := rows }
      next := some .advance
      given := (cs.filter (returned db.rows job.now)).map (·, member) }
  | .ackRange member first last kind =>
    let rows := ackUpdate db.rows member first last kind (job.now + job.lockMs)
    { db := { db with rows := rows }
      next := if ackHeld db.rows member first last kind
        then some .advance else none }
  | .acks _ [] => { db := advance db, next := some .prune }
  | .acks member ((o, kind) :: left) =>
    match ackOne db.rows member o kind (job.now + job.lockMs) with
    | none => { db := db }
    | some rows =>
      { db := { db with rows := rows }, next := some (.acks member left) }
  | .sqlAcks member left =>
    match ackAll db.rows member (job.now + job.lockMs) left with
    | none => { db := db }
    | some rows => { db := { db with rows := rows }, next := some .advance }
  | .release member =>
    { db := { db with rows := releaseAll db.rows member } }
  | .sweep reached =>
    { db := { db with rows := expire db.rows job.now reached } }
  | .advance => { db := advance db, next := some .prune }
  | .prune => { db := prune db }

/-- `acknowledge`: a single type covers a range; none for a range that
ends before it starts. -/
def acknowledge (member : String) (first last : ℤ) (types : List Ack) : Option Task :=
  if last < first then none
  else match types with
    | [kind] =>
      if first < last then some (.ackRange member first last kind)
      else some (.acks member (ackList first last [kind]))
    | types => some (.acks member (ackList first last types))

/-- `kafgres_share_ack`: the kind once for every record of the range. -/
def shareAck (member : String) (first last : ℤ) (kind : Ack) : Option Task :=
  if last < first then none
  else some (.sqlAcks member (ackList first last (List.replicate (last - first + 1).toNat kind)))

inductive Call where
  | acquire (member : String) (upto limit : ℤ)
  | acknowledge (member : String) (first last : ℤ) (types : List Ack)
  | shareAck (member : String) (first last : ℤ) (kind : Ack)
  | releaseAll (member : String)
  | expire (reached : List ℤ)

/-- The first statement of a call, if it gets to one. -/
def Call.task : Call → Option Task
  | .acquire member upto limit => some (.look member upto limit)
  | .acknowledge member first last types =>
    ShareGroup.acknowledge member first last types
  | .shareAck member first last kind =>
    ShareGroup.shareAck member first last kind
  | .releaseAll member => some (.release member)
  | .expire reached => some (.sweep reached)

-- ==== runs

/-- A lock as its member knows it. -/
structure Lock where
  recordOffset : ℤ
  member : String
  lockedUntil : ℤ

def Row.lock (r : Row) : Option Lock :=
  if r.state = .acquired then
    r.memberId.bind fun m => r.acquiredUntil.map fun t =>
      ⟨r.recordOffset, m, t⟩
  else none

/-- The tables, the clock and the calls under way; and what has happened:
the offsets handed out, the ones that were finished, and the locks. -/
structure System where
  db : Db := {}
  clock : ℤ := 0
  jobs : List Job := []
  handed : List (ℤ × String) := []
  finished : List ℤ := []
  locks : List Lock := []

/-- Notes what the rows say after a statement. A lock is what its row
says, and what it last said once the row is gone. -/
def System.observe (s : System) : System :=
  { s with
    finished := s.finished ++ (s.db.rows.rows.filter
      (fun r => r.state ≠ .acquired)).map (·.recordOffset)
    locks := s.locks.filter (fun l => l.recordOffset ∉ s.db.rows.keys)
      ++ s.db.rows.rows.filterMap Row.lock }

inductive Op where
  | tick (ms : ℕ)
  /-- A call in a transaction that began `age` ago. -/
  | call (age : ℕ) (lockMs : ℤ) (call : Call)
  | run (index : ℕ)

def System.run (s : System) (index : ℕ) (job : Job) : System :=
  let e := exec s.db job
  { s with
    db := e.db
    jobs := match e.next with
      | none => s.jobs.eraseIdx index
      | some task => s.jobs.set index { job with task := task }
    handed := s.handed ++ e.given }

def System.step (s : System) : Op → System
  | .tick ms => { s with clock := s.clock + ms }
  | .call age lockMs call =>
    match call.task with
    | none => s
    | some task =>
      { s with jobs := s.jobs ++ [⟨s.clock - age, lockMs, task⟩] }
  | .run index =>
    match s.jobs[index]? with
    | none => s
    | some job => (s.run index job).observe

-- ==== what is handed out

/-- The offsets a step hands out. -/
def System.gives (s : System) : Op → List (ℤ × String)
  | .run index =>
    match s.jobs[index]? with
    | none => []
    | some job => (exec s.db job).given
  | _ => []

/-- An offset under another member's lock is not handed out. -/
def Exclusive (s : System) (op : Op) : Prop :=
  ∀ p ∈ s.gives op, ∀ l ∈ s.locks, l.recordOffset = p.1 → s.clock < l.lockedUntil → l.member = p.2

/-- A finished offset is not handed out. -/
def Unfinished (s : System) (op : Op) : Prop := ∀ p ∈ s.gives op, p.1 ∉ s.finished

/-- No offset was handed out too often. -/
def Bounded (s : System) : Prop := ∀ o, (s.handed.map Prod.fst).count o ≤ maxDeliveryAttempts

end Kafgres.ShareGroup
