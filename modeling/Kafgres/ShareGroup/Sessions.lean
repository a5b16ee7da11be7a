/-
A share partition under concurrent sessions (handlers/share_group.rs,
`acquire`, `acknowledge`, `advance_start_offset`, `expire`), row by row
and under the isolation the statements run at, which is read committed.

# Read committed

A backend sees what is committed, with its own writes over it. A
statement takes a snapshot of that when it begins, which decides the rows
it gets to, one after the other. A row another transaction has written is
waited for; then the statement looks at the row as it is by now. An
UPDATE asks its WHERE again, the insert of an acquire the WHERE of its
conflict clause. `advance_start_offset` asks nothing.

The log of a transaction is both: the versions it wrote, and the rows it
has locked. A row that does not meet the WHERE when it is looked at
again is not locked here, which allows more interleavings, not fewer.

# Calls

A call's statements are the tasks of `Partition`, one at a time. A
transaction may make any number of calls. Any backend may ask for a row
in any order and may roll back at any time, which is what every error
does. `kafgres_share_ack` raises when a record is not held, the broker
goes on with what it has.
-/
import Kafgres.ShareGroup.Partition
import Kafgres.Lib.Replay

namespace Kafgres.ShareGroup

-- ==== writes

/-- A row that can be locked. -/
inductive Key where
  | record (o : ℤ)
  | start
deriving DecidableEq

/-- A new version of a row. -/
inductive Write where
  | put (r : Row)
  | gone (o : ℤ)
  | start (o : ℤ)

def Write.key : Write → Key
  | .put r => .record r.recordOffset
  | .gone o => .record o
  | .start _ => .start

def Write.apply (db : Db) : Write → Db
  | .put r => { db with rows := db.rows.put r }
  | .gone o => { db with rows := db.rows.erase o }
  | .start o => { db with offset := some o }

def Write.deletes : Write → Bool
  | .gone _ => true
  | _ => false

theorem Write.find?_apply_put (db : Db) (r : Row) (o : ℤ) :
    (Write.apply db (.put r)).rows.find? o =
      if o = r.recordOffset then some r else db.rows.find? o :=
  db.rows.find?_put r o

theorem Write.find?_apply_gone (db : Db) (o o' : ℤ) :
    (Write.apply db (.gone o')).rows.find? o = if o = o' then none else db.rows.find? o :=
  db.rows.find?_erase o o'

def Key.Val : Key → Type
  | .record _ => Option Row
  | .start => Option ℤ

def Db.read (k : Key) (db : Db) : k.Val :=
  match k with
  | .record o => db.rows.find? o
  | .start => db.offset

/-- The two tables as a store of rows. -/
def store : CellStore Db Key Write Key.Val where
  read := Db.read
  key := Write.key
  apply := Write.apply
  read_apply_of_ne := by
    intro db w k hk
    cases w with
    | put r =>
      cases k with
      | record o =>
        exact (Write.find?_apply_put db r o).trans (if_neg fun he => hk (congrArg Key.record he))
      | start => rfl
    | gone o' =>
      cases k with
      | record o =>
        exact (Write.find?_apply_gone db o o').trans (if_neg fun he => hk (congrArg Key.record he))
      | start => rfl
    | start o =>
      cases k with
      | record o => rfl
      | start => exact absurd rfl hk
  read_apply_key := by
    intro db db' w
    cases w with
    | put r =>
      exact (Write.find?_apply_put db r _).trans
        ((if_pos rfl).trans ((Write.find?_apply_put db' r _).trans (if_pos rfl)).symm)
    | gone o =>
      exact (Write.find?_apply_gone db o o).trans
        ((if_pos rfl).trans ((Write.find?_apply_gone db' o o).trans (if_pos rfl)).symm)
    | start o => rfl

-- ==== statements

/-- The WHERE and the SET of an UPDATE. -/
structure Update where
  applies : Row → Bool
  set : Row → Row

def Ack.update (kind : Ack) (member : String) (first last lock : ℤ) : Update :=
  ⟨kind.applies member first last, kind.set lock⟩

/-- The UPDATE a task is, if it is one. The sweep of `expire` names the
versions it saw (`ctid`), so a row that has changed since is not one of
them. -/
def Task.update (now lock : ℤ) (snap : Db) : Task → Option Update
  | .ackRange member first last kind =>
    some (kind.update member first last lock)
  | .acks member ((o, kind) :: _) => some (kind.update member o o lock)
  | .sqlAcks member ((o, kind) :: _) => some (kind.update member o o lock)
  | .release member =>
    some ⟨fun r => decide (r.memberId = some member) && decide (r.state = .acquired), Row.unlock⟩
  | .sweep reached =>
    some ⟨fun r => decide (r.recordOffset ∈ reached) && decide (r.state = .acquired)
      && (match r.acquiredUntil with
        | none => false
        | some t => decide (t < now))
      && decide (snap.rows.find? r.recordOffset = some r), Row.unlock⟩
  | _ => none

def Db.matching (db : Db) (p : Row → Bool) : List Key :=
  (db.rows.rows.filter p).map fun r => .record r.recordOffset

/-- The rows a statement gets to, by its snapshot. -/
def Task.targets (now lock : ℤ) (snap : Db) (task : Task) : List Key :=
  match task with
  | .take _ first upto limit =>
    (candidates snap.rows now first upto limit).map .record
  | .advance => [.start]
  | .prune =>
    match snap.offset with
    | none => []
    | some start => snap.matching fun r => r.recordOffset < start
  | task =>
    match task.update now lock snap with
    | none => []
    | some u => snap.matching u.applies

/-- What a statement makes of a row it gets to, as the row is by now. -/
def Task.write (now lock : ℤ) (snap cur : Db) (task : Task) : Key → Option Write
  | .start =>
    match task with
    | .advance => some (.start (ShareGroup.advance snap).start)
    | _ => none
  | .record o =>
    match task with
    | .take member _ _ _ =>
      match cur.rows.find? o with
      | none => some (.put ⟨o, .acquired, 1, some member, some lock⟩)
      | some r =>
        if r.lapsed now then some (.put (r.again member lock))
        else none
    | .prune => (cur.rows.find? o).map fun _ => .gone o
    | task =>
      match task.update now lock snap, cur.rows.find? o with
      | some u, some r =>
        if u.applies r then some (.put (u.set r)) else none
      | _, _ => none

/-- How a call goes on. -/
inductive Outcome where
  | done
  | go (task : Task)
  | fail

/-- Accept and Reject need as many rows changed as they name. -/
def Ack.enough (kind : Ack) (n : ℤ) (changed : ℕ) : Bool :=
  if kind = .accept ∨ kind = .reject then decide (n ≤ changed) else true

/-- What follows a statement, by its snapshot and the number of rows it
changed. -/
def Task.outcome (now : ℤ) (snap : Db) (changed : ℕ) : Task → Outcome
  | .look member upto limit =>
    if upto < snap.start then .done
    else .go (.count member snap.start upto limit)
  | .count member start upto limit =>
    match room snap.rows now limit with
    | none => .done
    | some n => .go (.take member start upto n)
  | .take .. => .go .advance
  | .ackRange _ first last kind =>
    if kind.enough (last - first + 1) changed then .go .advance else .done
  | .acks _ [] => .go .advance
  | .acks member ((_, kind) :: left) =>
    if kind.enough 1 changed then .go (.acks member left) else .done
  | .sqlAcks _ [] => .go .advance
  | .sqlAcks member ((_, kind) :: left) =>
    if kind.enough 1 changed then .go (.sqlAcks member left) else .fail
  | .release _ => .done
  | .sweep _ => .done
  | .advance => .go .prune
  | .prune => .done

-- ==== backends

inductive Phase where
  | idle
  /-- Before the next statement of a call. -/
  | ready (task : Task)
  /-- In one: its snapshot, the rows it still has to get to and the
  number it has changed. -/
  | under (task : Task) (snap : Db) (left : List Key) (changed : ℕ)

/-- A backend with an open transaction that began at `now`. -/
structure Backend where
  pid : ℕ
  now : ℤ
  lockMs : ℤ := 0
  log : List Write := []
  phase : Phase := .idle

def Backend.keys (b : Backend) : List Key := store.keys b.log

/-- What its transaction sees. -/
def Backend.view (b : Backend) (db : Db) : Db := store.replay db b.log

/-- The last version of every row it sees or saw: as `view`, without its
deletes. -/
def Backend.kept (b : Backend) (db : Db) : Db := store.replay db (b.log.filter fun w => !w.deletes)

def Backend.lock (b : Backend) : ℤ := b.now + b.lockMs

/-- A statement takes its snapshot, or ends; none where it raises. -/
def Backend.next (db : Db) (b : Backend) : Option Backend :=
  match b.phase with
  | .idle => some b
  | .ready task =>
    let snap := b.view db
    some { b with
      phase := .under task snap (task.targets b.now b.lock snap) 0 }
  | .under task snap [] changed =>
    match task.outcome b.now snap changed with
    | .done => some { b with phase := .idle }
    | .go task => some { b with phase := .ready task }
    | .fail => none
  | .under _ _ (_ :: _) _ => some b

/-- A statement gets to a row that nobody else has locked. -/
def Backend.row (db : Db) (b : Backend) (k : Key) : Backend :=
  match b.phase with
  | .under task snap left changed =>
    if k ∈ left then
      match task.write b.now b.lock snap (b.view db) k with
      | none =>
        { b with phase := .under task snap (left.erase k) changed }
      | some w =>
        { b with
          log := b.log ++ [w]
          phase := .under task snap (left.erase k) (changed + 1) }
    else b
  | _ => b

-- ==== runs

structure Server where
  db : Db := {}
  backends : Table Backend.pid := .empty

inductive Event where
  | start (pid : ℕ) (now : ℤ)
  | call (pid : ℕ) (lockMs : ℤ) (call : Call)
  | next (pid : ℕ)
  | row (pid : ℕ) (k : Key)
  | commit (pid : ℕ)
  | rollback (pid : ℕ)

/-- Another transaction has written the row. -/
def Server.blocked (s : Server) (pid : ℕ) (k : Key) : Bool :=
  s.backends.rows.any fun b => decide (b.pid ≠ pid) && decide (k ∈ b.keys)

def Server.put (s : Server) (b : Backend) : Server :=
  { s with backends := s.backends.put b }

def Server.close (s : Server) (pid : ℕ) : Server :=
  { s with backends := s.backends.erase pid }

def Backend.called (b : Backend) (lockMs : ℤ) (call : Call) : Backend :=
  match b.phase, call.task with
  | .idle, some task => { b with lockMs := lockMs, phase := .ready task }
  | _, _ => b

def Server.step (s : Server) (e : Event) : Server :=
  match e with
  | .start pid now =>
    match s.backends.find? pid with
    | some _ => s
    | none => s.put { pid := pid, now := now }
  | .call pid lockMs call =>
    match s.backends.find? pid with
    | none => s
    | some b => s.put (b.called lockMs call)
  | .next pid =>
    match s.backends.find? pid with
    | none => s
    | some b =>
      match b.next s.db with
      | none => s.close pid
      | some b => s.put b
  | .row pid k =>
    match s.backends.find? pid with
    | none => s
    | some b => if s.blocked pid k then s else s.put (b.row s.db k)
  | .commit pid =>
    match s.backends.find? pid with
    | none => s
    | some b =>
      match b.phase with
      | .idle => { s.close pid with db := b.view s.db }
      | _ => s
  | .rollback pid => s.close pid

-- ==== where the start offset may go

/-- Accepted, rejected or archived. -/
def Finished (rows : Rows) (o : ℤ) : Prop := ∃ r, rows.find? o = some r ∧ r.state ≠ .acquired

/-- The run of finished records that begins at `first` ends at `last`. -/
structure RunEnd (rows : Rows) (first last : ℤ) : Prop where
  le : first ≤ last
  finished : ∀ o, first ≤ o → o < last → Finished rows o
  stops : ¬ Finished rows last

/-- The last version of every row before a step changes what is
committed. -/
def Server.before (s : Server) : Event → Rows
  | .commit pid =>
    match s.backends.find? pid with
    | none => s.db.rows
    | some b => (b.kept s.db).rows
  | _ => s.db.rows

/-- The rows a step takes out of what a transaction sees. -/
def Server.deleted (s : Server) : Event → List Row
  | .row pid k =>
    match s.backends.find? pid, (s.step (.row pid k)).backends.find? pid with
    | some b, some b' => (b.view s.db).rows.rows.filter fun r =>
      decide ((b'.view s.db).rows.find? r.recordOffset = none)
    | _, _ => []
  | _ => []

/-- What a step keeps to: the committed start offset does not move back,
it moves over finished records only, and no row of an unfinished one is
deleted. -/
structure Sound (s : Server) (e : Event) : Prop where
  start_le : s.db.start ≤ (s.step e).db.start
  passes : ∀ o, s.db.start ≤ o → o < (s.step e).db.start →
    Finished (s.before e) o
  deletes : ∀ r ∈ s.deleted e, r.state ≠ .acquired

/-- The steps of a transaction that runs a call. -/
def Event.ownedBy (pid : ℕ) : Event → Prop
  | .next p => p = pid
  | .row p _ => p = pid
  | _ => False

/-- A transaction that makes one call and no other beside it. -/
def Server.alone (s : Server) (pid : ℕ) (now lockMs : ℤ) (call : Call) (es : List Event) : Server :=
  (.start pid now :: .call pid lockMs call :: es).foldl Server.step s

/-- The call of `alone` is over and its transaction still open. -/
def Server.over (s : Server) (pid : ℕ) (b : Backend) : Prop :=
  s.backends.find? pid = some b ∧ b.phase = .idle

/-- A call alone runs to its end, and then the start offset is the end of
the run of finished records from the offset before. -/
def Exact (s : Server) (pid : ℕ) (now lockMs : ℤ) (call : Call) : Prop :=
  (∃ es, (∀ e ∈ es, Event.ownedBy pid e) ∧ ∃ b, (s.alone pid now lockMs call es).over pid b) ∧
  ∀ es, (∀ e ∈ es, Event.ownedBy pid e) → ∀ b, (s.alone pid now lockMs call es).over pid b →
      RunEnd (b.kept s.db).rows s.db.start
        ((s.alone pid now lockMs call es).step (.commit pid)).db.start

end Kafgres.ShareGroup
