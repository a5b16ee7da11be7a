/-
The nodes of one partition: a leader, and followers that copy its log
(replication.rs), on the segment engine.

# The nodes

Each node has a log of its own. The partition's rows come with the WAL:
`wal` lists the states they went through on the leader, of which a node
has replayed some. The leader fails and restarts with less of its log,
or another node is promoted, with its own log and the rows it has
replayed; either way whoever leads does so under a new leader epoch that
begins at its log end. What a promoted node had not replayed is gone, and
a node that had is rewound. A failed leader is a follower from then on.

# A follower

A round reads `leader_epoch` in the rows, asks the leader where that
epoch ended when the connection is new, then fetches and applies, batch
by batch. What was read is applied even if the leader failed meanwhile,
or the node itself was promoted. Any error ends the connection.

# What is left out

How much of a log was synced: a failure may lose any of it. Where a
reply ends: it may have any number of batches. Retention, and compaction.
-/
import Kafgres.LeaderEpoch.History
import Kafgres.Lib.Spans

namespace Kafgres.Replication

open LeaderEpoch Function

-- ==== nodes

structure Batch where
  baseOffset : ℤ
  lastOffsetDelta : ℕ
  partitionLeaderEpoch : ℤ
  data : List UInt8
deriving DecidableEq

/-- The first offset past a batch. -/
def Batch.stop (b : Batch) : ℤ := b.baseOffset + b.lastOffsetDelta + 1

/-- A batch is not empty. -/
theorem Batch.baseOffset_lt_stop (b : Batch) : b.baseOffset < b.stop := by
  unfold Batch.stop
  omega

/-- `replayed` is the place in the WAL of the rows it has, `want` the
epoch a round has read, `reply` what a fetch returned and was not applied
yet. -/
structure Node where
  batches : List Batch := []
  nextOffset : ℤ := 0
  info : Meta
  replayed : ℕ := 0
  want : Option ℤ := none
  reconciled : Bool := false
  reply : List Batch := []

/-- `disconnect`, with the round that ends. -/
def Node.disconnect (n : Node) : Node := { n with want := none, reconciled := false, reply := [] }

/-- What recovery finds of a log that lost its tail. -/
def Node.crash (n : Node) (keep : ℕ) : Node :=
  { n.disconnect with
    batches := n.batches.take keep
    nextOffset := Spans.stop Batch.stop 0 (n.batches.take keep) }

/-- An append at the log end. -/
def Node.push (n : Node) (b : Batch) : Node :=
  { n with batches := n.batches ++ [b], nextOffset := b.stop }

/-- The batches of a leader's reply to a fetch. -/
def Node.fetch (n : Node) (fetchOffset : ℤ) (count : ℕ) : List Batch :=
  (n.batches.filter fun b => fetchOffset < b.stop).take count

-- ==== the follower

/-- `truncate_to`: cut before the first batch at the offset or past it. -/
def Node.truncateTo (n : Node) (offset : ℤ) : Node :=
  { n with
    batches := n.batches.takeWhile fun b => b.baseOffset < offset
    nextOffset := offset }

/-- `reconcile_epoch` with the leader's answer, none for an error code. -/
def Node.reconcile (n : Node) (answer : Option EpochEnd) : Node :=
  let n := match answer with
    | none => n
    | some answer =>
      if answer.endOffset < 0 then n
      else if answer.endOffset < n.nextOffset then
        n.truncateTo answer.endOffset
      else n
  { n with reconciled := true }

/-- `append_replicated`, none for a gap or an overlap. -/
def Node.appendReplicated (n : Node) (b : Batch) : Option Node :=
  if b.baseOffset = n.nextOffset then some (n.push b) else none

/-- One batch of `apply`: below the log end it is skipped; a refused one
ends the round. -/
def Node.apply (n : Node) : Node :=
  match n.reply with
  | [] => n
  | b :: bs =>
    if b.baseOffset < n.nextOffset then { n with reply := bs }
    else match n.appendReplicated b with
      | none => n.disconnect
      | some n => { n with reply := bs }

/-- What a node does that does not lead. -/
inductive Act where
  | crash (keep : ℕ)
  /-- The WAL is replayed up to some state of the rows. -/
  | wal (to_ : ℕ)
  | look
  | reconcile (refused : Bool)
  | fetch (count : ℕ)
  | apply
  | disconnect
deriving DecidableEq

def Node.act (n leader : Node) (wal : List Meta) : Act → Node
  | .crash keep => n.crash keep
  | .wal to_ =>
    match wal[to_]? with
    | some info => if n.replayed ≤ to_ then { n with info := info, replayed := to_ } else n
    | none => n
  | .look => if n.reply = [] then { n with want := some n.info.leaderEpoch } else n
  | .reconcile refused =>
    match n.want with
    | some epoch =>
      if n.reply = [] ∧ ¬ n.reconciled then
        n.reconcile (if refused then none
          else some (epochEndOffset leader.info epoch leader.nextOffset))
      else n
    | none => n
  | .fetch count =>
    if n.reply = [] ∧ n.reconciled then
      { n with reply := leader.fetch n.nextOffset count }
    else n
  | .apply => n.apply
  | .disconnect => n.disconnect

-- ==== the runs

inductive Op (ι : Type) where
  | append (delta : ℕ) (data : List UInt8)
  /-- The leader fails and restarts with some of its batches. -/
  | restart (keep : ℕ) (epoch : ℤ)
  | promote (i : ι) (epoch : ℤ)
  | act (i : ι) (a : Act)

/-- The nodes, with every batch a leader wrote and every epoch that
began. -/
structure System (ι : Type) where
  nodes : ι → Node
  leader : ι
  wal : List Meta
  written : List Batch := []
  begun : List Entry

variable {ι : Type} [DecidableEq ι]

/-- The node that leads. -/
def System.leading (s : System ι) : Node := s.nodes s.leader

/-- The batch of an append, at the leader's log end under its epoch. -/
def System.nextBatch (s : System ι) (delta : ℕ) (data : List UInt8) : Batch :=
  ⟨s.leading.nextOffset, delta, s.leading.info.leaderEpoch, data⟩

/-- A partition as it is created. -/
def System.init (leader : ι) (epoch : ℤ) : System ι where
  nodes _ := { info := createPartition epoch }
  leader := leader
  wal := [createPartition epoch]
  begun := [⟨epoch, 0⟩]

/-- A follower whose leader is gone. A round that had not connected yet
goes on with what it read; rows that the next leader never had are
undone. -/
def Node.orphaned (n next : Node) : Node :=
  { n with
    want := if n.reconciled then none else n.want
    reconciled := false
    info := if next.replayed < n.replayed then next.info else n.info
    replayed := min n.replayed next.replayed }

/-- `raise_leader_epochs` on a node that begins to lead. -/
def Node.raise (n : Node) (epoch : ℤ) : Node :=
  { n with
    info := recordEpoch n.info epoch n.nextOffset
    replayed := n.replayed + 1
    want := none
    reconciled := false }

/-- A node leads under a new epoch, one above all there were (after a
promotion it is one of a later timeline). -/
def System.lead (s : System ι) (i : ι) (n : Node) (epoch : ℤ) : System ι :=
  if ∀ r ∈ s.begun, r.leaderEpoch < epoch then
    { s with
      nodes := update (fun j => (s.nodes j).orphaned n) i (n.raise epoch)
      leader := i
      wal := s.wal.take (n.replayed + 1) ++ [(n.raise epoch).info]
      begun := s.begun ++ [⟨epoch, n.nextOffset⟩] }
  else s

def System.step (s : System ι) : Op ι → System ι
  | .append delta data =>
    { s with
      nodes := update s.nodes s.leader (s.leading.push (s.nextBatch delta data))
      written := s.written ++ [s.nextBatch delta data] }
  | .restart keep epoch => s.lead s.leader (s.leading.crash keep) epoch
  | .promote i epoch => s.lead i (s.nodes i) epoch
  | .act i a =>
    -- the worker that follows is told of a promotion between fetches only
    if i = s.leader ∧ a ≠ .apply then s
    else { s with nodes := update s.nodes i ((s.nodes i).act s.leading s.wal a) }

-- ==== agreement

/-- Below a node's log end, each offset is held by the same batch in its
log and the leader's. -/
def System.Agrees (s : System ι) (i : ι) : Prop := ∀ o, o < (s.nodes i).nextOffset →
    Spans.holder Batch.baseOffset Batch.stop (s.nodes i).batches o =
      Spans.holder Batch.baseOffset Batch.stop s.leading.batches o

end Kafgres.Replication
