/-
The durability barrier of the broker worker (server/mod.rs,
server/dispatch.rs), with `kafgres.fsync_before_ack` on.

# The system

One worker serves all connections. A Produce request that appended marks
its partitions `unsynced` and its connection `awaiting_sync`; such a
connection is not flushed until a pass has synced every owed partition.
The worker's loop has a fixed order; the steps here can come in any.

# What is observed

A response is the list of the successes it reports; the ones other than
Produce's report nothing here. `sent` is what has been written to
sockets, `durable` each partition's log end when its last successful sync
began. The source has neither; they are what the statements are about.
-/
import Kafgres.Produce.Handle
import Mathlib.Data.Finset.Basic

namespace Kafgres.Broker

open Storage Produce

/-- A success that a response reports: a batch of the partition, at its
offset. -/
structure Ack where
  key : Key
  offset : ℤ
deriving DecidableEq

abbrev Reply := List Ack

-- ==== connections

/-- What of a connection orders and holds its responses. -/
structure Conn where
  nextSeq : ℕ := 0
  flushSeq : ℕ := 0
  /-- Completed responses behind an earlier one that is parked. -/
  ready : List (ℕ × Reply) := []
  outbuf : List Reply := []
  awaitingSync : Bool := false
  peerClosed : Bool := false
  saslFailures : ℕ := 0

namespace Conn

/-- The loop of `complete`: move what is next in order to `outbuf`. The
count bounds the rows of `ready`, and each round takes one. -/
def release : ℕ → Conn → Conn
  | 0, c => c
  | n + 1, c =>
    match c.ready.lookup c.flushSeq with
    | some b => release n { c with
        ready := c.ready.filter fun r => r.1 ≠ c.flushSeq
        outbuf := c.outbuf ++ [b]
        flushSeq := c.flushSeq + 1 }
    | none => c

def complete (c : Conn) (seq : ℕ) (b : Reply) : Conn :=
  let ready := (seq, b) :: c.ready.filter fun r => r.1 ≠ seq
  release ready.length { c with ready := ready }

/-- Write `n` responses, as many as the socket takes. -/
def flush (c : Conn) (n : ℕ) : Conn × List Reply :=
  ({ c with outbuf := c.outbuf.drop n }, c.outbuf.take n)

/-- Drain `outbuf` unless a durability barrier holds it. -/
def flushUnlessHeld (c : Conn) (n : ℕ) : Conn × List Reply :=
  if c.peerClosed then ({ c with outbuf := [] }, [])
  else if c.awaitingSync then (c, [])
  else c.flush n

end Conn

-- ==== server

structure Server where
  conns : ℕ → Option Conn
  nextId : ℕ
  /-- Partitions appended to whose bytes are not yet on the platter. -/
  unsynced : Finset Key
  world : World
  durable : Key → ℤ
  sent : List Ack

/-- `MAX_SASL_FAILURES`. -/
def maxSaslFailures : ℕ := 3

/-- The offset a batch is acknowledged at. -/
def batchOffset (w : World) (p : Pending) (i : ℕ) : Decision → ℤ
  | .plain | .append _ => w.offsetOf ⟨p.site, i⟩
  | .duplicate base => base
  | .duplicateOf j => w.offsetOf ⟨p.site, j⟩

/-- The batches of a partition, as a success acknowledges them. -/
def acked (w : World) (p : Pending) : Reply :=
  p.plan.zipIdx.map fun b => ⟨p.key, batchOffset w p b.2 b.1.2⟩

/-- What the response of a Produce request reports. `w` is the world
before it, `w'` after. -/
def reported (cat : Catalog) (req : Request) (w w' : World) (responses : Site → Response) : Reply :=
  (req.pendings cat w).flatMap fun p =>
    if (responses p.site).errorCode = none then acked w' p else []

/-- How a request is left: answered, not to be answered (`acks=0`), or
failed, which closes the connection. One that is parked does nothing
yet. -/
inductive Disposition where
  | reply (b : Reply)
  | noReply
  | failed

namespace Server

def setConn (s : Server) (id : ℕ) (c : Conn) : Server :=
  { s with conns := Function.update s.conns id (some c) }

/-- `drop_conn`. -/
def dropConn (s : Server) (id : ℕ) : Server :=
  { s with conns := Function.update s.conns id none }

/-- The connection after a write of some of its responses. -/
def wrote (s : Server) (id : ℕ) (r : Conn × List Reply) : Server :=
  { s.setConn id r.1 with sent := s.sent ++ r.2.flatten }

/-- The end of `serve_one` for a reply: a connection that failed
authentication too often is flushed and closed. -/
def replied (s : Server) (id : ℕ) (c : Conn) (seq : ℕ) (b : Reply) (n : ℕ) : Server :=
  let c := c.complete seq b
  if c.saslFailures ≥ maxSaslFailures then
    (s.wrote id (c.flush n)).dropConn id
  else s.setConn id c

/-- `serve_produce`, with what comes of the connection's barrier. A
request that fails rolls its transaction back. -/
def serveProduce (s : Server) (c : Conn) (env : Env) (cat : Catalog)
    (req : Request) : Server × Conn × Disposition :=
  let r := handle env cat req s.world
  match r.2 with
  | .ok out =>
    let held := out.appended ≠ []
    let s' := { s with
      world := r.1
      unsynced := if held then s.unsynced ∪ out.appended.toFinset
        else s.unsynced }
    let c := if held then { c with awaitingSync := true } else c
    (s', c, match out.response with
      | some responses => .reply (reported cat req s.world r.1 responses)
      | none => .noReply)
  | _ => ({ s with world := World.rollback s.world r.1 }, c, .failed)

/-- `sync_before_ack` and what the loop does on its answer: `ok` says
which partitions sync. -/
def syncBeforeAck (s : Server) (ok : Key → Bool) : Server :=
  let left := s.unsynced.filter fun k => ok k = false
  let durable := fun k =>
    if k ∈ s.unsynced ∧ ok k = true then s.world.next k else s.durable k
  if left = ∅ then
    { s with
      unsynced := left
      durable := durable
      conns := fun id => (s.conns id).map fun c =>
        { c with awaitingSync := false } }
  else { s with unsynced := left, durable := durable }

end Server

/-- A step of the worker. `n` is how many responses a flush gets out. -/
inductive Op where
  | accept
  /-- `flush_unless_held`, before a read, between two requests or at the
  end of a pass. -/
  | flush (id n : ℕ)
  /-- A Produce request. -/
  | produce (id n : ℕ) (env : Env) (cat : Catalog) (req : Request)
  /-- Any other request, answered; or any request at all, parked. -/
  | serve (id n : ℕ) (parks : Bool)
  /-- A Produce request parked behind a held table lock, tried again. -/
  | retry (id seq : ℕ) (env : Env) (cat : Catalog) (req : Request)
  /-- Another parked request is answered. -/
  | unpark (id seq : ℕ)
  /-- A SASL step is answered. -/
  | sasl (id n : ℕ) (fails : Bool)
  /-- A request before authentication: flush and close. -/
  | gate (id n : ℕ)
  | peerClosed (id : ℕ)
  | drop (id : ℕ)
  /-- The durability barrier of a pass. -/
  | sync (ok : Key → Bool)
  /-- An append of another process. -/
  | append (k : Key) (records : ℕ)

namespace Server

/-- A step of a connection; one that is gone takes none. -/
def onConn (s : Server) (id : ℕ) (f : Conn → Server) : Server :=
  match s.conns id with
  | some c => f c
  | none => s

/-- A new Produce request of the connection. -/
def newProduce (s : Server) (id n : ℕ) (c : Conn) (env : Env)
    (cat : Catalog) (req : Request) : Server :=
  match s.serveProduce { c with nextSeq := c.nextSeq + 1 } env cat req with
  | (s, c', .reply b) => s.replied id c' c.nextSeq b n
  | (s, c', .noReply) => s.setConn id (c'.complete c.nextSeq [])
  | (s, _, .failed) => s.dropConn id

/-- `retry_parked` of a Produce request. -/
def retryProduce (s : Server) (id seq : ℕ) (c : Conn) (env : Env)
    (cat : Catalog) (req : Request) : Server :=
  match s.serveProduce c env cat req with
  | (s, c', .reply b) => s.setConn id (c'.complete seq b)
  | (s, c', .noReply) => s.setConn id (c'.complete seq [])
  | (s, _, .failed) => s.dropConn id

/-- Any other request. -/
def serveOther (s : Server) (id n : ℕ) (c : Conn) (parks : Bool) : Server :=
  let c' := { c with nextSeq := c.nextSeq + 1 }
  if parks then s.setConn id c' else s.replied id c' c.nextSeq [] n

/-- `serve_sasl_handshake`, `serve_sasl_authenticate`. -/
def serveSasl (s : Server) (id n : ℕ) (c : Conn) (fails : Bool) : Server :=
  let failures := if fails then c.saslFailures + 1 else c.saslFailures
  let c' := { c with nextSeq := c.nextSeq + 1, saslFailures := failures }
  s.replied id c' c.nextSeq [] n

def step (s : Server) : Op → Server
  | .accept => { s.setConn s.nextId {} with nextId := s.nextId + 1 }
  | .flush id n => s.onConn id fun c => s.wrote id (c.flushUnlessHeld n)
  | .produce id n env cat req =>
    s.onConn id fun c => s.newProduce id n c env cat req
  | .serve id n parks => s.onConn id fun c => s.serveOther id n c parks
  | .retry id seq env cat req =>
    s.onConn id fun c => s.retryProduce id seq c env cat req
  | .unpark id seq => s.onConn id fun c => s.setConn id (c.complete seq [])
  | .sasl id n fails => s.onConn id fun c => s.serveSasl id n c fails
  | .gate id n =>
    s.onConn id fun c => (s.wrote id (c.flush n)).dropConn id
  | .peerClosed id =>
    s.onConn id fun c => s.setConn id { c with peerClosed := true }
  | .drop id => s.dropConn id
  | .sync ok => s.syncBeforeAck ok
  | .append k records =>
    { s with world := { s.world with
        next := Function.update s.world.next k (s.world.next k + records) } }

end Server

end Kafgres.Broker
