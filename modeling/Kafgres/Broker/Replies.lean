/-
The order of a connection's responses (server/mod.rs: `serve_one`,
`park_retry`, `retry_parked`, `complete_parked`).

What a handler answers, the clock, the locks and what wakes a parked
request are the environment's: `Result` is how a dispatch ends, `Swept`
what `complete_parked` makes of an entry. `out` is all that was ever
appended to the connection's output, and `answers` what each request was
given, recorded before it is queued; the source keeps neither.
Connections that speak raw SASL answer past the queue and are left out.
-/
import Kafgres.Lib.Reorder

namespace Kafgres.Replies

open Reorder

abbrev Response := List UInt8

structure Conn where
  queue : Queue Response := {}
  /-- A request is parked behind a held lock; later ones wait. -/
  retrying : Bool := false
  answers : List (ℕ × Response) := []

/-- A request that waits: behind a lock, or for data or a group. -/
structure Parked where
  connId : ℕ
  seq : ℕ
  retry : Bool

structure Server where
  conns : ℕ → Option Conn := fun _ => none
  nextId : ℕ := 0
  parked : List Parked := []

/-- `MAX_PARKED`. -/
def maxParked : ℕ := 4096

/-- A request is given its response, nothing if it has none. -/
def Conn.record (c : Conn) (seq : ℕ) (b : Response) : Conn :=
  { c with answers := c.answers ++ [(seq, b)] }

def Conn.complete (c : Conn) (seq : ℕ) (b : Response) : Conn :=
  { c with queue := c.queue.complete seq b }

/-- How a dispatch ends. -/
inductive Result where
  | reply (b : Response)
  | noReply
  | parked
  | busy
  | failed

/-- What `retry_parked` meets: entries past their deadline, whether the
locks are held, how each dispatch ends. -/
structure Retrying where
  expired : Parked → Bool
  locksHeld : Bool
  dispatch : Parked → Result

/-- What `complete_parked` makes of an entry. -/
inductive Swept where
  | stays
  | answers (b : Response)
  | fails

namespace Server

def setConn (s : Server) (id : ℕ) (c : Conn) : Server :=
  { s with conns := Function.update s.conns id (some c) }

def dropConn (s : Server) (id : ℕ) : Server :=
  { s with
    conns := Function.update s.conns id none
    parked := s.parked.filter fun p => p.connId ≠ id }

def park (s : Server) (p : Parked) : Server :=
  { s with parked := s.parked ++ [p] }

/-- `serve_one` on a frame that parses. A connection whose request is
being retried is not served. -/
def serveOne (s : Server) (id : ℕ) (r : Result) : Server :=
  match s.conns id with
  | none => s
  | some c =>
    if c.retrying then s
    else
      let seq := c.queue.next
      let c := { c with queue := { c.queue with next := seq + 1 } }
      match r with
      | .reply b => s.setConn id ((c.record seq b).complete seq b)
      | .noReply => s.setConn id ((c.record seq []).complete seq [])
      | .parked => (s.setConn id c).park ⟨id, seq, false⟩
      | .busy =>
        if s.parked.length ≥ maxParked then (s.setConn id c).dropConn id
        else (s.setConn id { c with retrying := true }).park ⟨id, seq, true⟩
      | .failed => (s.setConn id c).dropConn id

/-- A round of the loop of `retry_parked`, with the entries that go on
waiting and whether the locks are held. -/
def retryOne (env : Retrying) (st : Server × List Parked × Bool)
    (p : Parked) : Server × List Parked × Bool :=
  let s := st.1
  match s.conns p.connId with
  | none => st
  | some c =>
    if st.2.2 ∧ ¬ env.expired p then (s, st.2.1 ++ [p], st.2.2)
    else
      let c := { c with retrying := false }
      match env.dispatch p with
      | .busy =>
        if env.expired p then (s.dropConn p.connId, st.2.1, st.2.2)
        else (s, st.2.1 ++ [p], true)
      | .failed => (s.dropConn p.connId, st.2.1, st.2.2)
      | .parked => ((s.setConn p.connId c).park { p with retry := false }, st.2.1, st.2.2)
      | .reply b =>
        (s.setConn p.connId ((c.record p.seq b).complete p.seq b), st.2.1, st.2.2)
      | .noReply =>
        (s.setConn p.connId ((c.record p.seq []).complete p.seq []), st.2.1, st.2.2)

def retryParked (s : Server) (env : Retrying) : Server :=
  let r := (s.parked.filter (·.retry)).foldl (retryOne env)
    ({ s with parked := s.parked.filter (!·.retry) }, [], env.locksHeld)
  { r.1 with parked := r.1.parked ++ r.2.1 }

def completeOne (env : Parked → Swept) (st : Server × List Parked)
    (p : Parked) : Server × List Parked :=
  match st.1.conns p.connId with
  | none => st
  | some c =>
    if p.retry then (st.1, st.2 ++ [p])
    else match env p with
    | .stays => (st.1, st.2 ++ [p])
    | .answers b => (st.1.setConn p.connId ((c.record p.seq b).complete p.seq b), st.2)
    | .fails => (st.1.dropConn p.connId, st.2)

def completeParked (s : Server) (env : Parked → Swept) : Server :=
  let r := s.parked.foldl (completeOne env) ({ s with parked := [] }, [])
  { r.1 with parked := r.2 }

end Server

inductive Op where
  | accept
  | serve (id : ℕ) (r : Result)
  | retry (env : Retrying)
  | sweep (env : Parked → Swept)
  /-- The peer is gone, or sent what closes a connection. -/
  | drop (id : ℕ)

def Server.step (s : Server) : Op → Server
  | .accept =>
    { s.setConn (s.nextId + 1) {} with nextId := s.nextId + 1 }
  | .serve id r => s.serveOne id r
  | .retry env => s.retryParked env
  | .sweep env => s.completeParked env
  | .drop id => s.dropConn id

-- ==== the order

/-- Every request is given a response at most once, and the output is
those of the first requests, up to the first that has none yet. -/
def Conn.InOrder (c : Conn) : Prop := (c.answers.map (·.1)).Nodup ∧
  ∃ k, (∀ n < k, n ∈ c.answers.map (·.1)) ∧ k ∉ c.answers.map (·.1) ∧
    c.queue.out = (List.range k).filterMap (List.lookup · c.answers)

end Kafgres.Replies
