/-
`0 Produce` over a whole request (handlers/produce.rs): plan every
partition, then write them under one savepoint, and again one by one if
that was abandoned.

The request comes with its topics looked up. The checks in front of
planning (ACLs, the partition range of a transactional produce, the size
limit, null keys on a compacted topic) read only; they are the entry's
`gate`.
-/
import Kafgres.Produce.Write

namespace Kafgres.Produce

open Storage Codec Fallible

-- ==== request

/-- One partition of a topic in the request. -/
structure PartitionData where
  index : Int32
  /-- The code of the first check that refuses the entry. -/
  gate : Option ErrorCode
  /-- Length of the `records` field. -/
  size : ℕ
  /-- `BatchIter` over `records`; none for a null or empty field. -/
  records : List (Except BatchError View)

/-- A topic of the request, by the name it was asked for and the id that
resolved to. -/
structure TopicData where
  name : String
  topic : Option { id : UInt32 // id ≠ 0 }
  partitions : List PartitionData

structure Request where
  topics : List TopicData
  /-- `acks=0`: the client reads no reply. -/
  acksNone : Bool

/-- What the request reads of the catalog. -/
structure Catalog where
  /-- The name a topic is stored under. -/
  nameOf : UInt32 → String
  epochStart : Key → ℤ
  verify : Key → ℤ → ℤ → ProduceTxn
  logStart : Key → ℤ

/-- A partition entry with where it stands in the request. -/
structure Entry where
  site : Site
  name : String
  key : Option Key
  data : PartitionData

/-- The entries in request order. A resolved topic goes by its stored
name, whatever it was asked for as. -/
def Request.entries (cat : Catalog) (req : Request) : List Entry :=
  req.topics.zipIdx.flatMap fun (t, ti) =>
    t.partitions.zipIdx.map fun (pd, pi) =>
      { site := (ti, pi)
        name := (t.topic.map fun id => cat.nameOf id.1).getD t.name
        key := t.topic.map fun id => ⟨id.1, pd.index, id.2⟩
        data := pd }

/-- The two entries are for one partition. -/
def Entry.repeats (e d : Entry) : Bool := d.name = e.name && d.data.index = e.data.index

/-- The entry that decides: a repeated partition is decided by its last
one. -/
def decider (entries : List Entry) (e : Entry) : Site :=
  match entries.reverse.find? e.repeats with
  | some d => d.site
  | none => e.site

/-- The entry's batches, decided against the windows as they are. -/
def Entry.plan (cat : Catalog) (w : World) (e : Entry) (k : Key) : Except AppendError Plan :=
  planPartition ⟨w.windows k, cat.epochStart k, cat.verify k⟩ e.data.records

/-- The entry as a partition to write, if it got that far and decides its
partition. -/
def Entry.pending (cat : Catalog) (entries : List Entry) (w : World) (e : Entry) : Option Pending :=
  match e.data.gate, e.key with
  | none, some k =>
    match e.plan cat w k with
    | .ok plan =>
      if decider entries e = e.site then
        some ⟨e.site, k, e.data.index, e.data.size, plan⟩
      else none
    | .error _ => none
  | _, _ => none

/-- The partitions the request writes, in request order. -/
def Request.pendings (cat : Catalog) (req : Request) (w : World) : List Pending :=
  (req.entries cat).filterMap fun e => e.pending cat (req.entries cat) w

-- ==== responses

/-- `PartitionProduceResponse`; no code is success. -/
structure Response where
  index : Int32 := 0
  errorCode : Option ErrorCode := none
  baseOffset : ℤ := 0
  logStartOffset : ℤ := -1

def failed (index : Int32) (code : ErrorCode) : Response := ⟨index, some code, -1, -1⟩

/-- The response an entry has after planning; phase 3 fills in that of a
planned one. -/
def Entry.planned (cat : Catalog) (w : World) (e : Entry) : Response :=
  match e.data.gate, e.key with
  | some code, _ => failed e.data.index code
  | none, none => failed e.data.index .unknownTopicOrPartition
  | none, some k =>
    match e.plan cat w k with
    | .ok _ => {}
    | .error .staleProducerState =>
      { failed e.data.index AppendError.staleProducerState.errorCode with
        logStartOffset := cat.logStart k }
    | .error err => failed e.data.index err.errorCode

/-- The responses so far, the partitions appended to and their bytes. -/
structure Answers where
  responses : Site → Response
  appended : List Key := []
  bytes : ℕ := 0

structure Outcome where
  response : Option (Site → Response)
  appended : List Key
  bytes : ℕ

/-- Why a pass over the request ended without an outcome. -/
inductive Abandon where
  | partitionFailed
  | fatal (message : String)

/-- `log_start_offset(..).unwrap_or(0)`. -/
def logStartOr0 (env : Env) (cat : Catalog) (n : Try) (p : Pending) : Prog World Abandon ℤ := do
  match ← Prog.attempt (Prog.call (env.logStartOffset n p.site) fun e => e) with
  | .ok () => return cat.logStart p.key
  | .error _ => return 0

/-- The response of a written partition. -/
def finish (env : Env) (cat : Catalog) (n : Try) (p : Pending)
    (outcome : Except AppendError Appended) (ans : Answers) : Prog World Abandon Answers :=
  match outcome with
  | .ok done => do
      let start ← logStartOr0 env cat n p
      return {
        responses := Function.update ans.responses p.site ⟨p.index, none, done.baseOffset, start⟩
        appended := if done.wrote then ans.appended ++ [p.key]
          else ans.appended
        bytes := if done.wrote then ans.bytes + p.size else ans.bytes }
  | .error .staleProducerState => do
      let start ← logStartOr0 env cat n p
      return { ans with
        responses := Function.update ans.responses p.site
          { failed p.index AppendError.staleProducerState.errorCode with
            logStartOffset := start } }
  | .error e => return { ans with
        responses := Function.update ans.responses p.site (failed p.index e.errorCode) }

-- ==== passes

/-- Phase 2 for every partition, in one transaction. -/
def reserveAll (env : Env) : List Pending → List ℤ → Prog World Abandon Unit
  | [], _ => return ()
  | p :: rest, begun => do
      match ← Prog.attempt (reservePartition env .shared p begun) with
      | .error _ => Prog.fail .partitionFailed
      | .ok begun => reserveAll env rest begun

/-- Phase 3 for every partition. -/
def writeAll (env : Env) (cat : Catalog) : List Pending → Answers → Prog World Abandon Answers
  | [], ans => return ans
  | p :: rest, ans => do
      let outcome ← Prog.attempt (writePartition env .shared p)
      let ans ← finish env cat .shared p outcome ans
      writeAll env cat rest ans

/-- Reserve and write one partition in its own savepoint. Phase 3 answers
inside `Ok`: a storage error must not roll back over what landed. -/
def attemptPartition (env : Env) (n : Try) (p : Pending) : Action Appended := do
  match ← Prog.atomically World.rollback .aborted (do
      let _ ← reservePartition env n p []
      Prog.attempt (writePartition env n p)) with
  | .ok done => return done
  | .error e => Prog.fail e

/-- One partition on its own, tried again if it was aborted with batches
already in the log: they have to be recorded. -/
def tryPartition (env : Env) (p : Pending) : Prog World Abandon (Except AppendError Appended) := do
  let outcome ← Prog.attempt (attemptPartition env .first p)
  let landed ← Prog.read fun w => w.anyLanded p.site
  if outcome = .error .aborted ∧ landed then
    Prog.attempt (attemptPartition env .second p)
  else return outcome

def tryAll (env : Env) (cat : Catalog) : List Pending → Answers → Prog World Abandon Answers
  | [], ans => return ans
  | p :: rest, ans => do
      let outcome ← tryPartition env p
      let ans ← finish env cat .first p outcome ans
      tryAll env cat rest ans

inductive Isolation where
  | shared
  | perPartition
deriving DecidableEq

/-- An echo answers as the entry that decides its partition. -/
def echoed (entries : List Entry) (responses : Site → Response) : Site → Response := fun site =>
  match entries.find? fun e => e.site = site with
  | some e => responses (decider entries e)
  | none => responses site

/-- One pass over the request. -/
def build (env : Env) (cat : Catalog) (req : Request)
    (isolation : Isolation) : Prog World Abandon Outcome := do
  let entries := req.entries cat
  let w ← Prog.read id
  let pending := req.pendings cat w
  let start : Answers :=
    { responses := fun site =>
        match entries.find? fun e => e.site = site with
        | some e => e.planned cat w
        | none => {} }
  let ans ← match isolation with
    | .shared => do
        reserveAll env pending []
        writeAll env cat pending start
    | .perPartition => tryAll env cat pending start
  return {
    response := if req.acksNone then none
      else some (echoed entries ans.responses)
    appended := ans.appended
    bytes := ans.bytes }

/-- The passes of `handle`: one savepoint for the whole request; if that
is abandoned, again with one for each partition. -/
def passes (env : Env) (cat : Catalog) (req : Request) : Prog World String Outcome := do
  match ← Prog.attempt (Prog.atomically World.rollback .partitionFailed
      (build env cat req .shared)) with
  | .ok outcome => return outcome
  | .error (.fatal message) => Prog.fail message
  | .error .partitionFailed =>
    match ← Prog.attempt (build env cat req .perPartition) with
    | .ok outcome => return outcome
    | .error (.fatal message) => Prog.fail message
    | .error .partitionFailed => Prog.fail "produce isolation escaped"

/-- `LANDED` starts empty, as does the list of this request's appends. -/
def World.cleared (w : World) : World := { w with log := [], landed := [] }

/-- `0 Produce`. -/
def handle (env : Env) (cat : Catalog) (req : Request) : Prog World String Outcome := do
  Prog.call env.prelude id
  Prog.update World.cleared
  passes env cat req

end Kafgres.Produce
