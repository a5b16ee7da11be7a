/-
One drain of the slot: render, produce, sync, record, advance (cdc.rs).

# Steps and the world

Everything a drain does outside its memory is a step with an outcome of
its own, which a `World` gives it. A process that dies is a world in
which every later step fails.

# What lasts

The recorded positions, the slot, and the journal: what became of which
change on which lane, in the order it happened. A step that fails is
rolled back, but what it has appended to segment files stays.

# Runs

A lane collects changes of one shape into a run. `ends` cuts the run's
body at the transactions; bodies are lists of elements here, so a cut is
a count and the bytes are computed.
-/
import Kafgres.Cdc.Stream

namespace Kafgres.Cdc

variable {n : ℕ}

-- ==== the renderer

/-- What becomes of one append. -/
inductive Append where
  | appended
  | refused
  /-- A Postgres `ERROR`, which unwinds out of the step. -/
  | raised
deriving DecidableEq

/-- How one step comes out. The renderer's fields are read by a render
step only: whether the topic is there, whether the query over the whole
run succeeds, and that over one change, whether the records rendered one
by one stay within `MAX_DRAIN_BYTES`, and each append. -/
structure Outcome where
  ok : Bool := true
  topic : Bool := true
  batch : Bool := true
  one : Pos → Bool := fun _ => true
  fits : Bool := true
  append : ℕ → Append := fun _ => .appended
  /-- The slot moves, even if the step fails after it. -/
  advances : Bool := true

/-- The outcomes of a drain's steps, in the order it takes them. -/
abbrev World := ℕ → Outcome

/-- A change in a run's body, as its text's length. -/
structure Element where
  pos : Pos
  len : ℕ

/-- What a change renders to: a record, nothing if the filter leaves it
out, or an error. -/
inductive Rendered where
  | record
  | nothing
  | failed
deriving DecidableEq

def Rendered.ofFilter (keeps : Bool) : Rendered :=
  if keeps then .record else .nothing

/-- `render_phase`, with `failed` for what it dead-letters. -/
def renderPhase (keeps : Pos → Bool) (onError : OnError) (o : Outcome) (es : List Element) :
    Option (List (Element × Rendered)) :=
  if o.topic then
    if o.batch then some (es.map fun e => (e, .ofFilter (keeps e.pos)))
    else if onError = .stall then none
    -- one at a time, to divert only the offender
    else if o.fits then
      some (es.map fun e => (e, if o.one e.pos then .ofFilter (keeps e.pos) else .failed))
    else none
  else if onError = .stall then none
  else some (es.map fun e => (e, .failed))

/-- What a step left behind of a change: a record in the log, a dead
letter, nothing because the filter left it out; or, in a step that was
rolled back, nothing for either reason. -/
inductive Verdict where
  | produced
  | dead
  | passed
  | tried
deriving DecidableEq

/-- What is to become of a change by its mapping's filter. -/
def Verdict.ofFilter (keeps : Bool) : Verdict := if keeps then .produced else .passed

/-- How many of the records are appended before one is not, and what
happened to that one. -/
def appendAll (o : Outcome) : ℕ → List Element → ℕ × Append
  | k, [] => (k, .appended)
  | k, _ :: es =>
    match o.append k with
    | .appended => appendAll o (k + 1) es
    | .refused => (k, .refused)
    | .raised => (k, .raised)

/-- The changes without a record, when the step commits. -/
def Rendered.settled : Element × Rendered → Option (Verdict × Pos)
  | (_, .record) => none
  | (e, .nothing) => some (.passed, e.pos)
  | (e, .failed) => some (.dead, e.pos)

/-- The same when it is rolled back. -/
def Rendered.undone : Element × Rendered → Option (Verdict × Pos)
  | (_, .record) => none
  | (e, .nothing) | (e, .failed) => some (.tried, e.pos)

def Rendered.records (rs : List (Element × Rendered)) : List Element :=
  rs.filterMap fun r => if r.2 = .record then some r.1 else none

/-- `render_and_produce` as a step: what it leaves behind, and how many
records it appended, or `none` if it failed. -/
def renderAndProduce (engine : Engine) (keeps : Pos → Bool) (onError : OnError) (o : Outcome)
    (es : List Element) : List (Verdict × Pos) × Option ℕ :=
  match renderPhase keeps onError o es with
  | none => ([], none)
  | some rendered =>
    let records := Rendered.records rendered
    let (k, last) := appendAll o 0 records
    let appended := (records.take k).map fun e => (Verdict.produced, e.pos)
    if o.ok = true ∧ last = .appended then
      (rendered.filterMap Rendered.settled ++ appended, some k)
    -- a batch appended in part is dead-lettered, not replayed
    else if o.ok = true ∧ last = .refused ∧ 0 < k then
      (rendered.filterMap Rendered.settled ++ appended ++ es.map (fun e => (.dead, e.pos)), some k)
    else match engine with
      | .table => ([], none)
      | .segment => (rendered.filterMap Rendered.undone ++ appended, none)

-- ==== the lanes

/-- The end of a transaction in a run: its last position, the slot
position that keeps it, and the elements of the body up to it. -/
structure End where
  last : Pos
  hold : Option ℕ
  count : ℕ

structure Run where
  cols : String
  body : List Element
  hold : Option ℕ
  last : Pos
  ends : List End

/-- `body.len()`: each element after a bracket or a comma. -/
def Run.bytes (r : Run) : ℕ := (r.body.map fun e => e.len + 1).sum

/-- Why a lane stopped. -/
inductive Why where
  | unreadableShape
  | failed
  | waitsFor (name : String)

structure Lane where
  mapping : Mapping
  delivered : Option Pos
  moved : Bool := false
  run : Option Run := none
  /-- Where the slot must stay for this mapping; `none` is where it is. -/
  stopped : Option (Option ℕ × Why) := none

/-- What became of a change on a lane. -/
structure Entry (n : ℕ) where
  lane : Fin n
  verdict : Verdict
  pos : Pos

/-- A drain under way. `dirty`: something appended is not synced. `clock`
counts the steps taken; `saved` and `journal` are what lasts. -/
structure Drain (n : ℕ) where
  lanes : Fin n → Lane
  buffered : ℕ := 0
  dirty : Bool := false
  produced : ℕ := 0
  streaming : Bool := true
  clock : ℕ := 0
  saved : Fin n → Option Pos
  journal : List (Entry n)

/-- `Failed`. -/
inductive Failed where
  | render
  | persist
deriving DecidableEq

namespace Drain

def setLane (d : Drain n) (lane : Fin n) (l : Lane) : Drain n :=
  { d with lanes := Function.update d.lanes lane l }

def stop (d : Drain n) (lane : Fin n) (hold : Option ℕ) (why : Why) : Drain n :=
  d.setLane lane { d.lanes lane with stopped := some (hold, why) }

def deliver (d : Drain n) (lane : Fin n) (last : Pos) (moved : Bool) : Drain n :=
  d.setLane lane { d.lanes lane with delivered := some last, moved }

/-- `sync_all`: a step only if there is something to sync. -/
def syncAll (w : World) (d : Drain n) (dirty : Bool) : Drain n × Bool :=
  if dirty then ({ d with clock := d.clock + 1 }, (w d.clock).ok)
  else (d, true)

/-- `save_positions` of one lane. -/
def savePosition (w : World) (d : Drain n) (lane : Fin n) (last : Pos) : Drain n × Bool :=
  if (w d.clock).ok then
    ({ d with
        clock := d.clock + 1
        saved := Function.update d.saved lane (some last) }, true)
  else ({ d with clock := d.clock + 1 }, false)

def persist (w : World) (d : Drain n) (lane : Fin n) (last : Pos) (dirty : Bool) : Drain n × Bool :=
  let s := d.syncAll w dirty
  if s.2 then s.1.savePosition w lane last else (s.1, false)

/-- The render step of `produce`. -/
def render (cfg : Config n) (w : World) (d : Drain n) (lane : Fin n)
    (es : List Element) : Drain n × Option ℕ :=
  let r := renderAndProduce cfg.engine (cfg.keeps lane) (d.lanes lane).mapping.onError
    (w d.clock) es
  ({ d with
      clock := d.clock + 1
      produced := d.produced + r.2.getD 0
      journal := d.journal ++ r.1.map fun v => ⟨lane, v.1, v.2⟩ }, r.2)

/-- `produce`: on success `last` is the lane's delivered position. -/
def produce (cfg : Config n) (w : World) (d : Drain n) (lane : Fin n)
    (es : List Element) (last : Pos) : Drain n × Option Failed :=
  let r := d.render cfg w lane es
  match r.2 with
  | none => (r.1, some .render)
  | some k =>
    let dirty := decide (0 < k)
    if d.streaming then
      let p := r.1.persist w lane last dirty
      if p.2 then (p.1.deliver lane last false, none)
      else ({ p.1 with dirty := p.1.dirty || dirty }, some .persist)
    else
      (({ r.1 with dirty := r.1.dirty || dirty }).deliver lane last true, none)

end Drain

/-- `deliverable`: the last transaction that ended at or before a hold. -/
def deliverable (ends : List End) (hold : Option ℕ) : Option End :=
  (ends.takeWhile fun e => hold.any fun h => e.last.endLsn ≤ h).getLast?

/-- A run's transactions from a count on. -/
def segments (body : List Element) : ℕ → List End → List (Option ℕ × Pos × List Element)
  | _, [] => []
  | start, e :: ends =>
    (e.hold, e.last, (body.take e.count).drop start) :: segments body e.count ends

/-- `transactions`. -/
def transactions (r : Run) : List (Option ℕ × Pos × List Element) := segments r.body 0 r.ends

/-- `advance_target`. -/
def advanceTarget (high : Option ℕ) (holds : List (Option ℕ)) : Option ℕ :=
  if holds = [] then high
  else holds.foldl (fun acc h => acc.bind fun a => h.map (min a)) (some (2 ^ 64 - 1))

namespace Drain

/-- The retry of a run one transaction at a time: where the slot is to
be held if that fails. -/
def retry (cfg : Config n) (w : World) (lane : Fin n) :
    Drain n → Option (Option ℕ) → List (Option ℕ × Pos × List Element) → Drain n × Option (Option ℕ)
  | d, failed, [] => (d, failed)
  | d, _, (hold, last, es) :: rest =>
    let p := d.produce cfg w lane es last
    match p.2 with
    | none => retry cfg w lane p.1 none rest
    | some _ => (p.1, some hold)

/-- A run produced, or retried if rendering it failed. -/
def attempt (cfg : Config n) (w : World) (d : Drain n) (lane : Fin n)
    (r : Run) : Drain n × Option (Option ℕ) :=
  let p := d.produce cfg w lane r.body r.last
  match p.2 with
  | none => (p.1, none)
  | some .render =>
    if (d.lanes lane).mapping.onError = .stall ∧ 1 < r.ends.length then
      retry cfg w lane p.1 (some r.hold) (transactions r)
    else (p.1, some r.hold)
  | some .persist => (p.1, some r.hold)

end Drain

/-- A summary run up to a hold. -/
def Run.cut (r : Run) (hold : Option ℕ) : Option Run := (deliverable r.ends hold).map fun e =>
    { r with
      body := r.body.take e.count
      ends := r.ends.filter fun e' => e'.last.endLsn ≤ e.last.endLsn
      last := e.last }

namespace Drain

def takeRun (d : Drain n) (lane : Fin n) (run : Run) : Drain n :=
  { d.setLane lane { d.lanes lane with run := none } with
    buffered := d.buffered - run.bytes }

/-- `flush` past `changes_first`; `held` is what that found. -/
def flushRun (cfg : Config n) (w : World) (d : Drain n) (lane : Fin n)
    (held : Option (Option ℕ × Why)) : Drain n :=
  match (d.lanes lane).run with
  | none => d
  | some run =>
    let d := d.takeRun lane run
    match held.elim (some run) fun h => run.cut h.1 with
    | none => d.stop lane run.hold (held.elim .failed (·.2))
    | some run =>
      if cfg.readable run.cols then
        let a := d.attempt cfg w lane run
        match a.2, held with
        | some hold, _ => a.1.stop lane hold .failed
        | none, some h => a.1.stop lane h.1 h.2
        | none, none => a.1
      else d.stop lane run.hold .unreadableShape

/-- `changes_first`: the table lanes first, then where the earliest
stopped one holds the slot. -/
def changesFirst (cfg : Config n) (w : World) (d : Drain n) : Drain n × Option (Option ℕ × Why) :=
  let d := cfg.tableLanes.foldl (fun d lane => d.flushRun cfg w lane none) d
  let blockers := cfg.tableLanes.filterMap fun i =>
    (d.lanes i).stopped.map fun s => (s.1, (cfg.mapping i).name)
  (d, blockers.head?.map fun first =>
    (advanceTarget none (blockers.map (·.1)), .waitsFor first.2))

/-- `flush`. -/
def flush (cfg : Config n) (w : World) (d : Drain n) (lane : Fin n) : Drain n :=
  if (cfg.mapping lane).summary then
    let c := d.changesFirst cfg w
    c.1.flushRun cfg w lane c.2
  else d.flushRun cfg w lane none

def runBytes (d : Drain n) (lane : Fin n) : ℕ := (d.lanes lane).run.elim 0 Run.bytes

/-- The lane with the most bytes, the last of several. -/
def largest (d : Drain n) (lane : Fin n) : Fin n := (List.finRange n).foldl
    (fun best i => if d.runBytes best ≤ d.runBytes i then i else best)
    ((List.finRange n).head?.getD lane)

/-- The loop of `offer` that makes room: each turn flushes a run, so
there are at most as many turns as lanes. -/
def makeRoom (cfg : Config n) (w : World) (lane : Fin n) (len : ℕ) : ℕ → Drain n → Drain n
  | 0, d => d
  | turns + 1, d =>
    if 0 < d.buffered ∧ cfg.chunkBytes < d.buffered + len + 2 then
      match (d.lanes (d.largest lane)).run with
      | none => d
      | some _ =>
        makeRoom cfg w lane len turns (d.flush cfg w (d.largest lane))
    else d

end Drain

/-- A run with one more element. -/
def Run.push (r : Run) (pos : Pos) (hold : Option ℕ) (len : ℕ) : Run :=
  let body := r.body ++ [⟨pos, len⟩]
  { r with
    body
    last := pos
    ends := match r.ends.getLast? with
      | some e =>
        if e.last.endLsn = pos.endLsn then
          r.ends.dropLast ++ [⟨pos, e.hold, body.length⟩]
        else r.ends ++ [⟨pos, hold, body.length⟩]
      | none => r.ends ++ [⟨pos, hold, body.length⟩] }

namespace Drain

/-- The end of `offer`: the element joins the lane's run. -/
def join (d : Drain n) (o : Offer n) : Drain n :=
  let run := (d.lanes o.lane).run.getD ⟨o.cols, [], o.hold, o.pos, []⟩
  { d.setLane o.lane { d.lanes o.lane with
      run := some (run.push o.pos o.hold o.len) } with
    buffered := d.buffered + o.len + 1 }

/-- `offer`. -/
def offer (cfg : Config n) (w : World) (d : Drain n) (o : Offer n) : Drain n :=
  let l := d.lanes o.lane
  if l.stopped.isSome ∨ l.delivered.any (fun p => o.pos ≤ p) then d
  else
    -- a shape change closes the run for good
    let d := if l.run.any (fun r => r.cols ≠ o.cols) then
      d.flush cfg w o.lane else d
    let d := d.makeRoom cfg w o.lane o.len n
    if (d.lanes o.lane).stopped.isSome then d else d.join o

/-- The end of `stream`: what is still buffered, tables first. -/
def finish (cfg : Config n) (w : World) (d : Drain n) : Drain n :=
  let d := cfg.tableLanes.foldl (fun d lane => d.flush cfg w lane)
    { d with streaming := false }
  cfg.summaryLanes.foldl (fun d lane => d.flush cfg w lane) d

/-- `stream` over the rows peeked; `broken` is how many were read when a
fetch failed, if one did. The second part is `None` after an error. -/
def stream (cfg : Config n) (w : World) (d : Drain n) (rows : List Row)
    (broken : Option ℕ) : Drain n × Option (Option ℕ) :=
  let read := readRows cfg {} (broken.elim rows rows.take)
  let d := read.1.foldl (fun d o => d.offer cfg w o) d
  match broken, read.2 with
  | none, .ok r => (d.finish cfg w, some r.high)
  | _, _ => (d, none)

def moved (d : Drain n) : List (Fin n) := (List.finRange n).filter fun i => (d.lanes i).moved

/-- `save_positions` of the lanes that moved; no step if none did. -/
def saveMoved (w : World) (d : Drain n) : Drain n × Bool :=
  if d.moved = [] then (d, true)
  else if (w d.clock).ok then
    ({ d with
        clock := d.clock + 1
        saved := fun i =>
          if (d.lanes i).moved then (d.lanes i).delivered <|> d.saved i
          else d.saved i }, true)
  else ({ d with clock := d.clock + 1 }, false)

def holds (d : Drain n) : List (Option ℕ) :=
  (List.finRange n).filterMap fun i => (d.lanes i).stopped.map (·.1)

end Drain

-- ==== drains

/-- What lasts between drains. -/
structure System (n : ℕ) where
  slot : ℕ := 0
  saved : Fin n → Option Pos := fun _ => none
  journal : List (Entry n) := []

/-- One drain: how many transactions it peeks, whether a fetch fails, and
its world. -/
structure Drainage where
  peek : ℕ
  broken : Option ℕ := none
  world : World

/-- The lanes as a drain starts with them. -/
def System.load (cfg : Config n) (s : System n) : Drain n where
  lanes := fun i => { mapping := cfg.mapping i, delivered := s.saved i }
  clock := 1
  saved := s.saved
  journal := s.journal

/-- `drain_locked` past `stream`: sync, record, advance. -/
def Drain.conclude (w : World) (d : Drain n) (slot high : ℕ) : System n :=
  let s := d.syncAll w d.dirty
  if s.2 then
    let m := s.1.saveMoved w
    if m.2 then
      { slot := match advanceTarget (some high) d.holds with
          -- an advance to behind the slot is refused
          | some target =>
            if (w m.1.clock).advances = true ∧ slot ≤ target then target
            else slot
          | none => slot
        saved := m.1.saved
        journal := m.1.journal }
    else ⟨slot, m.1.saved, m.1.journal⟩
  else ⟨slot, s.1.saved, s.1.journal⟩

/-- `drain_locked`, each step committed: in the worker, or by a SQL call
whose transaction commits. -/
def System.drain (cfg : Config n) (st : Stream) (s : System n) (a : Drainage) : System n :=
  if (a.world 0).ok then
    let r := (s.load cfg).stream cfg a.world ((st.peek s.slot a.peek).flatMap Tx.rows) a.broken
    -- the cursor is closed in a step of its own
    let d := { r.1 with clock := r.1.clock + 1 }
    match r.2, (a.world r.1.clock).ok with
    | some (some high), true => d.conclude a.world s.slot high
    | _, _ => ⟨s.slot, d.saved, d.journal⟩
  else s

/-- A drain by `kafgres_cdc_drain()` whose transaction does not commit:
the slot has moved, the tables have not. -/
def System.rolledBackDrain (cfg : Config n) (st : Stream) (s : System n)
    (a : Drainage) : System n :=
  let s' := s.drain cfg st a
  { slot := s'.slot
    saved := s.saved
    journal := match cfg.engine with
      | .table => s.journal
      | .segment => s.journal ++ (s'.journal.drop s.journal.length).filter
          fun e => e.verdict = .produced }

end Kafgres.Cdc
