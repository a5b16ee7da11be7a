/-
One bounded compaction pass over a partition's sealed segments
(`SegmentStore::compact_pass` and what it calls,
extension/src/storage/segment.rs), and the system it runs in: appends,
rolls and transactions ending between passes, and processes that keep
their plans and their memory of past passes to themselves.

A segment is the list of its batches, and a reader's position in it the
number of batches before it. A partial batch in a sealed segment, a short
read and a failing read are one thing here, a read that fails at a batch
(`Call.readFails`). Nothing relates the calls of one run to each other,
so a clock may step back and a limit may change between two passes.

`PLANS` holds plans of other partitions too; that one of them takes this
partition's slot is the step `evict`. The index files, the archive row
and the writeback of the replacement do not touch the log's batches.
-/
import Kafgres.Compaction.Judge

namespace Kafgres.Compaction

open KeyedLog

-- ==== the partition

structure Segment (B : Type) where
  base : ℤ
  mtime : ℤ
  batches : List (Batch B)

/-- A partition: the files, the fields of its slot that compaction
reads, and the transactions. -/
structure Partition (B : Type) where
  closed : List (Segment B)
  active : Segment B
  nextOffset : ℤ
  layoutGeneration : ℕ
  compactCursor : ℤ
  lastStable : ℤ
  txns : Txns

/-- `SegInfo`. -/
structure SegInfo where
  base : ℤ
  bytes : ℕ
  mtime : ℤ
deriving DecidableEq, Repr

/-- One segment's rewrite, resumable at any batch: a scan for the first
batch that loses a record, then the write of the replacement. -/
structure Rewrite (B : Type) where
  info : SegInfo
  pos : ℕ
  written : List (Batch B)
  removed : ℕ
  writing : Bool

/-- A compaction in progress: an offset map over the dirty section, then
a rewrite of every cleanable segment up to the map's end. -/
structure CleanPlan (B : Type) where
  map : OffsetMap B
  dirtyFrom : ℤ
  mappingAt : Option (ℤ × ℕ)
  rewriteFrom : ℤ
  rewriting : Option (Rewrite B)
  generation : ℕ
  abandoned : Bool

/-- What one process keeps of the partition in its own memory: the plan
in `PLANS`, the history in `CLEANED` and the batches in
`UNDECODABLE`. -/
structure Statics (B : Type) where
  plan : Option (CleanPlan B) := none
  cleaned : List (ℤ × ℤ) := []
  undecodable : List (ℤ × ℕ) := []

/-- What a pass takes from outside the partition. -/
structure Call (B : Type) where
  now : ℤ
  judgedAt : ℤ
  finishedAt : ℤ
  minCompactionLag : ℤ
  deleteRetention : ℤ
  budget : ℤ
  budgetLeft : Bool
  planSlot : Bool
  hashers : B → BitVec 128
  readFails : ℤ → Bool := fun _ => false
  swapFails : ℤ → Bool := fun _ => false
  unlinkFails : ℤ → Bool := fun _ => false
  setTimesFails : ℤ → Bool := fun _ => false

variable {B : Type}

def Segment.bytes (s : Segment B) : ℕ := (s.batches.map (·.len)).sum

def Segment.info (s : Segment B) : SegInfo := ⟨s.base, s.bytes, s.mtime⟩

namespace Partition

def segments (p : Partition B) : List (Segment B) := p.closed ++ [p.active]

/-- The whole log, in order. -/
def log (p : Partition B) : List (Batch B) := p.segments.flatMap (·.batches)

/-- The committed records of the whole log, as a reader has them. -/
def table (p : Partition B) : List (Entry ℤ B B) :=
  (p.log.filter fun b => decide (p.txns.Live b)).flatMap (·.entries)

/-- The keyed view: the latest committed value of each key. -/
def view [DecidableEq B] (p : Partition B) (key : B) : Option B := KeyedLog.view p.table key

/-- The sealed segments past the lag, each with the base of the segment
after it. -/
def cleanable (p : Partition B) (lagCutoff : ℤ) : List (Segment B × ℤ) :=
  (p.closed.zip (p.segments.tail.map (·.base))).takeWhile fun s => decide (s.1.mtime ≤ lagCutoff)

/-- The file of a segment, by its base. -/
def openSegment (p : Partition B) (base : ℤ) : Option (Segment B) :=
  p.segments.find? fun s => decide (s.base = base)

end Partition

-- ==== mapping

/-- `MAX_COMPACT_KEYS`. -/
def maxCompactKeys : ℕ := 2 ^ 20

/-- What mapping works on. -/
structure MapWork (B : Type) where
  map : OffsetMap B
  budget : ℤ
  known : List (ℤ × ℕ)
  abandoned : Bool

/-- How mapping leaves a segment: at its end, out of budget before a
batch, or stopped for good. -/
inductive Mapped where
  | ran
  | paused (pos : ℕ)
  | stopped
  | failed (e : StoreError)
deriving DecidableEq, Repr

/-- One batch of the mapping loop; `none` goes on to the next. -/
def mapOne (c : Call B) (j : Judge) (stableEnd : ℤ) (b : Batch B)
    (w : MapWork B) : MapWork B × Option Mapped :=
  if c.readFails b.baseOffset then
    ({ w with abandoned := true }, some .stopped)
  else
    let w := { w with budget := w.budget - b.len }
    if b.lastOffset < j.dirtyFrom then (w, none)
    else if b.lastOffset ≥ stableEnd then (w, some .stopped)
    else
      match j.committed b with
      | .error e => (w, some (.failed e))
      | .ok false => ({ w with map := w.map.past b.lastOffset }, none)
      | .ok true =>
        match mapBatch w.known w.map b maxCompactKeys with
        | (known, map, true) => ({ w with map, known }, none)
        | (known, map, false) => ({ w with map, known }, some .stopped)

/-- The mapping loop over one segment, from the batch at `pos` on. The
budget is looked at before every read, the last one included. -/
def mapSegment (c : Call B) (j : Judge) (stableEnd : ℤ) :
    List (Batch B) → ℕ → MapWork B → MapWork B × Mapped
  | [], pos, w => if w.budget ≤ 0 then (w, .paused pos) else (w, .ran)
  | b :: bs, pos, w =>
    if w.budget ≤ 0 then (w, .paused pos)
    else
      match mapOne c j stableEnd b w with
      | (w, none) => mapSegment c j stableEnd bs (pos + 1) w
      | (w, some stop) => (w, stop)

/-- The mapping loop, entering the segment `at_.1` at `at_.2`: where it
is to resume, `none` once it is done. -/
def mapSegments (c : Call B) (j : Judge) (stableEnd : ℤ) (at_ : ℤ × ℕ) :
    List (Segment B) → MapWork B → MapWork B × Except StoreError (Option (ℤ × ℕ))
  | [], w => (w, .ok none)
  | s :: rest, w =>
    let start := if s.base = at_.1 then at_.2 else 0
    match mapSegment c j stableEnd (s.batches.drop start) start w with
    | (w, .ran) => mapSegments c j stableEnd at_ rest w
    | (w, .paused pos) => (w, .ok (some (s.base, pos)))
    | (w, .stopped) => (w, .ok none)
    | (w, .failed e) => (w, .error e)

-- ==== rewriting

/-- What the rewrite loops work on, apart from the rewrite itself. -/
structure CleanWork where
  budget : ℤ
  known : List (ℤ × ℕ)

section

variable [Wire B]

/-- `judge_batch`: what survives of a batch, `none` for all of it; an
aborted batch goes whole. -/
def judgeBatch (j : Judge) (m : OffsetMap B) (known : List (ℤ × ℕ)) (b : Batch B) :
    List (ℤ × ℕ) × Except StoreError (Option (List (KeptRecord B))) :=
  if b.baseOffset > m.endOffset then (known, .ok none)
  else
    match j.committed b with
    | .error e => (known, .error e)
    | .ok false => (known, .ok (some []))
    | .ok true =>
      let r := cleanOrKeep known b m j.tombstoneGoes
      (r.1, .ok r.2)

/-- How the scan for a batch that loses a record ends. -/
inductive Scanned where
  | paused (pos : ℕ)
  | unchanged
  | found
  | failed (e : StoreError)
deriving DecidableEq, Repr

/-- The first loop of `clean_step`. -/
def scan (c : Call B) (j : Judge) (m : OffsetMap B) :
    List (Batch B) → ℕ → CleanWork → CleanWork × Scanned
  | [], pos, w => if w.budget ≤ 0 then (w, .paused pos) else (w, .unchanged)
  | b :: bs, pos, w =>
    if w.budget ≤ 0 then (w, .paused pos)
    else if c.readFails b.baseOffset then
      (w, .failed (.corrupt b.baseOffset))
    else if b.baseOffset > m.endOffset then
      ({ w with budget := w.budget - b.len }, .unchanged)
    else
      match judgeBatch j m w.known b with
      | (known, .error e) => (⟨w.budget - b.len, known⟩, .failed e)
      | (known, .ok (some _)) => (⟨w.budget - b.len, known⟩, .found)
      | (known, .ok none) =>
        scan c j m bs (pos + 1) ⟨w.budget - b.len, known⟩

/-- What the replacement holds for a batch: the batch, or what is
rebuilt of it. -/
def Batch.replaced (b : Batch B) : Option (List (KeptRecord B)) → List (Batch B)
  | none => [b]
  | some kept => (rebuildBatch b kept).toList

/-- One batch written to the replacement. -/
def Rewrite.write (rw : Rewrite B) (b : Batch B)
    (kept : Option (List (KeptRecord B))) : Rewrite B :=
  { rw with
    pos := rw.pos + 1
    removed := rw.removed + kept.elim 0 fun kept => b.recordCount.toNat - kept.length
    written := rw.written ++ b.replaced kept }

/-- How writing the replacement ends. -/
inductive Copied where
  | paused
  | whole
  | failed (e : StoreError)
deriving DecidableEq, Repr

/-- The second loop of `clean_step`. -/
def copy (c : Call B) (j : Judge) (m : OffsetMap B) : List (Batch B) → Rewrite B → CleanWork →
      CleanWork × Rewrite B × Copied
  | [], rw, w => if w.budget ≤ 0 then (w, rw, .paused) else (w, rw, .whole)
  | b :: bs, rw, w =>
    if w.budget ≤ 0 then (w, rw, .paused)
    else if c.readFails b.baseOffset then
      (w, rw, .failed (.corrupt b.baseOffset))
    else
      match judgeBatch j m w.known b with
      | (known, .error e) => (⟨w.budget - b.len, known⟩, rw, .failed e)
      | (known, .ok kept) =>
        copy c j m bs (rw.write b kept) ⟨w.budget - b.len, known⟩

/-- The segment list with the file at a base replaced. -/
def replaceSegment (base : ℤ) (new : Option (Segment B))
    (segs : List (Segment B)) : List (Segment B) :=
  segs.flatMap fun s => if s.base = base then new.toList else [s]

/-- `swap_segment`: replace the segment with the rewrite, or remove it
when that is empty; refused (`none`) if the segment or the layout
generation moved. A removal that fails is not noticed. -/
def swapSegment (c : Call B) (p : Partition B) (info : SegInfo)
    (written : List (Batch B)) (generation : ℕ) : Except StoreError (Option (Partition B)) :=
  if p.layoutGeneration ≠ generation then .ok none
  else
    match p.openSegment info.base with
    | none => .ok none
    | some s =>
      if s.info ≠ info then .ok none
      else if p.active.base = info.base then .ok none
      else if written = [] ∧ c.unlinkFails info.base then
        .ok (some { p with layoutGeneration := p.layoutGeneration + 1 })
      else if written = [] then
        .ok (some
          { p with
            closed := replaceSegment info.base none p.closed
            layoutGeneration := p.layoutGeneration + 1 })
      else if c.swapFails info.base then .error (.swapping info.base)
      else
        let mtime := if c.setTimesFails info.base then c.now else info.mtime
        .ok (some
          { p with
            closed := replaceSegment info.base (some ⟨info.base, mtime, written⟩) p.closed
            layoutGeneration := p.layoutGeneration + 1 })

/-- How one segment's rewrite ends. -/
inductive Cleaned (B : Type) where
  | paused (rw : Rewrite B)
  | unchanged
  | swapped (removed : ℕ) (p : Partition B)
  | abandoned
  | failed (e : StoreError)

/-- The writing half of `clean_step`: copy what survives, then swap. -/
def copyStep (c : Call B) (j : Judge) (m : OffsetMap B) (generation : ℕ)
    (p : Partition B) (s : Segment B) (rw : Rewrite B) (w : CleanWork) : CleanWork × Cleaned B :=
  match copy c j m (s.batches.drop rw.pos) rw w with
  | (w, rw, .paused) => (w, .paused rw)
  | (w, _, .failed e) => (w, .failed e)
  | (w, rw, .whole) =>
    match swapSegment c p rw.info rw.written generation with
    | .error e => (w, .failed e)
    | .ok none => (w, .abandoned)
    | .ok (some p) => (w, .swapped rw.removed p)

/-- `clean_step`: continue a rewrite until the segment is done or the
budget runs out. -/
def cleanStep (c : Call B) (j : Judge) (m : OffsetMap B) (generation : ℕ)
    (p : Partition B) (rw : Rewrite B) (w : CleanWork) : CleanWork × Cleaned B :=
  match p.openSegment rw.info.base with
  | none => (w, .unchanged)
  | some s =>
    if rw.writing then copyStep c j m generation p s rw w
    else
      match scan c j m (s.batches.drop rw.pos) rw.pos w with
      | (w, .paused pos) => (w, .paused { rw with pos })
      | (w, .unchanged) => (w, .unchanged)
      | (w, .failed e) => (w, .failed e)
      | (w, .found) =>
        copyStep c j m generation p s
          { rw with writing := true, pos := 0, written := [] } w

-- ==== the pass

/-- What the rewriting half of a pass carries from segment to
segment. -/
structure RewriteWork (B : Type) where
  part : Partition B
  plan : CleanPlan B
  work : CleanWork
  removed : ℕ

/-- `keep_tombstones` is set anew before every step. -/
def Judge.forPlan (j : Judge) (plan : CleanPlan B) : Judge :=
  { j with keepTombstones := plan.abandoned }

/-- One turn of the rewriting loop, on the rewrite `rw`; `false` when
the pass stops there with the plan unfinished. -/
def rewriteOne (c : Call B) (j : Judge) (rw : Rewrite B)
    (r : RewriteWork B) : Bool × RewriteWork B :=
  if r.work.budget ≤ 0 then
    (false, { r with plan := { r.plan with rewriting := some rw } })
  else
    let next := { r.plan with rewriting := none
                              rewriteFrom := rw.info.base + 1 }
    match cleanStep c (j.forPlan r.plan) r.plan.map r.plan.generation r.part rw r.work with
    | (w, .paused rw) =>
      (false,
        { r with work := w, plan := { r.plan with rewriting := some rw } })
    | (w, .unchanged) => (true, { r with work := w, plan := next })
    | (w, .swapped removed p) =>
      (true,
        { part := p
          plan := { next with generation := p.layoutGeneration }
          work := w
          removed := r.removed + removed })
    | (w, .abandoned) | (w, .failed _) =>
      (true, { r with work := w, plan := { next with abandoned := true } })

def Rewrite.new (info : SegInfo) : Rewrite B :=
  { info, pos := 0, written := [], removed := 0, writing := false }

/-- The rewriting loop. The source looks up the first cleanable segment
at or above `rewrite_from` and not above the map's end each time round;
the listing is in base order, so that goes through it once. -/
def rewriteAll (c : Call B) (j : Judge) : List (Segment B) → RewriteWork B → Bool × RewriteWork B
  | [], r => (true, r)
  | s :: rest, r =>
    if r.plan.rewriteFrom ≤ s.base ∧ s.base ≤ r.plan.map.endOffset then
      match rewriteOne c j (Rewrite.new s.info) r with
      | (true, r) => rewriteAll c j rest r
      | (false, r) => (false, r)
    else rewriteAll c j rest r

/-- The rewriting half: the rewrite a pass ran out of budget in, then
every segment after it. -/
def rewriteFrom (c : Call B) (j : Judge) (segs : List (Segment B))
    (r : RewriteWork B) : Bool × RewriteWork B :=
  match r.plan.rewriting with
  | none => rewriteAll c j segs r
  | some rw =>
    match rewriteOne c j rw r with
    | (true, r) => rewriteAll c j segs r
    | (false, r) => (false, r)

/-- `i64::MIN`. -/
def minOffset : ℤ := -2 ^ 63

/-- A plan for the pass: the one kept from the last pass while the layout
is the one it was made for, else a new one if there is enough to
clean. -/
def planFor (c : Call B) (p : Partition B) (st : Statics B)
    (cleanable : List (Segment B × ℤ)) : Option (CleanPlan B) :=
  let dirtyFrom :=
    if p.compactCursor > p.nextOffset then 0 else p.compactCursor
  let fresh : Option (CleanPlan B) :=
    let clean : ℕ := ((cleanable.filter fun s => decide (s.2 ≤ dirtyFrom)).map
      (·.1.bytes)).sum
    let dirty : ℕ := ((cleanable.filter fun s => decide (dirtyFrom < s.2)).map
      (·.1.bytes)).sum
    if dirty = 0 ∨ dirty < clean ∨ !c.budgetLeft ∨ !c.planSlot then none
    else
      some
        { map := OffsetMap.new c.hashers
          dirtyFrom
          mappingAt := (cleanable.find? fun s =>
            decide (dirtyFrom < s.2)).map fun s => (s.1.base, 0)
          rewriteFrom := minOffset
          rewriting := none
          generation := p.layoutGeneration
          abandoned := false }
  match st.plan with
  | some q => if q.generation = p.layoutGeneration then some q else fresh
  | none => fresh

/-- The mapping half, which a plan that is done mapping skips. -/
def mapPlan (c : Call B) (j : Judge) (p : Partition B)
    (segs : List (Segment B)) (plan : CleanPlan B)
    (known : List (ℤ × ℕ)) : CleanWork × Except StoreError (CleanPlan B) :=
  match plan.mappingAt with
  | none => (⟨c.budget, known⟩, .ok plan)
  | some at_ =>
    match mapSegments c j p.lastStable at_
        (segs.filter fun s => decide (at_.1 ≤ s.base))
        ⟨plan.map, c.budget, known, plan.abandoned⟩ with
    | (w, .error e) => (⟨w.budget, w.known⟩, .error e)
    | (w, .ok resume) =>
      (⟨w.budget, w.known⟩,
        .ok { plan with map := w.map
                        mappingAt := resume
                        abandoned := w.abandoned })

/-- The end of a finished plan: the cursor moves past the map, unless
something else moved it or a rewrite did not land. -/
def finish (c : Call B) (plan : CleanPlan B) (p : Partition B)
    (st : Statics B) : Partition B × Statics B :=
  if plan.abandoned ∨ plan.map.endOffset < 0 then (p, st)
  else if p.compactCursor = plan.dirtyFrom ∨ p.compactCursor > p.nextOffset
    then
      ({ p with compactCursor := plan.map.endOffset + 1 },
        { st with
          cleaned := recordCleaned st.cleaned plan.map.endOffset c.finishedAt })
  else (p, st)

/-- `compact_pass`, at the partition's last stable offset: the partition
and the process's memory after it, and the records removed. The plan is
out of `PLANS` while the pass runs, so a pass that fails loses it. -/
def compactPass (c : Call B) (p : Partition B) (st : Statics B) :
    Partition B × Statics B × Except StoreError ℕ :=
  let cleanable := p.cleanable (c.now - c.minCompactionLag)
  if cleanable.isEmpty then (p, st, .ok 0)
  else
    match planFor c p st cleanable with
    | none => (p, { st with plan := none }, .ok 0)
    | some plan =>
      let st := { st with plan := none }
      let segs := cleanable.map (·.1)
      let j : Judge :=
        { txns := p.txns
          dirtyFrom := plan.dirtyFrom
          tombstoneHorizon := c.judgedAt - c.deleteRetention
          keepTombstones := false
          cleaned := st.cleaned }
      match mapPlan c j p segs plan st.undecodable with
      | (w, .error e) => (p, { st with undecodable := w.known }, .error e)
      | (w, .ok plan) =>
        if plan.mappingAt.isSome then
          (p, { st with plan := some plan, undecodable := w.known }, .ok 0)
        else
          match rewriteFrom c j segs ⟨p, plan, w, 0⟩ with
          | (false, r) =>
            (r.part,
              { st with plan := some r.plan
                        undecodable := r.work.known },
              .ok r.removed)
          | (true, r) =>
            let done := finish c r.plan r.part
              { st with undecodable := r.work.known }
            (done.1, done.2, .ok r.removed)

-- ==== the system

/-- A partition and the processes that run passes over it. -/
structure System (B : Type) where
  part : Partition B
  procs : ℕ → Statics B

/-- What happens to a partition. A batch is appended at the log end, in
the active segment, whose file takes the given time. `settle` is any
change of the transactions, with the last stable offset that goes with
it. A process may lose its plan or end; a restart of the server ends
every process and forgets the slot. -/
inductive Op (B : Type) where
  | append (b : Batch B) (mtime : ℤ)
  | roll (mtime : ℤ)
  | settle (lastStable : ℤ) (txns : Txns)
  | evict (proc : ℕ)
  | exit (proc : ℕ)
  | restart
  | compact (proc : ℕ) (c : Call B)

namespace Partition

/-- The batch stamped with the offset the log assigns and written to the
active segment. -/
def append (p : Partition B) (b : Batch B) (mtime : ℤ) : Partition B :=
  let b := { b with baseOffset := p.nextOffset }
  { p with
    active := { p.active with mtime, batches := p.active.batches ++ [b] }
    nextOffset := b.lastOffset + 1 }

/-- A segment that holds something is sealed, and a new one begins at
the log end. -/
def roll (p : Partition B) (mtime : ℤ) : Partition B :=
  if p.active.batches = [] then p
  else
    { p with
      closed := p.closed ++ [p.active]
      active := ⟨p.nextOffset, mtime, []⟩ }

end Partition

namespace System

def setProc (s : System B) (proc : ℕ) (st : Statics B) : System B :=
  { s with procs := Function.update s.procs proc st }

def step (s : System B) : Op B → System B
  | .append b mtime => { s with part := s.part.append b mtime }
  | .roll mtime => { s with part := s.part.roll mtime }
  | .settle lastStable txns =>
    { s with part := { s.part with lastStable, txns } }
  | .evict proc => s.setProc proc { s.procs proc with plan := none }
  | .exit proc => s.setProc proc {}
  | .restart =>
    { part := { s.part with compactCursor := 0, layoutGeneration := 0 }
      procs := fun _ => {} }
  | .compact proc c =>
    let r := compactPass c s.part (s.procs proc)
    { part := r.1, procs := Function.update s.procs proc r.2.1 }

end System

end

end Kafgres.Compaction
