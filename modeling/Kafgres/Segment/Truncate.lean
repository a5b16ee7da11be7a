/-
What takes batches out of a log, and what puts a leader's in
(storage/segment.rs: `truncate_to`, `reclaim`, `swap_segment`,
`append_replicated`).

Every file operation succeeds here. The mapping plans, the cleaned
marks and the archive rows that a truncation also forgets are not part
of the files or of the slot. `Rewrite` is a compaction of one sealed
segment, swapped in under the shard lock.
-/
import Kafgres.Segment.Recover

namespace Kafgres.Segment

open Storage Codec Bytes

-- ==== the files

namespace Disk

/-- The segment's three files are unlinked. -/
def remove (d : Disk) (base : ℤ) : Disk where
  names := d.names.filter fun b => b ≠ base
  file := Function.update d.file base {}

end Disk

/-- The loop of `framesOf`. -/
def framesLoop (crc : List UInt8 → ℕ) (log : List UInt8) : ℕ → ℕ → List (List UInt8)
  | 0, _ => []
  | fuel + 1, pos =>
    match batchAt crc log pos with
    | none => []
    | some whole => whole :: framesLoop crc log fuel (pos + whole.length)

/-- The whole batches a file starts with. -/
def framesOf (crc : List UInt8 → ℕ) (log : List UInt8) : List (List UInt8) :=
  framesLoop crc log log.length 0

/-- The offset after a batch's last. -/
def endOf (batch : List UInt8) : ℤ := baseOffset batch + lastOffsetDelta batch + 1

-- ==== truncate_to

/-- The first loop of `truncate_to`: the position of the first batch that
begins at or past `offset`, the size of the file if there is none. -/
def cutLoop (log : List UInt8) (offset : ℤ) : ℕ → ℕ → ℕ
  | 0, _ => log.length
  | fuel + 1, pos =>
    if pos + recordBatchOverhead ≤ log.length then
      let length := batchLength (log.drop pos)
      if length ≤ 0 then log.length
      else if baseOffset (log.drop pos) ≥ offset then pos
      else cutLoop log offset fuel (pos + (lengthOffset + 4 + length.toNat))
    else log.length

def cutAt (log : List UInt8) (offset : ℤ) : ℕ := cutLoop log offset log.length 0

/-- Its second loop: the greatest timestamp of what is left, and the
offset that has it. -/
def maxLoop (log : List UInt8) : ℕ → ℕ → ℤ × ℤ → ℤ × ℤ
  | 0, _, greatest => greatest
  | fuel + 1, pos, greatest =>
    if pos + recordBatchOverhead ≤ log.length then
      let header := field log pos recordBatchOverhead
      let length := batchLength header
      if length ≤ 0 then greatest
      else
        let greatest := match maxTimestampOf header with
          | some ts => if ts > greatest.1 then
              (ts, baseOffset header + lastOffsetDeltaOf header)
              else greatest
          | none => greatest
        maxLoop log fuel (pos + (lengthOffset + 4 + length.toNat)) greatest
    else greatest

/-- `truncate_to`: segments that begin at or past the offset go, the last
one before it is cut and becomes the active one. Returns the number of
offsets given up. -/
def truncateTo (w : Writer) (offset : ℤ) : Writer × ℤ :=
  if offset ≥ w.slot.nextOffset then (w, 0)
  else
    let bases := segmentBases w.disk
    let gone := bases.filter fun b => offset ≤ b
    let disk := gone.foldl Disk.remove w.disk
    let hints : Hints := fun b => if b ∈ gone then [] else w.hints b
    let st := { w.slot with
      maxTimestampSoFar := i64Min
      maxTimestampOffset := -1
      timeIndexedTs := i64Min
      layoutGeneration := w.slot.layoutGeneration + 1
      nextOffset := offset
      compactCursor := 0 }
    let w' : Writer := match (bases.filter fun b => b < offset).getLast? with
      | none => ⟨{ st with activeBase := offset, activeBytes := 0 }, hints, disk⟩
      | some base =>
        let log := (w.disk.file base).log
        let kept := log.take (cutAt log offset)
        let greatest := maxLoop kept kept.length 0 (i64Min, -1)
        ⟨{ st with
            activeBase := base
            activeBytes := cutAt log offset
            maxTimestampSoFar := greatest.1
            maxTimestampOffset := greatest.2 },
          Function.update hints base [],
          disk.setFile base ⟨kept, [], []⟩⟩
    (w', w.slot.nextOffset - offset)

-- ==== append_replicated

/-- `append_replicated`: a leader's batch, as it is, at the log end. -/
def appendReplicated (crc : List UInt8 → ℕ) (defaultBytes : ℕ)
    (w : Writer) (bytes : List UInt8) (expected : ℤ) (io : WriteIo) : Writer × StoreResult ℤ :=
  let next := w.slot.nextOffset
  let base := baseOffset bytes
  match RecordBatch.validated crc bytes with
  | .error _ => (w, .error .corruptBatch)
  | .ok _ =>
    if next ≠ expected then
      (w, .error (.io s!"replication position moved: caller expected log end {expected}, partition is at {next}"))
    else if base ≠ next then
      (w, .error (.io s!"replicated batch starts at {base} but the log ends at {next}: a gap or overlap, not something to write through"))
    else
      let r := writeRaw defaultBytes w bytes base io
      match r.2 with
      | .error e => (r.1, .error e)
      | .ok () => (r.1.advance (endOf bytes), .ok base)

-- ==== reclaim

/-- `MAX_SEGMENT_UNLINKS`. -/
def maxSegmentUnlinks : ℕ := 32

/-- The segments a `reclaim` unlinks: from the oldest on while the next
one begins at or below the target, never the last, and none the archive
does not have. -/
def reclaimed (target : ℤ) (archived : ℤ → Bool) : ℕ → List ℤ → List ℤ
  | 0, _ => []
  | _, [] => []
  | _, [_] => []
  | n + 1, b :: c :: rest =>
    if c > target ∨ archived b = false then []
    else b :: reclaimed target archived n (c :: rest)

/-- `reclaim`. The slot keeps its position. -/
def reclaim (w : Writer) (target : ℤ) (archived : ℤ → Bool) : Writer :=
  let gone := reclaimed target archived maxSegmentUnlinks (segmentBases w.disk)
  { w with
    hints := fun b => if b ∈ gone then [] else w.hints b
    disk := gone.foldl Disk.remove w.disk }

-- ==== swap_segment

/-- What a cleaning makes of each batch. -/
structure Rewrite (crc : List UInt8 → ℕ) where
  rewrite : List UInt8 → Option (List UInt8)
  within : ∀ x y, IsBatch crc x → rewrite x = some y →
    IsBatch crc y ∧ baseOffset x ≤ baseOffset y ∧ endOf y ≤ endOf x

/-- `swap_segment` for a segment that had `bytes` bytes and a layout of
that generation when it was read. -/
def swapSegment (crc : List UInt8 → ℕ) (w : Writer) (base : ℤ)
    (bytes generation : ℕ) (rw : Rewrite crc) : Writer :=
  let log := (w.disk.file base).log
  if w.slot.layoutGeneration ≠ generation ∨ base ∉ w.disk.names ∨
      log.length ≠ bytes ∨ w.slot.activeBase = base then w
  else
    let kept := (framesOf crc log).filterMap rw.rewrite
    { slot := { w.slot with
        layoutGeneration := w.slot.layoutGeneration + 1 }
      hints := Function.update w.hints base []
      disk := if kept = [] then w.disk.remove base
        else w.disk.setFile base ⟨kept.flatten, [], []⟩ }

-- ==== the runs

/-- A call whose writes all go through. -/
def noFault (now : ℤ) (bytes : ℕ) : WriteIo :=
  ⟨now, true, true, bytes, indexEntry, 12, .corruptBatch⟩

/-- A batch as `raw_batch` takes it from the parsed header. -/
def RawBatch.ofHeader (bytes : List UInt8) : Option RawBatch :=
  if h : 0 ≤ Codec.lastOffsetDelta bytes then
    some ⟨bytes, Codec.lastOffsetDelta bytes, h⟩
  else none

/-- One call on a partition. A segment is rolled inside an append. -/
inductive LogOp (crc : List UInt8 → ℕ) where
  | append (seed segmentMs segmentBytes now : ℤ) (bytes : List UInt8)
  | appendReplicated (bytes : List UInt8) (expected now : ℤ)
  | truncateTo (offset : ℤ)
  | reclaim (target : ℤ) (archived : ℤ → Bool)
  | swap (base : ℤ) (bytes generation : ℕ) (rw : Rewrite crc)

/-- The partition after a call. -/
def Writer.step {crc : List UInt8 → ℕ} (defaultBytes : ℕ) (w : Writer) : LogOp crc → Writer
  | .append seed segmentMs segmentBytes now bytes =>
    match RawBatch.ofHeader bytes with
    | none => w
    | some batch => (Segment.append crc defaultBytes w ⟨seed, segmentMs, segmentBytes, batch⟩
        (noFault now bytes.length)).1
  | .appendReplicated bytes expected now =>
    (Segment.appendReplicated crc defaultBytes w bytes expected (noFault now bytes.length)).1
  | .truncateTo offset => (Segment.truncateTo w offset).1
  | .reclaim target archived => Segment.reclaim w target archived
  | .swap base bytes generation rw =>
    swapSegment crc w base bytes generation rw

/-- A partition with no files. -/
def Writer.fresh : Writer := ⟨{}, fun _ => [], {}⟩

-- ==== the slot and a scan agree

/-- A scan of the files finds what the slot says. -/
def Writer.Recovers (crc : List UInt8 → ℕ) (w : Writer) : Prop :=
  let r := (recover crc w.disk).1
  r.nextOffset = w.slot.nextOffset ∧ r.activeBase = w.slot.activeBase ∧
    r.activeBytes = w.slot.activeBytes

/-- Nothing at or past the offset is left in any file. -/
def Disk.Below (crc : List UInt8 → ℕ) (d : Disk) (offset : ℤ) : Prop :=
  ∀ b ∈ d.names, ∀ x ∈ framesOf crc (d.file b).log, endOf x ≤ offset

/-- The call leaves the slot and the files in agreement, and a
truncation leaves nothing past its offset and gives the next append the
offset, or the old end if that is lower. -/
def Right {crc : List UInt8 → ℕ} (defaultBytes : ℕ) (w : Writer) (op : LogOp crc) : Prop :=
  (w.step defaultBytes op).Recovers crc ∧
  ∀ offset, op = .truncateTo offset → (w.step defaultBytes op).disk.Below crc offset ∧
    ∀ a io base, (Segment.append crc defaultBytes (w.step defaultBytes op) a io).2 = .ok base →
        base = min offset w.slot.nextOffset

end Kafgres.Segment
