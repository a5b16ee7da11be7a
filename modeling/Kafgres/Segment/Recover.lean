/-
Opening a partition from its files (storage/segment.rs): the scan of
the active segment, the index reader of the sealed ones, and what a
crash leaves of the files in between.

The `.index` file of the active segment is left as the crash left it: its
hints come from the scan, and the file is read again only once the
segment is sealed. Files that can be listed can be read here: a failed
read aborts the call that made it, or ends a best-effort index read
early.
-/
import Kafgres.Segment.Write
import Mathlib.Data.List.Sort

namespace Kafgres.Segment

open Storage Codec Bytes

-- ==== the index

/-- The loop of `read_index`: whole entries, in file order, up to the
first that points at or past `dataEnd`. `fuel` bounds the entries
left. -/
def readIndexLoop (base : ℤ) (dataEnd : ℕ) : ℕ → List UInt8 → List (ℤ × ℕ)
  | 0, _ => []
  | fuel + 1, bs =>
    if indexEntry ≤ bs.length then
      let rel := fromBe (field bs 0 4)
      let pos := fromBe (field bs 4 4)
      if pos ≥ dataEnd then []
      else (base + rel, pos) :: readIndexLoop base dataEnd fuel (bs.drop indexEntry)
    else []

/-- The seek hints in a sealed segment's `.index`. -/
def readIndex (base : ℤ) (index : List UInt8) (dataEnd : ℕ) : List (ℤ × ℕ) :=
  readIndexLoop base dataEnd index.length index

-- ==== the scan

/-- The batch a scan accepts at `pos`: a header, a whole body and a
matching checksum. -/
def batchAt (crc : List UInt8 → ℕ) (log : List UInt8) (pos : ℕ) : Option (List UInt8) :=
  if pos + recordBatchOverhead ≤ log.length then
    let length := readI32 (log.drop pos) lengthOffset
    if length ≤ 0 then none
    else
      let total := lengthOffset + 4 + length.toNat
      if pos + total > log.length then none
      else
        match RecordBatch.validated crc (field log pos total) with
        | .ok whole => some whole
        | .error _ => none
  else none

/-- What a scan has gathered. -/
structure Scan where
  index : List (ℤ × ℕ)
  pos : ℕ
  nextOffset : ℤ
  maxTimestamp : ℤ × ℤ

/-- The loop body past the checks. The source adds in `i64`: a base
offset at the end of its range, which no checksum covers, wraps there and
not here. -/
def Scan.push (s : Scan) (whole : List UInt8) : Scan where
  index := if indexable s.index s.pos then
    s.index ++ [(baseOffset whole, s.pos)] else s.index
  pos := s.pos + whole.length
  nextOffset := baseOffset whole + lastOffsetDelta whole + 1
  maxTimestamp := match maxTimestampOf whole with
    | some ts => if ts > s.maxTimestamp.1 then
        (ts, baseOffset whole + lastOffsetDelta whole) else s.maxTimestamp
    | none => s.maxTimestamp

def scanLoop (crc : List UInt8 → ℕ) (log : List UInt8) : ℕ → Scan → Scan
  | 0, s => s
  | fuel + 1, s =>
    match batchAt crc log s.pos with
    | none => s
    | some whole => scanLoop crc log fuel (s.push whole)

/-- Scan a segment from its start, validating each batch. A batch takes
at least one byte, so the length of the file is fuel enough
(`batchAt_readSegment`). -/
def readSegment (crc : List UInt8 → ℕ) (base : ℤ) (log : List UInt8) : Scan :=
  scanLoop crc log log.length ⟨[], 0, base, (i64Min, -1)⟩

/-- The loop of `truncate_time_index`: how many bytes of whole entries
below `nextOffset` the file starts with, and the last timestamp among
them. -/
def timeIndexLoop (base nextOffset : ℤ) : ℕ → List UInt8 → ℕ → ℤ → ℕ × ℤ
  | 0, _, kept, last => (kept, last)
  | fuel + 1, bs, kept, last =>
    if 12 ≤ bs.length then
      if base + fromBe (field bs 8 4) ≥ nextOffset then (kept, last)
      else timeIndexLoop base nextOffset fuel (bs.drop 12) (kept + 12) (readI64 bs 0)
    else (kept, last)

/-- Drop time-index entries at or past `nextOffset`: the bytes kept and
the last kept timestamp. -/
def truncateTimeIndex (base nextOffset : ℤ) (timeindex : List UInt8) : List UInt8 × ℤ :=
  let r := timeIndexLoop base nextOffset timeindex.length timeindex 0 i64Min
  (timeindex.take r.1, r.2)

-- ==== recovery

/-- The segments in the directory, in base order. -/
def segmentBases (d : Disk) : List ℤ := d.names.insertionSort (· ≤ ·)

/-- `SegmentStore::recover`: only the last segment is scanned, sealed
ones keep their `.index`. Returns what the slot is filled from, the
hints, and the repaired files. -/
def recover (crc : List UInt8 → ℕ) (d : Disk) : Recovered × Hints × Disk :=
  match (segmentBases d).getLast? with
  | none => (⟨0, 0, 0, (i64Min, -1), i64Min⟩, fun _ => [], d)
  | some last =>
    let f := d.file last
    let scan := readSegment crc last f.log
    let times := truncateTimeIndex last scan.nextOffset f.timeindex
    (⟨scan.nextOffset, last, scan.pos, scan.maxTimestamp, times.2⟩,
     fun b => if b = last then scan.index
      else if b ∈ d.names then
        readIndex b (d.file b).index (d.file b).log.length
      else [],
     d.setFile last ⟨f.log.take scan.pos, f.index, times.1⟩)

-- ==== the runs

/-- Where a partition's slot lives. -/
structure Home where
  stripes : ℕ
  key : Key
  index : Fin slotsPerShard

/-- A partition and the processes that use it. The slot is absent from
postmaster start until a process first touches the partition. -/
structure Store where
  slot : Option Slot
  hints : ℕ → Hints
  disk : Disk

namespace Store

/-- A partition with no files, right after postmaster start. -/
def fresh : Store := ⟨none, fun _ _ => [], {}⟩

/-- The start of `with_slot` in process `proc`: recover the partition if
no process has since postmaster start. -/
def track (crc : List UInt8 → ℕ) (home : Home) (s : Store) (proc : ℕ) : Store :=
  match s.slot with
  | some _ => s
  | none =>
    let r := recover crc s.disk
    { slot := some (r.1.slot home.stripes home.key home.index)
      hints := Function.update s.hints proc r.2.1
      disk := r.2.2 }

/-- What process `proc` made of the slot, its hints and the files. -/
def put (s : Store) (proc : ℕ) (w : Writer) : Store where
  slot := some w.slot
  hints := Function.update s.hints proc w.hints
  disk := w.disk

/-- An append in process `proc`. -/
def append (crc : List UInt8 → ℕ) (defaultBytes : ℕ) (home : Home)
    (s : Store) (proc : ℕ) (a : AppendArgs) (io : WriteIo) : Store :=
  let t := s.track crc home proc
  match t.slot with
  | none => t
  | some st => t.put proc (Segment.append crc defaultBytes ⟨st, t.hints proc, t.disk⟩ a io).1

/-- A crash and restart. Of the last segment's `.log` an arbitrary
prefix survives; sealed logs were synced when they were rolled. Index
files are never synced, so of each an arbitrary prefix survives. Shared
memory and every process's hints are gone. -/
def crash (s : Store) (keepLog : ℕ) (keepIndex keepTime : ℤ → ℕ) : Store where
  slot := none
  hints := fun _ _ => []
  disk := { s.disk with file := fun b =>
    let f := s.disk.file b
    ⟨if (segmentBases s.disk).getLast? = some b then f.log.take keepLog
      else f.log,
     f.index.take (keepIndex b), f.timeindex.take (keepTime b)⟩ }

end Store

/-- One event in a partition's life. -/
inductive StoreOp where
  /-- Any use that does not append. -/
  | touch (proc : ℕ)
  | append (proc : ℕ) (a : AppendArgs) (io : WriteIo)
  | crash (keepLog : ℕ) (keepIndex keepTime : ℤ → ℕ)

def Store.step (crc : List UInt8 → ℕ) (defaultBytes : ℕ) (home : Home) (s : Store) : StoreOp → Store
  | .touch proc => s.track crc home proc
  | .append proc a io => s.append crc defaultBytes home proc a io
  | .crash keepLog keepIndex keepTime => s.crash keepLog keepIndex keepTime

end Kafgres.Segment
