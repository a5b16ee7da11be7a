/-
The segment writer (storage/segment.rs, `write_raw` and its callers):
one partition's files, the slot, and one process's seek hints, changed
by one append.

Every file operation an append makes can fail, and what it did before
failing is part of the state. `WriteIo` is the operating system's half
of one call; a write is complete when its count covers the data, as
`write_all_at` returns `Ok` only then. Nothing truncates a file after a
failed write. Writeback hints, open descriptors and their eviction change
no byte and are left out.
-/
import Kafgres.Codec.RecordBatch
import Kafgres.Storage.Slot

namespace Kafgres.Segment

open Storage Codec Bytes

/-- Bytes of one `.index` entry: the offset relative to the segment's
base and the position, four bytes each. -/
def indexEntry : ℕ := 8

def indexIntervalBytes : ℕ := 4096

-- ==== files

/-- The three files of one segment. -/
structure SegFile where
  log : List UInt8 := []
  index : List UInt8 := []
  timeindex : List UInt8 := []

/-- A partition's directory. -/
structure Disk where
  /-- Bases that have a `.log` file, in the order they were created. -/
  names : List ℤ := []
  file : ℤ → SegFile := fun _ => {}

namespace Disk

/-- Opening with create: the file is there afterwards. -/
def create (d : Disk) (base : ℤ) : Disk :=
  if base ∈ d.names then d else { d with names := d.names ++ [base] }

def setFile (d : Disk) (base : ℤ) (f : SegFile) : Disk :=
  { d with file := Function.update d.file base f }

end Disk

/-- One process's sparse seek hints: per segment, offset and position in
the order they were noted. -/
abbrev Hints := ℤ → List (ℤ × ℕ)

/-- What an append works on, under the shard lock. -/
structure Writer where
  slot : Slot
  hints : Hints
  disk : Disk

/-- The operating system's half of one append. -/
structure WriteIo where
  now : ℤ
  synced : Bool
  opened : Bool
  wrote : ℕ
  indexWrote : ℕ
  timeWrote : ℕ
  error : StoreError

-- ==== write_raw

/-- The segment is due to be rolled before a batch of `len` bytes;
`defaultBytes` is `kafgres.segment_bytes`. -/
def rollDue (defaultBytes : ℕ) (st : Slot) (len : ℕ) (now : ℤ) : Prop :=
  let agedOut := st.activeSinceMs > 0 ∧ now - st.activeSinceMs ≥ st.segmentMs ∧ st.activeBytes > 0
  let rollAt := if st.segmentBytes > 0 then st.segmentBytes.toNat
    else defaultBytes
  st.activeBytes > 0 ∧ (agedOut ∨ st.activeBytes + len > rollAt)

instance (defaultBytes : ℕ) (st : Slot) (len : ℕ) (now : ℤ) :
    Decidable (rollDue defaultBytes st len now) :=
  inferInstanceAs (Decidable (_ ∧ _))

/-- The new segment's state in the slot and the hints. Its file is
created by the write that follows. -/
def Writer.roll (w : Writer) (base now : ℤ) : Writer :=
  { w with
    slot := { w.slot with
      activeBase := base
      activeBytes := 0
      maxTimestampSoFar := i64Min
      maxTimestampOffset := -1
      timeIndexedTs := i64Min
      activeSinceMs := now }
    hints := Function.update w.hints base [] }

/-- An entry is due for a batch at `pos`. -/
def indexable (entries : List (ℤ × ℕ)) (pos : ℕ) : Bool :=
  match entries.getLast? with
  | none => true
  | some (_, lastPos) => pos - lastPos ≥ indexIntervalBytes

/-- The `.index` entry of a batch. -/
def encodeEntry (rel : ℤ) (pos : ℕ) : List UInt8 := toBe 4 (pattern 32 rel) ++ toBe 4 (pos % 2 ^ 32)

/-- The `.timeindex` entry of a batch. -/
def encodeTimeEntry (ts rel : ℤ) : List UInt8 := toBe 8 (pattern 64 ts) ++ toBe 4 (pattern 32 rel)

/-- The maximum timestamp with this batch, and the offset that has
it. -/
def maxWith (st : Slot) (bytes : List UInt8) (base : ℤ) : ℤ × ℤ :=
  match maxTimestampOf bytes with
  | some ts =>
    if ts > st.maxTimestampSoFar then (ts, base + lastOffsetDeltaOf bytes)
    else (st.maxTimestampSoFar, st.maxTimestampOffset)
  | none => (st.maxTimestampSoFar, st.maxTimestampOffset)

/-- The write half of `write_raw`: the batch goes at `activeBytes` of
the active segment, then its index entries at the ends of the index
files. An index write that fails is logged and forgotten. -/
def place (w : Writer) (bytes : List UInt8) (base : ℤ) (io : WriteIo) : Writer × StoreResult Unit :=
  let st := { w.slot with activeSinceMs :=
    if w.slot.activeSinceMs = 0 then io.now else w.slot.activeSinceMs }
  let pos := st.activeBytes
  let mx := maxWith st bytes base
  let timeEntry := decide (mx.1 > st.timeIndexedTs ∧ mx.2 ≥ st.activeBase)
  let entries := w.hints st.activeBase
  let due := indexable entries pos
  if ¬ io.opened then ({ w with slot := st }, .error io.error)
  else
    let disk := w.disk.create st.activeBase
    let f := disk.file st.activeBase
    let log := writeAt f.log pos (bytes.take io.wrote)
    if io.wrote < bytes.length then
      ({ w with
         slot := st
         disk := disk.setFile st.activeBase ⟨log, f.index, f.timeindex⟩ },
       .error io.error)
    else
      let index := if due then f.index ++
        (encodeEntry (base - st.activeBase) pos).take io.indexWrote
        else f.index
      let timeindex := if due && timeEntry then f.timeindex ++
        (encodeTimeEntry mx.1 (mx.2 - st.activeBase)).take io.timeWrote
        else f.timeindex
      ({ slot := { st with
          maxTimestampSoFar := mx.1
          maxTimestampOffset := mx.2
          timeIndexedTs := if due && timeEntry then mx.1
            else st.timeIndexedTs
          activeBytes := st.activeBytes + bytes.length }
         hints := if due then
          Function.update w.hints st.activeBase (entries ++ [(base, pos)])
          else w.hints
         disk := disk.setFile st.activeBase ⟨log, index, timeindex⟩ },
       .ok ())

/-- Place already-stamped bytes: roll if needed, write, index. -/
def writeRaw (defaultBytes : ℕ) (w : Writer) (bytes : List UInt8)
    (base : ℤ) (io : WriteIo) : Writer × StoreResult Unit :=
  if rollDue defaultBytes w.slot bytes.length io.now then
    if ¬ io.synced then (w, .error io.error)
    else place (w.roll base io.now) bytes base io
  else place w bytes base io

-- ==== callers

/-- The part of a batch the store reads. Callers take the extent from
the parsed header, where a negative one is refused. -/
structure RawBatch where
  bytes : List UInt8
  lastOffsetDelta : ℤ
  delta_nonneg : 0 ≤ lastOffsetDelta

/-- `st.next_offset = next`. -/
def Writer.advance (w : Writer) (next : ℤ) : Writer :=
  { w with slot := { w.slot with nextOffset := next } }

/-- Validate and stamp a batch, and place it. -/
def writeBatch (crc : List UInt8 → ℕ) (defaultBytes : ℕ) (w : Writer)
    (batch : RawBatch) (epoch base : ℤ) (io : WriteIo) : Writer × StoreResult Unit :=
  match RecordBatch.validated crc batch.bytes with
  | .error _ => (w, .error .corruptBatch)
  | .ok valid =>
    let r := writeRaw defaultBytes w (RecordBatch.stamp valid base epoch) base io
    match r.2 with
    | .error e => (r.1, .error e)
    | .ok () => (r.1.advance (base + batch.lastOffsetDelta + 1), .ok ())

/-- What an append brings: the committed leader epoch, the topic's roll
bounds and the batch. -/
structure AppendArgs where
  seed : ℤ
  segmentMs : ℤ
  segmentBytes : ℤ
  batch : RawBatch

/-- The slot an append starts from: roll bounds refreshed, then the
epoch settled. -/
def Writer.enterAppend (w : Writer) (a : AppendArgs) : Writer × StoreResult ℤ :=
  let st := { w.slot with
    segmentMs := a.segmentMs, segmentBytes := a.segmentBytes }
  let e := st.epochForAppend a.seed
  ({ w with slot := e.1 }, e.2)

/-- `SegmentStore::append` on the slot: the base offset, or an error. -/
def append (crc : List UInt8 → ℕ) (defaultBytes : ℕ) (w : Writer)
    (a : AppendArgs) (io : WriteIo) : Writer × StoreResult ℤ :=
  let e := w.enterAppend a
  match e.2 with
  | .error err => (e.1, .error err)
  | .ok epoch =>
    let base := e.1.slot.nextOffset
    let r := writeBatch crc defaultBytes e.1 a.batch epoch base io
    (r.1, r.2.map fun _ => base)

end Kafgres.Segment
