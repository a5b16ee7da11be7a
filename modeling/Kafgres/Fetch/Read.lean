/-
Reading a partition (`SegmentStore::read`, extension/src/storage/
segment.rs, with `committed_markers` and `aborted_txns` of pmeta.rs).

A segment is the list of its whole batches, up to `active_bytes` for the
active one, and a position is the number of batches before it. Every
read of an opened file gives what was asked for; which files open is
`opens`. `Txns` has the rows the two lookups see, both read with a cap:
at the marker cap the ceiling comes down to what was loaded.
-/
import Kafgres.Compaction.Pass
import Kafgres.Segment.Reserve
import Mathlib.Data.List.Sort

namespace Kafgres.Fetch

open Compaction Storage

variable {B : Type}

-- ==== the answer

inductive IsolationLevel where
  | readUncommitted
  | readCommitted
deriving DecidableEq, Repr

/-- A producer whose transactional batches a consumer is to drop, from
an offset on. -/
structure AbortedTxn where
  producerId : BitVec 64
  firstOffset : ℤ
deriving DecidableEq, Repr

/-- `FetchSlice`. -/
structure FetchSlice (B : Type) where
  batches : List (Batch B)
  nextOffset : ℤ
  highWatermark : ℤ
  logStartOffset : ℤ
  lastStableOffset : ℤ
  aborted : List AbortedTxn
deriving DecidableEq, Repr

/-- What a read looks at: the files in the order the directory lists
them, this process's hints, the slot, and the metadata rows. -/
structure Store (B : Type) where
  disk : List (Segment B)
  hints : ℤ → List (ℤ × ℕ) := fun _ => []
  opens : ℤ → Bool := fun _ => true
  nextOffset : ℤ
  logStart : ℤ
  pending : List ℤ
  txns : Txns

-- ==== the tables

/-- `MARKERS_PER_FETCH`. -/
def markersPerFetch : ℕ := 65536

/-- `committed_markers`: the base offsets in a range that have a
committed marker, and the offset up to which that is all of them. -/
def committedMarkers (markers : List ℤ) (from_ to_ : ℤ) : List ℤ × ℤ :=
  let rows := ((markers.filter fun b =>
    decide (from_ ≤ b) && decide (b < to_)).insertionSort (· ≤ ·)).take markersPerFetch
  let highest := rows.foldl max from_
  (rows, if rows.dedup.length < markersPerFetch then to_
    else min (highest + 1) to_)

/-- `MAX_ABORTED_PER_FETCH`. -/
def maxAbortedPerFetch : ℕ := 1000

/-- The rows of `kafgres_txn_aborted` that overlap a range. -/
def overlapping (rows : List Compaction.AbortedTxn) (from_ to_ : ℤ) : List Compaction.AbortedTxn :=
  (rows.filter fun a =>
    decide (a.lastOffset ≥ from_) &&
      decide (a.firstOffset < to_)).insertionSort fun a a' => a.firstOffset ≤ a'.firstOffset

/-- `aborted_txns`: the first of them. -/
def abortedTxns (rows : List Compaction.AbortedTxn) (from_ to_ : ℤ) : List AbortedTxn :=
  ((overlapping rows from_ to_).take maxAbortedPerFetch).map fun a =>
    ⟨a.producerId, a.firstOffset⟩

/-- `kafka_txn_lso`. -/
def kafkaTxnLso (t : Txns) : Option ℤ := ((t.ongoing.map (·.2)).filter fun o => decide (0 ≤ o)).min?

namespace Store

/-- `Slot::pending_floor`. -/
def pendingFloor (s : Store B) : ℤ :=
  match s.pending.min? with
  | some b => min b s.nextOffset
  | none => s.nextOffset

/-- `last_stable_offset_impl`. -/
def lastStableOffset (s : Store B) : ℤ :=
  Segment.lastStableOffset s.pendingFloor (kafkaTxnLso s.txns)

end Store

-- ==== the loops

/-- What bounds one read. `committed` is the loaded markers, for a
`read_committed` consumer. -/
structure Limits where
  offset : ℤ
  ceiling : ℤ
  maxBytes : ℕ
  committed : Option (List ℤ)

/-- What a read has gathered. -/
structure Reading (B : Type) where
  out : List (Batch B)
  next : ℤ
  aborted : List AbortedTxn

def Reading.bytes (r : Reading B) : ℕ := (r.out.map (·.len)).sum

/-- A marker-backed batch with no committed marker is an orphan of a
rolled-back transaction. -/
def orphan (committed : Option (List ℤ)) (b : Batch B) : Bool :=
  match committed with
  | none => false
  | some markers => b.transactional && !b.control && b.markerBacked &&
      !markers.contains b.baseOffset

/-- An orphan is reported as aborted from its own offset on. -/
def Reading.note (committed : Option (List ℤ)) (b : Batch B) (r : Reading B) : Reading B :=
  if orphan committed b then
    { r with aborted := r.aborted ++ [⟨b.producerId, b.baseOffset⟩] }
  else r

/-- The batch goes into the answer. -/
def Reading.take (b : Batch B) (r : Reading B) : Reading B :=
  { r with out := r.out ++ [b], next := b.lastOffset + 1 }

/-- The loop over a segment's batches; `true` when the answer is
full. -/
def readBatches (l : Limits) : List (Batch B) → Reading B → Reading B × Bool
  | [], r => (r, false)
  | b :: bs, r =>
    if b.lastOffset < l.offset then readBatches l bs r
    else if b.baseOffset ≥ l.ceiling then (r, false)
    else if (r.note l.committed b).bytes ≠ 0 ∧
        (r.note l.committed b).bytes + b.len > l.maxBytes then
      (r.note l.committed b, true)
    else if ((r.note l.committed b).take b).bytes ≥ l.maxBytes then
      ((r.note l.committed b).take b, true)
    else readBatches l bs ((r.note l.committed b).take b)

/-- Where a read enters a segment: the last hint at or below the offset
it has got to. -/
def startAt (entries : List (ℤ × ℕ)) (next : ℤ) : ℕ :=
  match entries.reverse.find? fun e => decide (e.1 ≤ next) with
  | some e => e.2
  | none => 0

/-- The loop over the segments, in base order. -/
def readSegments (s : Store B) (l : Limits) : List (Segment B) → Reading B → StoreResult (Reading B)
  | [], r => .ok r
  | seg :: rest, r =>
    let nextBase := rest.head?.map (·.base)
    if nextBase.any fun b => decide (b ≤ l.offset) then
      readSegments s l rest r
    else if !s.opens seg.base then
      if nextBase.any fun b => decide (b ≤ s.logStart) then
        readSegments s l rest r
      else .error (.io "open")
    else
      match readBatches l (seg.batches.drop (startAt (s.hints seg.base) r.next)) r with
      | (r, true) => .ok r
      | (r, false) => readSegments s l rest r

/-- `segment_bases`, sorted. -/
def Store.segments (s : Store B) : List (Segment B) :=
  s.disk.insertionSort fun a b => a.base ≤ b.base

/-- What the isolation level keeps a read below. -/
def Store.ceiling (s : Store B) : IsolationLevel → ℤ
  | .readCommitted => s.lastStableOffset
  | .readUncommitted => s.nextOffset

/-- The markers a read loads and the ceiling they leave it. -/
def limits (s : Store B) (offset : ℤ) (maxBytes : ℕ) : IsolationLevel → Limits
  | .readUncommitted => ⟨offset, s.nextOffset, maxBytes, none⟩
  | .readCommitted =>
    let m := committedMarkers s.txns.markers offset s.lastStableOffset
    ⟨offset, m.2, maxBytes, some m.1⟩

/-- `SegmentStore::read`: whole batches only, byte-capped, and always at
least one. -/
def read (s : Store B) (offset : ℤ) (maxBytes : ℕ)
    (isolation : IsolationLevel) : StoreResult (FetchSlice B) :=
  let slice (r : Reading B) : FetchSlice B :=
    ⟨r.out, r.next, s.nextOffset, s.logStart, s.lastStableOffset, r.aborted⟩
  if offset < s.logStart ∨ offset > s.nextOffset then .error .offsetOutOfRange
  else if offset < s.ceiling isolation then
    match readSegments s (limits s offset maxBytes isolation) s.segments ⟨[], offset, []⟩ with
    | .error e => .error e
    | .ok r =>
      match isolation with
      | .readUncommitted => .ok (slice r)
      | .readCommitted =>
        let kafka := abortedTxns s.txns.aborted offset (max r.next (offset + 1))
        .ok (slice { r with aborted := r.aborted ++ kafka })
  else .ok (slice ⟨[], offset, []⟩)

end Kafgres.Fetch
