/-
The idempotent producer's sequence window (producer.rs): five batches
per producer and partition, oldest first, and the check every batch of
that producer meets.

The rows of `kafgres_producer_batches` for one (producer, topic,
partition) are a list in `added_seq` order; `first_seq` is the rest of
their primary key. Sequences and epochs are the source's `i32` and `i16`
as integers; no operation here leaves those ranges.
-/
import Kafgres.Lib.Recency
import Mathlib.Data.Int.Notation

namespace Kafgres.Producer

/-- `i32::MAX`. -/
def i32Max : ℤ := 2147483647

/-- `NUM_BATCHES_TO_RETAIN` of upstream. -/
def retainedBatches : ℕ := 5

/-- One row of the window. A reservation, written before its bytes are
appended, has `baseOffset` -1. -/
structure Retained where
  epoch : ℤ
  firstSeq : ℤ
  lastSeq : ℤ
  baseOffset : ℤ
deriving DecidableEq, Repr

/-- The rows of one producer on one partition, oldest first. -/
abbrev Window := List Retained

/-- What to do with an incoming batch from an idempotent producer. -/
inductive SequenceCheck where
  | append
  | duplicate (baseOffset : ℤ)
  | outOfOrder (expected got : ℤ)
  /-- Out of sequence against a window written before the current leader
  epoch. -/
  | stale
  | fenced (currentEpoch : ℤ)
deriving DecidableEq, Repr

/-- Upstream's `DefaultRecordBatch.incrementSequence`. -/
def incrementSequence (sequence increment : ℤ) : ℤ :=
  if sequence > i32Max - increment then
    increment - (i32Max - sequence) - 1
  else sequence + increment

/-- Upstream's `inSequence`, including the wraparound. -/
def inSequence (lastSeq nextSeq : ℤ) : Bool :=
  nextSeq = lastSeq + 1 || (nextSeq = 0 && lastSeq = i32Max)

/-- Validate a batch against the producer's retained window.
`epochStart` is the current leader epoch's start offset. -/
def check (retained : Window) (epochStart epoch firstSeq lastSeq : ℤ) : SequenceCheck :=
  match retained.getLast? with
  -- No state at all: accept whatever sequence arrives.
  | none => .append
  | some newest =>
    if epoch < newest.epoch then .fenced newest.epoch
    else if epoch > newest.epoch then
      if firstSeq ≠ 0 then .outOfOrder 0 firstSeq else .append
    else
      match retained.find? fun r => r.epoch = newest.epoch
          && r.firstSeq = firstSeq && r.lastSeq = lastSeq with
      | some dup => .duplicate dup.baseOffset
      | none =>
        if inSequence newest.lastSeq firstSeq then .append
        else if newest.baseOffset ≥ 0 ∧ newest.baseOffset < epochStart then .stale
        else .outOfOrder (incrementSequence newest.lastSeq 1) firstSeq

/-- Record a batch and prune the window back to the retained depth. -/
def record (w : Window) (r : Retained) : Window := Recency.put retainedBatches Retained.firstSeq w r

/-- Stamp the offset a reservation was appended at. -/
def stamp (w : Window) (firstSeq baseOffset : ℤ) : Window := w.map fun r =>
    if r.firstSeq = firstSeq then { r with baseOffset := baseOffset } else r

/-- Drop a reservation whose batch was never appended. -/
def release (w : Window) (firstSeq : ℤ) : Window :=
  w.filter fun r => !(r.firstSeq = firstSeq && r.baseOffset < 0)

-- ==== runs

/-- What the check reads off a batch header. `RecordBatch::new` refuses a
negative `lastOffsetDelta`. -/
structure Incoming where
  epoch : ℤ
  firstSeq : ℤ
  lastOffsetDelta : ℤ
  firstSeq_le : firstSeq ≤ i32Max
  delta_nonneg : 0 ≤ lastOffsetDelta
  delta_le : lastOffsetDelta ≤ i32Max

namespace Incoming

def lastSeq (b : Incoming) : ℤ := incrementSequence b.firstSeq b.lastOffsetDelta

/-- How many sequence numbers the batch takes. -/
def len (b : Incoming) : ℤ := b.lastOffsetDelta + 1

end Incoming

/-- One call: the batch, the leader epoch's start then, and the offset
the batch is appended at if it is accepted. -/
structure Arrival extends Incoming where
  epochStart : ℤ
  baseOffset : ℤ

def Arrival.row (a : Arrival) : Retained := ⟨a.epoch, a.firstSeq, a.lastSeq, a.baseOffset⟩

/-- A window and, for the statements, the batches accepted into it. -/
structure WindowState where
  window : Window := []
  accepted : List Arrival := []

/-- Check a batch, and record it if the answer is to append. -/
def WindowState.step (s : WindowState) (a : Arrival) : WindowState :=
  match check s.window a.epochStart a.epoch a.firstSeq a.lastSeq with
  | .append => ⟨record s.window a.row, s.accepted ++ [a]⟩
  | _ => s

/-- The window after a run of calls, starting empty. -/
def runWindow (arrivals : List Arrival) : WindowState := arrivals.foldl WindowState.step {}

end Kafgres.Producer
