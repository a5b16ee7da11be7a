/-
What a `read_committed` consumer makes of a fetch, and what it should.

`consume` is the filter every Kafka client applies: walk the batches
with the aborted list in the order of first offsets, drop a producer's
transactional batches from the first offset of an entry until that
producer's abort marker, and drop control batches. `Ledger` is the
transactions themselves, of which the broker's tables show an extract.

A rolled-back `kafgres_produce()` batch is put in the aborted list under
the id of its Postgres transaction, and it never gets an abort marker.
Kafka producers draw their ids from a sequence of their own, so the two
can be equal. `Honest` says when neither that nor the cap of the aborted
list matters to a fetch.
-/
import Kafgres.Fetch.Read
import Kafgres.Lib.Revoke

namespace Kafgres.Fetch

open Compaction

variable {B : Type}

-- ==== the consumer

/-- The records of some batches from an offset on. -/
def delivered (offset : ℤ) (bs : List (Batch B)) : List (ℤ × Record B) :=
  bs.flatMap fun b => (b.records.filter fun r =>
    decide (offset ≤ b.offset r)).map fun r => (b.offset r, r)

/-- A batch as the walk sees it. -/
def item (aborts : Batch B → Bool) (b : Batch B) : Revoke.Item (BitVec 64) :=
  ⟨b.producerId, b.lastOffset, b.control && aborts b⟩

/-- The batches a client keeps. -/
def kept (aborts : Batch B → Bool) (slice : FetchSlice B) : List (Batch B) :=
  ((Revoke.read (item aborts) (slice.aborted.map fun a =>
    ⟨a.producerId, a.firstOffset⟩) slice.batches).filter fun x =>
      !x.1.control && !(x.1.transactional && x.2)).map (·.1)

/-- What a client that fetched at an offset hands to its application. -/
def consume (aborts : Batch B → Bool) (offset : ℤ) (slice : FetchSlice B) : List (ℤ × Record B) :=
  delivered offset (kept aborts slice)

-- ==== the transactions

/-- A Kafka transaction in one partition. `ended` has the outcome and
the offset of the marker. -/
structure KafkaTxn where
  producerId : BitVec 64
  firstOffset : ℤ
  ended : Option (Bool × ℤ)
deriving DecidableEq, Repr

/-- The transactions of a partition: Kafka's, the base offsets of
committed `kafgres_produce()` batches, and of those whose Postgres
transaction is still running. -/
structure Ledger where
  kafka : List KafkaTxn
  markers : List ℤ
  pending : List ℤ

namespace KafkaTxn

/-- The row `record_aborted_txn` keeps. -/
def abortedRow (t : KafkaTxn) : Option Compaction.AbortedTxn :=
  match t.ended with
  | some (false, marker) => some ⟨t.producerId, t.firstOffset, marker⟩
  | _ => none

/-- The batch is the transaction's. -/
def Covers (t : KafkaTxn) (b : Batch B) : Prop :=
  t.producerId = b.producerId ∧ t.firstOffset ≤ b.baseOffset ∧ ∀ e ∈ t.ended, b.lastOffset < e.2

instance (t : KafkaTxn) (b : Batch B) : Decidable (t.Covers b) :=
  inferInstanceAs (Decidable (_ ∧ _ ∧ ∀ e ∈ t.ended, b.lastOffset < e.2))

def committed (t : KafkaTxn) : Bool := t.ended.any (·.1)

def ongoing (t : KafkaTxn) : Bool := t.ended.isNone

end KafkaTxn

/-- What the tables show of the transactions. -/
def Ledger.tables (l : Ledger) : Txns where
  markers := l.markers
  aborted := l.kafka.filterMap (·.abortedRow)
  ongoing := (l.kafka.filter (·.ongoing)).map fun t =>
    (t.producerId, t.firstOffset)

/-- The batch of a Kafka producer's transaction. -/
def kafkaData (b : Batch B) : Bool := b.transactional && !b.control && !b.markerBacked

/-- The batch of a `kafgres_produce()`. -/
def sqlData (b : Batch B) : Bool := b.transactional && !b.control && b.markerBacked

/-- The batch's records are for every reader. -/
def Committed (l : Ledger) (b : Batch B) : Prop :=
  if !b.transactional then True
  else if b.markerBacked then b.baseOffset ∈ l.markers
  else ∃ t ∈ l.kafka, t.Covers b ∧ t.committed = true

instance (l : Ledger) (b : Batch B) : Decidable (Committed l b) :=
  inferInstanceAs (Decidable (if !b.transactional then True
    else if b.markerBacked then b.baseOffset ∈ l.markers
    else ∃ t ∈ l.kafka, t.Covers b ∧ t.committed = true))

namespace Store

/-- The log in order. -/
def log (s : Store B) : List (Batch B) := s.segments.flatMap (·.batches)

end Store

/-- The records a fetch answered up to `next` should give: those of
committed batches below the last stable offset, from the fetch offset
on. -/
def expected (l : Ledger) (s : Store B) (offset next : ℤ) : List (ℤ × Record B) :=
  delivered offset (s.log.filter fun b =>
    decide (offset ≤ b.lastOffset) && decide (b.baseOffset < next) &&
      decide (b.baseOffset < s.lastStableOffset) && !b.control &&
      decide (Committed l b))

-- ==== when the two agree

/-- The batches that fit: the first in any case, then as long as they
stay within `maxBytes`. -/
def fitting (maxBytes : ℕ) : ℕ → List (Batch B) → List (Batch B)
  | _, [] => []
  | used, b :: bs =>
    if used ≠ 0 ∧ used + b.len > maxBytes then []
    else if used + b.len ≥ maxBytes then [b]
    else b :: fitting maxBytes (used + b.len) bs

/-- The batches from an offset on that are below the ceiling and fit. -/
def admitted (s : Store B) (offset : ℤ) (maxBytes : ℕ) : List (Batch B) :=
  if offset < s.lastStableOffset then
    let ceiling := (committedMarkers s.txns.markers offset s.lastStableOffset).2
    fitting maxBytes 0 (s.log.filter fun b =>
      decide (offset ≤ b.lastOffset) && decide (b.baseOffset < ceiling))
  else []

/-- The first offset after some batches. -/
def endOf (offset : ℤ) (bs : List (Batch B)) : ℤ :=
  match bs.getLast? with
  | some b => b.lastOffset + 1
  | none => offset

/-- The aborted transactions that a fetch of those batches reports. -/
def reported (s : Store B) (offset : ℤ) (bs : List (Batch B)) : List Compaction.AbortedTxn :=
  (overlapping s.txns.aborted offset (max (endOf offset bs) (offset + 1))).take maxAbortedPerFetch

/-- No abort marker of the batch's producer id is read before it, at or
after an offset. -/
def Unended (aborts : Batch B → Bool) (bs : List (Batch B)) (first : ℤ) (b : Batch B) : Prop :=
  ∀ c ∈ bs, c.lastOffset < b.lastOffset → c.control = true →
    aborts c = true → c.producerId = b.producerId → c.lastOffset < first

instance (aborts : Batch B → Bool) (bs : List (Batch B)) (first : ℤ)
    (b : Batch B) : Decidable (Unended aborts bs first b) :=
  inferInstanceAs (Decidable (∀ c ∈ bs, _))

/-- The batch lies in a reported transaction of its producer id. -/
def InReported (aborts : Batch B → Bool) (s : Store B) (offset : ℤ)
    (bs : List (Batch B)) (b : Batch B) : Prop :=
  ∃ row ∈ reported s offset bs, row.producerId = b.producerId ∧
    row.firstOffset ≤ b.baseOffset ∧ b.lastOffset < row.lastOffset ∧
    Unended aborts bs row.firstOffset b

instance (aborts : Batch B → Bool) (s : Store B) (offset : ℤ) (bs : List (Batch B)) (b : Batch B) :
    Decidable (InReported aborts s offset bs b) :=
  inferInstanceAs (Decidable (∃ row ∈ reported s offset bs, _))

/-- A rolled-back `kafgres_produce()` batch with its producer id is read
at or before it, with no abort marker of that id between them. -/
def Shadowed (aborts : Batch B → Bool) (l : Ledger) (bs : List (Batch B)) (b : Batch B) : Prop :=
  ∃ r ∈ bs, sqlData r = true ∧ r.baseOffset ∉ l.markers ∧
    r.producerId = b.producerId ∧ r.baseOffset ≤ b.lastOffset ∧
    Unended aborts bs r.baseOffset b

instance (aborts : Batch B → Bool) (l : Ledger) (bs : List (Batch B))
    (b : Batch B) : Decidable (Shadowed aborts l bs b) :=
  inferInstanceAs (Decidable (∃ r ∈ bs, _))

/-- Every batch of an aborted Kafka transaction in the fetch lies in a
reported one (or is hidden by a rolled-back `kafgres_produce()` batch of
its id); no committed `kafgres_produce()` batch lies in a reported Kafka
transaction of its id; and no committed Kafka batch comes after a
rolled-back `kafgres_produce()` batch of its id. -/
structure Honest (aborts : Batch B → Bool) (l : Ledger) (s : Store B)
    (offset : ℤ) (bs : List (Batch B)) : Prop where
  reported : ∀ b ∈ bs, kafkaData b = true → ¬ Committed l b →
    InReported aborts s offset bs b ∨ Shadowed aborts l bs b
  sql_clear : ∀ b ∈ bs, sqlData b = true → Committed l b →
    ¬ InReported aborts s offset bs b
  kafka_clear : ∀ b ∈ bs, kafkaData b = true → Committed l b →
    ¬ Shadowed aborts l bs b

-- ==== what is assumed

/-- The partition's log, its files and its transactions belong together.

Batches lie in offset order, in segments in base order, and hints point
at or below the batch they name. A Kafka producer has one transaction at
a time, and a batch of one lies between its first offset and its marker.
A `kafgres_produce()` batch holds one record. After a rolled-back
savepoint a Postgres transaction takes a new producer id, so none is
committed after one of its id that was rolled back. -/
structure Consistent (aborts : Batch B → Bool) (s : Store B) (l : Ledger) :
    Prop where
  markers : s.txns.markers = l.tables.markers
  aborted : s.txns.aborted = l.tables.aborted
  ongoing : s.txns.ongoing = l.tables.ongoing
  pending : s.pending = l.pending
  nodup : l.markers.Nodup
  placed : s.segments.Pairwise fun a b => a.base < b.base ∧
    ∀ x ∈ a.batches, x.lastOffset < b.base
  ordered : s.log.Pairwise (·.lastOffset < ·.baseOffset)
  extent : ∀ b ∈ s.log, b.baseOffset ≤ b.lastOffset ∧ 0 < b.len
  below : ∀ b ∈ s.log, b.lastOffset < s.nextOffset
  records : ∀ b ∈ s.log, ∀ r ∈ b.records,
    b.baseOffset ≤ b.offset r ∧ b.offset r ≤ b.lastOffset
  last_record : ∀ b ∈ s.log, b.control = false →
    ∃ r ∈ b.records, b.offset r = b.lastOffset
  hints : ∀ seg ∈ s.segments, ∀ e ∈ s.hints seg.base,
    ∀ b ∈ seg.batches.take e.2, b.lastOffset < e.1
  kafka_batch : ∀ b ∈ s.log, kafkaData b = true → ∃ t ∈ l.kafka, t.Covers b
  kafka_apart : ∀ t ∈ l.kafka, ∀ t' ∈ l.kafka,
    t.producerId = t'.producerId → t = t' ∨ (∃ e ∈ t.ended, e.2 < t'.firstOffset) ∨
      (∃ e ∈ t'.ended, e.2 < t.firstOffset)
  kafka_first : ∀ t ∈ l.kafka, 0 ≤ t.firstOffset ∧
    (∀ e ∈ t.ended, t.firstOffset ≤ e.2) ∧
    ∀ b ∈ s.log, b.baseOffset < t.firstOffset → b.lastOffset < t.firstOffset
  abort_marker : ∀ t ∈ l.kafka, ∀ e ∈ t.ended, e.1 = false →
    ∃ c ∈ s.log, c.baseOffset = e.2 ∧ c.lastOffset = e.2 ∧
      c.control = true ∧ aborts c = true ∧ c.producerId = t.producerId
  sql_single : ∀ b ∈ s.log, sqlData b = true → b.lastOffset = b.baseOffset
  sql_apart : ∀ b ∈ s.log, ∀ b' ∈ s.log, sqlData b = true →
    sqlData b' = true → b.producerId = b'.producerId →
      b.baseOffset ≤ b'.lastOffset → b'.baseOffset ∈ l.markers → b.baseOffset ∈ l.markers
  sql_pending : ∀ o ∈ l.pending, ∀ b ∈ s.log, b.baseOffset < o →
    b.lastOffset < o

end Kafgres.Fetch
