/-
What a compaction pass asks before it touches a batch
(extension/src/storage/mod.rs): whether the batch is committed, whether
a tombstone has waited long enough, and whether its records are known
not to decode.

`Txns` is what the transaction tables say of one partition. `settled`
is the outcome itself; `Judge.committed` is the lookup a pass makes, and
it is asked only below the last stable offset, where nothing is still
open (`Txns.Decided`). A stored batch's checksum is taken to be good, so
the one error of `map_batch` and `clean_or_keep` does not arise.
-/
import Kafgres.Codec.Compaction
import Kafgres.ProduceSql.Session

namespace Kafgres.Compaction

variable {B : Type}

-- ==== transactions

/-- A row of `kafgres_txn_aborted`. -/
structure AbortedTxn where
  producerId : BitVec 64
  firstOffset : ℤ
  lastOffset : ℤ
deriving DecidableEq, Repr

/-- The transactions of one partition: the base offsets with a row in
`kafgres_markers`, the transaction ids a pass's snapshot sees finished,
the aborted Kafka transactions, and the ones still ongoing with their
first offset. -/
structure Txns where
  markers : List ℤ := []
  visible : List (BitVec 64) := []
  aborted : List AbortedTxn := []
  ongoing : List (BitVec 64 × ℤ) := []
deriving DecidableEq, Repr

/-- `segment::is_marker_backed`: the batch is `kafgres_produce()`'s. -/
def Batch.markerBacked (b : Batch B) : Bool := decide (b.producerEpoch < 0)

namespace Txns

/-- `pmeta::marker_state`: the marker exists, and its writer has
finished. -/
def markerState (t : Txns) (base : ℤ) (xid : BitVec 64) : Bool × Bool :=
  (t.markers.contains base, t.visible.contains xid)

/-- `pmeta::aborted_at`. -/
def abortedAt (t : Txns) (producerId : BitVec 64) (offset : ℤ) : Bool :=
  t.aborted.any fun a => a.producerId == producerId &&
    decide (a.firstOffset ≤ offset) && decide (offset ≤ a.lastOffset)

/-- The producer's transaction is still open at the offset. -/
def openAt (t : Txns) (producerId : BitVec 64) (offset : ℤ) : Bool :=
  t.ongoing.any fun a => a.1 == producerId && decide (a.2 ≤ offset)

/-- The batch's records are committed. -/
def settled (t : Txns) (b : Batch B) : Bool :=
  if !b.transactional || b.control then true
  else if b.markerBacked then t.markers.contains b.baseOffset
  else !t.abortedAt b.producerId b.baseOffset && !t.openAt b.producerId b.baseOffset

/-- The batch holds records, and they are committed. -/
def Live (t : Txns) (b : Batch B) : Prop := b.control = false ∧ t.settled b = true

instance (t : Txns) (b : Batch B) : Decidable (t.Live b) := inferInstanceAs (Decidable (_ ∧ _))

/-- A batch whose transaction is over: if a Kafka producer wrote it in
one, that is not open anywhere in the batch, and an abort covers the
batch as a whole or not at all. -/
def Decided (t : Txns) (b : Batch B) : Prop :=
  b.transactional = true → b.control = false → b.markerBacked = false →
    ∀ o, b.baseOffset ≤ o → o ≤ b.lastOffset → t.openAt b.producerId o = false ∧
        t.abortedAt b.producerId o = t.abortedAt b.producerId b.baseOffset

end Txns

-- ==== the judge

/-- How a pass over the segments goes wrong. -/
inductive StoreError where
  | notVisible (xid : BitVec 64)
  | corrupt (base : ℤ)
  | swapping (base : ℤ)
deriving DecidableEq, Repr

/-- What a compaction pass may do with a batch, beyond what the offset
map says. `cleaned` is the partition's history in `CLEANED`. -/
structure Judge where
  txns : Txns
  dirtyFrom : ℤ
  tombstoneHorizon : ℤ
  keepTombstones : Bool
  cleaned : List (ℤ × ℤ)

/-- `CLEANED_HISTORY`. -/
def cleanedHistory : ℕ := 64

/-- `record_cleaned`: offsets at or below `endOffset` have been clean
since `atMs`. -/
def recordCleaned (history : List (ℤ × ℤ)) (endOffset atMs : ℤ) : List (ℤ × ℤ) :=
  let history := history ++ [(endOffset, atMs)]
  if history.length > cleanedHistory then history.drop 1 else history

namespace Judge

/-- `Judge::committed`. -/
def committed (j : Judge) (b : Batch B) : Except StoreError Bool :=
  if !b.transactional || b.control then .ok true
  else if b.markerBacked then
    let xid := ProduceSql.xidOfSqlProducerId b.producerId
    match j.txns.markerState b.baseOffset xid with
    | (true, _) => .ok true
    | (false, true) => .ok false
    | (false, false) => .error (.notVisible xid)
  else .ok !j.txns.abortedAt b.producerId b.baseOffset

/-- `Judge::tombstone_goes`: a tombstone goes after
`delete.retention.ms` in the clean section. -/
def tombstoneGoes (j : Judge) (offset : ℤ) : Bool :=
  if j.keepTombstones || decide (offset ≥ j.dirtyFrom) then false
  else
    match j.cleaned.find? fun c => decide (c.1 ≥ offset) with
    | none => false
    | some (_, at_) => decide (at_ ≤ j.tombstoneHorizon)

end Judge

-- ==== batches left verbatim

/-- `UNDECODABLE_HISTORY`. -/
def undecodableHistory : ℕ := 4096

/-- `is_known_undecodable`. -/
def isKnownUndecodable (known : List (ℤ × ℕ)) (b : Batch B) : Bool :=
  known.contains (b.baseOffset, b.storedCrc)

/-- `undecodable`: remember the batch, while there is room. -/
def undecodable (known : List (ℤ × ℕ)) (b : Batch B) : List (ℤ × ℕ) :=
  if known.length ≥ undecodableHistory then known
  else known.insert (b.baseOffset, b.storedCrc)

/-- `map_batch`: the keys of a batch into the map, `false` when they
would not fit. A batch whose records do not decode supersedes nothing,
but the map moves past it. -/
def mapBatch (known : List (ℤ × ℕ)) (m : OffsetMap B) (b : Batch B)
    (maxKeys : ℕ) : List (ℤ × ℕ) × OffsetMap B × Bool :=
  if isKnownUndecodable known b then (known, m.past b.lastOffset, true)
  else
    match m.addBatch b maxKeys with
    | .ok (fits, m') => (known, m', fits)
    | .error _ => (undecodable known b, m.past b.lastOffset, true)

/-- `clean_or_keep`: what is kept of a batch, `none` for all of it; one
whose records do not decode is kept verbatim. -/
def cleanOrKeep [Wire B] (known : List (ℤ × ℕ)) (b : Batch B)
    (m : OffsetMap B) (tombstoneGoes : ℤ → Bool) : List (ℤ × ℕ) × Option (List (KeptRecord B)) :=
  if isKnownUndecodable known b then (known, none)
  else
    match cleanBatch b m tombstoneGoes with
    | .ok kept => (known, kept)
    | .error _ => (undecodable known b, none)

end Kafgres.Compaction
