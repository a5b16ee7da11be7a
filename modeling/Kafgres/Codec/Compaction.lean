/-
The cleaner's arithmetic (codec/src/compaction.rs): the offset map over
a stretch of log, which records of a batch survive it, and the batch
rebuilt around the survivors.

A batch is its header fields and the records it holds. Byte strings
(keys, values, header names) are a type `B` of which only the lengths
matter, given with the size and the checksum of a built batch by `Wire`.

The two readers of records run over a decompressing stream and may stop
early, at `keyFault` or `recordFault`. Both check every record the same
way, except that a reader which keeps the records refuses one too large
to hold, so a batch can be readable for its keys only (`Batch.Decodes`).
-/
import Kafgres.Lib.KeyedLog
import Kafgres.Lib.Peaks
import Mathlib.Algebra.Group.Int.Defs
import Mathlib.Algebra.GroupWithZero.Nat

namespace Kafgres.Compaction

open KeyedLog Peaks

-- ==== batches

/-- One record as a batch holds it, at a delta from the base. -/
structure Record (B : Type) where
  attributes : ℤ
  timestampDelta : ℤ
  offsetDelta : ℤ
  key : Option B
  value : Option B
  headers : List (B × Option B)
deriving DecidableEq, Repr

/-- One record kept from an existing batch, carrying the offset it was
written at. -/
structure KeptRecord (B : Type) where
  offset : ℤ
  timestamp : ℤ
  key : Option B
  value : Option B
  headers : List (B × Option B)
  attributes : ℤ
deriving DecidableEq, Repr

/-- What reading a record can fail with: `DecompressedTooLarge`, or any
other refusal. -/
inductive DecodeError where
  | tooLarge
  | malformed
deriving DecidableEq, Repr

/-- A stored record batch: the header, the records, and where the two
readers stop. -/
structure Batch (B : Type) where
  baseOffset : ℤ
  partitionLeaderEpoch : ℤ
  compressionType : ℕ
  transactional : Bool
  control : Bool
  lastOffsetDelta : ℤ
  baseTimestamp : ℤ
  maxTimestamp : ℤ
  producerId : BitVec 64
  producerEpoch : ℤ
  baseSequence : ℤ
  recordCount : ℤ
  records : List (Record B)
  storedCrc : ℕ
  len : ℕ
  keyFault : Option ℕ := none
  recordFault : Option (ℕ × DecodeError) := none
deriving DecidableEq, Repr

/-- What the wire form says of byte strings and of a batch being built:
the length of the one, the size and the checksum of the other. -/
class Wire (B : Type) where
  length : B → ℕ
  batchLen : Batch B → List (KeptRecord B) → ℕ
  crc32c : Batch B → List (KeptRecord B) → ℕ

variable {B : Type}

namespace Batch

def lastOffset (b : Batch B) : ℤ := b.baseOffset + b.lastOffsetDelta

def compressed (b : Batch B) : Bool := b.compressionType != 0

/-- The offset of one of the batch's records. -/
def offset (b : Batch B) (r : Record B) : ℤ := b.baseOffset + r.offsetDelta

/-- The records `stream_keys` gets to. -/
def streamKeys (b : Batch B) : List (Record B) :=
  match b.keyFault with
  | none => b.records
  | some n => b.records.take n

/-- The records `stream_records` gets to. -/
def streamRecords (b : Batch B) : List (Record B) :=
  match b.recordFault with
  | none => b.records
  | some (n, _) => b.records.take n

/-- The records as a reader of the topic has them. -/
def entries (b : Batch B) : List (Entry ℤ B B) :=
  b.records.map fun r => ⟨b.offset r, r.key, r.value⟩

end Batch

-- ==== the offset map

/-- The latest offset of each key over a stretch of log, by the key's
fingerprint. Nothing above `endOffset` can be judged. -/
structure OffsetMap (B : Type) where
  fingerprint : B → BitVec 128
  latest : List (BitVec 128 × ℤ)
  endOffset : ℤ

namespace OffsetMap

/-- An empty map under the hashers it was made with. -/
def new (fingerprint : B → BitVec 128) : OffsetMap B :=
  { fingerprint, latest := [], endOffset := -1 }

/-- The map moved past an offset. -/
def past (m : OffsetMap B) (offset : ℤ) : OffsetMap B :=
  { m with endOffset := max m.endOffset offset }

/-- The loop of `add_batch`: the keys of the batch with their latest
offsets, `none` as soon as the map would hold more than `maxKeys`.
`new` counts the keys the map does not have yet. -/
def findKeys (m : OffsetMap B) (b : Batch B) (maxKeys : ℕ) :
    List (Record B) → List (BitVec 128 × ℤ) → ℕ →
      Except DecodeError (Option (List (BitVec 128 × ℤ)))
  | [], found, _ =>
    if b.keyFault.isSome then .error .malformed else .ok (some found)
  | r :: rs, found, new =>
    match r.key with
    | none => findKeys m b maxKeys rs found new
    | some key =>
      let f := m.fingerprint key
      let fresh := (found.lookup f).isNone && (m.latest.lookup f).isNone
      let new := new + fresh.toNat
      if m.latest ≠ [] ∧ m.latest.length + new > maxKeys then .ok none
      else findKeys m b maxKeys rs (raise found f (b.offset r)) new

/-- `OffsetMap::add_batch`: the map with every keyed record of the
batch, or `false` with the map as it was when that would pass
`maxKeys`. -/
def addBatch (m : OffsetMap B) (b : Batch B) (maxKeys : ℕ) :
    Except DecodeError (Bool × OffsetMap B) :=
  if b.control then .ok (true, m.past b.lastOffset)
  else
    match m.findKeys b maxKeys b.streamKeys [] 0 with
    | .error e => .error e
    | .ok none => .ok (false, m)
    | .ok (some found) =>
      .ok (true,
        { m with latest := raises m.latest found }.past b.lastOffset)

/-- `OffsetMap::superseded`: a later record of this key is in the
map. -/
def superseded (m : OffsetMap B) (key : B) (offset : ℤ) : Bool :=
  match m.latest.lookup (m.fingerprint key) with
  | none => false
  | some latest => decide (offset < latest)

end OffsetMap

-- ==== cleaning

/-- `MAX_DECOMPRESSED_BYTES`. -/
def maxDecompressedBytes : ℕ := 64 * 1024 * 1024

/-- `size_of::<KeptRecord>()`. -/
def keptRecordSize : ℕ := 112

/-- `size_of::<(Bytes, Option<Bytes>)>()`. -/
def headerSize : ℕ := 64

section

variable [Wire B]

/-- `field` in `clean_batch`: a missing field holds nothing. -/
def fieldLen (f : Option B) : ℕ := f.elim 0 Wire.length

/-- What a surviving record holds in memory. -/
def Record.held (r : Record B) : ℕ := keptRecordSize + (fieldLen r.key + fieldLen r.value) +
    (r.headers.map fun h =>
      headerSize + Wire.length h.1 + fieldLen h.2).sum

/-- The record of a batch, with its offset and its timestamp made
absolute. -/
def Batch.keep (b : Batch B) (r : Record B) : KeptRecord B where
  offset := b.offset r
  timestamp := b.baseTimestamp + r.timestampDelta
  key := r.key
  value := r.value
  headers := r.headers
  attributes := r.attributes

/-- Whether a pass drops a record: superseded in the map, or a tombstone
the policy lets go. -/
def OffsetMap.drops (m : OffsetMap B) (tombstoneGoes : ℤ → Bool)
    (b : Batch B) (r : Record B) : Bool :=
  decide (b.offset r ≤ m.endOffset) &&
    match r.key with
    | none => false
    | some key =>
      m.superseded key (b.offset r) || (r.value.isNone && tombstoneGoes (b.offset r))

/-- The loop of `clean_batch` over what `stream_records` reads. The
memory cap is on what a compressed batch's survivors hold. -/
def keepRecords (m : OffsetMap B) (tombstoneGoes : ℤ → Bool) (b : Batch B) :
    List (Record B) → List (KeptRecord B) → ℕ → Bool →
      Except DecodeError (Option (List (KeptRecord B)))
  | [], kept, _, dropped =>
    match b.recordFault with
    | some (_, .tooLarge) => .ok none
    | some (_, .malformed) => .error .malformed
    | none => .ok (if dropped then some kept else none)
  | r :: rs, kept, keptBytes, dropped =>
    if m.drops tombstoneGoes b r then
      keepRecords m tombstoneGoes b rs kept keptBytes true
    else if b.compressed ∧ keptBytes + r.held > maxDecompressedBytes then
      .ok none
    else
      keepRecords m tombstoneGoes b rs (kept ++ [b.keep r]) (keptBytes + r.held) dropped

/-- `clean_batch`: what a pass keeps of one batch, `none` for all of
it. -/
def cleanBatch (b : Batch B) (m : OffsetMap B) (tombstoneGoes : ℤ → Bool) :
    Except DecodeError (Option (List (KeptRecord B))) :=
  if b.control ∨ b.baseOffset > m.endOffset then .ok none
  else keepRecords m tombstoneGoes b b.streamRecords [] 0 false

/-- `rebuild_batch`: one batch rewritten to hold only `kept`, every
survivor at its own offset, and `none` when nothing is kept. The records
are written plain, so both readers get through them. -/
def rebuildBatch (source : Batch B) (kept : List (KeptRecord B)) : Option (Batch B) :=
  match kept with
  | [] => none
  | first :: rest =>
    let last := (first :: rest).getLast (List.cons_ne_nil _ _)
    some
      { source with
        baseOffset := first.offset
        compressionType := 0
        lastOffsetDelta := last.offset - first.offset
        baseTimestamp := first.timestamp
        maxTimestamp := (rest.map (·.timestamp)).foldl max first.timestamp
        recordCount := (first :: rest).length
        records := (first :: rest).map fun k =>
          { attributes := k.attributes
            timestampDelta := k.timestamp - first.timestamp
            offsetDelta := k.offset - first.offset
            key := k.key
            value := k.value
            headers := k.headers }
        storedCrc := Wire.crc32c source (first :: rest)
        len := Wire.batchLen source (first :: rest)
        keyFault := none
        recordFault := none }

end

end Kafgres.Compaction
