/-
The rest of the record batch (codec/src/records.rs): the fields the
produce path reads, the batches of a `records` blob, and the batches the
broker builds itself.

Three writers build batches here: `kafgres_produce()` and the change
stream their records, the transaction coordinator its markers. A client
sends its own bytes.
-/
import Kafgres.Codec.RecordBatch

namespace Kafgres.Codec

open Bytes

-- ==== fields

def producerIdOffset : ℕ := 43
def producerEpochOffset : ℕ := 51
def baseSequenceOffset : ℕ := 53

/-- `isTransactional`. -/
def transactionalFlag : BitVec 16 := 0x10#16

/-- `isControl`. -/
def controlBatchFlag : BitVec 16 := 0x20#16

namespace RecordBatch

/-- A batch `new` takes is the one it was given, with a whole header. -/
theorem of_new {bs x : List UInt8} (h : new bs = .ok x) :
    x = bs ∧ recordBatchOverhead ≤ bs.length ∧ 0 ≤ lastOffsetDelta bs := by
  unfold new at h
  split_ifs at h with h1 h2 h3 h4 h5
  cases h
  exact ⟨rfl, by omega, by omega⟩

def attributes (bs : List UInt8) : BitVec 16 :=
  BitVec.ofNat 16 (fromBe (field bs attributesOffset 2))

def isTransactional (bs : List UInt8) : Bool := attributes bs &&& transactionalFlag != 0#16

def isControl (bs : List UInt8) : Bool := attributes bs &&& controlBatchFlag != 0#16

def producerId (bs : List UInt8) : ℤ := readI64 bs producerIdOffset

def producerEpoch (bs : List UInt8) : ℤ := signed 16 (fromBe (field bs producerEpochOffset 2))

def baseSequence (bs : List UInt8) : ℤ := readI32 bs baseSequenceOffset

end RecordBatch

-- ==== blobs

/-- `BatchIter`, for at most as many rounds as there are bytes: each
round takes one or is the last. -/
def batchRounds : ℕ → List UInt8 → List (Except BatchError (List UInt8))
  | 0, _ => []
  | n + 1, buf =>
    if buf = [] then []
    else if buf.length < lengthOffset + 4 then
      [.error (.tooShort buf.length)]
    else
      let total := batchLength buf + (lengthOffset + 4)
      if total ≤ 0 ∨ total > buf.length then
        [.error (.lengthMismatch total buf.length)]
      else
        RecordBatch.new (buf.take total.toNat) :: batchRounds n (buf.drop total.toNat)

/-- The batches of a `records` field. -/
def batchIter (buf : List UInt8) : List (Except BatchError (List UInt8)) :=
  batchRounds buf.length buf

-- ==== varints

/-- The loop of `put_varint_i64`: seven bits a byte, and no 64-bit
number has more than ten such groups. -/
def varintBytes : ℕ → ℕ → List UInt8
  | 0, v => [UInt8.ofNat v]
  | n + 1, v =>
    if v ≥ 0x80 then
      (UInt8.ofNat v ||| 0x80) :: varintBytes n (v / 128)
    else [UInt8.ofNat v]

/-- `put_varint_i64`: zigzag, so that small negatives are short. -/
def varint (value : ℤ) : List UInt8 :=
  let v := BitVec.ofInt 64 value
  varintBytes 9 ((v <<< 1) ^^^ v.sshiftRight 63).toNat

-- ==== builders

/-- A record to put into a batch. -/
structure NewRecord where
  key : Option (List UInt8)
  value : Option (List UInt8)
  timestamp : ℤ

/-- A length and the bytes, or a length of −1. -/
def putField : Option (List UInt8) → List UInt8
  | none => varint (-1)
  | some bytes => varint bytes.length ++ bytes

/-- One record at its delta, behind its length. -/
def putRecord (timestampDelta offsetDelta : ℤ) (key value : Option (List UInt8)) : List UInt8 :=
  let one := [0] ++ varint timestampDelta ++ varint offsetDelta
    ++ putField key ++ putField value ++ varint 0
  varint one.length ++ one

/-- The header around a batch's records: the offset and the leader epoch
are stamped later, the length and the checksum are patched in. -/
def putBatch (crc : List UInt8 → ℕ) (attributes : BitVec 16)
    (count : ℕ) (baseTimestamp maxTimestamp producerId producerEpoch : ℤ)
    (body : List UInt8) : List UInt8 :=
  let covered := toBe 2 attributes.toNat ++ toBe 4 (count - 1)
    ++ toBe 8 (pattern 64 baseTimestamp) ++ toBe 8 (pattern 64 maxTimestamp)
    ++ toBe 8 (pattern 64 producerId) ++ toBe 2 (pattern 16 producerEpoch)
    ++ toBe 4 (pattern 32 (-1)) ++ toBe 4 count ++ body
  toBe 8 0 ++ toBe 4 (covered.length + 9) ++ toBe 4 (pattern 32 (-1))
    ++ [2] ++ toBe 4 (crc covered) ++ covered

/-- `build_batch_full`. The source asserts that there is a first
record. -/
def buildBatchFull (crc : List UInt8 → ℕ) (first : NewRecord)
    (rest : List NewRecord) (producerId : ℤ) (transactional : Bool) : List UInt8 :=
  let records := first :: rest
  putBatch crc (if transactional then transactionalFlag else 0#16) records.length first.timestamp
    (rest.foldl (fun m r => max m r.timestamp) first.timestamp)
    producerId (-1)
    (records.zipIdx.flatMap fun (r, i) =>
      putRecord (r.timestamp - first.timestamp) i r.key r.value)

/-- `build_batch`. -/
def buildBatch (crc : List UInt8 → ℕ) (first : NewRecord) (rest : List NewRecord) : List UInt8 :=
  buildBatchFull crc first rest (-1) false

/-- `build_control_batch`: a transaction marker. Its key is the format
version and the outcome, its value the version and the coordinator's
epoch. -/
def buildControlBatch (crc : List UInt8 → ℕ) (producerId producerEpoch : ℤ)
    (commit : Bool) : List UInt8 :=
  putBatch crc (transactionalFlag ||| controlBatchFlag) 1 0 0 producerId producerEpoch
    (putRecord 0 0 (some (toBe 2 0 ++ toBe 2 (if commit then 1 else 0)))
      (some (List.replicate 6 0)))

end Kafgres.Codec
