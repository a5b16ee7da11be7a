/-
The record batch header (codec/src/records.rs): the fields the log
engine reads, what makes a byte string a batch, and the stamp a broker
writes into one.

`crc` is the `crc32c` crate's checksum. It is a parameter: nothing here
depends on which function it is.
-/
import Kafgres.Lib.Bytes

namespace Kafgres.Codec

open Bytes

def baseOffsetOffset : ℕ := 0
def lengthOffset : ℕ := 8
def magicOffset : ℕ := 16
def crcOffset : ℕ := 17
def attributesOffset : ℕ := 21
def lastOffsetDeltaOffset : ℕ := 23
def maxTimestampOffset : ℕ := 35
def recordCountOffset : ℕ := 57
def recordBatchOverhead : ℕ := 61

/-- `i32::from_be_bytes` of the four bytes at a position. -/
def readI32 (bs : List UInt8) (at_ : ℕ) : ℤ := signed 32 (fromBe (field bs at_ 4))

/-- `i64::from_be_bytes` of the eight bytes at a position. -/
def readI64 (bs : List UInt8) (at_ : ℕ) : ℤ := signed 64 (fromBe (field bs at_ 8))

def baseOffset (bs : List UInt8) : ℤ := readI64 bs baseOffsetOffset
def batchLength (bs : List UInt8) : ℤ := readI32 bs lengthOffset
def magic (bs : List UInt8) : ℤ := signed 8 (fromBe (field bs magicOffset 1))
def storedCrc (bs : List UInt8) : ℕ := fromBe (field bs crcOffset 4)
def lastOffsetDelta (bs : List UInt8) : ℤ := readI32 bs lastOffsetDeltaOffset
def maxTimestamp (bs : List UInt8) : ℤ := readI64 bs maxTimestampOffset
def recordCount (bs : List UInt8) : ℤ := readI32 bs recordCountOffset

/-- The refusals of `RecordBatch::new` and `verify_crc`. -/
inductive BatchError where
  | tooShort (len : ℕ)
  | unsupportedMagic (magic : ℤ)
  | crcMismatch (stored computed : ℕ)
  | lengthMismatch (declared : ℤ) (actual : ℕ)
  | negativeExtent (field : String) (value : ℤ)
deriving DecidableEq, Repr

namespace RecordBatch

/-- `RecordBatch::new`. The declared length counts everything after
itself. -/
def new (bs : List UInt8) : Except BatchError (List UInt8) :=
  if bs.length < recordBatchOverhead then .error (.tooShort bs.length)
  else if magic bs ≠ 2 then .error (.unsupportedMagic (magic bs))
  else if batchLength bs + (lengthOffset + 4) ≠ bs.length then
    .error (.lengthMismatch (batchLength bs + (lengthOffset + 4)) bs.length)
  else if lastOffsetDelta bs < 0 then
    .error (.negativeExtent "lastOffsetDelta" (lastOffsetDelta bs))
  else if recordCount bs < 0 then
    .error (.negativeExtent "recordCount" (recordCount bs))
  else .ok bs

/-- `verify_crc`: the checksum covers everything from the attributes
on. -/
def verifyCrc (crc : List UInt8 → ℕ) (bs : List UInt8) : Except BatchError Unit :=
  if storedCrc bs = crc (bs.drop attributesOffset) then .ok ()
  else .error (.crcMismatch (storedCrc bs) (crc (bs.drop attributesOffset)))

/-- `RecordBatch::validated`. -/
def validated (crc : List UInt8 → ℕ) (bs : List UInt8) : Except BatchError (List UInt8) := do
  let batch ← new bs
  verifyCrc crc batch
  return batch

/-- `ValidatedBatch::stamp`: the offset and the leader epoch, both
outside the checksum, are written over. -/
def stamp (bs : List UInt8) (base epoch : ℤ) : List UInt8 :=
  toBe 8 (pattern 64 base) ++ field bs lengthOffset 4
    ++ toBe 4 (pattern 32 epoch) ++ bs.drop magicOffset

end RecordBatch

/-- `max_timestamp_of`: nothing for a string too short to be a batch. -/
def maxTimestampOf (bs : List UInt8) : Option ℤ :=
  if bs.length < recordBatchOverhead then none else some (maxTimestamp bs)

/-- `last_offset_delta_of`: zero for a string too short to have one. -/
def lastOffsetDeltaOf (bs : List UInt8) : ℤ :=
  if bs.length < lastOffsetDeltaOffset + 4 then 0 else lastOffsetDelta bs

/-- A batch the engine stores: its bytes pass both checks. -/
def IsBatch (crc : List UInt8 → ℕ) (bs : List UInt8) : Prop := RecordBatch.validated crc bs = .ok bs

instance (crc : List UInt8 → ℕ) (bs : List UInt8) : Decidable (IsBatch crc bs) :=
  inferInstanceAs (Decidable (_ = _))

end Kafgres.Codec
