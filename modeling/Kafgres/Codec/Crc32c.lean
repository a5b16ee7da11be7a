/-
The checksum the header carries. `crc32c` is the Castagnoli CRC as the
`crc32c` crate documents it, bit by bit; the log engine is verified for
every checksum function, and this one is what its concrete runs use.
-/
import Kafgres.Codec.RecordBatch

namespace Kafgres.Codec

open Bytes

/-- One bit of the reflected Castagnoli polynomial division. -/
def crcBit (c : BitVec 32) : BitVec 32 :=
  if c.getLsbD 0 then (c >>> 1) ^^^ 0x82F63B78#32 else c >>> 1

/-- One byte. -/
def crcByte (c : BitVec 32) (b : UInt8) : BitVec 32 := crcBit^[8] (c ^^^ BitVec.ofNat 32 b.toNat)

def crc32c (bs : List UInt8) : ℕ :=
  (bs.foldl crcByte (BitVec.allOnes 32) ^^^ BitVec.allOnes 32).toNat

-- The check value: the checksum of the digits 1 to 9.
example : crc32c [0x31, 0x32, 0x33, 0x34, 0x35, 0x36, 0x37, 0x38, 0x39]
    = 0xE3069283 := by decide +kernel

/-- A batch as a producer sends it: no producer id, one offset per
record, the given record bytes. -/
def producedBatch (count : ℕ) (records : List UInt8) : List UInt8 :=
  let covered := toBe 2 0 ++ toBe 4 (count - 1) ++ toBe 8 0 ++ toBe 8 0
    ++ toBe 8 (pattern 64 (-1)) ++ toBe 2 (pattern 16 (-1))
    ++ toBe 4 (pattern 32 (-1)) ++ toBe 4 count ++ records
  toBe 8 0 ++ toBe 4 (9 + covered.length) ++ toBe 4 0 ++ [2] ++ toBe 4 (crc32c covered) ++ covered

end Kafgres.Codec
