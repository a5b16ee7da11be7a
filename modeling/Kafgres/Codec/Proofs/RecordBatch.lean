/-
What the header checks buy the log engine: batches are self-delimiting,
and a stamped batch carries the stamped offset.
-/
import Kafgres.Codec.RecordBatch
import Kafgres.Lib.Framing
import Mathlib.Tactic.NormNum

namespace Kafgres.Codec

open Bytes List RecordBatch

variable {crc : List UInt8 → ℕ} {bs : List UInt8}

/-- The checks, as facts. -/
theorem isBatch_iff :
    IsBatch crc bs ↔ recordBatchOverhead ≤ bs.length ∧ magic bs = 2 ∧
    batchLength bs + (lengthOffset + 4) = bs.length ∧
    0 ≤ lastOffsetDelta bs ∧ 0 ≤ recordCount bs ∧
    storedCrc bs = crc (bs.drop attributesOffset) := by
  unfold IsBatch validated new verifyCrc
  split_ifs with h1 h2 h3 h4 h5 <;>
    simp only [bind, Except.bind, pure, Except.pure, reduceCtorEq, false_iff]
  · omega
  · omega
  · omega
  · omega
  · omega
  · split_ifs with h6
    · simp only [true_iff]
      exact ⟨by omega, by omega, by omega, by omega, by omega, h6⟩
    · simp only [false_iff]
      exact fun h => h6 h.2.2.2.2.2

/-- `validated` answers the string it was given, or an error. -/
theorem isBatch_of_validated {x : List UInt8}
    (h : validated crc bs = .ok x) : x = bs ∧ IsBatch crc bs := by
  have hx : x = bs := by
    unfold validated new verifyCrc at h
    split_ifs at h <;>
      simp only [bind, Except.bind, pure, Except.pure, reduceCtorEq] at h
    split_ifs at h
    exact (Except.ok.inj h).symm
  exact ⟨hx, hx ▸ h⟩

theorem IsBatch.ne_nil (h : IsBatch crc bs) : bs ≠ [] := by
  rintro rfl
  exact absurd (isBatch_iff.1 h).1 (by decide)

/-- The length field of a batch is inside its header, so two batches at
the start of one string have one length. -/
theorem isBatch_selfDelimiting (crc : List UInt8 → ℕ) : Framing.SelfDelimiting (IsBatch crc) := by
  intro x y s hx hy hxs hys
  obtain ⟨hxl, -, hxd, -⟩ := isBatch_iff.1 hx
  obtain ⟨hyl, -, hyd, -⟩ := isBatch_iff.1 hy
  have hfield : batchLength x = batchLength y := by
    unfold batchLength readI32
    unfold recordBatchOverhead at hxl hyl
    unfold lengthOffset
    rw [← field_of_begins hxs (by omega), ← field_of_begins hys (by omega)]
  have hlen : x.length = y.length := by omega
  exact (prefix_of_prefix_length_le hxs hys hlen.le).eq_of_length hlen

-- ==== stamping

variable {base epoch : ℤ}

section

variable (hlen : recordBatchOverhead ≤ bs.length)
include hlen

theorem stamp_drop : (stamp bs base epoch).drop magicOffset = bs.drop magicOffset := by
  have hfront : (toBe 8 (pattern 64 base) ++ field bs lengthOffset 4
      ++ toBe 4 (pattern 32 epoch)).length = magicOffset := by
    unfold recordBatchOverhead at hlen
    simp only [length_append, toBe_length, field, length_take,
      length_drop, lengthOffset, magicOffset]
    omega
  rw [stamp, ← hfront, drop_left]

theorem stamp_length : (stamp bs base epoch).length = bs.length := by
  unfold recordBatchOverhead at hlen
  simp only [stamp, length_append, toBe_length, field,
    length_take, length_drop, lengthOffset, magicOffset]
  omega

/-- Everything from the magic byte on reads as before. -/
theorem field_stamp {at_ : ℕ} (hat : magicOffset ≤ at_) (len : ℕ) :
    field (stamp bs base epoch) at_ len = field bs at_ len := by
  have hsplit : at_ = magicOffset + (at_ - magicOffset) := by omega
  rw [field, field, hsplit, ← drop_drop, ← drop_drop, stamp_drop hlen]

theorem batchLength_stamp : batchLength (stamp bs base epoch) = batchLength bs := by
  have hfour : (field bs lengthOffset 4).length = 4 := by
    unfold recordBatchOverhead at hlen
    simp only [field, length_take, length_drop, lengthOffset]
    omega
  have hfield : field (stamp bs base epoch) lengthOffset 4
      = field bs lengthOffset 4 := by
    have hdrop : (stamp bs base epoch).drop lengthOffset
        = field bs lengthOffset 4 ++ (toBe 4 (pattern 32 epoch) ++ bs.drop magicOffset) := by
      rw [stamp, append_assoc, append_assoc]
      exact drop_left' (toBe_length 8 _)
    rw [field, hdrop]
    exact take_left' hfour
  rw [batchLength, batchLength, readI32, readI32, hfield]

end

/-- Stamping a batch leaves a batch. -/
theorem isBatch_stamp (h : IsBatch crc bs) : IsBatch crc (stamp bs base epoch) := by
  obtain ⟨hlen, hmagic, hdecl, hdelta, hcount, hcrc⟩ := isBatch_iff.1 h
  have hattr : (stamp bs base epoch).drop attributesOffset
      = bs.drop attributesOffset := by
    have hsplit : attributesOffset = magicOffset + 5 := rfl
    rw [hsplit, ← drop_drop, ← drop_drop, stamp_drop hlen]
  refine isBatch_iff.2 ⟨?_, ?_, ?_, ?_, ?_, ?_⟩
  · rw [stamp_length hlen]
    exact hlen
  · rw [magic, field_stamp hlen le_rfl]
    exact hmagic
  · rw [batchLength_stamp hlen, stamp_length hlen]
    exact hdecl
  · rw [lastOffsetDelta, readI32, field_stamp hlen (by decide)]
    exact hdelta
  · rw [recordCount, readI32, field_stamp hlen (by decide)]
    exact hcount
  · rw [storedCrc, field_stamp hlen (by decide), hattr]
    exact hcrc

/-- A stamped batch carries the offset it was stamped with. -/
theorem baseOffset_stamp (h0 : 0 ≤ base) (h1 : base < 2 ^ 63) :
    baseOffset (stamp bs base epoch) = base := by
  have hfield : field (stamp bs base epoch) baseOffsetOffset 8
      = toBe 8 (pattern 64 base) := by
    rw [field, stamp, append_assoc, append_assoc]
    exact take_left' (toBe_length 8 _)
  have hpat : pattern 64 base = base.toNat := by
    unfold pattern
    rw [Int.emod_eq_of_lt h0 (by omega)]
  rw [baseOffset, readI64, hfield, hpat, fromBe_toBe_of_lt (by omega), signed]
  split_ifs <;> omega

theorem lastOffsetDelta_stamp (h : IsBatch crc bs) :
    lastOffsetDelta (stamp bs base epoch) = lastOffsetDelta bs := by
  rw [lastOffsetDelta, lastOffsetDelta, readI32, readI32,
    field_stamp (isBatch_iff.1 h).1 (by decide)]

end Kafgres.Codec
